import GameCredits.Framework.Codec

/-!
# Frames of a byte stream

A `Framing` decides by the beginning of a stream whether a frame is complete there, whether the
stream is to be rejected, or whether more bytes are needed. `Splits s frames rest` says what a
stream `s` splits into: the frames, and the bytes of an incomplete one, or none when it is rejected.

* `Splits.unique`: what a stream splits into is determined by the stream.
* `Splits.append`: a stream that goes on is split from the incomplete frame.
-/

namespace GC.Framework

/-- What the beginning of a stream says: how many bytes the first frame has, and what it is. -/
inductive Decision (α : Type) where
  | more
  | reject
  | frame (a : α) (n : Nat)

/-- A decision about every stream, which later bytes do not change. -/
structure Framing (α : Type) where
  next : Bytes → Decision α
  size : ∀ {s a n}, next s = .frame a n → 0 < n ∧ n ≤ s.length
  frame_append : ∀ {s a n}, next s = .frame a n → ∀ t, next (s ++ t) = .frame a n
  reject_append : ∀ {s}, next s = .reject → ∀ t, next (s ++ t) = .reject

namespace Framing

variable {α : Type} (F : Framing α)

/-- What a stream splits into. -/
inductive Splits : Bytes → List α → Option Bytes → Prop
  | more {s} (h : F.next s = .more) : Splits s [] (some s)
  | reject {s} (h : F.next s = .reject) : Splits s [] none
  | frame {s a n frames rest} (h : F.next s = .frame a n) (hs : Splits (s.drop n) frames rest) :
      Splits s (a :: frames) rest

variable {F} {s t : Bytes} {frames frames' : List α} {rest rest' : Option Bytes}

/-- Every stream splits. -/
theorem exists_splits (F : Framing α) (s : Bytes) : ∃ frames rest, F.Splits s frames rest := by
  induction hlen : s.length using Nat.strong_induction_on generalizing s with
  | _ len ih =>
    cases h : F.next s with
    | more => exact ⟨[], some s, .more h⟩
    | reject => exact ⟨[], none, .reject h⟩
    | frame a n =>
      obtain ⟨hpos, hle⟩ := F.size h
      obtain ⟨frames, rest, hs⟩ := ih (s.drop n).length (by rw [List.length_drop]; omega) _ rfl
      exact ⟨a :: frames, rest, .frame h hs⟩

theorem Splits.unique (h : F.Splits s frames rest) (h' : F.Splits s frames' rest') :
    frames = frames' ∧ rest = rest' := by
  induction h generalizing frames' with
  | more hn =>
    cases h' with
    | more => exact ⟨rfl, rfl⟩
    | reject hn' => rw [hn] at hn'; cases hn'
    | frame hn' => rw [hn] at hn'; cases hn'
  | reject hn =>
    cases h' with
    | more hn' => rw [hn] at hn'; cases hn'
    | reject => exact ⟨rfl, rfl⟩
    | frame hn' => rw [hn] at hn'; cases hn'
  | frame hn _ ih =>
    cases h' with
    | more hn' => rw [hn] at hn'; cases hn'
    | reject hn' => rw [hn] at hn'; cases hn'
    | frame hn' hs' =>
      rw [hn] at hn'
      cases hn'
      obtain ⟨rfl, rfl⟩ := ih hs'
      exact ⟨rfl, rfl⟩

/-- A stream that goes on is split from the bytes of the incomplete frame. -/
theorem Splits.append {left : Bytes} (h : F.Splits s frames (some left))
    (h' : F.Splits (left ++ t) frames' rest') : F.Splits (s ++ t) (frames ++ frames') rest' := by
  generalize hrest : some left = rest at h
  induction h with
  | more hn => cases hrest; exact h'
  | reject hn => cases hrest
  | frame hn _ ih =>
    refine .frame (F.frame_append hn t) ?_
    rw [List.drop_append_of_le_length (F.size hn).2]
    exact ih hrest

/-- A rejected stream stays rejected. -/
theorem Splits.append_none (h : F.Splits s frames none) (t : Bytes) :
    F.Splits (s ++ t) frames none := by
  generalize hrest : none = rest at h
  induction h with
  | more hn => cases hrest
  | reject hn => exact .reject (F.reject_append hn t)
  | frame hn _ ih =>
    refine .frame (F.frame_append hn t) ?_
    rw [List.drop_append_of_le_length (F.size hn).2]
    exact ih hrest

/-! ## Encoded streams -/

/-- Frames encoded one after another split into themselves. -/
theorem splits_encoded {put : α → Bytes} {P : α → Prop}
    (hput : ∀ a, P a → F.next (put a) = .frame a (put a).length) (hnil : F.next [] = .more)
    {as : List α} (hP : ∀ a ∈ as, P a) : F.Splits (as.flatMap put) as (some []) := by
  induction as with
  | nil => exact .more hnil
  | cons a as ih =>
    rw [List.flatMap_cons]
    refine .frame (F.frame_append (hput a (hP a (List.mem_cons_self ..))) _) ?_
    rw [List.drop_left]
    exact ih fun b hb => hP b (List.mem_cons_of_mem _ hb)

/-- A beginning of encoded frames splits into the first of them, and is not rejected. -/
theorem Splits.of_prefix (h : F.Splits (s ++ t) frames (some [])) :
    ∃ frames₁ frames₂ left, F.Splits s frames₁ (some left) ∧ frames = frames₁ ++ frames₂ ∧
      F.Splits (left ++ t) frames₂ (some []) := by
  obtain ⟨frames₁, rest, hs⟩ := exists_splits F s
  cases rest with
  | none =>
    obtain ⟨-, hfalse⟩ := (hs.append_none t).unique h
    cases hfalse
  | some left =>
    obtain ⟨frames₂, rest₂, hs₂⟩ := exists_splits F (left ++ t)
    obtain ⟨rfl, rfl⟩ := h.unique (hs.append hs₂)
    exact ⟨frames₁, frames₂, left, hs, rfl, hs₂⟩

end Framing

end GC.Framework
