import Mathlib.Data.List.Basic
import Mathlib.Data.List.Nodup

/-!
# Indexes

The keys that a store has are listed under what they refer to, in an index that may go on listing keys
that have been erased (`IsIndex`). A key that the store has is listed under `o` exactly if it refers to
`o` (`IsIndex.mem_iff`), so that looking listed keys up finds what refers to `o` (`IsIndex.any_iff`), and
two different keys are listed together exactly if they refer to something in common
(`IsIndex.shared_iff`).
-/

namespace GC.Framework

variable {κ ο : Type}

/-- What a key refers to is `R`, and does not change; `has` are the keys in the store. -/
structure IsIndex (R : κ → ο → Prop) (has : κ → Prop) (index : ο → List κ) : Prop where
  sound : ∀ o, ∀ k ∈ index o, R k o
  complete : ∀ k, has k → ∀ o, R k o → k ∈ index o

namespace IsIndex

variable {R : κ → ο → Prop} {has has' : κ → Prop} {index index' : ο → List κ} {k l : κ} {o : ο}

theorem nil (h : ∀ k, ¬has k) : IsIndex R has fun _ => [] where
  sound _ _ hk := absurd hk List.not_mem_nil
  complete k hk := absurd hk (h k)

/-- Keys may be erased from the store. -/
theorem erase (h : IsIndex R has index) (hsub : ∀ k, has' k → has k) : IsIndex R has' index where
  sound := h.sound
  complete k hk := h.complete k (hsub k hk)

/-- A key is put into the store when it has been listed under all that it refers to, and under nothing
else. -/
theorem add (h : IsIndex R has index) (hhas : ∀ l, has' l → l = k ∨ has l)
    (hindex : ∀ o l, l ∈ index' o ↔ l ∈ index o ∨ l = k ∧ R k o) : IsIndex R has' index' where
  sound o l hl := by
    rcases (hindex o l).mp hl with hl | ⟨rfl, hR⟩
    · exact h.sound o l hl
    · exact hR
  complete l hl o hR := by
    rcases hhas l hl with rfl | hl
    · exact (hindex o l).mpr (.inr ⟨rfl, hR⟩)
    · exact (hindex o l).mpr (.inl (h.complete l hl o hR))

/-- Of the listed keys those that the store has are the ones that refer to `o`. -/
theorem any_iff (h : IsIndex R has index) {P : κ → Prop} :
    (∃ k ∈ index o, has k ∧ P k) ↔ ∃ k, has k ∧ P k ∧ R k o :=
  ⟨fun ⟨k, hk, hhas, hP⟩ => ⟨k, hhas, hP, h.sound o k hk⟩,
    fun ⟨k, hhas, hP, hR⟩ => ⟨k, h.complete k hhas o hR, hhas, hP⟩⟩

/-- Two keys are listed together, under something that more than one key is listed under. -/
theorem shared_iff (h : IsIndex R has index) (hk : has k) (hl : has l) (hne : k ≠ l) :
    (∃ o, R k o ∧ 1 < (index o).length ∧ l ∈ index o) ↔ ∃ o, R k o ∧ R l o := by
  constructor
  · rintro ⟨o, hR, -, hmem⟩
    exact ⟨o, hR, h.sound o l hmem⟩
  · rintro ⟨o, hR, hR'⟩
    have hmem := h.complete k hk o hR
    have hmem' := h.complete l hl o hR'
    refine ⟨o, hR, ?_, hmem'⟩
    by_contra hle
    match hindex : index o, hmem, hmem', hle with
    | [m], hmem, hmem', _ =>
      exact hne ((List.mem_singleton.mp hmem).trans (List.mem_singleton.mp hmem').symm)
    | _ :: _ :: _, _, _, hle => exact hle (by simp)

end IsIndex

end GC.Framework
