import Mathlib.Data.List.Pairwise
import Mathlib.Order.Nat

/-!
# Ranges given out at the end of files

Ranges of bytes are given out at the end of what is in use of a file, below a ceiling; a file that is
closed is not used any more. Holders have such ranges, and ranges that were there before. In a store
that is `Appended` what is given out is apart from what was given out before and from what is held:

* `Appended.give`: a range is given out at the end of an open file;
* `Appended.take`: a holder has a range that has been given out;
* `Appended.adopt`: a holder has a range that was there, while nothing has been given out;
* `Appended.change`: files are closed, and holders lose their ranges.
-/

namespace GC.Framework

/-- A range of bytes in a file. -/
structure Extent where
  file : Nat
  start : Nat
  length : Nat
  deriving DecidableEq, Repr

namespace Extent

def stop (e : Extent) : Nat := e.start + e.length

/-- No byte is in both. -/
def Apart (e f : Extent) : Prop := e.file = f.file → min e.stop f.stop ≤ max e.start f.start

instance (e f : Extent) : Decidable (e.Apart f) := inferInstanceAs (Decidable (_ → _))

variable {e f : Extent}

theorem Apart.symm (h : e.Apart f) : f.Apart e := fun hfile => by
  have := h hfile.symm
  omega

instance : Std.Symm Extent.Apart where
  symm _ _ h := h.symm

theorem apart_of_stop_le (h : e.file = f.file → f.stop ≤ e.start) : e.Apart f := fun hfile => by
  have := h hfile
  omega

end Extent

variable {κ : Type}

/-- The ranges `given` out, and those that are `held`. -/
structure Appended (ceiling : Nat) (closed : Nat → Prop) (limit : Nat → Nat) (given : List Extent)
    (has : κ → Prop) (held : κ → Extent) : Prop where
  apart : given.Pairwise Extent.Apart
  under : ∀ e ∈ given, e.stop ≤ ceiling
  below : ∀ e ∈ given, ¬closed e.file → e.stop ≤ limit e.file
  held_open : ∀ k, has k → ¬closed (held k).file
  held_below : ∀ k, has k → (held k).stop ≤ limit (held k).file ∨ ceiling ≤ (held k).start
  held_apart : ∀ e ∈ given, ∀ k, has k → held k ≠ e → e.Apart (held k)

namespace Appended

variable {ceiling : Nat} {closed closed' : Nat → Prop} {limit limit' : Nat → Nat}
  {given : List Extent} {has has' : κ → Prop} {held held' : κ → Extent} {e : Extent} {k : κ}

theorem nil (h : ∀ k, ¬has k) : Appended ceiling closed limit [] has held where
  apart := .nil
  under _ he := absurd he List.not_mem_nil
  below _ he := absurd he List.not_mem_nil
  held_open k hk := absurd hk (h k)
  held_below k hk := absurd hk (h k)
  held_apart _ he := absurd he List.not_mem_nil

/-- Files are closed, those that are not do not shrink, and holders may lose what they have. -/
theorem change (h : Appended ceiling closed limit given has held)
    (hclosed : ∀ f, closed f → closed' f) (hlimit : ∀ f, ¬closed' f → limit f ≤ limit' f)
    (hhas : ∀ k, has' k → has k ∧ held' k = held k ∧ ¬closed' (held k).file) :
    Appended ceiling closed' limit' given has' held' where
  apart := h.apart
  under := h.under
  below e he hopen := le_trans (h.below e he fun hc => hopen (hclosed _ hc)) (hlimit _ hopen)
  held_open k hk := by
    obtain ⟨-, heq, hopen⟩ := hhas k hk
    rwa [heq]
  held_below k hk := by
    obtain ⟨hold, heq, hopen⟩ := hhas k hk
    rw [heq]
    exact (h.held_below k hold).imp_left fun hle => le_trans hle (hlimit _ hopen)
  held_apart e he k hk hne := by
    obtain ⟨hold, heq, -⟩ := hhas k hk
    rw [heq] at hne ⊢
    exact h.held_apart e he k hold hne

/-- The files that are not closed may grow. -/
theorem grow (h : Appended ceiling closed limit given has held)
    (hlimit : ∀ f, ¬closed f → limit f ≤ limit' f) : Appended ceiling closed limit' given has held :=
  h.change (fun _ hc => hc) hlimit fun k hk => ⟨hk, rfl, h.held_open k hk⟩

/-- A range is given out at the end of a file. -/
theorem give (h : Appended ceiling closed limit given has held) (limit' : Nat → Nat)
    (hopen : ¬closed e.file) (hstart : e.start = limit e.file) (hstop : e.stop ≤ ceiling)
    (hlimit : e.stop ≤ limit' e.file)
    (hrest : ∀ f, ¬closed f → limit f ≤ limit' f) :
    Appended ceiling closed limit' (e :: given) has held where
  apart := List.pairwise_cons.mpr ⟨fun d hd => Extent.apart_of_stop_le fun hfile => by
    rw [hstart, hfile]
    exact h.below d hd (hfile ▸ hopen), h.apart⟩
  under := List.forall_mem_cons.mpr ⟨hstop, h.under⟩
  below := List.forall_mem_cons.mpr ⟨fun _ => hlimit, (h.grow hrest).below⟩
  held_open := h.held_open
  held_below := (h.grow hrest).held_below
  held_apart := by
    refine List.forall_mem_cons.mpr ⟨fun k hk _ => ?_, h.held_apart⟩
    rcases h.held_below k hk with hle | hle
    · exact Extent.apart_of_stop_le fun hfile => by
        rw [hstart, hfile]
        exact hle
    · exact (Extent.apart_of_stop_le fun _ => le_trans hstop hle).symm

/-- A holder has a range that has been given out in a file that is open. -/
theorem take (h : Appended ceiling closed limit given has held) (has' : κ → Prop) (he : e ∈ given)
    (hopen : ¬closed e.file) (hhas : ∀ l, has' l → held' l = e ∨ has l ∧ held' l = held l) :
    Appended ceiling closed limit given has' held' where
  apart := h.apart
  under := h.under
  below := h.below
  held_open l hl := by
    rcases hhas l hl with heq | ⟨hold, heq⟩
    · rwa [heq]
    · rw [heq]
      exact h.held_open l hold
  held_below l hl := by
    rcases hhas l hl with heq | ⟨hold, heq⟩
    · rw [heq]
      exact .inl (h.below e he hopen)
    · rw [heq]
      exact h.held_below l hold
  held_apart d hd l hl hne := by
    rcases hhas l hl with heq | ⟨hold, heq⟩
    · rw [heq] at hne ⊢
      exact h.apart.forall hd he hne.symm
    · rw [heq] at hne ⊢
      exact h.held_apart d hd l hold hne

/-- A holder has a range that was there. -/
theorem adopt (h : Appended ceiling closed limit [] has held) (hopen : ¬closed e.file)
    (hlimit : e.stop ≤ limit' e.file ∨ ceiling ≤ e.start)
    (hrest : ∀ f, ¬closed f → limit f ≤ limit' f)
    (hhas : ∀ l, has' l → held' l = e ∨ has l ∧ held' l = held l) :
    Appended ceiling closed limit' [] has' held' where
  apart := .nil
  under _ hd := absurd hd List.not_mem_nil
  below _ hd := absurd hd List.not_mem_nil
  held_open l hl := by
    rcases hhas l hl with heq | ⟨hold, heq⟩
    · rwa [heq]
    · rw [heq]
      exact h.held_open l hold
  held_below l hl := by
    rcases hhas l hl with heq | ⟨hold, heq⟩
    · rwa [heq]
    · rw [heq]
      exact (h.grow hrest).held_below l hold
  held_apart _ hd := absurd hd List.not_mem_nil

end Appended

end GC.Framework
