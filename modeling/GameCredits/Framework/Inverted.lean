import GameCredits.Framework.Assoc
import Mathlib.Data.Finset.Basic

/-!
# Inverted indexes

For records with several tags each, the index from a tag to the set of the records that have it: a map of
finite sets. `holds_insertAll` and `holds_eraseAll` say what the index holds after a record is entered
under its tags, which may repeat, or taken out; neither leaves an empty set behind.
-/

namespace GC.Framework.Inverted

open Assoc

variable {τ κ : Type} [DecidableEq τ] [DecidableEq κ]

/-- The index enters `k` under the tag `t`. -/
def Holds (index : Map τ (Finset κ)) (t : τ) (k : κ) : Prop := ∃ set, index.lookup t = some set ∧ k ∈ set

/-- No tag has an empty set. -/
def NoEmpty (index : Map τ (Finset κ)) : Prop := ∀ t set, index.lookup t = some set → set.Nonempty

/-- Enters `k` under a tag. -/
def insertAt (index : Map τ (Finset κ)) (k : κ) (t : τ) : Map τ (Finset κ) :=
  index.insert t (insert k ((index.lookup t).getD ∅))

/-- Takes `k` out from under a tag. -/
def eraseAt (index : Map τ (Finset κ)) (k : κ) (t : τ) : Map τ (Finset κ) :=
  match index.lookup t with
  | none => index
  | some set => if set.erase k = ∅ then index.erase t else index.insert t (set.erase k)

variable {index : Map τ (Finset κ)} {t u : τ} {j k : κ} {ts : List τ}

theorem holds_insertAt : Holds (insertAt index k t) u j ↔ Holds index u j ∨ u = t ∧ j = k := by
  unfold Holds insertAt
  rcases eq_or_ne u t with rfl | hne
  · cases hl : index.lookup u with
    | none => simp
    | some set => simp [or_comm]
  · simp [AList.lookup_insert_ne hne, hne]

theorem noEmpty_insertAt (h : NoEmpty index) : NoEmpty (insertAt index k t) := by
  intro u set hu
  rcases lookup_insert_iff.mp hu with ⟨-, rfl⟩ | ⟨-, hu⟩
  · exact Finset.insert_nonempty _ _
  · exact h u set hu

theorem holds_eraseAt : Holds (eraseAt index k t) u j ↔ Holds index u j ∧ ¬ (u = t ∧ j = k) := by
  unfold Holds eraseAt
  cases hl : index.lookup t with
  | none =>
    constructor
    · rintro ⟨set, hu, hj⟩
      exact ⟨⟨set, hu, hj⟩, fun h => by rw [h.1, hl] at hu; cases hu⟩
    · exact And.left
  | some set =>
    dsimp only
    rcases eq_or_ne u t with rfl | hne
    · have hmem : (j ∈ set ∧ ¬ j = k) ↔ j ∈ set.erase k := by rw [Finset.mem_erase, and_comm]
      rw [hl]
      split_ifs with hempty
      · simp only [AList.lookup_erase, Option.some.injEq, exists_eq_left', true_and]
        rw [hmem, hempty]
        simp
      · simp only [AList.lookup_insert, Option.some.injEq, exists_eq_left', true_and]
        exact hmem.symm
    · split_ifs with hempty
      · simp [AList.lookup_erase_ne hne, hne]
      · simp [AList.lookup_insert_ne hne, hne]

theorem noEmpty_eraseAt (h : NoEmpty index) : NoEmpty (eraseAt index k t) := by
  intro u set hu
  rw [eraseAt] at hu
  split at hu
  · exact h u set hu
  · split_ifs at hu with hempty
    · exact h u set (lookup_erase_iff.mp hu).2
    · rcases lookup_insert_iff.mp hu with ⟨-, rfl⟩ | ⟨-, hu⟩
      · exact Finset.nonempty_iff_ne_empty.mpr hempty
      · exact h u set hu

/-- Entering under several tags. -/
theorem holds_insertAll : Holds (ts.foldl (fun index t => insertAt index k t) index) u j ↔
    Holds index u j ∨ u ∈ ts ∧ j = k := by
  induction ts generalizing index with
  | nil => simp
  | cons t ts ih =>
    rw [List.foldl_cons, ih, holds_insertAt, List.mem_cons]
    tauto

theorem noEmpty_insertAll (h : NoEmpty index) :
    NoEmpty (ts.foldl (fun index t => insertAt index k t) index) := by
  induction ts generalizing index with
  | nil => exact h
  | cons t ts ih => exact ih (noEmpty_insertAt h)

/-- Taking out from under several tags. -/
theorem holds_eraseAll : Holds (ts.foldl (fun index t => eraseAt index k t) index) u j ↔
    Holds index u j ∧ ¬ (u ∈ ts ∧ j = k) := by
  induction ts generalizing index with
  | nil => simp
  | cons t ts ih =>
    rw [List.foldl_cons, ih, holds_eraseAt, List.mem_cons]
    tauto

theorem noEmpty_eraseAll (h : NoEmpty index) :
    NoEmpty (ts.foldl (fun index t => eraseAt index k t) index) := by
  induction ts generalizing index with
  | nil => exact h
  | cons t ts ih => exact ih (noEmpty_eraseAt h)

end GC.Framework.Inverted
