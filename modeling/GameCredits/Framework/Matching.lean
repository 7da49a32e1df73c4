import Mathlib.Data.List.Forall2
import Mathlib.Order.Fin.Basic

/-!
# Matching in order

A list is matched in another one when each of its elements is related to one of the other's, in the
same order (`List.SublistForall₂`): when there is a strictly increasing assignment of positions
(`sublistForall₂_iff_strictMono`). To look for the first partner of each element, and to give up when
fewer elements are left than are needed, finds a matching whenever there is one
(`greedyMatch_iff`).
-/

namespace GC.Framework

open List (SublistForall₂)

section

variable {α β : Type} {R : α → β → Prop} {a : α} {as : List α} {bs : List β}

theorem sublistForall₂_tail (h : SublistForall₂ R (a :: as) bs) : SublistForall₂ R as bs.tail := by
  induction bs with
  | nil => cases h
  | cons b bs ih =>
    cases h with
    | cons _ h => exact h
    | cons_right h =>
      have := ih h
      cases bs with
      | nil => cases h
      | cons => exact .cons_right this

theorem sublistForall₂_length (h : SublistForall₂ R as bs) : as.length ≤ bs.length := by
  obtain ⟨l, hl, hsub⟩ := List.sublistForall₂_iff.mp h
  rw [hl.length_eq]
  exact hsub.length_le

theorem sublistForall₂_reverse (h : SublistForall₂ R as bs) :
    SublistForall₂ R as.reverse bs.reverse := by
  obtain ⟨l, hl, hsub⟩ := List.sublistForall₂_iff.mp h
  exact List.sublistForall₂_iff.mpr ⟨l.reverse, List.forall₂_reverse_iff.mpr hl, hsub.reverse⟩

theorem sublistForall₂_reverse_iff :
    SublistForall₂ R as.reverse bs.reverse ↔ SublistForall₂ R as bs := by
  refine ⟨fun h => ?_, sublistForall₂_reverse⟩
  have := sublistForall₂_reverse h
  rwa [List.reverse_reverse, List.reverse_reverse] at this

theorem strictMono_of_sublistForall₂ (h : SublistForall₂ R as bs) :
    ∃ f : Fin as.length → Fin bs.length, StrictMono f ∧ ∀ i, R (as.get i) (bs.get (f i)) := by
  induction h with
  | nil => exact ⟨Fin.elim0, fun i => i.elim0, fun i => i.elim0⟩
  | cons hR _ ih =>
    obtain ⟨f, hf, hrel⟩ := ih
    refine ⟨Fin.cases 0 fun i => (f i).succ, fun i j hij => ?_, fun i => ?_⟩
    · induction i using Fin.cases with
      | zero =>
        induction j using Fin.cases with
        | zero => exact absurd hij (lt_irrefl _)
        | succ j => exact Fin.succ_pos _
      | succ i =>
        induction j using Fin.cases with
        | zero => exact absurd hij (Fin.not_lt_zero _)
        | succ j => exact Fin.succ_lt_succ_iff.mpr (hf (Fin.succ_lt_succ_iff.mp hij))
    · induction i using Fin.cases with
      | zero => exact hR
      | succ i => exact hrel i
  | cons_right _ ih =>
    obtain ⟨f, hf, hrel⟩ := ih
    exact ⟨fun i => (f i).succ, fun i j hij => Fin.succ_lt_succ_iff.mpr (hf hij), hrel⟩

theorem sublistForall₂_of_strictMono {f : Fin as.length → Fin bs.length} (hf : StrictMono f)
    (hrel : ∀ i, R (as.get i) (bs.get (f i))) : SublistForall₂ R as bs := by
  induction bs generalizing as with
  | nil =>
    cases as with
    | nil => exact .nil
    | cons a as => exact (f ⟨0, Nat.succ_pos _⟩).elim0
  | cons b bs ih =>
    cases as with
    | nil => exact .nil
    | cons a as =>
      by_cases h0 : f 0 = 0
      · -- the first elements are partners, and the others have theirs among the others
        have hne : ∀ i : Fin as.length, f i.succ ≠ 0 := fun i =>
          (((Fin.zero_le _).trans_lt (hf (Fin.succ_pos i)))).ne'
        refine .cons ?_ (ih (f := fun i => (f i.succ).pred (hne i)) (fun i j hij => ?_) fun i => ?_)
        · have := hrel 0
          rwa [h0] at this
        · exact Fin.pred_lt_pred_iff.mpr (hf (Fin.succ_lt_succ_iff.mpr hij))
        · have := hrel i.succ
          rwa [← Fin.succ_pred (f i.succ) (hne i)] at this
      · have hne : ∀ i, f i ≠ 0 := fun i h => h0 (Fin.le_zero_iff.mp
          ((hf.monotone (Fin.zero_le i)).trans (le_of_eq h)))
        refine .cons_right (ih (f := fun i => (f i).pred (hne i)) (fun i j hij => ?_) fun i => ?_)
        · exact Fin.pred_lt_pred_iff.mpr (hf hij)
        · have := hrel i
          rwa [← Fin.succ_pred (f i) (hne i)] at this

theorem sublistForall₂_iff_strictMono : SublistForall₂ R as bs ↔
    ∃ f : Fin as.length → Fin bs.length, StrictMono f ∧ ∀ i, R (as.get i) (bs.get (f i)) :=
  ⟨strictMono_of_sublistForall₂, fun ⟨_, hf, hrel⟩ => sublistForall₂_of_strictMono hf hrel⟩

end

section

variable {α β : Type} {R : α → β → Bool}

/-- The first partner of each element, in order; gives up when fewer elements are left than are
needed. -/
def greedyMatch (R : α → β → Bool) : List α → List β → Bool
  | [], _ => true
  | _ :: _, [] => false
  | a :: as, b :: bs =>
    if R a b then greedyMatch R as bs
    else if bs.length < (a :: as).length then false
    else greedyMatch R (a :: as) bs

/-- A matching that leaves the first partner out can be changed to one that uses it. -/
theorem greedyMatch_iff {as : List α} {bs : List β} :
    greedyMatch R as bs = true ↔ SublistForall₂ (fun a b => R a b = true) as bs := by
  induction bs generalizing as with
  | nil =>
    cases as with
    | nil => exact iff_of_true rfl .nil
    | cons a as => exact iff_of_false Bool.false_ne_true fun h => by cases h
  | cons b bs ih =>
    cases as with
    | nil => exact iff_of_true (by rw [greedyMatch]) .nil
    | cons a as =>
      rw [greedyMatch]
      split_ifs with hR hlen
      · rw [ih]
        exact ⟨.cons hR, sublistForall₂_tail⟩
      · refine iff_of_false id fun h => ?_
        cases h with
        | cons h _ => exact hR h
        | cons_right h => exact absurd (sublistForall₂_length h) (Nat.not_le.mpr hlen)
      · rw [ih]
        refine ⟨.cons_right, fun h => ?_⟩
        cases h with
        | cons h _ => exact absurd h hR
        | cons_right h => exact h

end

end GC.Framework
