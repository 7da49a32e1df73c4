import Mathlib.Algebra.Order.BigOperators.Group.List
import Mathlib.Algebra.Ring.Int.Defs

/-!
# Subsets as flags

The elements of a list that have a flag. Changing a flag changes a sum over these by the element
(`sum_pick_set`), and their sum is at most that of the list (`sum_pick_le`).

`swap` exchanges two elements of a list, as a shuffle does (`shuffle_perm`).
-/

namespace GC.Framework.Subset

variable {α : Type}

/-- The elements with a flag. -/
def pick : List α → List Bool → List α
  | a :: as, flag :: flags => if flag then a :: pick as flags else pick as flags
  | _, _ => []

theorem pick_sublist (as : List α) (flags : List Bool) : (pick as flags).Sublist as := by
  induction as generalizing flags with
  | nil => cases flags <;> exact .slnil
  | cons a as ih =>
    rcases flags with _ | ⟨_ | _, flags⟩
    · exact List.nil_sublist _
    · exact (ih flags).cons a
    · exact (ih flags).cons_cons a

theorem pick_all (as : List α) : pick as (List.replicate as.length true) = as := by
  induction as with
  | nil => rfl
  | cons a as ih => exact congrArg (a :: ·) ih

theorem pick_none (as : List α) : pick as (List.replicate as.length false) = [] := by
  induction as with
  | nil => rfl
  | cons a as ih => exact ih

theorem map_pick {β : Type} (f : α → β) (as : List α) (flags : List Bool) :
    (pick as flags).map f = pick (as.map f) flags := by
  induction as generalizing flags with
  | nil => rfl
  | cons a as ih =>
    rcases flags with _ | ⟨_ | _, flags⟩
    · rfl
    · exact ih flags
    · exact congrArg (f a :: ·) (ih flags)

/-- A flag that is set adds its element to the sum. -/
theorem sum_pick_set {M : Type} [AddCommMonoid M] {as : List M} {flags : List Bool} {i : Nat} {a : M}
    (ha : as[i]? = some a) (hflag : flags[i]? = some false) :
    (pick as (flags.set i true)).sum = (pick as flags).sum + a := by
  induction as generalizing flags i with
  | nil => cases ha
  | cons b as ih =>
    rcases flags with _ | ⟨flag, flags⟩
    · cases hflag
    · cases i with
      | zero =>
        cases ha
        cases hflag
        exact add_comm _ _
      | succ i =>
        have hrest := @ih flags i ha hflag
        cases flag with
        | false => exact hrest
        | true =>
          show b + (pick as (flags.set i true)).sum = b + (pick as flags).sum + a
          rw [hrest, add_assoc]

theorem sum_pick_le {as : List Int} (h : ∀ a ∈ as, 0 ≤ a) (flags : List Bool) :
    (pick as flags).sum ≤ as.sum :=
  (pick_sublist as flags).sum_le_sum h

/-- The elements at `i` and `j` are exchanged. -/
def swap (v : List α) (i j : Nat) : List α :=
  match v[i]?, v[j]? with
  | some a, some b => (v.set i b).set j a
  | _, _ => v

theorem swap_perm (v : List α) (i j : Nat) : (swap v i j).Perm v := by
  unfold swap
  split
  · rename_i a b ha hb
    obtain ⟨hi, rfl⟩ := List.getElem?_eq_some_iff.mp ha
    obtain ⟨hj, rfl⟩ := List.getElem?_eq_some_iff.mp hb
    exact List.set_set_perm hi hj
  · exact .refl _

/-- Every element from the second on is exchanged with one up to it. -/
def shuffle (rnd : Nat → Nat) (v : List α) : List α :=
  (List.range' 1 (v.length - 1)).foldl (fun v i => swap v i (rnd i % (i + 1))) v

theorem shuffle_perm (rnd : Nat → Nat) (v : List α) : (shuffle rnd v).Perm v := by
  have hfold : ∀ (is : List Nat) (w : List α),
      (is.foldl (fun v i => swap v i (rnd i % (i + 1))) w).Perm w := by
    intro is
    induction is with
    | nil => exact fun w => .refl w
    | cons i is ih => exact fun w => (ih _).trans (swap_perm w i _)
  exact hfold _ v

end GC.Framework.Subset
