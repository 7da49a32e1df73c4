import Mathlib.Data.List.Perm.Basic
import Mathlib.Order.Defs.LinearOrder
import Mathlib.Order.Lattice
import Mathlib.Tactic.SplitIfs

/-!
# Multimaps and heaps

A `std::multimap` is the list of its elements, sorted by their keys. An element is inserted after those
of its key that are there (`insert`), so that elements of one key stay in the order of insertion.

What `std::make_heap`, `std::pop_heap` and `std::push_heap` are used for, with the comparison `less`: to
have an element in front that is less than no other. The order of the others is not specified; here they
stay in the order in which they are.
-/

namespace GC.Framework.Multimap

variable {κ α : Type} [LinearOrder κ] (key : α → κ)

/-- Inserts an element, at the end of those with its key. -/
def insert (x : α) : List α → List α
  | [] => [x]
  | y :: l => if key x < key y then x :: y :: l else y :: insert x l

abbrev Sorted (l : List α) : Prop := l.Pairwise fun x y => key x ≤ key y

variable {key} {x y : α} {l : List α}

theorem insert_perm (x : α) (l : List α) : (insert key x l).Perm (x :: l) := by
  induction l with
  | nil => exact .refl _
  | cons y l ih =>
    rw [insert]
    split_ifs
    · exact .refl _
    · exact (ih.cons y).trans (.swap x y l)

theorem sorted_insert (h : Sorted key l) : Sorted key (insert key x l) := by
  induction l with
  | nil => exact List.pairwise_singleton _ _
  | cons y l ih =>
    obtain ⟨hy, hl⟩ := List.pairwise_cons.mp h
    rw [insert]
    split_ifs with hlt
    · refine List.pairwise_cons.mpr ⟨fun z hz => ?_, h⟩
      rcases List.mem_cons.mp hz with rfl | hz
      · exact le_of_lt hlt
      · exact le_trans (le_of_lt hlt) (hy z hz)
    · refine List.pairwise_cons.mpr ⟨fun z hz => ?_, ih hl⟩
      rcases List.mem_cons.mp ((insert_perm x l).mem_iff.mp hz) with rfl | hz
      · exact le_of_not_gt hlt
      · exact hy z hz

theorem foldl_insert_perm (l items : List α) :
    (l.foldl (fun items x => insert key x items) items).Perm (items ++ l) := by
  induction l generalizing items with
  | nil => rw [List.append_nil]; exact .refl _
  | cons x l ih =>
    refine (ih _).trans (((insert_perm x items).append_right l).trans ?_)
    exact List.perm_middle.symm

theorem sorted_foldl_insert (l : List α) {items : List α} (h : Sorted key items) :
    Sorted key (l.foldl (fun items x => insert key x items) items) := by
  induction l generalizing items with
  | nil => exact h
  | cons x l ih => exact ih (sorted_insert h)

end GC.Framework.Multimap

namespace GC.Framework.Heap

variable {α : Type} (less : α → α → Bool)

/-- `std::make_heap`. -/
def makeHeap : List α → List α
  | [] => []
  | a :: v =>
    match makeHeap v with
    | [] => [a]
    | b :: v => if less a b then b :: a :: v else a :: b :: v

/-- `std::pop_heap` and `pop_back`, on a heap with something in front of `v`. -/
def popHeap (v : List α) : List α := makeHeap less v

/-- `push_back` and `std::push_heap`. -/
def pushHeap (v : List α) (a : α) : List α := makeHeap less (v ++ [a])

theorem makeHeap_perm (v : List α) : (makeHeap less v).Perm v := by
  induction v with
  | nil => exact .nil
  | cons a v ih =>
    rw [makeHeap]
    cases hv : makeHeap less v with
    | nil => rw [hv] at ih; exact ih.cons a
    | cons b w =>
      rw [hv] at ih
      show List.Perm (if less a b then b :: a :: w else a :: b :: w) (a :: v)
      split_ifs
      · exact (List.Perm.swap a b w).trans (ih.cons a)
      · exact ih.cons a

theorem popHeap_perm (v : List α) : (popHeap less v).Perm v := makeHeap_perm less v

theorem pushHeap_perm (v : List α) (a : α) : (pushHeap less v a).Perm (a :: v) :=
  (makeHeap_perm less _).trans (List.perm_append_singleton a v)

end GC.Framework.Heap
