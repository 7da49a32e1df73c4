import Mathlib.Data.List.Basic
import Mathlib.Data.List.Sort
import Mathlib.Order.Defs.LinearOrder
import Mathlib.Tactic.Linarith

/-!
# The element of a rank

The element at place `k` of a sorted list, compared with a bound, is a matter of how many elements
satisfy the bound (`getElem_le_iff`, `lt_getElem_iff`). The one in the middle of an odd number of
elements is where most of them are (`Most`, `middle_le_iff`, `lt_middle_iff`). The middle of a window
that slides over a growing list never goes down as long as each new element is above it
(`middle_le_push`).
-/

namespace GC.Framework.Ranked

variable {α : Type} {l : List α}

/-- More than half of the elements. -/
def Most (p : α → Prop) [DecidablePred p] (l : List α) : Prop := l.length < 2 * l.countP fun x => p x

instance (p : α → Prop) [DecidablePred p] (l : List α) : Decidable (Most p l) :=
  inferInstanceAs (Decidable (_ < _))

theorem Most.mono {p q : α → Prop} [DecidablePred p] [DecidablePred q] (h : Most p l)
    (himp : ∀ x ∈ l, p x → q x) : Most q l := by
  have hle : (l.countP fun x => p x) ≤ l.countP fun x => q x :=
    List.countP_mono_left fun x hx hp => by simpa using himp x hx (by simpa using hp)
  unfold Most at h ⊢
  omega

theorem Most.perm {p : α → Prop} [DecidablePred p] {l' : List α} (h : l.Perm l') :
    Most p l ↔ Most p l' := by
  rw [Most, Most, h.length_eq, h.countP_eq]

theorem countP_take_add_drop (p : α → Bool) (l : List α) (k : Nat) :
    (l.take k).countP p + (l.drop k).countP p = l.countP p := by
  rw [← List.countP_append, List.take_append_drop]

/-! ## Sorted lists -/

variable [LinearOrder α] {a b : α} {k : Nat}

abbrev Sorted (l : List α) : Prop := l.Pairwise (· ≤ ·)

/-- A property that passes to smaller elements holds at a place when it holds often enough. -/
theorem getElem_lower_iff {p : α → Prop} [DecidablePred p] (hlower : ∀ {x y : α}, x ≤ y → p y → p x)
    (h : Sorted l) (hk : k < l.length) : p l[k] ↔ k < l.countP fun x => p x := by
  have hsplit := countP_take_add_drop (fun x => decide (p x)) l k
  have htake : (l.take k).length = k := by
    rw [List.length_take]
    omega
  have hdrop : l.drop k = l[k] :: l.drop (k + 1) := List.drop_eq_getElem_cons hk
  have hrest : Sorted (l.drop k) := h.sublist (List.drop_sublist _ _)
  constructor
  · intro hp
    -- the elements up to there have it
    have hall : (l.take k).countP (fun x => p x) = k := by
      refine (List.countP_eq_length.mpr fun x hx => ?_).trans htake
      rw [← List.take_append_drop k l, hdrop] at h
      have := (List.pairwise_append.mp h).2.2 x hx l[k] List.mem_cons_self
      exact decide_eq_true (hlower this hp)
    have hhead : 0 < (l.drop k).countP fun x => p x := by
      rw [hdrop]
      exact List.countP_pos_iff.mpr ⟨l[k], List.mem_cons_self, decide_eq_true hp⟩
    omega
  · intro hlt
    by_contra hnot
    -- none from there on has it
    have hnone : (l.drop k).countP (fun x => p x) = 0 := by
      refine List.countP_eq_zero.mpr fun x hx => ?_
      rw [hdrop] at hx hrest
      rcases List.mem_cons.mp hx with rfl | hx
      · simpa using hnot
      · have hle := (List.pairwise_cons.mp hrest).1 x hx
        simpa using fun hx => hnot (hlower hle hx)
    have := List.countP_le_length (p := fun x => decide (p x)) (l := l.take k)
    omega

theorem getElem_le_iff (h : Sorted l) (hk : k < l.length) :
    l[k] ≤ b ↔ k < l.countP fun x => x ≤ b :=
  getElem_lower_iff (fun hxy hy => le_trans hxy hy) h hk

theorem getElem_lt_iff (h : Sorted l) (hk : k < l.length) :
    l[k] < b ↔ k < l.countP fun x => x < b :=
  getElem_lower_iff (fun hxy hy => lt_of_le_of_lt hxy hy) h hk

theorem lt_getElem_iff (h : Sorted l) (hk : k < l.length) :
    a < l[k] ↔ l.length ≤ (l.countP fun x => a < x) + k := by
  have hcount : l.length = (l.countP fun x => x ≤ a) + l.countP fun x => a < x := by
    rw [List.length_eq_countP_add_countP (fun x => decide (x ≤ a))]
    congr 1
    exact List.countP_congr fun x _ => by simp
  rw [← not_le, getElem_le_iff h hk]
  omega

theorem le_getElem_iff (h : Sorted l) (hk : k < l.length) :
    a ≤ l[k] ↔ l.length ≤ (l.countP fun x => a ≤ x) + k := by
  have hcount : l.length = (l.countP fun x => x < a) + l.countP fun x => a ≤ x := by
    rw [List.length_eq_countP_add_countP (fun x => decide (x < a))]
    congr 1
    exact List.countP_congr fun x _ => by simp
  rw [← not_lt, getElem_lt_iff h hk]
  omega

theorem middle_le_iff (h : Sorted l) (hodd : l.length % 2 = 1) (hk : l.length / 2 < l.length) :
    l[l.length / 2] ≤ b ↔ Most (· ≤ b) l := by
  rw [getElem_le_iff h hk, Most]
  omega

theorem lt_middle_iff (h : Sorted l) (hodd : l.length % 2 = 1) (hk : l.length / 2 < l.length) :
    a < l[l.length / 2] ↔ Most (a < ·) l := by
  rw [lt_getElem_iff h hk, Most]
  omega

/-! ## The middle of a window -/

/-- The element in the middle of a list, once sorted. -/
def middle (d : α) (l : List α) : α :=
  let sorted := l.insertionSort (· ≤ ·)
  sorted.getD (sorted.length / 2) d

variable {d x : α} {w : Nat}

theorem le_middle_iff (h : l ≠ []) :
    a ≤ middle d l ↔ l.length ≤ (l.countP fun x => a ≤ x) + l.length / 2 := by
  have hperm := List.perm_insertionSort (· ≤ ·) l
  have hpos : 0 < l.length := List.length_pos_iff.mpr h
  have hk : (l.insertionSort (· ≤ ·)).length / 2 < (l.insertionSort (· ≤ ·)).length := by
    rw [hperm.length_eq]
    omega
  rw [middle, List.getD_eq_getElem?_getD, List.getElem?_eq_getElem hk, Option.getD_some,
    le_getElem_iff (List.pairwise_insertionSort _ l) hk, hperm.length_eq, hperm.countP_eq]

/-- The middle of the last `w` elements does not go down when one above it is added, whichever
element leaves the window for it. -/
theorem middle_le_push (hw : 0 < w) (hl : l ≠ []) (hx : middle d (l.take w) ≤ x) :
    middle d (l.take w) ≤ middle d ((x :: l).take w) := by
  obtain ⟨w, rfl⟩ : ∃ n, w = n + 1 := ⟨w - 1, by omega⟩
  rw [List.take_succ_cons]
  generalize hm : middle d (l.take (w + 1)) = m at hx
  have hpos : 0 < l.length := List.length_pos_iff.mpr hl
  have hold : l.take (w + 1) ≠ [] := by
    rw [← List.length_pos_iff, List.length_take]
    omega
  have hcount := (le_middle_iff (d := d) hold).mp hm.ge
  rw [le_middle_iff (List.cons_ne_nil _ _), List.length_cons,
    List.countP_cons_of_pos (p := fun y => decide (m ≤ y)) (decide_eq_true hx)]
  -- only the oldest element can leave
  have hleave : ((l.take (w + 1)).countP fun y => m ≤ y) ≤
      ((l.take w).countP fun y => m ≤ y) + ((l.take (w + 1)).length - (l.take w).length) := by
    have hsplit := countP_take_add_drop (fun y => decide (m ≤ y)) (l.take (w + 1)) w
    have hlast := List.countP_le_length (p := fun y => decide (m ≤ y)) (l := (l.take (w + 1)).drop w)
    rw [List.take_take, Nat.min_eq_left (Nat.le_succ w)] at hsplit
    rw [List.length_drop] at hlast
    rw [List.length_take, List.length_take] at *
    omega
  rw [List.length_take, List.length_take] at *
  omega

end GC.Framework.Ranked
