import Mathlib.Data.Finset.Dedup
import Mathlib.Logic.Function.Basic
import Mathlib.Data.List.Nodup

/-!
# Lists with back pointers

A list together with the position of each of its elements: `Indexed l pos` says that they agree.
Elements are put at the end, swapped, and taken off the end.
-/

namespace GC.Framework

variable {α : Type} {l : List α} {pos : α → Option Nat} {a b : α} {i j : Nat}

/-- `pos` has the position of each element of `l`, and nothing else. -/
def Indexed (l : List α) (pos : α → Option Nat) : Prop := ∀ i a, l[i]? = some a ↔ pos a = some i

namespace Indexed

theorem nil : Indexed ([] : List α) fun _ => none := fun _ _ =>
  ⟨fun h => (by cases h), fun h => (by cases h)⟩

theorem lt (h : Indexed l pos) (hpos : pos a = some i) : i < l.length :=
  (List.getElem?_eq_some_iff.mp ((h i a).mpr hpos)).1

theorem mem_iff (h : Indexed l pos) : a ∈ l ↔ ∃ i, pos a = some i := by
  rw [List.mem_iff_getElem?]
  exact exists_congr fun i => h i a

theorem nodup (h : Indexed l pos) : l.Nodup := by
  rw [List.nodup_iff_getElem?_ne_getElem?]
  intro i j hij hj heq
  have hi : l[i]? = some (l.get ⟨i, by omega⟩) := List.getElem?_eq_getElem _
  have h₁ := (h i _).mp hi
  have h₂ := (h j _).mp (heq ▸ hi)
  rw [h₁] at h₂
  exact absurd (Option.some.inj h₂) (Nat.ne_of_lt hij)

variable [DecidableEq α]

theorem push (h : Indexed l pos) (ha : pos a = none) :
    Indexed (l ++ [a]) (Function.update pos a (some l.length)) := by
  intro i b
  by_cases hb : b = a
  · subst hb
    rw [Function.update_self, Option.some_inj]
    constructor
    · intro hi
      by_cases hlt : i < l.length
      · rw [List.getElem?_append_left hlt, h i b, ha] at hi
        cases hi
      · have := (List.getElem?_eq_some_iff.mp hi).1
        rw [List.length_append, List.length_singleton] at this
        omega
    · rintro rfl
      exact List.getElem?_concat_length
  · rw [Function.update_of_ne hb, ← h i b]
    by_cases hlt : i < l.length
    · rw [List.getElem?_append_left hlt]
    · rw [List.getElem?_append_right (by omega), List.getElem?_eq_none (by omega : l.length ≤ i)]
      constructor
      · intro hi
        have := List.mem_of_getElem? hi
        exact (hb (List.mem_singleton.mp this)).elim
      · intro hi
        cases hi

theorem pop (h : Indexed (l ++ [a]) pos) : Indexed l (Function.update pos a none) := by
  have hlast : pos a = some l.length := (h _ _).mp List.getElem?_concat_length
  intro i b
  by_cases hb : b = a
  · subst hb
    rw [Function.update_self]
    refine ⟨fun hi => ?_, fun hi => (by cases hi)⟩
    have hlt := (List.getElem?_eq_some_iff.mp hi).1
    have := (h i b).mp (by rw [List.getElem?_append_left hlt, hi])
    rw [hlast] at this
    have := Option.some.inj this
    omega
  · rw [Function.update_of_ne hb, ← h i b]
    by_cases hlt : i < l.length
    · rw [List.getElem?_append_left hlt]
    · rw [List.getElem?_append_right (by omega), List.getElem?_eq_none (by omega : l.length ≤ i)]
      constructor
      · intro hi
        cases hi
      · intro hi
        exact (hb (List.mem_singleton.mp (List.mem_of_getElem? hi))).elim

/-- Two elements change places. -/
theorem swap (h : Indexed l pos) (hi : l[i]? = some a) (hj : l[j]? = some b) (hij : i ≠ j) :
    Indexed ((l.set i b).set j a)
      (Function.update (Function.update pos a (some j)) b (some i)) := by
  have hposa : pos a = some i := (h i a).mp hi
  have hposb : pos b = some j := (h j b).mp hj
  have hab : a ≠ b := by
    rintro rfl
    rw [hposa] at hposb
    exact hij (Option.some.inj hposb)
  have hilt : i < l.length := h.lt hposa
  have hjlt : j < l.length := h.lt hposb
  intro k c
  by_cases hkj : k = j
  · subst hkj
    rw [List.getElem?_set_self (by rw [List.length_set]; exact hjlt), Option.some_inj]
    by_cases hc : c = b
    · subst hc
      rw [Function.update_self, Option.some_inj]
      exact ⟨fun h => (hab h).elim, fun h => (hij h).elim⟩
    · rw [Function.update_of_ne hc]
      by_cases hca : c = a
      · subst hca
        rw [Function.update_self]
        exact iff_of_true rfl rfl
      · rw [Function.update_of_ne hca]
        refine ⟨fun h => (hca h.symm).elim, fun hpos => ?_⟩
        have hk := (h k c).mpr hpos
        rw [hj] at hk
        exact (hc (Option.some.inj hk).symm).elim
  · rw [List.getElem?_set_ne (Ne.symm hkj)]
    by_cases hki : k = i
    · subst hki
      rw [List.getElem?_set_self hilt, Option.some_inj]
      by_cases hc : c = b
      · subst hc
        rw [Function.update_self]
        exact iff_of_true rfl rfl
      · rw [Function.update_of_ne hc]
        by_cases hca : c = a
        · subst hca
          rw [Function.update_self, Option.some_inj]
          exact ⟨fun h => (hc h.symm).elim, fun h => (hkj h.symm).elim⟩
        · rw [Function.update_of_ne hca]
          refine ⟨fun h => (hc h.symm).elim, fun hpos => ?_⟩
          have hk := (h k c).mpr hpos
          rw [hi] at hk
          exact (hca (Option.some.inj hk).symm).elim
    · rw [List.getElem?_set_ne (Ne.symm hki), h k c]
      by_cases hc : c = b
      · subst hc
        rw [Function.update_self, hposb, Option.some_inj, Option.some_inj]
        exact ⟨fun h => (hkj h.symm).elim, fun h => (hki h.symm).elim⟩
      · rw [Function.update_of_ne hc]
        by_cases hca : c = a
        · subst hca
          rw [Function.update_self, hposa, Option.some_inj, Option.some_inj]
          exact ⟨fun h => (hki h.symm).elim, fun h => (hkj h.symm).elim⟩
        · rw [Function.update_of_ne hca]

end Indexed

end GC.Framework
