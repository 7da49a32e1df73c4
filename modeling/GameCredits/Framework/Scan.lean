import Mathlib.Data.List.DropRight

/-!
# Scanning a list

Programs that read a string go over the characters of one kind and stop at the first other one.
`span_append` says what such a loop takes off, `exists_span` that every list is of the form it asks
for; `rdropWhile_append` and `mem_rdropWhile` are about the end of the list.
-/

namespace GC.Framework

variable {α : Type} {p : α → Bool}

/-- Where a list goes on with something else, its first part is what is taken off. -/
theorem span_append {l r : List α} (h₁ : ∀ a ∈ l, p a = true)
    (h₂ : ∀ a s, r = a :: s → p a = false) :
    (l ++ r).takeWhile p = l ∧ (l ++ r).dropWhile p = r := by
  rw [List.takeWhile_append_of_pos h₁, List.dropWhile_append_of_pos h₁]
  cases r with
  | nil => exact ⟨List.append_nil _, rfl⟩
  | cons a s =>
    have ha : ¬ p a = true := by rw [h₂ a s rfl]; decide
    rw [List.takeWhile_cons_of_neg ha, List.dropWhile_cons_of_neg ha, List.append_nil]
    exact ⟨rfl, rfl⟩

/-- Every list is a part of one kind and a rest that starts with something else. -/
theorem exists_span (p : α → Bool) (l : List α) : ∃ l₁ l₂, l = l₁ ++ l₂ ∧ (∀ a ∈ l₁, p a = true) ∧
    ∀ a s, l₂ = a :: s → p a = false := by
  refine ⟨l.takeWhile p, l.dropWhile p, List.takeWhile_append_dropWhile.symm,
    fun a ha => List.all_eq_true.mp List.all_takeWhile a ha, fun a s h => ?_⟩
  have hhead := List.head?_dropWhile_not p l
  rw [h] at hhead
  simpa using hhead

theorem dropWhile_of_none {l : List α} (h : ∀ a s, l = a :: s → p a = false) : l.dropWhile p = l :=
  (span_append (l := []) nofun h).2

theorem takeWhile_of_all {l : List α} (h : ∀ a ∈ l, p a = true) : l.takeWhile p = l := by
  have hspan := (span_append (r := []) h nofun).1
  rwa [List.append_nil] at hspan

/-- What is of one kind at the end is taken off. -/
theorem rdropWhile_append {l₁ l₂ : List α} (h₁ : ∀ a ∈ l₁, p a = false)
    (h₂ : l₂.dropWhile p = []) : (l₁ ++ l₂).rdropWhile p = l₁ := by
  have hall : ∀ a ∈ l₂.reverse, p a = true := fun a ha =>
    List.dropWhile_eq_nil_iff.mp h₂ a (List.mem_reverse.mp ha)
  have hnone : l₁.reverse.dropWhile p = l₁.reverse := dropWhile_of_none fun a s hl =>
    h₁ a (List.mem_reverse.mp (by rw [hl]; exact List.mem_cons_self))
  rw [List.rdropWhile, List.reverse_append, List.dropWhile_append_of_pos hall, hnone,
    List.reverse_reverse]

/-- What stands before something of another kind stays. -/
theorem mem_rdropWhile {a : α} {l₁ s : List α} (h : (a :: s).dropWhile p ≠ []) :
    a ∈ (l₁ ++ a :: s).rdropWhile p := by
  have hne : (s.reverse ++ [a]).dropWhile p ≠ [] := by
    intro hnil
    refine h (List.dropWhile_eq_nil_iff.mpr fun x hx => ?_)
    refine List.dropWhile_eq_nil_iff.mp hnil x ?_
    rw [← List.reverse_cons]
    exact List.mem_reverse.mpr hx
  rw [List.rdropWhile, List.reverse_append, List.reverse_cons, List.mem_reverse,
    List.dropWhile_append, if_neg (by rw [List.isEmpty_iff]; exact hne)]
  refine List.mem_append_left _ ?_
  rw [List.dropWhile_append] at hne ⊢
  split_ifs at hne ⊢ with hs
  · cases ha : p a with
    | true => rw [List.dropWhile_cons_of_pos ha] at hne; exact absurd rfl hne
    | false =>
      rw [List.dropWhile_cons_of_neg (by rw [ha]; decide)]
      exact List.mem_singleton_self a
  · exact List.mem_append_right _ (List.mem_singleton_self a)

end GC.Framework
