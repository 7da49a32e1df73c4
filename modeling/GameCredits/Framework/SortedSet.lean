import Mathlib.Order.RelClasses
import Mathlib.Data.List.Sort

/-!
# Sorted sets

A set kept as a list that is strictly sorted by a strict order `lt`, as `std::set` keeps its
elements. Insertion and erasure look for the place by comparing, so that they rely on the order.

* `mem_insert`, `mem_erase`: which elements there are afterwards.
* `sorted_insert`, `sorted_eraseWhile`: the list stays sorted.
* `ext`, `find?_eq_some_iff`: the elements determine the list, where the first is the least.
* `leasts_take`: choosing again among the elements that were chosen, and others, changes nothing.
-/

namespace GC.Framework.SortedSet

variable {α : Type} (lt : α → α → Bool)

/-- Inserts an element, unless an equivalent one is there. -/
def insert (x : α) : List α → List α
  | [] => [x]
  | y :: l => if lt y x then y :: insert x l else if lt x y then x :: y :: l else y :: l

/-- Erases the element equivalent to `x`. -/
def erase (x : α) : List α → List α
  | [] => []
  | y :: l => if lt y x then y :: erase x l else if lt x y then y :: l else l

/-- Whether an element equivalent to `x` is there (`std::set::count`). -/
def contains (x : α) (l : List α) : Bool := l.any fun y => !lt x y && !lt y x

/-- Erases the elements at the beginning that satisfy `p`. -/
def eraseWhile (p : α → Bool) (l : List α) : List α := l.dropWhile p

/-- `lt` is a strict total order. -/
structure Total : Prop where
  irrefl : ∀ a, lt a a = false
  trans : ∀ a b c, lt a b = true → lt b c = true → lt a c = true
  tri : ∀ a b, lt a b = false → lt b a = false → a = b

/-- A strictly sorted list. -/
abbrev Sorted (l : List α) : Prop := l.Pairwise fun a b => lt a b = true

variable {lt} (T : Total lt) {x y : α} {l : List α}

/-- What is below `y` is below whatever is not below `y`. -/
theorem Total.lt_of_not_lt {z : α} (T : Total lt) (hxy : lt x y = true) (hzy : lt z y = false) :
    lt x z = true := by
  by_cases hyz : lt y z = true
  · exact T.trans x y z hxy hyz
  · rwa [T.tri z y hzy (Bool.eq_false_of_not_eq_true hyz)]

include T in
theorem contains_iff : contains lt x l = true ↔ x ∈ l := by
  simp only [contains, List.any_eq_true, Bool.and_eq_true, Bool.not_eq_true']
  constructor
  · rintro ⟨y, hy, hxy, hyx⟩
    rwa [T.tri x y hxy hyx]
  · exact fun hx => ⟨x, hx, T.irrefl x, T.irrefl x⟩

theorem of_mem_insert (h : y ∈ insert lt x l) : y = x ∨ y ∈ l := by
  induction l with
  | nil => exact .inl (List.mem_singleton.mp h)
  | cons z l ih =>
    rw [insert] at h
    split_ifs at h
    · rcases List.mem_cons.mp h with rfl | h
      · exact .inr (List.mem_cons_self ..)
      · exact (ih h).imp_right (List.mem_cons_of_mem _)
    · exact List.mem_cons.mp h
    · exact .inr h

theorem mem_insert_of_mem (h : y ∈ l) : y ∈ insert lt x l := by
  induction l with
  | nil => cases h
  | cons z l ih =>
    rw [insert]
    split_ifs
    · rcases List.mem_cons.mp h with rfl | h
      · exact List.mem_cons_self
      · exact List.mem_cons_of_mem _ (ih h)
    · exact List.mem_cons_of_mem _ h
    · exact h

/-- An element above all others becomes the last one. -/
theorem insert_above (h : ∀ y ∈ l, lt y x = true) : insert lt x l = l ++ [x] := by
  induction l with
  | nil => rfl
  | cons y l ih =>
    rw [insert, if_pos (h y (List.mem_cons_self ..)), ih fun z hz => h z (List.mem_cons_of_mem _ hz),
      List.cons_append]

include T

theorem mem_insert (hl : Sorted lt l) : y ∈ insert lt x l ↔ y = x ∨ y ∈ l := by
  induction l with
  | nil => simp [insert]
  | cons z l ih =>
    obtain ⟨-, hl⟩ := List.pairwise_cons.mp hl
    rw [insert]
    split_ifs with h₁ h₂
    · rw [List.mem_cons, ih hl, List.mem_cons]; tauto
    · rw [List.mem_cons]
    · have : x = z := T.tri x z (by simpa using h₂) (by simpa using h₁)
      subst this
      rw [List.mem_cons]; tauto

theorem sorted_insert (hl : Sorted lt l) : Sorted lt (insert lt x l) := by
  induction l with
  | nil => exact List.pairwise_singleton _ _
  | cons z l ih =>
    obtain ⟨hz, hl'⟩ := List.pairwise_cons.mp hl
    rw [insert]
    split_ifs with h₁ h₂
    · refine List.pairwise_cons.mpr ⟨fun w hw => ?_, ih hl'⟩
      rcases (mem_insert T hl').mp hw with rfl | hw
      · exact h₁
      · exact hz w hw
    · refine List.pairwise_cons.mpr ⟨fun w hw => ?_, hl⟩
      rcases List.mem_cons.mp hw with rfl | hw
      · exact h₂
      · exact T.trans _ _ _ h₂ (hz w hw)
    · exact hl

theorem mem_erase (hl : Sorted lt l) : y ∈ erase lt x l ↔ y ∈ l ∧ y ≠ x := by
  induction l with
  | nil => simp [erase]
  | cons z l ih =>
    obtain ⟨hz, hl'⟩ := List.pairwise_cons.mp hl
    rw [erase]
    split_ifs with h₁ h₂
    · have hne : z ≠ x := fun h => by rw [h, T.irrefl] at h₁; cases h₁
      rw [List.mem_cons, ih hl', List.mem_cons]
      constructor
      · rintro (rfl | ⟨hy, hyx⟩)
        · exact ⟨.inl rfl, hne⟩
        · exact ⟨.inr hy, hyx⟩
      · rintro ⟨rfl | hy, hyx⟩
        · exact .inl rfl
        · exact .inr ⟨hy, hyx⟩
    · -- the rest of the list is above `z`, which is above `x`
      have habove : ∀ w ∈ z :: l, w ≠ x := by
        rintro w hw rfl
        rcases List.mem_cons.mp hw with rfl | hw
        · rw [T.irrefl] at h₂; cases h₂
        · have := T.trans _ _ _ h₂ (hz w hw)
          rw [T.irrefl] at this; cases this
      exact ⟨fun hy => ⟨hy, habove y hy⟩, fun hy => hy.1⟩
    · have hzx : x = z := T.tri x z (by simpa using h₂) (by simpa using h₁)
      subst hzx
      rw [List.mem_cons]
      constructor
      · intro hy
        refine ⟨.inr hy, fun hyx => ?_⟩
        have := hz y hy
        rw [hyx, T.irrefl] at this; cases this
      · rintro ⟨rfl | hy, hyx⟩
        · exact (hyx rfl).elim
        · exact hy

omit T in
theorem erase_sublist (x : α) (l : List α) : List.Sublist (erase lt x l) l := by
  induction l with
  | nil => exact .slnil
  | cons z l ih =>
    rw [erase]
    split_ifs
    · exact ih.cons_cons z
    · exact .refl _
    · exact List.sublist_cons_self z l

/-- What is left when the elements below `x` are erased. -/
theorem mem_eraseWhile (hl : Sorted lt l) :
    y ∈ eraseWhile (fun z => lt z x) l ↔ y ∈ l ∧ lt y x = false := by
  induction l with
  | nil => simp [eraseWhile]
  | cons z l ih =>
    obtain ⟨hz, hl'⟩ := List.pairwise_cons.mp hl
    rw [eraseWhile, List.dropWhile_cons]
    split_ifs with h
    · refine (ih hl').trans ⟨fun hy => ⟨List.mem_cons_of_mem _ hy.1, hy.2⟩, fun hy => ⟨?_, hy.2⟩⟩
      rcases List.mem_cons.mp hy.1 with rfl | hmem
      · have h : lt y x = true := h
        rw [h] at hy; cases hy.2
      · exact hmem
    · refine ⟨fun hy => ⟨hy, ?_⟩, fun hy => hy.1⟩
      rcases List.mem_cons.mp hy with rfl | hmem
      · simpa using h
      · by_contra hlt
        have := T.trans _ _ _ (hz y hmem) (by simpa using hlt)
        exact h this

omit T in
theorem sorted_eraseWhile (p : α → Bool) (hl : Sorted lt l) : Sorted lt (eraseWhile p l) :=
  hl.sublist (List.dropWhile_sublist p)

/-- The last element is the greatest. -/
theorem le_getLast (hl : Sorted lt l) (hx : l.getLast? = some x) (hy : y ∈ l) : lt x y = false := by
  obtain ⟨l', rfl⟩ := List.getLast?_eq_some_iff.mp hx
  rcases List.mem_append.mp hy with hy | hy
  · have h := (List.pairwise_append.mp hl).2.2 y hy x (List.mem_singleton_self x)
    by_contra hlt
    have := T.trans _ _ _ h (by simpa using hlt)
    rw [T.irrefl] at this; cases this
  · rw [List.mem_singleton.mp hy]; exact T.irrefl x

omit T in
/-- A list stays sorted when the order changes on no pair of its elements. -/
theorem Sorted.congr {lt' : α → α → Bool} (hl : Sorted lt l)
    (h : ∀ a ∈ l, ∀ b ∈ l, lt' a b = lt a b) : Sorted lt' l :=
  hl.imp_of_mem fun ha hb hab => (h _ ha _ hb).trans hab

theorem nodup (hl : Sorted lt l) : l.Nodup := hl.imp fun {a b} hab hne => by
  rw [hne, T.irrefl] at hab; cases hab

/-- The elements determine the set. -/
theorem ext {l' : List α} (hl : Sorted lt l) (hl' : Sorted lt l') (h : ∀ x, x ∈ l ↔ x ∈ l') : l = l' :=
  ((List.perm_ext_iff_of_nodup (nodup T hl) (nodup T hl')).mpr h).eq_of_pairwise
    (fun a b _ _ hab hba => by
      have := T.trans _ _ _ hab hba
      rw [T.irrefl] at this; cases this) hl hl'

/-- The first element that satisfies `p` is the least one. -/
theorem find?_eq_some_iff {p : α → Bool} (hl : Sorted lt l) :
    l.find? p = some x ↔ x ∈ l ∧ p x = true ∧ ∀ y ∈ l, p y = true → lt y x = false := by
  induction l with
  | nil => simp
  | cons z l ih =>
    obtain ⟨hz, hl'⟩ := List.pairwise_cons.mp hl
    cases hp : p z with
    | true =>
      rw [List.find?_cons_of_pos hp, Option.some_inj]
      constructor
      · rintro rfl
        refine ⟨List.mem_cons_self, hp, fun y hy _ => ?_⟩
        rcases List.mem_cons.mp hy with rfl | hy
        · exact T.irrefl y
        · by_contra hlt
          have := T.trans _ _ _ (hz y hy) (by simpa using hlt)
          rw [T.irrefl] at this; cases this
      · rintro ⟨hx, -, hleast⟩
        rcases List.mem_cons.mp hx with rfl | hx
        · rfl
        · have := hleast z List.mem_cons_self hp
          rw [hz x hx] at this; cases this
    | false =>
      rw [List.find?_cons_of_neg (by rw [hp]; exact Bool.false_ne_true), ih hl']
      constructor
      · rintro ⟨hx, hpx, hleast⟩
        refine ⟨List.mem_cons_of_mem _ hx, hpx, fun y hy hpy => ?_⟩
        rcases List.mem_cons.mp hy with rfl | hy
        · rw [hp] at hpy; cases hpy
        · exact hleast y hy hpy
      · rintro ⟨hx, hpx, hleast⟩
        refine ⟨?_, hpx, fun y hy => hleast y (List.mem_cons_of_mem _ hy)⟩
        rcases List.mem_cons.mp hx with rfl | hx
        · rw [hp] at hpx; cases hpx
        · exact hx

/-- The least element that satisfies `p` is that of a subset too, if it is in there. -/
theorem find?_subset {l' : List α} {p : α → Bool} (hl : Sorted lt l) (hl' : Sorted lt l')
    (hsub : ∀ y ∈ l', y ∈ l) (hx : l.find? p = some x) (hmem : x ∈ l') : l'.find? p = some x := by
  obtain ⟨-, hp, hleast⟩ := (find?_eq_some_iff T hl).mp hx
  exact (find?_eq_some_iff T hl').mpr ⟨hmem, hp, fun y hy => hleast y (hsub y hy)⟩

/-! ## The least element for each -/

variable {β : Type} (fits : β → α → Bool)

/-- For each of `bs` that an element fits, the least one that does. -/
def leasts (bs : List β) (l : List α) : List α := bs.filterMap fun b => l.find? (fits b)

omit T in
variable {fits} in
theorem leasts_cons_none {b : β} (bs : List β) (h : l.find? (fits b) = none) :
    leasts fits (b :: bs) l = leasts fits bs l := List.filterMap_cons_none h

omit T in
variable {fits} in
theorem leasts_cons_some {b : β} (bs : List β) (h : l.find? (fits b) = some x) :
    leasts fits (b :: bs) l = x :: leasts fits bs l := List.filterMap_cons_some h

omit T in
variable {fits} in
theorem mem_of_mem_leasts {bs : List β} (h : x ∈ leasts fits bs l) : x ∈ l := by
  obtain ⟨b, -, hfind⟩ := List.mem_filterMap.mp h
  exact List.mem_of_find?_eq_some hfind

omit T in
theorem forall₂_leasts (bs : List β) (l : List α) :
    List.Forall₂ (fun x b => x ∈ l ∧ fits b x = true) (leasts fits bs l)
      (bs.filter fun b => l.any (fits b)) := by
  induction bs with
  | nil => exact .nil
  | cons b bs ih =>
    cases hfind : l.find? (fits b) with
    | none =>
      have hany : l.any (fits b) = false := by
        rw [List.any_eq_false]
        exact fun x hx => by simpa using List.find?_eq_none.mp hfind x hx
      rw [leasts_cons_none bs hfind, List.filter_cons_of_neg (by rw [hany]; decide)]
      exact ih
    | some x =>
      have hx := List.mem_of_find?_eq_some hfind
      have hp := List.find?_some hfind
      have hany : l.any (fits b) = true := List.any_eq_true.mpr ⟨x, hx, hp⟩
      rw [leasts_cons_some bs hfind, List.filter_cons_of_pos (by rw [hany])]
      exact .cons ⟨hx, hp⟩ ih

/-- A subset that has the first `n` of them gives the same first `n`. -/
theorem leasts_take {l' : List α} (hl : Sorted lt l) (hl' : Sorted lt l') (hsub : ∀ y ∈ l', y ∈ l)
    {bs : List β} {n : Nat} (hmem : ∀ x ∈ (leasts fits bs l).take n, x ∈ l') :
    (leasts fits bs l').take n = (leasts fits bs l).take n := by
  induction bs generalizing n with
  | nil => rfl
  | cons b bs ih =>
    cases hfind : l.find? (fits b) with
    | none =>
      have hfind' : l'.find? (fits b) = none :=
        List.find?_eq_none.mpr fun y hy => List.find?_eq_none.mp hfind y (hsub y hy)
      rw [leasts_cons_none bs hfind] at hmem ⊢
      rw [leasts_cons_none bs hfind']
      exact ih hmem
    | some x =>
      rw [leasts_cons_some bs hfind] at hmem ⊢
      cases n with
      | zero => rfl
      | succ n =>
        rw [List.take_succ_cons] at hmem ⊢
        have hfind' := find?_subset T hl hl' hsub hfind (hmem x List.mem_cons_self)
        rw [leasts_cons_some bs hfind', List.take_succ_cons]
        exact congrArg (x :: ·) (ih fun y hy => hmem y (List.mem_cons_of_mem _ hy))

end GC.Framework.SortedSet
