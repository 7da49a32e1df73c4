import Mathlib.Data.Fintype.Card
import Mathlib.Data.Finset.Card
import Mathlib.Logic.Function.Basic
import Mathlib.Data.List.Nodup
import Mathlib.Data.List.Induction

/-!
# Tables of slots

A table has a value in each of finitely many slots. `occurrences f b` is the number of slots with the
value `b`: how it changes when a slot is overwritten. Tables are filled from lists:

* `fillAll`: candidates take the slots that are free, up to a limit for each value; all of them do
  where no two ask for one slot (`fillAll_all`);
* `assign`: each element of a list puts its index into its slot;
* `firsts`: the elements that come first to their slots.
-/

namespace GC.Framework

variable {ι β : Type} [Fintype ι] [DecidableEq β] {f : ι → β} {i : ι} {b c : β}

/-- The number of slots with the value `b`. -/
def occurrences (f : ι → β) (b : β) : Nat := (Finset.univ.filter fun i => f i = b).card

theorem occurrences_eq_zero : occurrences f b = 0 ↔ ∀ i, f i ≠ b := by
  rw [occurrences, Finset.card_eq_zero, Finset.filter_eq_empty_iff]
  exact ⟨fun h i => h (Finset.mem_univ i), fun h i _ => h i⟩

theorem occurrences_pos : 0 < occurrences f b ↔ ∃ i, f i = b := by
  rw [Nat.pos_iff_ne_zero, Ne, occurrences_eq_zero]
  push Not
  exact Iff.rfl

/-- The same slots have `b` in one table and `c` in the other. -/
theorem occurrences_congr {γ : Type} [DecidableEq γ] {g : ι → γ} {b : β} {c : γ}
    (h : ∀ i, f i = b ↔ g i = c) : occurrences f b = occurrences g c := by
  simp only [occurrences, h]

omit [DecidableEq β] in
/-- Values that are in the table are no more than its slots. -/
theorem length_le_slots {l : List β} (hl : l.Nodup) (hf : ∀ b ∈ l, ∃ i, f i = b) :
    l.length ≤ Fintype.card ι := by
  classical
  have hsub : l.toFinset ⊆ Finset.univ.image f := fun b hb =>
    Finset.mem_image.mpr ((hf b (List.mem_toFinset.mp hb)).imp fun i hi => ⟨Finset.mem_univ i, hi⟩)
  have hcard := (Finset.card_le_card hsub).trans Finset.card_image_le
  rwa [List.toFinset_card_of_nodup hl, Finset.card_univ] at hcard

/-- Slots with `b` are no more than its occurrences. -/
theorem length_le_occurrences {l : List ι} (hl : l.Nodup) (hf : ∀ i ∈ l, f i = b) :
    l.length ≤ occurrences f b := by
  classical
  rw [← List.toFinset_card_of_nodup hl, occurrences]
  exact Finset.card_le_card fun i hi => (Finset.mem_filter_univ i).mpr (hf i (List.mem_toFinset.mp hi))

variable [DecidableEq ι]

/-- A slot with `b` gets another value. -/
theorem occurrences_remove (h : f i = b) (hc : c ≠ b) :
    occurrences (Function.update f i c) b + 1 = occurrences f b := by
  have hset : (Finset.univ.filter fun j => Function.update f i c j = b) =
      (Finset.univ.filter fun j => f j = b).erase i := by
    ext j
    rw [Finset.mem_erase, Finset.mem_filter_univ, Finset.mem_filter_univ]
    by_cases hj : j = i
    · rw [hj, Function.update_self]
      exact ⟨fun h => (hc h).elim, fun h => (h.1 rfl).elim⟩
    · rw [Function.update_of_ne hj]
      exact ⟨fun h => ⟨hj, h⟩, fun h => h.2⟩
  rw [occurrences, hset, Finset.card_erase_add_one ((Finset.mem_filter_univ i).mpr h), occurrences]

/-- A slot with another value gets `b`. -/
theorem occurrences_add (h : f i ≠ b) :
    occurrences (Function.update f i b) b = occurrences f b + 1 := by
  have hremove : occurrences (Function.update (Function.update f i b) i (f i)) b + 1 =
      occurrences (Function.update f i b) b :=
    occurrences_remove (Function.update_self i b f) h
  rw [← hremove, Function.update_idem, Function.update_eq_self]

/-- No slot with `b` is overwritten, or with `b`. -/
theorem occurrences_other (h : f i ≠ b) (hc : c ≠ b) :
    occurrences (Function.update f i c) b = occurrences f b := by
  have hset : ∀ j, Function.update f i c j = b ↔ f j = b := fun j => by
    by_cases hj : j = i
    · rw [hj, Function.update_self]
      exact ⟨fun h => (hc h).elim, fun h' => (h h').elim⟩
    · rw [Function.update_of_ne hj]
  simp only [occurrences, hset]

/-! ## Candidates for slots -/

section

variable (free : β) (limit : Nat)

/-- The candidate `c` gets its slot, if it is free and the value has not reached the limit. -/
def fill (f : ι → β) (c : ι × β) : ι → β :=
  if f c.1 = free ∧ occurrences f c.2 < limit then Function.update f c.1 c.2 else f

/-- The candidates come one after the other. -/
def fillAll (cs : List (ι × β)) (f : ι → β) : ι → β := cs.foldl (fill free limit) f

variable {free limit} {cs : List (ι × β)} {p : ι → β → Prop}

theorem fillAll_cons (c : ι × β) :
    fillAll free limit (c :: cs) f = fillAll free limit cs (fill free limit f c) := rfl

theorem fillAll_append (cs' : List (ι × β)) :
    fillAll free limit (cs ++ cs') f = fillAll free limit cs' (fillAll free limit cs f) :=
  List.foldl_append

/-- What holds of the table and of the candidates holds after. -/
theorem fill_all {c : ι × β} (hf : ∀ i, p i (f i)) (hc : p c.1 c.2) (i : ι) :
    p i (fill free limit f c i) := by
  unfold fill
  split_ifs
  · by_cases hi : i = c.1
    · rw [hi, Function.update_self]
      exact hc
    · rw [Function.update_of_ne hi]
      exact hf i
  · exact hf i

theorem fillAll_of (hf : ∀ i, p i (f i)) (hcs : ∀ c ∈ cs, p c.1 c.2) (i : ι) :
    p i (fillAll free limit cs f i) := by
  induction cs generalizing f with
  | nil => exact hf i
  | cons c cs ih =>
    exact ih (fill_all hf (hcs c (List.mem_cons_self ..)))
      fun c' hc' => hcs c' (List.mem_cons_of_mem _ hc')

/-- Where the slots of the candidates are free and no two are the same, all candidates get theirs. -/
theorem fillAll_all (hnodup : (cs.map Prod.fst).Nodup) (hfree : ∀ c ∈ cs, f c.1 = free ∧ c.2 ≠ free)
    (hle : ∀ b, b ≠ free → occurrences f b + (cs.map Prod.snd).count b ≤ limit) :
    (∀ c ∈ cs, fillAll free limit cs f c.1 = c.2) ∧
      ∀ i, i ∉ cs.map Prod.fst → fillAll free limit cs f i = f i := by
  induction cs generalizing f with
  | nil => exact ⟨fun c hc => absurd hc List.not_mem_nil, fun _ _ => rfl⟩
  | cons c cs ih =>
    rw [List.map_cons, List.nodup_cons] at hnodup
    obtain ⟨hslot, hne⟩ := hfree c (List.mem_cons_self ..)
    have hcount := hle c.2 hne
    rw [List.map_cons, List.count_cons_self] at hcount
    have hfill : fill free limit f c = Function.update f c.1 c.2 := if_pos ⟨hslot, by omega⟩
    have hother : ∀ i, i ≠ c.1 → fill free limit f c i = f i := fun i hi => by
      rw [hfill, Function.update_of_ne hi]
    have hfree' : ∀ c' ∈ cs, fill free limit f c c'.1 = free ∧ c'.2 ≠ free := fun c' hc' => by
      have hc : c'.1 ≠ c.1 := fun h => hnodup.1 (h ▸ List.mem_map_of_mem hc')
      rw [hother _ hc]
      exact hfree c' (List.mem_cons_of_mem _ hc')
    have hle' : ∀ b, b ≠ free →
        occurrences (fill free limit f c) b + (cs.map Prod.snd).count b ≤ limit := fun b hb => by
      have hb' := hle b hb
      rw [List.map_cons] at hb'
      by_cases hbc : b = c.2
      · subst hbc
        rw [List.count_cons_self] at hb'
        rw [hfill, occurrences_add (by rw [hslot]; exact Ne.symm hb)]
        omega
      · rw [List.count_cons_of_ne (Ne.symm hbc)] at hb'
        rw [hfill, occurrences_other (by rw [hslot]; exact Ne.symm hb) (Ne.symm hbc)]
        exact hb'
    obtain ⟨hmem, hrest⟩ := ih hnodup.2 hfree' hle'
    refine ⟨fun c' hc' => ?_, fun i hi => ?_⟩
    · rw [fillAll_cons]
      rcases List.mem_cons.mp hc' with rfl | hc'
      · rw [hrest _ hnodup.1, hfill, Function.update_self]
      · exact hmem c' hc'
    · rw [List.map_cons, List.mem_cons, not_or] at hi
      rw [fillAll_cons, hrest i hi.2, hother i hi.1]

end

/-! ## Indexes of a list -/

section

variable {α κ γ : Type} [DecidableEq κ] (put : Nat → γ) (key : α → κ)

/-- Each element puts its index, counted from `n`, at its key. -/
def assign : (n : Nat) → List α → (κ → γ) → κ → γ
  | _, [], g => g
  | n, a :: as, g => assign (n + 1) as (Function.update g (key a) (put n))

variable {put key} {g : κ → γ} {n : Nat} {as : List α}

theorem assign_append (a : α) : assign put key n (as ++ [a]) g =
    Function.update (assign put key n as g) (key a) (put (n + as.length)) := by
  induction as generalizing n g with
  | nil => rfl
  | cons b as ih =>
    rw [List.cons_append, assign, ih, assign, List.length_cons, Nat.add_right_comm, Nat.add_assoc]

/-- A value is an index of an element with the key, or there is no such element. -/
theorem assign_cases (put : Nat → γ) (key : α → κ) (g : κ → γ) (n : Nat) (as : List α) (k : κ) :
    (assign put key n as g k = g k ∧ ∀ a ∈ as, key a ≠ k) ∨
    ∃ i a, as[i]? = some a ∧ key a = k ∧ assign put key n as g k = put (n + i) := by
  induction as using List.reverseRecOn with
  | nil => exact .inl ⟨rfl, fun a ha => absurd ha List.not_mem_nil⟩
  | append_singleton as a ih =>
    rw [assign_append]
    by_cases hk : k = key a
    · subst hk
      exact .inr ⟨as.length, a, List.getElem?_concat_length, rfl, Function.update_self ..⟩
    · rw [Function.update_of_ne hk]
      rcases ih with ⟨heq, hnone⟩ | ⟨i, b, hi, hb, heq⟩
      · refine .inl ⟨heq, fun b hb => ?_⟩
        rcases List.mem_append.mp hb with hb | hb
        · exact hnone b hb
        · rw [List.mem_singleton.mp hb]
          exact Ne.symm hk
      · have hlt := (List.getElem?_eq_some_iff.mp hi).1
        exact .inr ⟨i, b, by rw [List.getElem?_append_left hlt, hi], hb, heq⟩

/-- The only element with its key puts its index there. -/
theorem assign_unique (put : Nat → γ) (key : α → κ) (g : κ → γ) (n : Nat) {i : Nat} {a : α}
    (hi : as[i]? = some a)
    (hunique : ∀ j b, as[j]? = some b → key b = key a → j = i) :
    assign put key n as g (key a) = put (n + i) := by
  rcases assign_cases put key g n as (key a) with ⟨-, hnone⟩ |
    ⟨j, b, hj, hb, heq⟩
  · exact absurd rfl (hnone a (List.mem_of_getElem? hi))
  · rw [heq, hunique j b hj hb]

/-- The elements whose key no earlier element has, after those in `seen`. -/
def firsts (key : α → κ) : (seen : List α) → List α → List α
  | seen, [] => seen
  | seen, a :: as => firsts key (if key a ∈ seen.map key then seen else seen ++ [a]) as

theorem firsts_length_le (seen : List α) : (firsts key seen as).length ≤ seen.length + as.length := by
  induction as generalizing seen with
  | nil => exact Nat.le_refl _
  | cons a as ih =>
    rw [firsts, List.length_cons]
    split_ifs
    · exact (ih seen).trans (by omega)
    · have := ih (seen ++ [a])
      rw [List.length_append, List.length_singleton] at this
      omega

/-- Elements with different keys are all first. -/
theorem firsts_eq {seen : List α} (h : ((seen ++ as).map key).Nodup) :
    firsts key seen as = seen ++ as := by
  induction as generalizing seen with
  | nil => exact (List.append_nil seen).symm
  | cons a as ih =>
    have ha : key a ∉ seen.map key := fun hmem => by
      rw [List.map_append, List.nodup_append] at h
      exact h.2.2 _ hmem _ (List.mem_map_of_mem (List.mem_cons_self ..)) rfl
    have happ : seen ++ a :: as = seen ++ [a] ++ as := by rw [List.append_assoc, List.singleton_append]
    rw [firsts, if_neg ha, ih (by rw [← happ]; exact h), happ]

end

end GC.Framework
