import Mathlib.Data.List.AList
import Mathlib.Algebra.BigOperators.Group.Finset.Basic
import Mathlib.Algebra.BigOperators.Group.List.Basic
import Mathlib.Algebra.Order.BigOperators.Group.List
import Mathlib.Algebra.Order.Group.Int
import Mathlib.Tactic.Tauto

/-!
# Maps as association lists

A `std::map` is an `AList`. The entries of a map after an update are, up to order, the changed entry
and the rest (`entries_perm`, `entries_insert`), so that sums over the entries (`total`) change by
what belongs to that entry. `lookup_foldl_erase` and `lookup_foldl_insert` look up after several
updates.
-/

namespace GC.Framework.Assoc

variable {κ ν : Type} [DecidableEq κ]

/-- A map from keys to values of one type. -/
abbrev Map (κ ν : Type) := AList fun _ : κ => ν

variable {m : Map κ ν} {k : κ} {v : ν}

theorem mem_entries : ⟨k, v⟩ ∈ m.entries ↔ m.lookup k = some v :=
  (AList.mem_lookup_iff (s := m)).symm

/-- The entry of a key and the rest. -/
theorem entries_perm (h : m.lookup k = some v) : m.entries.Perm (⟨k, v⟩ :: (m.erase k).entries) := by
  have hk : k ∈ m.entries.keys := List.mem_keys.mpr ⟨v, mem_entries.mpr h⟩
  obtain ⟨w, l₁, l₂, -, heq, herase⟩ := List.exists_of_kerase hk
  have hw : m.lookup k = some w := mem_entries.mp (by rw [heq]; simp)
  rw [h] at hw
  cases hw
  rw [show (m.erase k).entries = m.entries.kerase k from rfl, herase, heq]
  exact List.perm_middle

theorem erase_entries (h : m.lookup k = none) : (m.erase k).entries = m.entries :=
  List.kerase_of_notMem_keys (AList.lookup_eq_none.mp h)

theorem entries_insert (m : Map κ ν) (k : κ) (v : ν) :
    (m.insert k v).entries = ⟨k, v⟩ :: (m.erase k).entries := rfl

/-- Erasing a key takes its entry away. -/
theorem entries_erase_perm {l : List (Sigma fun _ : κ => ν)} (h : m.entries.Perm (⟨k, v⟩ :: l)) :
    (m.erase k).entries.Perm l := by
  have hv : m.lookup k = some v := mem_entries.mp (h.symm.subset (List.mem_cons_self ..))
  exact (List.perm_cons _).mp ((entries_perm hv).symm.trans h)

/-- Erasing several keys. -/
theorem entries_foldl_erase_perm {l l' : List (Sigma fun _ : κ => ν)}
    (h : m.entries.Perm (l ++ l')) :
    ((l.map Sigma.fst).foldl (fun m k => m.erase k) m).entries.Perm l' := by
  induction l generalizing m with
  | nil => exact h
  | cons e l ih => exact ih (entries_erase_perm h)

/-! ## Lookups -/

theorem lookup_erase_iff {i : κ} : (m.erase k).lookup i = some v ↔ i ≠ k ∧ m.lookup i = some v := by
  by_cases hi : i = k
  · subst hi
    simp
  · rw [AList.lookup_erase_ne hi]
    simp [hi]

theorem lookup_insert_iff {i : κ} {w : ν} :
    (m.insert k w).lookup i = some v ↔ i = k ∧ w = v ∨ i ≠ k ∧ m.lookup i = some v := by
  by_cases hi : i = k
  · subst hi
    simp
  · rw [AList.lookup_insert_ne hi]
    simp [hi]

/-- Erasing several keys leaves the others. -/
theorem lookup_foldl_erase {ks : List κ} {i : κ} :
    (ks.foldl (fun m k => m.erase k) m).lookup i = some v ↔ i ∉ ks ∧ m.lookup i = some v := by
  induction ks generalizing m with
  | nil => simp
  | cons k ks ih =>
    rw [List.foldl_cons, ih, lookup_erase_iff, List.mem_cons, not_or]
    tauto

/-- Inserting entries with distinct keys. -/
theorem lookup_foldl_insert {es : List (κ × ν)} (hes : (es.map Prod.fst).Nodup) {i : κ} :
    (es.foldl (fun m e => m.insert e.1 e.2) m).lookup i = some v ↔
      (i, v) ∈ es ∨ i ∉ es.map Prod.fst ∧ m.lookup i = some v := by
  induction es generalizing m with
  | nil => simp
  | cons e es ih =>
    rw [List.map_cons, List.nodup_cons] at hes
    have hmem : (i, v) ∈ es → i ≠ e.1 := fun h hi =>
      hes.1 (hi ▸ List.mem_map_of_mem (f := Prod.fst) h)
    rw [List.foldl_cons, ih hes.2, lookup_insert_iff, List.map_cons, List.mem_cons, List.mem_cons,
      not_or, Prod.ext_iff]
    have hnot := hes.1
    constructor
    · rintro (h | ⟨h, ⟨rfl, rfl⟩ | ⟨hi, hv⟩⟩)
      · exact .inl (.inr h)
      · exact .inl (.inl ⟨rfl, rfl⟩)
      · exact .inr ⟨⟨hi, h⟩, hv⟩
    · rintro ((⟨rfl, rfl⟩ | h) | ⟨⟨hi, h⟩, hv⟩)
      · exact .inr ⟨hnot, .inl ⟨rfl, rfl⟩⟩
      · exact .inl h
      · exact .inr ⟨h, .inr ⟨hi, hv⟩⟩

/-- Inserting several keys with one value. -/
theorem lookup_foldl_insert_const {ks : List κ} {i : κ} {w : ν} :
    (ks.foldl (fun m k => m.insert k w) m).lookup i = some v ↔
      i ∈ ks ∧ w = v ∨ i ∉ ks ∧ m.lookup i = some v := by
  induction ks generalizing m with
  | nil => simp
  | cons k ks ih =>
    rw [List.foldl_cons, ih, lookup_insert_iff, List.mem_cons, not_or]
    tauto

/-! ## Totals -/

/-- The sum of a weight over the entries. -/
def total {α : Type} [AddCommMonoid α] (w : κ → ν → α) (m : Map κ ν) : α :=
  (m.entries.map fun e => w e.1 e.2).sum

section

variable {α : Type} [AddCommMonoid α] {w : κ → ν → α}

theorem total_insert (m : Map κ ν) (k : κ) (v : ν) :
    total w (m.insert k v) = w k v + total w (m.erase k) := List.sum_cons

theorem total_erase (h : m.lookup k = some v) : total w m = w k v + total w (m.erase k) := by
  have hperm := ((entries_perm h).map fun e => w e.1 e.2).sum_eq
  rwa [List.map_cons, List.sum_cons] at hperm

theorem total_insert_none (h : m.lookup k = none) :
    total w (m.insert k v) = w k v + total w m := by
  rw [total_insert, total, erase_entries h]; rfl

/-- An entry that weighed nothing is replaced. -/
theorem total_insert_zero (h : ∀ u, m.lookup k = some u → w k u = 0) :
    total w (m.insert k v) = w k v + total w m := by
  cases hk : m.lookup k with
  | none => exact total_insert_none hk
  | some u => rw [total_insert, total_erase hk, h u hk, zero_add]

/-- Only the weights of what is in the map count. -/
theorem total_congr {w' : κ → ν → α} (h : ∀ k v, m.lookup k = some v → w k v = w' k v) :
    total w m = total w' m := by
  refine congrArg List.sum (List.map_congr_left fun e he => ?_)
  exact h e.1 e.2 (mem_entries.mp he)

omit [DecidableEq κ] in
theorem total_zero (m : Map κ ν) : total (fun _ _ => (0 : α)) m = 0 := List.sum_map_zero

omit [DecidableEq κ] in
theorem total_add (w' : κ → ν → α) (m : Map κ ν) :
    total (fun k v => w k v + w' k v) m = total w m + total w' m := List.sum_map_add

omit [DecidableEq κ] in
theorem total_sum {ι : Type} (s : Finset ι) (ws : ι → κ → ν → α) (m : Map κ ν) :
    total (fun k v => ∑ i ∈ s, ws i k v) m = ∑ i ∈ s, total (ws i) m := by
  classical
  induction s using Finset.induction_on with
  | empty => exact total_zero m
  | insert i s hi ih =>
    simp only [Finset.sum_insert hi]
    rw [total_add, ih]

end

/-- The total of weights that are not negative is at least each of them. -/
theorem le_total {w : κ → ν → ℤ} (hw : ∀ k v, 0 ≤ w k v) (h : m.lookup k = some v) :
    w k v ≤ total w m := by
  rw [total_erase h]
  have : 0 ≤ total w (m.erase k) := List.sum_nonneg fun x hx => by
    obtain ⟨e, -, rfl⟩ := List.mem_map.mp hx
    exact hw e.1 e.2
  omega

/-- What is found in a list of pairs is one of them. -/
theorem mem_of_lookup {κ α : Type} [BEq κ] [LawfulBEq κ] {l : List (κ × α)} {k : κ} {a : α}
    (h : l.lookup k = some a) : (k, a) ∈ l := by
  obtain ⟨l₁, l₂, rfl, -⟩ := List.lookup_eq_some_iff.mp h
  exact List.mem_append_right _ (List.mem_cons_self ..)

end GC.Framework.Assoc
