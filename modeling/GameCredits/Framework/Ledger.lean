import GameCredits.Framework.Prog
import Mathlib.Algebra.BigOperators.Group.Finset.Basic
import Mathlib.Algebra.Order.BigOperators.Group.Finset
import Mathlib.Data.List.Nodup
import Mathlib.Tactic.Ring

/-!
# Ledgers of single-use outputs

A transaction uses up places and makes new ones, all under its own identifier. `Chain` says what a
list of transactions does to the set of available places. When identifiers are new and determine
the places used, no identifier occurs twice and no place is used twice (`Chain.done`).

The sum of a measure of the records over all keys of a store (`total`) changes with one record by what
that record changes (`total_put`).
-/

namespace GC.Framework.Ledger

variable {τ κ ι : Type} (id : τ → κ) (uses : τ → List (κ × ι))

/-- What transaction `t` does: the places it uses are available and distinct, and a place available
afterwards is under its identifier, or was available and is not used. -/
structure Step (avail : κ × ι → Prop) (t : τ) (avail' : κ × ι → Prop) : Prop where
  used : ∀ x ∈ uses t, avail x
  distinct : (uses t).Nodup
  after : ∀ x, avail' x → x.1 = id t ∨ avail x ∧ x ∉ uses t

/-- What a list of transactions does. -/
inductive Chain : (κ × ι → Prop) → List τ → (κ × ι → Prop) → Prop
  | nil (avail) : Chain avail [] avail
  | cons {avail avail' avail'' t ts} (step : Step id uses avail t avail')
      (rest : Chain avail' ts avail'') : Chain avail (t :: ts) avail''

/-- What holds after the transactions `done`, from the places `start`: they are distinct, used
nothing twice, and what is available was there or was made by them; what they used is gone. -/
structure Done (start : κ × ι → Prop) (done : List τ) (avail : κ × ι → Prop) : Prop where
  ids : (done.map id).Nodup
  once : (done.flatMap uses).Nodup
  made : ∀ x, avail x → x.1 ∈ done.map id ∨ start x
  gone : ∀ x ∈ done.flatMap uses, ¬ avail x
  source : ∀ x ∈ done.flatMap uses, x.1 ∈ done.map id ∨ start x

variable {id uses} {start avail avail' : κ × ι → Prop} {ds : List τ} {t : τ}

theorem Done.nil : Done id uses start [] start :=
  ⟨List.nodup_nil, List.nodup_nil, fun _ h => .inr h, fun _ h => by simp at h,
    fun _ h => by simp at h⟩

/-- A transaction has an identifier that none before it had. -/
theorem Done.id_new (h : Done id uses start ds avail) (hstep : Step id uses avail t avail')
    (hinj : ∀ s ∈ ds, id s = id t → uses s = uses t) (hsome : ds ≠ [] → uses t ≠ []) :
    id t ∉ ds.map id := by
  intro hmem
  obtain ⟨s, hs, hid⟩ := List.mem_map.mp hmem
  obtain ⟨x, hx⟩ := List.exists_mem_of_ne_nil _ (hsome (List.ne_nil_of_mem hs))
  have hgone : x ∈ ds.flatMap uses := List.mem_flatMap.mpr ⟨s, hs, hinj s hs hid ▸ hx⟩
  exact h.gone x hgone (hstep.used x hx)

theorem Done.step (h : Done id uses start ds avail) (hstep : Step id uses avail t avail')
    (hfresh : ∀ i, ¬ start (id t, i)) (hinj : ∀ s ∈ ds, id s = id t → uses s = uses t)
    (hsome : ds ≠ [] → uses t ≠ []) : Done id uses start (ds ++ [t]) avail' := by
  have hnew := h.id_new hstep hinj hsome
  have hids : ∀ x : κ × ι, x.1 ∈ ds.map id ∨ start x → x.1 ≠ id t := by
    rintro ⟨k, i⟩ (hx | hx) rfl
    · exact hnew hx
    · exact hfresh i hx
  have hmade : ∀ k, k ∈ (ds ++ [t]).map id ↔ k ∈ ds.map id ∨ k = id t := by simp
  have hused : ∀ x, x ∈ (ds ++ [t]).flatMap uses ↔ x ∈ ds.flatMap uses ∨ x ∈ uses t := by simp
  refine ⟨?_, ?_, fun x hx => ?_, fun x hx ha => ?_, fun x hx => ?_⟩
  · rw [List.map_append, List.map_singleton]
    exact h.ids.append (List.nodup_singleton _) (List.disjoint_singleton.mpr hnew)
  · rw [List.flatMap_append, List.flatMap_singleton]
    exact h.once.append hstep.distinct fun x hx hxt => h.gone x hx (hstep.used x hxt)
  · rw [hmade]
    rcases hstep.after x hx with hid | ⟨ha, -⟩
    · exact .inl (.inr hid)
    · exact (h.made x ha).imp_left .inl
  · rcases (hused x).mp hx with hold | hnow
    · rcases hstep.after x ha with hid | ⟨hav, -⟩
      · exact hids x (h.source x hold) hid
      · exact h.gone x hold hav
    · rcases hstep.after x ha with hid | ⟨-, hnot⟩
      · exact hids x (h.made x (hstep.used x hnow)) hid
      · exact hnot hnow
  · rw [hmade]
    rcases (hused x).mp hx with hold | hnow
    · exact (h.source x hold).imp_left .inl
    · exact (h.made x (hstep.used x hnow)).imp_left .inl

/-- Nothing is available under the identifier of a transaction when it comes. -/
theorem Done.fresh (h : Done id uses start ds avail) (hstep : Step id uses avail t avail')
    (hfresh : ∀ i, ¬ start (id t, i)) (hinj : ∀ s ∈ ds, id s = id t → uses s = uses t)
    (hsome : ds ≠ [] → uses t ≠ []) (i : ι) : ¬ avail (id t, i) := fun ha =>
  (h.made _ ha).elim (h.id_new hstep hinj hsome) (hfresh i)

/-- Every transaction comes after those under whose identifiers it uses places. -/
def Ordered (id : τ → κ) (uses : τ → List (κ × ι)) (ts : List τ) : Prop :=
  ∀ (i j : Nat) (s t : τ), ts[i]? = some s → ts[j]? = some t → (∃ x ∈ uses s, x.1 = id t) → j < i

/-- None of the transactions up to a new one uses a place under its identifier. -/
theorem Done.not_uses (h : Done id uses start ds avail) (hstep : Step id uses avail t avail')
    (hfresh : ∀ i, ¬ start (id t, i)) (hinj : ∀ s ∈ ds, id s = id t → uses s = uses t)
    (hsome : ds ≠ [] → uses t ≠ []) {s : τ} (hs : s ∈ ds ++ [t]) {x : κ × ι} (hx : x ∈ uses s) :
    x.1 ≠ id t := by
  have hplace : x.1 ∈ ds.map id ∨ start x := by
    rcases List.mem_append.mp hs with hs | hs
    · exact h.source x (List.mem_flatMap.mpr ⟨s, hs, hx⟩)
    · rw [List.mem_singleton] at hs
      exact h.made x (hstep.used x (hs ▸ hx))
  rcases x with ⟨k, i⟩
  rintro rfl
  exact hplace.elim (h.id_new hstep hinj hsome) (hfresh i)

theorem Ordered.snoc (h : Ordered id uses ds) (hnew : ∀ s ∈ ds ++ [t], ∀ x ∈ uses s, x.1 ≠ id t) :
    Ordered id uses (ds ++ [t]) := by
  intro i j s t' hi hj hx
  have hilt := (List.getElem?_eq_some_iff.mp hi).1
  have hjlt := (List.getElem?_eq_some_iff.mp hj).1
  rw [List.length_append, List.length_singleton] at hilt hjlt
  rcases Nat.lt_succ_iff_lt_or_eq.mp hjlt with hjds | rfl
  · rcases Nat.lt_succ_iff_lt_or_eq.mp hilt with hids | rfl
    · rw [List.getElem?_append_left hids] at hi
      rw [List.getElem?_append_left hjds] at hj
      exact h i j s t' hi hj hx
    · exact hjds
  · rw [List.getElem?_concat_length, Option.some.injEq] at hj
    obtain ⟨x, hx, heq⟩ := hx
    exact absurd (hj ▸ heq) (hnew s (List.mem_of_getElem? hi) x hx)

/-- A transaction that uses nothing may come first. -/
theorem Ordered.cons (h : Ordered id uses ds) (hnone : uses t = []) : Ordered id uses (t :: ds) := by
  rintro (_ | i) j s t' hi hj hx
  · rw [List.getElem?_cons_zero, Option.some.injEq] at hi
    obtain ⟨x, hx, -⟩ := hx
    rw [← hi, hnone] at hx
    cases hx
  · cases j with
    | zero => exact Nat.succ_pos i
    | succ j =>
      rw [List.getElem?_cons_succ] at hi hj
      exact Nat.succ_lt_succ (h i j s t' hi hj hx)

theorem Done.chain {ts : List τ} (h : Done id uses start ds avail) (hc : Chain id uses avail ts avail')
    (hfresh : ∀ t ∈ ts, ∀ i, ¬ start (id t, i))
    (hinj : ∀ s ∈ ds ++ ts, ∀ t ∈ ds ++ ts, id s = id t → uses s = uses t)
    (hsome : ∀ t ∈ (ds ++ ts).tail, uses t ≠ []) :
    Done id uses start (ds ++ ts) avail' := by
  induction hc generalizing ds with
  | nil => rwa [List.append_nil]
  | @cons avail avail₁ avail₂ t ts step _ ih =>
    have hstep : Done id uses start (ds ++ [t]) avail₁ := by
      refine h.step step (hfresh t (List.mem_cons_self ..)) (fun s hs => ?_) fun hne => ?_
      · exact hinj s (List.mem_append_left _ hs) t (by simp)
      · refine hsome t ?_
        rw [List.tail_append_of_ne_nil hne]
        simp
    have happ : ds ++ t :: ts = (ds ++ [t]) ++ ts := by simp
    rw [happ] at hinj hsome ⊢
    exact ih hstep (fun s hs => hfresh s (List.mem_cons_of_mem _ hs)) hinj hsome

/-- From places none of which is under an identifier of the list: identifiers are distinct, and no
place is used twice, provided that identifiers determine the places used and that only the first
transaction may use none. -/
theorem Chain.done {ts : List τ} (hc : Chain id uses start ts avail')
    (hfresh : ∀ t ∈ ts, ∀ i, ¬ start (id t, i))
    (hinj : ∀ s ∈ ts, ∀ t ∈ ts, id s = id t → uses s = uses t)
    (hsome : ∀ t ∈ ts.tail, uses t ≠ []) : Done id uses start ts avail' :=
  Done.nil.chain hc hfresh hinj hsome

end GC.Framework.Ledger

namespace GC.Framework.Map

variable {κ ν τ : Type} [Fintype κ] (empty : ν) (v : ν → ℤ)

/-- The sum of `v` over the records of all keys. -/
def total (m : Map κ ν τ) : ℤ := ∑ k, v (m.record empty k)

variable {empty v} {m m' : Map κ ν τ}

theorem total_congr (h : ∀ k, v (m.record empty k) = v (m'.record empty k)) :
    m.total empty v = m'.total empty v :=
  Finset.sum_congr rfl fun k _ => h k

/-- Putting a record adds its measure in place of that of the old one. -/
theorem total_put [DecidableEq κ] (m : Map κ ν τ) (k : κ) (x : ν) :
    (m.put k x).total empty v = m.total empty v - v (m.record empty k) + v x := by
  rw [total, total, ← Finset.add_sum_erase _ _ (Finset.mem_univ k),
    ← Finset.add_sum_erase _ (fun i => v (m.record empty i)) (Finset.mem_univ k), record_put_self]
  have hrest : ∀ i ∈ Finset.univ.erase k, v ((m.put k x).record empty i) = v (m.record empty i) :=
    fun i hi => by rw [record_put_ne (Finset.ne_of_mem_erase hi)]
  rw [Finset.sum_congr rfl hrest]
  ring

theorem total_eq_zero (h : ∀ k, v (m.record empty k) = 0) : m.total empty v = 0 :=
  Finset.sum_eq_zero fun k _ => h k

theorem total_nonneg (h : ∀ k, 0 ≤ v (m.record empty k)) : 0 ≤ m.total empty v :=
  Finset.sum_nonneg fun k _ => h k

end GC.Framework.Map
