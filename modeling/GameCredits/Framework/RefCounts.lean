import GameCredits.Framework.Assoc

/-!
# Reference counts

A map from keys to counters, and a log. `touch` replaces what the map has for a key by a function of
it and logs what depends on it; over distinct keys each is touched once, as it was at first
(`lookup_foldl_touch`, `log_foldl_touch`). With the counters of a type (`Counter`), whose numbers may
wrap at some bound, a map holds the counts that are not zero (`Counter.Holds`). Where every key of a
list gets one holder more, or one holder less, it holds the new counts (`Counter.Holds.retain`,
`Counter.Holds.release`).
-/

namespace GC.Framework.RefCounts

variable {κ ν ε : Type} [DecidableEq κ]

/-! ## Touching keys -/

/-- The map with what a key has replaced. -/
def put (m : Assoc.Map κ ν) (k : κ) : Option ν → Assoc.Map κ ν
  | none => m.erase k
  | some v => m.insert k v

@[simp] theorem lookup_put (m : Assoc.Map κ ν) (k i : κ) (o : Option ν) :
    (put m k o).lookup i = if i = k then o else m.lookup i := by
  split_ifs with h
  · subst h
    cases o with
    | none => exact AList.lookup_erase i m
    | some v => exact AList.lookup_insert m
  · cases o with
    | none => exact AList.lookup_erase_ne h
    | some v => exact AList.lookup_insert_ne h

/-- A key is changed by `f`, and what `g` says is logged. -/
def touch (f : Option ν → Option ν) (g : κ → Option ν → Option ε) (t : Assoc.Map κ ν × List ε)
    (k : κ) : Assoc.Map κ ν × List ε :=
  (put t.1 k (f (t.1.lookup k)), t.2 ++ (g k (t.1.lookup k)).toList)

variable {f : Option ν → Option ν} {g : κ → Option ν → Option ε} {t : Assoc.Map κ ν × List ε}
  {ks : List κ}

theorem lookup_foldl_touch (h : ks.Nodup) (i : κ) :
    (ks.foldl (touch f g) t).1.lookup i = if i ∈ ks then f (t.1.lookup i) else t.1.lookup i := by
  induction ks generalizing t with
  | nil => rw [List.foldl_nil, if_neg List.not_mem_nil]
  | cons k ks ih =>
    obtain ⟨hk, hks⟩ := List.nodup_cons.mp h
    rw [List.foldl_cons, ih hks, touch, lookup_put]
    by_cases hik : i = k
    · subst hik
      rw [if_neg hk, if_pos rfl, if_pos List.mem_cons_self]
    · rw [if_neg hik]
      simp only [List.mem_cons, hik, false_or]

theorem log_foldl_touch (h : ks.Nodup) :
    (ks.foldl (touch f g) t).2 = t.2 ++ ks.filterMap fun k => g k (t.1.lookup k) := by
  induction ks generalizing t with
  | nil => rw [List.foldl_nil, List.filterMap_nil, List.append_nil]
  | cons k ks ih =>
    obtain ⟨hk, hks⟩ := List.nodup_cons.mp h
    -- the other keys are still as they were
    have hrest : (ks.filterMap fun i => g i ((touch f g t k).1.lookup i)) =
        ks.filterMap fun i => g i (t.1.lookup i) := by
      refine List.filterMap_congr fun i hi => ?_
      have hne : i ≠ k := fun heq => hk (heq ▸ hi)
      rw [touch, lookup_put, if_neg hne]
    rw [List.foldl_cons, ih hks, hrest, touch, List.append_assoc, List.filterMap_cons]
    cases g k (t.1.lookup k) with
    | none => rfl
    | some e => rfl

/-! ## Counters -/

/-- A type of counters: the counter of each number, the next and the previous one. Numbers below the
bound are told from zero. -/
structure Counter (ν : Type) where
  ofNat : Nat → ν
  succ : ν → ν
  pred : ν → ν
  bound : Nat
  succ_ofNat : ∀ n, succ (ofNat n) = ofNat (n + 1)
  pred_ofNat : ∀ n, pred (ofNat (n + 1)) = ofNat n
  ne_zero : ∀ n, 0 < n → n < bound → ofNat n ≠ ofNat 0

namespace Counter

variable (C : Counter ν)

/-- What a map has for a key with a number of holders. -/
def entry (n : Nat) : Option ν := if n = 0 then none else some (C.ofNat n)

/-- One holder more. -/
def retain : Option ν → Option ν
  | none => some (C.ofNat 1)
  | some c => some (C.succ c)

/-- One holder less; the last one takes the entry away. -/
def release [DecidableEq ν] : Option ν → Option ν
  | none => none
  | some c => if C.pred c = C.ofNat 0 then none else some (C.pred c)

@[simp] theorem entry_zero : C.entry 0 = none := rfl

theorem entry_pos {n : Nat} (h : 0 < n) : C.entry n = some (C.ofNat n) := if_neg h.ne'

theorem entry_eq_none {n : Nat} : C.entry n = none ↔ n = 0 := by
  cases n with
  | zero => exact iff_of_true rfl rfl
  | succ n => exact iff_of_false (Option.some_ne_none _) n.succ_ne_zero

theorem retain_entry (n : Nat) : C.retain (C.entry n) = C.entry (n + 1) := by
  cases n with
  | zero => rfl
  | succ n => rw [entry_pos _ n.succ_pos, retain, C.succ_ofNat, entry_pos _ (Nat.succ_pos _)]

theorem release_entry [DecidableEq ν] {n : Nat} (h : n ≤ C.bound) :
    C.release (C.entry n) = C.entry (n - 1) := by
  cases n with
  | zero => rfl
  | succ n =>
    rw [entry_pos _ n.succ_pos, release, C.pred_ofNat, Nat.add_sub_cancel]
    cases n with
    | zero => rw [if_pos rfl, entry_zero]
    | succ n => rw [if_neg (C.ne_zero _ n.succ_pos h), entry_pos _ n.succ_pos]

/-- The map holds the counts that are not zero. -/
def Holds (m : Assoc.Map κ ν) (count : κ → Nat) : Prop := ∀ k, m.lookup k = C.entry (count k)

variable {C} {count count' : κ → Nat}

/-- Some keys get a holder more. -/
theorem Holds.retain (h : C.Holds t.1 count) (hks : ks.Nodup)
    (hcount : ∀ k, count' k = count k + if k ∈ ks then 1 else 0) :
    C.Holds (ks.foldl (touch C.retain g) t).1 count' := by
  intro k
  rw [lookup_foldl_touch hks, h k, hcount k]
  split_ifs
  · exact C.retain_entry _
  · rfl

/-- Some keys get a holder less. -/
theorem Holds.release [DecidableEq ν] (h : C.Holds t.1 count) (hks : ks.Nodup)
    (hbound : ∀ k ∈ ks, count k ≤ C.bound)
    (hcount : ∀ k, count' k = count k - if k ∈ ks then 1 else 0) :
    C.Holds (ks.foldl (touch C.release g) t).1 count' := by
  intro k
  rw [lookup_foldl_touch hks, h k, hcount k]
  split_ifs with hk
  · exact C.release_entry (hbound k hk)
  · rfl

end Counter

end GC.Framework.RefCounts
