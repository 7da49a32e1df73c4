import Mathlib.Data.List.TakeDrop

/-!
# Sets that may report too much, and windows of them

A set that reports every key that was put into it, and perhaps others, can be cleared but cannot
forget single keys. `Recalls` is what is asked of such a set, whose operations may fail outside of
its invariant. Two of them that are cleared at staggered times remember the keys of a window: with
`2 * n` insertions to a period, the first is cleared at the start of a period and the second in the
middle (`Staggered`), so that one of them always has the last `n` keys (`Staggered.recent`).
-/

namespace GC.Framework

variable {σ κ : Type}

/-- A set by its operations, and that a state that satisfies `Ok` reports what was put into it. -/
structure Recalls (insert : σ → κ → Option σ) (contains : σ → κ → Option Bool) (clear : σ → σ)
    (Ok : σ → Prop) : Prop where
  insert_ok : ∀ s k, Ok s → ∃ s', insert s k = some s' ∧ Ok s' ∧ contains s' k = some true ∧
    ∀ k', contains s k' = some true → contains s' k' = some true
  clear_ok : ∀ s, Ok s → Ok (clear s)

/-- The state of two sets after `i` insertions of the current period, where `keys` were inserted
before, the last one first: which of them each set has at least. -/
structure Staggered (contains : σ → κ → Option Bool) (Ok : σ → Prop) (n : Nat) (b1 b2 : σ) (i : Nat)
    (keys : List κ) : Prop where
  lt : i < 2 * n
  ok1 : Ok b1
  ok2 : Ok b2
  first : ∀ k ∈ keys.take (if i = 0 then 2 * n else i), contains b1 k = some true
  second : ∀ k ∈ keys.take (if i ≤ n then i + n else i - n), contains b2 k = some true

variable {insert : σ → κ → Option σ} {contains : σ → κ → Option Bool} {clear : σ → σ} {Ok : σ → Prop}
  {n i : Nat} {b1 b2 : σ} {keys : List κ}

/-- One key more is reported after it was inserted. -/
theorem Recalls.insert_take (h : Recalls insert contains clear Ok) {b : σ} (hb : Ok b) (k : κ)
    {j : Nat} (hkeys : ∀ k' ∈ keys.take j, contains b k' = some true) :
    ∃ b', insert b k = some b' ∧ Ok b' ∧
      ∀ k' ∈ (k :: keys).take (j + 1), contains b' k' = some true := by
  obtain ⟨b', hb', hok, hk, hmono⟩ := h.insert_ok b k hb
  refine ⟨b', hb', hok, fun k' hk' => ?_⟩
  rw [List.take_succ_cons] at hk'
  rcases List.mem_cons.mp hk' with rfl | hk'
  · exact hk
  · exact hmono k' (hkeys k' hk')

namespace Staggered

theorem empty (hn : 1 ≤ n) (hb1 : Ok b1) (hb2 : Ok b2) :
    Staggered contains Ok n b1 b2 0 ([] : List κ) where
  lt := by omega
  ok1 := hb1
  ok2 := hb2
  first := by simp
  second := by simp

theorem mem_take_of_le {m m' : Nat} (hm : m ≤ m') {k : κ} (hk : k ∈ keys.take m) : k ∈ keys.take m' :=
  List.take_subset_take_left keys hm hk

/-- Inserting a key into both sets, of which one is cleared first at the start and in the middle of a
period. -/
theorem put (h : Recalls insert contains clear Ok) (hs : Staggered contains Ok n b1 b2 i keys)
    (k : κ) :
    ∃ b1' b2', insert (if i = 0 then clear b1 else b1) k = some b1' ∧
      insert (if i ≠ 0 ∧ i = n then clear b2 else b2) k = some b2' ∧
      Staggered contains Ok n b1' b2' (if i + 1 = 2 * n then 0 else i + 1) (k :: keys) := by
  have hlt := hs.lt
  -- how many keys each set has before the insertion, after it was cleared
  have hfirst : Ok (if i = 0 then clear b1 else b1) ∧ ∀ k' ∈ keys.take i,
      contains (if i = 0 then clear b1 else b1) k' = some true := by
    by_cases h0 : i = 0
    · rw [if_pos h0, h0, List.take_zero]
      exact ⟨h.clear_ok b1 hs.ok1, nofun⟩
    · rw [if_neg h0]
      have hkeys := hs.first
      rw [if_neg h0] at hkeys
      exact ⟨hs.ok1, hkeys⟩
  have hsecond : Ok (if i ≠ 0 ∧ i = n then clear b2 else b2) ∧
      ∀ k' ∈ keys.take (if i < n then i + n else i - n),
        contains (if i ≠ 0 ∧ i = n then clear b2 else b2) k' = some true := by
    by_cases hmid : i ≠ 0 ∧ i = n
    · rw [if_pos hmid, if_neg (by omega), hmid.2, Nat.sub_self, List.take_zero]
      exact ⟨h.clear_ok b2 hs.ok2, nofun⟩
    · rw [if_neg hmid]
      refine ⟨hs.ok2, fun k' hk' => hs.second k' (mem_take_of_le ?_ hk')⟩
      split_ifs <;> omega
  obtain ⟨b1', hb1', hok1, hkeys1⟩ := h.insert_take hfirst.1 k hfirst.2
  obtain ⟨b2', hb2', hok2, hkeys2⟩ := h.insert_take hsecond.1 k hsecond.2
  refine ⟨b1', b2', hb1', hb2', ?_⟩
  by_cases hwrap : i + 1 = 2 * n
  · -- the period ends: both sets are as large as they get before the next one is cleared
    rw [if_pos hwrap]
    exact ⟨by omega, hok1, hok2,
      fun k' hk' => hkeys1 k' (mem_take_of_le (by rw [if_pos rfl]; omega) hk'),
      fun k' hk' => hkeys2 k' (mem_take_of_le (by split_ifs <;> omega) hk')⟩
  · rw [if_neg hwrap]
    exact ⟨by omega, hok1, hok2,
      fun k' hk' => hkeys1 k' (mem_take_of_le (Nat.le_of_eq (if_neg (Nat.succ_ne_zero i))) hk'),
      fun k' hk' => hkeys2 k' (mem_take_of_le (by split_ifs <;> omega) hk')⟩

/-- The set that is asked has the last `n` keys. -/
theorem recent (hs : Staggered contains Ok n b1 b2 i keys) {k : κ} (hk : k ∈ keys.take n) :
    (if i < n then contains b2 k else contains b1 k) = some true := by
  by_cases hi : i < n
  · rw [if_pos hi]
    exact hs.second k (mem_take_of_le (by rw [if_pos (by omega)]; omega) hk)
  · rw [if_neg hi]
    exact hs.first k (mem_take_of_le (by split_ifs <;> omega) hk)

end Staggered

end GC.Framework
