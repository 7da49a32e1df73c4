import GameCredits.Framework.Run
import GameCredits.Model.Reorder

/-!
# When the order of an old wallet is kept

The offsets are new positions, but are compared with old ones, so that an offset above the old position of
an entry is missed. As long as each entry has room for the offsets that it misses (`Room`) the new positions
increase (`Inv.step`); the first entry that has none gets a position that another entry has, or one that is
no `int64_t` (`not_reordered_step`).
-/

namespace GC.Reorder

open Framework (Throughout)

variable {wallet : Wallet} {writes : Nat → Bool} {before : TxPair → Int} {done items : List (Int × TxPair)}
  {x : Int × TxPair} {s : State}

/-- What the processed entries should be afterwards: their positions are not negative, increase with
time, and for one time in the order in which they are processed; `nOrderPosNext` is above them; and the
entries that had a position before are in the same order. -/
structure Reordered (before : TxPair → Int) (done : List (Int × TxPair)) (s : State) : Prop where
  sorted : done.Pairwise fun x y => x.1 ≤ y.1 ∧ s.nOrderPos x.2 < s.nOrderPos y.2
  nonneg : ∀ x ∈ done, 0 ≤ s.nOrderPos x.2
  lt_next : ∀ x ∈ done, s.nOrderPos x.2 < s.nOrderPosNext
  relative : ∀ x ∈ done, ∀ y ∈ done, before x.2 ≠ -1 → before y.2 ≠ -1 →
    (before x.2 < before y.2 ↔ s.nOrderPos x.2 < s.nOrderPos y.2)

/-- The offsets above the position of the entry, which it misses, have room below it; and positions stay in
the range of an `int64_t`. -/
def Room (x : Int × TxPair) (s : State) : Prop :=
  let missed := s.nOrderPosOffsets.countP fun nOffsetStart => decide (s.nOrderPos x.2 < nOffsetStart)
  if s.nOrderPos x.2 = -1 then s.nOrderPosNext + 1 < 2 ^ 63
  else s.nOrderPosNext + missed ≤ s.nOrderPos x.2 + s.nOrderPosOffsets.length ∧
    s.nOrderPos x.2 + s.nOrderPosOffsets.length - missed + 1 < 2 ^ 63

/-- The step of the loop, where it goes on. -/
def next (wallet : Wallet) (writes : Nat → Bool) (x : Int × TxPair) (s : State) : Option State :=
  let r := step wallet writes x.2 s
  if r.2 then some r.1 else none

/-- The entries that the loop processes: all, or those up to the first one whose write fails. -/
def processed (wallet : Wallet) (writes : Nat → Bool) : List (Int × TxPair) → State → List (Int × TxPair)
  | [], _ => []
  | x :: items, s =>
    let r := step wallet writes x.2 s
    x :: if r.2 then processed wallet writes items r.1 else []

/-! ## What a step does -/

/-- The offsets that an entry counts. -/
def counted (p : Int) (offsets : List Int) : Nat := offsets.countP fun o => decide (p ≥ o)

theorem counted_add_missed (p : Int) (offsets : List Int) :
    counted p offsets + offsets.countP (fun o => decide (p < o)) = offsets.length := by
  rw [List.length_eq_countP_add_countP fun o => decide (p ≥ o), counted]
  congr 1
  refine List.countP_congr fun o _ => ?_
  simp only [decide_eq_true_eq, ge_iff_le, not_le]

@[simp] theorem nOrderPos_write (item : TxPair) (s : State) :
    (write wallet writes item s).1.nOrderPos = s.nOrderPos := by
  unfold write
  split_ifs <;> rfl

@[simp] theorem nOrderPosNext_write (item : TxPair) (s : State) :
    (write wallet writes item s).1.nOrderPosNext = s.nOrderPosNext := by
  unfold write
  split_ifs <;> rfl

@[simp] theorem nOrderPosOffsets_write (item : TxPair) (s : State) :
    (write wallet writes item s).1.nOrderPosOffsets = s.nOrderPosOffsets := by
  unfold write
  split_ifs <;> rfl

/-- A step for an entry without a position. -/
theorem step_new (wallet : Wallet) (writes : Nat → Bool) (h : s.nOrderPos x.2 = -1) :
    (step wallet writes x.2 s).1.nOrderPos = Function.update s.nOrderPos x.2 s.nOrderPosNext ∧
      (step wallet writes x.2 s).1.nOrderPosNext = int64 (s.nOrderPosNext + 1) ∧
      (step wallet writes x.2 s).1.nOrderPosOffsets = s.nOrderPosOffsets ++ [s.nOrderPosNext] := by
  simp only [step, if_pos h, nOrderPos_write, nOrderPosNext_write, nOrderPosOffsets_write, and_self]

/-- A step for an entry with a position. -/
theorem step_old (wallet : Wallet) (writes : Nat → Bool) (h : s.nOrderPos x.2 ≠ -1) :
    (step wallet writes x.2 s).1.nOrderPos = Function.update s.nOrderPos x.2
        (int64 (s.nOrderPos x.2 + counted (s.nOrderPos x.2) s.nOrderPosOffsets)) ∧
      (step wallet writes x.2 s).1.nOrderPosNext = max s.nOrderPosNext
        (int64 (int64 (s.nOrderPos x.2 + counted (s.nOrderPos x.2) s.nOrderPosOffsets) + 1)) ∧
      (step wallet writes x.2 s).1.nOrderPosOffsets = s.nOrderPosOffsets := by
  simp only [step, if_neg h, counted]
  split_ifs
  · exact ⟨rfl, rfl, rfl⟩
  · simp only [nOrderPos_write, nOrderPosNext_write, nOrderPosOffsets_write, and_self]

/-- The objects of the other entries stay. -/
theorem nOrderPos_step {item : TxPair} (h : item ≠ x.2) :
    (step wallet writes x.2 s).1.nOrderPos item = s.nOrderPos item := by
  by_cases hpos : s.nOrderPos x.2 = -1
  · rw [(step_new wallet writes hpos).1, Function.update_of_ne h]
  · rw [(step_old wallet writes hpos).1, Function.update_of_ne h]

theorem loop_cons : loop wallet writes (x :: items) s = if (step wallet writes x.2 s).2 then
    loop wallet writes items (step wallet writes x.2 s).1 else ((step wallet writes x.2 s).1, false) := rfl

theorem nOrderPos_loop {item : TxPair} (h : ∀ x ∈ items, item ≠ x.2) (s : State) :
    (loop wallet writes items s).1.nOrderPos item = s.nOrderPos item := by
  induction items generalizing s with
  | nil => rfl
  | cons x items ih =>
    obtain ⟨hx, hitems⟩ := List.forall_mem_cons.mp h
    rw [loop_cons]
    split_ifs
    · rw [ih hitems, nOrderPos_step hx]
    · exact nOrderPos_step hx

theorem int64_lt (x : Int) : int64 x < 2 ^ 63 := by
  have h := Int.bmod_lt (x := x) (m := 2 ^ 64) (by decide)
  unfold int64
  omega

theorem int64_wrap {x : Int} (h₁ : 2 ^ 63 ≤ x) (h₂ : x < 2 ^ 63 + 2 ^ 64) : int64 x = x - 2 ^ 64 := by
  have h : int64 (x - 2 ^ 64) = int64 x := Int.sub_bmod_right x (2 ^ 64)
  rw [← h]
  exact int64_eq (by omega) (by omega)

theorem nOrderPosNext_step (h : s.nOrderPosNext < 2 ^ 63) :
    (step wallet writes x.2 s).1.nOrderPosNext < 2 ^ 63 := by
  by_cases hpos : s.nOrderPos x.2 = -1
  · rw [(step_new wallet writes hpos).2.1]
    exact int64_lt _
  · rw [(step_old wallet writes hpos).2.1]
    exact max_lt h (int64_lt _)

theorem nOrderPosNext_loop (h : s.nOrderPosNext < 2 ^ 63) :
    (loop wallet writes items s).1.nOrderPosNext < 2 ^ 63 := by
  induction items generalizing s with
  | nil => exact h
  | cons x items ih =>
    rw [loop_cons]
    split_ifs
    · exact ih (nOrderPosNext_step h)
    · exact nOrderPosNext_step h

/-! ## The invariant -/

/-- After the entries `done`, when each of them had room. -/
structure Inv (before : TxPair → Int) (done : List (Int × TxPair)) (s : State) : Prop
    extends Reordered before done s where
  next_nonneg : 0 ≤ s.nOrderPosNext
  next_lt : s.nOrderPosNext < 2 ^ 63
  last : s.nOrderPosNext = 0 ∨ ∃ x ∈ done, s.nOrderPos x.2 + 1 = s.nOrderPosNext
  offsets_lt : ∀ o ∈ s.nOrderPosOffsets, o < s.nOrderPosNext
  offsets_le : (s.nOrderPosOffsets.length : Int) ≤ s.nOrderPosNext
  rest : ∀ item, item ∉ done.map Prod.snd → s.nOrderPos item = before item
  shifted : ∀ x ∈ done, before x.2 ≠ -1 →
    s.nOrderPos x.2 = before x.2 + counted (before x.2) s.nOrderPosOffsets

theorem counted_concat {p o : Int} (h : p < o) (offsets : List Int) :
    counted p (offsets ++ [o]) = counted p offsets := by
  rw [counted, List.countP_append, List.countP_singleton, if_neg (by simpa using h), Nat.add_zero, counted]

theorem counted_mono {p q : Int} (h : p ≤ q) (offsets : List Int) :
    counted p offsets ≤ counted q offsets :=
  List.countP_mono_left fun _ _ ho => decide_eq_true ((of_decide_eq_true ho).trans h)

theorem inv_initial (wallet : Wallet) : Inv wallet.nOrderPos [] (initial wallet) where
  sorted := .nil
  nonneg x hx := absurd hx List.not_mem_nil
  lt_next x hx := absurd hx List.not_mem_nil
  relative x hx := absurd hx List.not_mem_nil
  next_nonneg := Int.le_refl 0
  next_lt := show (0 : Int) < 2 ^ 63 by decide
  last := .inl rfl
  offsets_lt o ho := absurd ho List.not_mem_nil
  offsets_le := Int.le_refl 0
  rest _ _ := rfl
  shifted x hx := absurd hx List.not_mem_nil

/-- An entry that is processed next, for a new position `p` that is not below `nOrderPosNext`. -/
theorem Inv.push (h : Inv before done s) {s' : State} {p : Int}
    (hx : x.2 ∉ done.map Prod.snd) (htime : ∀ y ∈ done, y.1 ≤ x.1)
    (hpos : s'.nOrderPos = Function.update s.nOrderPos x.2 p) (hnext : s'.nOrderPosNext = p + 1)
    (hp : s.nOrderPosNext ≤ p) (hlt : p + 1 < 2 ^ 63) (hold : before x.2 ≠ -1 →
      p = before x.2 + counted (before x.2) s.nOrderPosOffsets ∧ s'.nOrderPosOffsets = s.nOrderPosOffsets)
    (hnew : before x.2 = -1 → s'.nOrderPosOffsets = s.nOrderPosOffsets ++ [p]) :
    Inv before (done ++ [x]) s' := by
  have hnonneg := h.next_nonneg
  have hself : s'.nOrderPos x.2 = p := by rw [hpos, Function.update_self]
  have hother : ∀ y ∈ done, s'.nOrderPos y.2 = s.nOrderPos y.2 := fun y hy => by
    have hne : y.2 ≠ x.2 := fun heq => hx (heq ▸ List.mem_map_of_mem hy)
    rw [hpos, Function.update_of_ne hne]
  -- an entry that misses no more offsets than it has room for was behind the earlier ones before
  have hbehind : ∀ y ∈ done, before y.2 ≠ -1 → before x.2 ≠ -1 →
      before y.2 < before x.2 := fun y hy hy' hx' => by
    by_contra hle
    have hcount := counted_mono (not_lt.mp hle) s.nOrderPosOffsets
    have hlt := h.lt_next y hy
    rw [h.shifted y hy hy'] at hlt
    have := (hold hx').1
    omega
  refine
    { sorted := ?_
      nonneg := ?_
      lt_next := ?_
      relative := ?_
      next_nonneg := by omega
      next_lt := by omega
      last := .inr ⟨x, List.mem_append_right _ List.mem_cons_self, by rw [hself, hnext]⟩
      offsets_lt := ?_
      offsets_le := ?_
      rest := ?_
      shifted := ?_ }
  · refine List.pairwise_append.mpr ⟨?_, List.pairwise_singleton _ _, fun y hy z hz => ?_⟩
    · exact h.sorted.imp_of_mem fun ha hb hab => by rwa [hother _ ha, hother _ hb]
    · rw [List.mem_singleton.mp hz, hother y hy, hself]
      exact ⟨htime y hy, (h.lt_next y hy).trans_le hp⟩
  · intro y hy
    rcases List.mem_append.mp hy with hy | hy
    · rw [hother y hy]
      exact h.nonneg y hy
    · rw [List.mem_singleton.mp hy, hself]
      omega
  · intro y hy
    rw [hnext]
    rcases List.mem_append.mp hy with hy | hy
    · rw [hother y hy]
      have := h.lt_next y hy
      omega
    · rw [List.mem_singleton.mp hy, hself]
      omega
  · intro y hy z hz hy' hz'
    rcases List.mem_append.mp hy with hy | hy <;> rcases List.mem_append.mp hz with hz | hz
    · rw [hother y hy, hother z hz]
      exact h.relative y hy z hz hy' hz'
    · rw [List.mem_singleton.mp hz] at hz' ⊢
      rw [hother y hy, hself]
      exact iff_of_true (hbehind y hy hy' hz') ((h.lt_next y hy).trans_le hp)
    · rw [List.mem_singleton.mp hy] at hy' ⊢
      rw [hother z hz, hself]
      exact iff_of_false (hbehind z hz hz' hy').not_gt ((h.lt_next z hz).trans_le hp).not_gt
    · rw [List.mem_singleton.mp hy, List.mem_singleton.mp hz]
      exact iff_of_false (lt_irrefl _) (lt_irrefl _)
  · intro o ho
    by_cases hx' : before x.2 = -1
    · rw [hnew hx'] at ho
      rcases List.mem_append.mp ho with ho | ho
      · have := h.offsets_lt o ho
        omega
      · rw [List.mem_singleton.mp ho]
        omega
    · rw [(hold hx').2] at ho
      have := h.offsets_lt o ho
      omega
  · have hle := h.offsets_le
    by_cases hx' : before x.2 = -1
    · rw [hnew hx', List.length_append, List.length_singleton]
      omega
    · rw [(hold hx').2]
      omega
  · intro item hitem
    rw [List.map_append, List.mem_append, not_or] at hitem
    have hne : item ≠ x.2 := fun heq => hitem.2 (List.mem_singleton.mpr heq)
    rw [hpos, Function.update_of_ne hne]
    exact h.rest item hitem.1
  · intro y hy hy'
    rcases List.mem_append.mp hy with hy | hy
    · have hshift := h.shifted y hy hy'
      rw [hother y hy, hshift]
      by_cases hx' : before x.2 = -1
      · have := h.lt_next y hy
        rw [hnew hx', counted_concat (by omega)]
      · rw [(hold hx').2]
    · rw [List.mem_singleton.mp hy] at hy' ⊢
      rw [hself, (hold hy').2]
      exact (hold hy').1

/-- A step for an entry that has room. -/
theorem Inv.step (h : Inv before done s) (wallet : Wallet) (writes : Nat → Bool)
    (hx : x.2 ∉ done.map Prod.snd) (htime : ∀ y ∈ done, y.1 ≤ x.1) (hroom : Room x s) :
    Inv before (done ++ [x]) (step wallet writes x.2 s).1 := by
  have hnonneg := h.next_nonneg
  have hsame := h.rest x.2 hx
  unfold Room at hroom
  by_cases hpos : s.nOrderPos x.2 = -1
  · obtain ⟨hstep, hnext, hoffsets⟩ := step_new wallet writes hpos
    rw [if_pos hpos] at hroom
    rw [int64_eq (by omega) (by omega)] at hnext
    exact h.push hx htime hstep hnext le_rfl hroom (fun hold => absurd (hsame ▸ hpos) hold)
      fun _ => hoffsets
  · obtain ⟨hstep, hnext, hoffsets⟩ := step_old wallet writes hpos
    rw [if_neg hpos] at hroom
    have hcount := counted_add_missed (s.nOrderPos x.2) s.nOrderPosOffsets
    obtain ⟨hfits, hlt⟩ := hroom
    have hrange : int64 (s.nOrderPos x.2 + counted (s.nOrderPos x.2) s.nOrderPosOffsets) =
        s.nOrderPos x.2 + counted (s.nOrderPos x.2) s.nOrderPosOffsets := int64_eq (by omega) (by omega)
    rw [hrange] at hstep hnext
    rw [int64_eq (by omega) (by omega), max_eq_right (by omega)] at hnext
    refine h.push hx htime hstep hnext (by omega) (by omega) (fun _ => ⟨by rw [hsame], hoffsets⟩)
      fun hold => ?_
    exact absurd (hsame.trans hold) hpos

/-! ## Without room -/

/-- After the step of an entry that has no room the positions are not in order, nor are they when the
later entries have been processed, which are in `items`. -/
theorem not_reordered_step (h : Inv before done s) (hx : x.2 ∉ done.map Prod.snd)
    (hbefore : before x.2 = -1 ∨ 0 ≤ before x.2 ∧ before x.2 < 2 ^ 63) (hroom : ¬Room x s) {s' : State}
    {rest : List (Int × TxPair)} (hsame : ∀ y ∈ done, s'.nOrderPos y.2 = s.nOrderPos y.2)
    (hself : s'.nOrderPos x.2 = (step wallet writes x.2 s).1.nOrderPos x.2)
    (hlt : s'.nOrderPosNext < 2 ^ 63) : ¬Reordered before (done ++ x :: rest) s' := fun hreordered => by
  have hmem : x ∈ done ++ x :: rest := List.mem_append_right _ List.mem_cons_self
  have hx_lt := hreordered.lt_next x hmem
  have hx_nonneg := hreordered.nonneg x hmem
  have hnonneg := h.next_nonneg
  have hnext_lt := h.next_lt
  have hpos := h.rest x.2 hx
  unfold Room at hroom
  by_cases hold : s.nOrderPos x.2 = -1
  · -- the last number of the type is the entry's position, and nothing is above it
    rw [if_pos hold] at hroom
    rw [hself, (step_new wallet writes hold).1, Function.update_self] at hx_lt
    omega
  · have hcount := counted_add_missed (s.nOrderPos x.2) s.nOrderPosOffsets
    have hoffsets := h.offsets_le
    rw [if_neg hold, not_and_or] at hroom
    rw [hself, (step_old wallet writes hold).1, Function.update_self] at hx_lt hx_nonneg
    obtain hbefore | hbefore := hbefore
    · exact hold (hpos.trans hbefore)
    rw [← hpos] at hbefore
    by_cases hrange : s.nOrderPos x.2 + counted (s.nOrderPos x.2) s.nOrderPosOffsets < 2 ^ 63
    · rw [int64_eq (by omega) hrange] at hx_lt hx_nonneg
      -- the entry with the last position is not behind this one
      have hlow : s.nOrderPos x.2 + counted (s.nOrderPos x.2) s.nOrderPosOffsets < s.nOrderPosNext := by
        omega
      obtain hzero | ⟨y, hy, hlast⟩ := h.last
      · omega
      · have hsorted := (List.pairwise_append.mp hreordered.sorted).2.2 y hy x List.mem_cons_self
        rw [hsame y hy, hself, (step_old wallet writes hold).1, Function.update_self,
          int64_eq (by omega) hrange] at hsorted
        omega
    · -- the position wraps to a negative number
      rw [int64_wrap (by omega) (by omega)] at hx_nonneg
      omega

/-! ## Runs -/

theorem reordered_loop (h : Inv before done s) (hnodup : ((done ++ items).map Prod.snd).Nodup)
    (htime : (done ++ items).Pairwise fun x y => x.1 ≤ y.1)
    (hbefore : ∀ x ∈ items, before x.2 = -1 ∨ 0 ≤ before x.2 ∧ before x.2 < 2 ^ 63) :
    Reordered before (done ++ processed wallet writes items s) (loop wallet writes items s).1 ↔
      Throughout (next wallet writes) Room items s := by
  induction items generalizing done s with
  | nil =>
    rw [processed, List.append_nil]
    exact iff_of_true h.toReordered trivial
  | cons x items ih =>
    obtain ⟨hx, hbefore⟩ := List.forall_mem_cons.mp hbefore
    have hapart : ∀ y ∈ done, ∀ z ∈ x :: items, y.2 ≠ z.2 := fun y hy z hz heq => by
      rw [List.map_append] at hnodup
      refine List.disjoint_of_nodup_append hnodup (List.mem_map_of_mem hy) ?_
      rw [heq]
      exact List.mem_map_of_mem hz
    have hdone : x.2 ∉ done.map Prod.snd := fun hmem => by
      obtain ⟨y, hy, heq⟩ := List.mem_map.mp hmem
      exact hapart y hy x List.mem_cons_self heq
    have hlater : ∀ y ∈ done, y.1 ≤ x.1 := fun y hy =>
      (List.pairwise_append.mp htime).2.2 y hy x List.mem_cons_self
    have hassoc : done ++ x :: items = (done ++ [x]) ++ items := by rw [List.append_assoc]; rfl
    by_cases hroom : Room x s
    · have hstep := h.step wallet writes hdone hlater hroom
      rw [Throughout, and_iff_right hroom, processed, loop_cons]
      cases hgo : (step wallet writes x.2 s).2 with
      | false =>
        refine iff_of_true hstep.toReordered fun s' hnext => ?_
        rw [next, hgo] at hnext
        cases hnext
      | true =>
        have hnext : next wallet writes x s = some (step wallet writes x.2 s).1 := if_pos hgo
        simp only [↓reduceIte, hnext, Option.some.injEq, forall_eq']
        rw [hassoc] at hnodup htime
        have hassoc' : ∀ l, done ++ x :: l = (done ++ [x]) ++ l := fun l => by
          rw [List.append_assoc]
          rfl
        rw [hassoc']
        exact ih hstep hnodup htime hbefore
    · refine iff_of_false ?_ fun h => hroom h.1
      have hself : ∀ z ∈ items, x.2 ≠ z.2 := fun z hz heq => by
        rw [List.map_append, List.map_cons] at hnodup
        exact (List.nodup_cons.mp (List.nodup_append.mp hnodup).2.1).1 (heq ▸ List.mem_map_of_mem hz)
      have hlast : (loop wallet writes (x :: items) s).1.nOrderPos x.2 =
          (step wallet writes x.2 s).1.nOrderPos x.2 := by
        rw [loop_cons]
        split_ifs
        · exact nOrderPos_loop hself _
        · rfl
      exact not_reordered_step h hdone hx hroom (fun y hy => nOrderPos_loop (hapart y hy) s) hlast
        (nOrderPosNext_loop h.next_lt)

/-! ## The function -/

/-- No two elements of the multimap point to one object. -/
theorem nodup_txByTime (wallet : Wallet) : (wallet.txByTime.map Prod.snd).Nodup := by
  have hperm : (wallet.txByTime.map Prod.snd).Perm (wallet.inserted.map Prod.snd) :=
    (Framework.Multimap.foldl_insert_perm wallet.inserted []).map _
  rw [hperm.nodup_iff, Wallet.inserted, List.map_append, List.map_map, List.map_map]
  refine List.nodup_append.mpr ⟨?_, ?_, ?_⟩
  · have hmap :
        wallet.mapWallet.map (Prod.snd ∘ fun e => ((e.2.nTimeReceived.toNat : Int), TxPair.tx e.1)) =
          (wallet.mapWallet.map Prod.fst).map TxPair.tx := by
      rw [List.map_map]
      rfl
    rw [hmap]
    exact List.Nodup.map (fun a b hab => by injection hab) wallet.keys
  · have hmap : wallet.acentries.zipIdx.map (Prod.snd ∘ fun e => (e.1.nTime, TxPair.acentry e.2)) =
        (List.range' 0 wallet.acentries.length).map TxPair.acentry := by
      rw [← List.zipIdx_map_snd, List.map_map]
      rfl
    rw [hmap]
    exact List.Nodup.map (fun a b hab => by injection hab) List.nodup_range'
  · intro p hp q hq heq
    obtain ⟨e, -, rfl⟩ := List.mem_map.mp hp
    obtain ⟨f, -, rfl⟩ := List.mem_map.mp hq
    cases heq

theorem sorted_txByTime (wallet : Wallet) : wallet.txByTime.Pairwise fun x y => x.1 ≤ y.1 :=
  Framework.Multimap.sorted_foldl_insert wallet.inserted List.Pairwise.nil

/-- Where the function does not fail, it processes all entries. -/
theorem processed_of_loadOk (h : (reorderTransactions wallet writes).1 = .loadOk) :
    processed wallet writes wallet.txByTime (initial wallet) = wallet.txByTime := by
  have hloop : ∀ (items : List (Int × TxPair)) (s : State), (loop wallet writes items s).2 = true →
      processed wallet writes items s = items := fun items => by
    induction items with
    | nil => exact fun _ _ => rfl
    | cons x items ih =>
      intro s hs
      rw [loop_cons] at hs
      rw [processed]
      split_ifs at hs ⊢ with hgo
      rw [ih _ hs]
  refine hloop _ _ ?_
  by_contra hfail
  unfold reorderTransactions at h
  dsimp only at h
  rw [if_neg hfail] at h
  cases h

theorem Reordered.congr {s' : State} (hpos : s'.nOrderPos = s.nOrderPos)
    (hnext : s'.nOrderPosNext = s.nOrderPosNext) : Reordered before done s' ↔ Reordered before done s := by
  constructor
  · rintro ⟨h₁, h₂, h₃, h₄⟩
    exact ⟨hpos ▸ h₁, hpos ▸ h₂, hpos ▸ hnext ▸ h₃, hpos ▸ h₄⟩
  · rintro ⟨h₁, h₂, h₃, h₄⟩
    exact ⟨hpos ▸ h₁, hpos ▸ h₂, hpos ▸ hnext ▸ h₃, hpos ▸ h₄⟩

/-- Two transactions without a position, and one entry with the position 2 behind them. -/
def roomyWallet : Wallet where
  mapWallet := [(1, ⟨10, -1⟩), (2, ⟨20, -1⟩)]
  acentries := [⟨30, 2, 1⟩]
  keys := by decide

/-- The same with the position 0, of which the offset 1 is missed. -/
def crowdedWallet : Wallet where
  mapWallet := [(1, ⟨10, -1⟩), (2, ⟨20, -1⟩), (3, ⟨30, 0⟩)]
  acentries := []
  keys := by decide

end GC.Reorder
