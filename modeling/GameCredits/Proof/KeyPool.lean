import GameCredits.Model.KeyPool
import Mathlib.Data.List.Nodup
import Mathlib.Data.List.Perm.Basic
import Mathlib.Tactic.Common

/-!
# The key pool

What the critical sections maintain of the wallet (`WalletOk`) while no index that is reserved is
written again: every index of the pool and every reserved one has a record, no two records have the
same key, and no record has a key that was handed out.

* `keyPool_safe`: in every run in which `TopUpKeyPool` and `NewKeyPool` write no reserved index.
* `reusedOps_unsafe`: a run in which they do.
-/

namespace GC

open Framework

theorem indexTotal : SortedSet.Total indexLess where
  irrefl := fun a => by simp [indexLess]
  trans := fun a b c => by simp only [indexLess, decide_eq_true_eq]; omega
  tri := fun a b => by simp only [indexLess, decide_eq_false_iff_not]; omega

/-- What a wallet maintains, where `held` are the reserved indices and `handed` the keys handed
out. -/
structure WalletOk (held : Nat → Prop) (handed : List KeyId) (w : KeyWallet) : Prop where
  sorted : SortedSet.Sorted indexLess w.setKeyPool
  known : ∀ i r, w.pool i = some r → r.vchPubKey < w.nKeys
  inj : ∀ i j r r', w.pool i = some r → w.pool j = some r' → r.vchPubKey = r'.vchPubKey → i = j
  recorded : ∀ i ∈ w.setKeyPool, (w.pool i).isSome = true
  reserved : ∀ i, held i → i ∉ w.setKeyPool ∧ (w.pool i).isSome = true
  used : ∀ k ∈ handed, k < w.nKeys ∧ ∀ i r, w.pool i = some r → r.vchPubKey ≠ k
  nodup : handed.Nodup

section

variable {held held' : Nat → Prop} {handed : List KeyId} {w w' : KeyWallet} {nIndex : Nat}
  {getTime : KeyId → Int} {keypool : Nat}

theorem WalletOk.congr (h : WalletOk held handed w) (hheld : ∀ i, held' i ↔ held i) :
    WalletOk held' handed w :=
  ⟨h.sorted, h.known, h.inj, h.recorded, fun i hi => h.reserved i ((hheld i).mp hi), h.used, h.nodup⟩

theorem mem_insertIndex (h : SortedSet.Sorted indexLess w.setKeyPool) {i : Nat} :
    i ∈ (w.insertIndex nIndex).setKeyPool ↔ i = nIndex ∨ i ∈ w.setKeyPool :=
  SortedSet.mem_insert indexTotal h

/-! ## Keys added -/

theorem addKey_pool (w : KeyWallet) (nIndex : Nat) (i : Nat) : (w.addKey getTime nIndex).pool i =
    if i = nIndex then some ⟨getTime w.nKeys, w.nKeys⟩ else w.pool i := rfl

theorem addKey_nKeys (w : KeyWallet) (nIndex : Nat) :
    (w.addKey getTime nIndex).nKeys = w.nKeys + 1 := rfl

/-- A new key is written under an index that is not reserved. -/
theorem WalletOk.addKey (h : WalletOk held handed w) (hfree : ¬ held nIndex) :
    WalletOk held handed (w.addKey getTime nIndex) where
  sorted := SortedSet.sorted_insert indexTotal h.sorted
  known := fun i r hr => by
    rw [addKey_pool] at hr
    rw [addKey_nKeys]
    split_ifs at hr
    · cases hr
      exact Nat.lt_succ_self _
    · exact Nat.lt_succ_of_lt (h.known i r hr)
  inj := fun i j r r' hr hr' hkey => by
    rw [addKey_pool] at hr hr'
    split_ifs at hr hr' with hi hj
    · exact hi.trans hj.symm
    · cases hr
      exact absurd hkey.symm (Nat.ne_of_lt (h.known j r' hr'))
    · cases hr'
      exact absurd hkey (Nat.ne_of_lt (h.known i r hr))
    · exact h.inj i j r r' hr hr' hkey
  recorded := fun i hi => by
    rw [addKey_pool]
    split_ifs with heq
    · rfl
    · exact h.recorded i (((mem_insertIndex h.sorted).mp hi).resolve_left heq)
  reserved := fun i hi => by
    have hne : i ≠ nIndex := fun heq => hfree (heq ▸ hi)
    obtain ⟨hnot, hsome⟩ := h.reserved i hi
    refine ⟨fun hmem => ?_, ?_⟩
    · exact ((mem_insertIndex h.sorted).mp hmem).elim hne hnot
    · rw [addKey_pool, if_neg hne]
      exact hsome
  used := fun k hk => by
    obtain ⟨hlt, hrecords⟩ := h.used k hk
    refine ⟨Nat.lt_succ_of_lt hlt, fun i r hr => ?_⟩
    rw [addKey_pool] at hr
    split_ifs at hr
    · cases hr
      exact Nat.ne_of_gt hlt
    · exact hrecords i r hr
  nodup := h.nodup

/-- A wallet after new keys were added, the records of reserved indices being kept. -/
structure Refilled (held : Nat → Prop) (handed : List KeyId) (w w' : KeyWallet) : Prop where
  ok : WalletOk held handed w'
  kept : ∀ i, held i → w'.pool i = w.pool i

theorem Refilled.refl (h : WalletOk held handed w) : Refilled held handed w w :=
  ⟨h, fun _ _ => rfl⟩

theorem WalletOk.refilled (h : WalletOk held handed w) (hfree : ¬ held nIndex) :
    Refilled held handed w (w.addKey getTime nIndex) where
  ok := h.addKey hfree
  kept := fun i hi => if_neg fun heq : i = nIndex => hfree (heq ▸ hi)

theorem Refilled.trans {w'' : KeyWallet} (h : Refilled held handed w w')
    (h' : Refilled held handed w' w'') : Refilled held handed w w'' where
  ok := h'.ok
  kept := fun i hi => (h'.kept i hi).trans (h.kept i hi)

/-! ## TopUpKeyPool -/

/-- The index after the last one is above all others. -/
theorem lt_nEnd (h : SortedSet.Sorted indexLess w.setKeyPool) {i : Nat} (hi : i ∈ w.setKeyPool) :
    i < w.nEnd := by
  unfold KeyWallet.nEnd
  cases hlast : w.setKeyPool.getLast? with
  | none =>
    rw [List.getLast?_eq_none_iff.mp hlast] at hi
    cases hi
  | some nIndex =>
    have hle := SortedSet.le_getLast indexTotal h hlast hi
    simp only [indexLess, decide_eq_false_iff_not] at hle
    show i < nIndex + 1
    omega

theorem setKeyPool_addKey (h : SortedSet.Sorted indexLess w.setKeyPool) :
    (w.addKey getTime w.nEnd).setKeyPool = w.setKeyPool ++ [w.nEnd] :=
  SortedSet.insert_above fun i hi => by
    rw [indexLess, decide_eq_true_eq]
    exact lt_nEnd h hi

/-- The indices that `TopUpKeyPool` writes: the next ones after the last, as many as are missing. -/
def KeyWallet.topUpIndices (keypool : Nat) (w : KeyWallet) (kpSize : Nat) : List Nat :=
  if w.fLocked then []
  else (List.range (targetSize keypool kpSize - w.setKeyPool.length)).map (w.nEnd + ·)

theorem topUpFrom_refilled {size fuel : Nat} (h : WalletOk held handed w)
    (hfree : ∀ k < size - w.setKeyPool.length, ¬ held (w.nEnd + k)) :
    Refilled held handed w (KeyWallet.topUpFrom getTime size fuel w) := by
  induction fuel generalizing w with
  | zero => exact .refl h
  | succ fuel ih =>
    rw [KeyWallet.topUpFrom]
    split_ifs with hlt
    · have hadd : Refilled held handed w (w.addKey getTime w.nEnd) :=
        h.refilled (hfree 0 (by omega))
      have hpool : (w.addKey getTime w.nEnd).setKeyPool = w.setKeyPool ++ [w.nEnd] :=
        setKeyPool_addKey h.sorted
      have hend : (w.addKey getTime w.nEnd).nEnd = w.nEnd + 1 := by
        rw [KeyWallet.nEnd, hpool, List.getLast?_concat]
      refine hadd.trans (ih hadd.ok fun k hk => ?_)
      rw [hpool, List.length_append, List.length_singleton] at hk
      rw [hend, Nat.add_assoc, Nat.add_comm 1 k]
      exact hfree (k + 1) (by omega)
    · exact .refl h

theorem topUpKeyPool_refilled {kpSize : Nat} (h : WalletOk held handed w)
    (hfree : ∀ i ∈ w.topUpIndices keypool kpSize, ¬ held i) :
    Refilled held handed w (w.topUpKeyPool keypool getTime kpSize).2 := by
  unfold KeyWallet.topUpKeyPool
  split_ifs with hlocked
  · exact .refl h
  · refine topUpFrom_refilled h fun k hk => hfree _ ?_
    rw [KeyWallet.topUpIndices, if_neg hlocked]
    exact List.mem_map_of_mem (List.mem_range.mpr hk)

/-! ## NewKeyPool -/

/-- The records of the pool are erased. -/
theorem foldl_erasePool_pool (indices : List Nat) (w : KeyWallet) (i : Nat) :
    (indices.foldl KeyWallet.erasePool w).pool i = if i ∈ indices then none else w.pool i := by
  induction indices generalizing w with
  | nil => simp
  | cons j indices ih =>
    rw [List.foldl_cons, ih, KeyWallet.erasePool]
    simp only [List.mem_cons]
    by_cases hi : i ∈ indices <;> by_cases hj : i = j <;> simp [hi, hj]

theorem foldl_erasePool_fields (indices : List Nat) (w : KeyWallet) :
    (indices.foldl KeyWallet.erasePool w).nKeys = w.nKeys ∧
      (indices.foldl KeyWallet.erasePool w).fLocked = w.fLocked := by
  induction indices generalizing w with
  | nil => exact ⟨rfl, rfl⟩
  | cons j indices ih => exact ih (w.erasePool j)

theorem foldl_addKey_refilled {indices : List Nat} (h : WalletOk held handed w)
    (hfree : ∀ i ∈ indices, ¬ held i) :
    Refilled held handed w (indices.foldl (KeyWallet.addKey getTime) w) := by
  induction indices generalizing w with
  | nil => exact .refl h
  | cons i indices ih =>
    have hadd : Refilled held handed w (w.addKey getTime i) :=
      h.refilled (hfree i (List.mem_cons_self ..))
    exact hadd.trans (ih hadd.ok fun j hj => hfree j (List.mem_cons_of_mem _ hj))

theorem newKeyPool_refilled (h : WalletOk held handed w)
    (hfree : w.fLocked = false → ∀ i ∈ KeyWallet.newIndices keypool, ¬ held i) :
    Refilled held handed w (w.newKeyPool keypool getTime).2 := by
  obtain ⟨w₀, hw₀⟩ : ∃ w₀, w₀ = { w.setKeyPool.foldl KeyWallet.erasePool w with setKeyPool := [] } :=
    ⟨_, rfl⟩
  have hpool : ∀ i, w₀.pool i = if i ∈ w.setKeyPool then none else w.pool i := fun i => by
    rw [hw₀]
    exact foldl_erasePool_pool w.setKeyPool w i
  have hsub : ∀ {i r}, w₀.pool i = some r → w.pool i = some r := fun {i r} hr => by
    rw [hpool] at hr
    split_ifs at hr
    exact hr
  have hkeys : w₀.nKeys = w.nKeys := by
    rw [hw₀]
    exact (foldl_erasePool_fields w.setKeyPool w).1
  have hlocked : w₀.fLocked = w.fLocked := by
    rw [hw₀]
    exact (foldl_erasePool_fields w.setKeyPool w).2
  have hset : w₀.setKeyPool = [] := by rw [hw₀]
  have hclear : Refilled held handed w w₀ := by
    refine ⟨⟨?_, fun i r hr => ?_, fun i j r r' hr hr' => h.inj i j r r' (hsub hr) (hsub hr'),
      fun i hi => ?_, fun i hi => ?_, fun k hk => ?_, h.nodup⟩, fun i hi => ?_⟩
    · rw [hset]
      exact List.Pairwise.nil
    · rw [hkeys]
      exact h.known i r (hsub hr)
    · rw [hset] at hi
      cases hi
    · obtain ⟨hnot, hsome⟩ := h.reserved i hi
      rw [hset, hpool, if_neg hnot]
      exact ⟨List.not_mem_nil, hsome⟩
    · obtain ⟨hlt, hrecords⟩ := h.used k hk
      rw [hkeys]
      exact ⟨hlt, fun i r hr => hrecords i r (hsub hr)⟩
    · rw [hpool, if_neg (h.reserved i hi).1]
  rw [KeyWallet.newKeyPool, ← hw₀]
  simp only [hlocked]
  cases hw : w.fLocked with
  | true => exact hclear
  | false => exact hclear.trans (foldl_addKey_refilled hclear.ok (hfree hw))

/-! ## Keys taken, kept and returned -/

/-- The first index is reserved. -/
theorem WalletOk.take (h : WalletOk held handed w) {rest : List Nat}
    (hset : w.setKeyPool = nIndex :: rest) :
    ¬ held nIndex ∧
      WalletOk (fun i => i = nIndex ∨ held i) handed { w with setKeyPool := rest } := by
  have hsorted := h.sorted
  rw [hset] at hsorted
  have hnot : nIndex ∉ rest := (List.nodup_cons.mp (SortedSet.nodup indexTotal hsorted)).1
  have hmem : nIndex ∈ w.setKeyPool := hset ▸ List.mem_cons_self ..
  have hrest : ∀ i ∈ rest, i ∈ w.setKeyPool := fun i hi => hset ▸ List.mem_cons_of_mem _ hi
  refine ⟨fun hheld => (h.reserved nIndex hheld).1 hmem, ?_⟩
  refine { h with sorted := (List.pairwise_cons.mp hsorted).2, recorded := ?_, reserved := ?_ }
  · exact fun i hi => h.recorded i (hrest i hi)
  · rintro i (rfl | hi)
    · exact ⟨hnot, h.recorded i hmem⟩
    · obtain ⟨hout, hsome⟩ := h.reserved i hi
      exact ⟨fun hin => hout (hrest i hin), hsome⟩

/-- The record of a reserved index is erased, and its key handed out. -/
theorem WalletOk.keep (h : WalletOk held handed w) {r : CKeyPool} (hr : w.pool nIndex = some r)
    (hheld : held nIndex) :
    WalletOk (fun i => i ≠ nIndex ∧ held i) (r.vchPubKey :: handed) (w.keepKey nIndex) := by
  have hout := (h.reserved nIndex hheld).1
  have hpool : ∀ i, (w.keepKey nIndex).pool i = if i = nIndex then none else w.pool i :=
    fun _ => rfl
  have hsub : ∀ {i r}, (w.keepKey nIndex).pool i = some r → i ≠ nIndex ∧ w.pool i = some r :=
    fun {i r} hi => by
      rw [hpool] at hi
      split_ifs at hi with heq
      exact ⟨heq, hi⟩
  refine ⟨h.sorted, fun i r hi => h.known i r (hsub hi).2,
    fun i j r r' hi hj => h.inj i j r r' (hsub hi).2 (hsub hj).2, fun i hi => ?_, fun i hi => ?_,
    ?_, ?_⟩
  · have hne : i ≠ nIndex := fun heq => hout (heq ▸ hi)
    rw [hpool, if_neg hne]
    exact h.recorded i hi
  · obtain ⟨hnot, hsome⟩ := h.reserved i hi.2
    rw [hpool, if_neg hi.1]
    exact ⟨hnot, hsome⟩
  · rw [List.forall_mem_cons]
    refine ⟨⟨h.known nIndex r hr, fun i r' hi heq => ?_⟩, fun k hk => ?_⟩
    · exact (hsub hi).1 (h.inj i nIndex r' r (hsub hi).2 hr heq)
    · obtain ⟨hlt, hrecords⟩ := h.used k hk
      exact ⟨hlt, fun i r' hi => hrecords i r' (hsub hi).2⟩
  · exact List.nodup_cons.mpr ⟨fun hk => (h.used _ hk).2 nIndex r hr rfl, h.nodup⟩

/-- A reserved index is put back. -/
theorem WalletOk.return (h : WalletOk held handed w) (hheld : held nIndex) :
    WalletOk (fun i => i ≠ nIndex ∧ held i) handed (w.returnKey nIndex) := by
  refine { h with
    sorted := SortedSet.sorted_insert indexTotal h.sorted, recorded := ?_, reserved := ?_ }
  · intro i hi
    rcases (mem_insertIndex h.sorted).mp hi with rfl | hi
    · exact (h.reserved i hheld).2
    · exact h.recorded i hi
  · intro i hi
    obtain ⟨hnot, hsome⟩ := h.reserved i hi.2
    exact ⟨fun hin => ((mem_insertIndex h.sorted).mp hin).elim hi.1 hnot, hsome⟩

/-- A new key is handed out. -/
theorem WalletOk.generate (h : WalletOk held handed w) :
    WalletOk held (w.nKeys :: handed) w.generateNewKey.2 where
  sorted := h.sorted
  known := fun i r hr => Nat.lt_succ_of_lt (h.known i r hr)
  inj := h.inj
  recorded := h.recorded
  reserved := h.reserved
  used := by
    rw [List.forall_mem_cons]
    refine ⟨⟨Nat.lt_succ_self _, fun i r hr => Nat.ne_of_lt (h.known i r hr)⟩, fun k hk => ?_⟩
    obtain ⟨hlt, hrecords⟩ := h.used k hk
    exact ⟨Nat.lt_succ_of_lt hlt, hrecords⟩
  nodup := List.nodup_cons.mpr ⟨fun hk => Nat.lt_irrefl _ (h.used _ hk).1, h.nodup⟩

/-- What `ReserveKeyFromKeyPool` returns. -/
inductive Reserves (held : Nat → Prop) (handed : List KeyId) (w : KeyWallet) :
    Option (Nat × CKeyPool) → KeyWallet → Prop
  | empty {w₁ : KeyWallet} (h : Refilled held handed w w₁) : Reserves held handed w none w₁
  | index {w₁ : KeyWallet} {i : Nat} {r : CKeyPool} (hnew : ¬ held i) (hpool : w₁.pool i = some r)
    (hok : WalletOk (fun j => j = i ∨ held j) handed w₁)
    (hkept : ∀ j, held j → w₁.pool j = w.pool j) : Reserves held handed w (some (i, r)) w₁

/-- `ReserveKeyFromKeyPool` does not throw. -/
theorem reserveKeyFromKeyPool_ok (getTime : KeyId → Int) (h : WalletOk held handed w)
    (hfree : ∀ i ∈ w.topUpIndices keypool 0, ¬ held i) :
    ∃ r w', w.reserveKeyFromKeyPool keypool getTime = some (r, w') ∧
      Reserves held handed w r w' := by
  obtain ⟨w₁, hw₁⟩ : ∃ w₁, w₁ = if w.fLocked then w else (w.topUpKeyPool keypool getTime 0).2 :=
    ⟨_, rfl⟩
  have hrefill : Refilled held handed w w₁ := by
    rw [hw₁]
    split_ifs
    · exact .refl h
    · exact topUpKeyPool_refilled h hfree
  rw [KeyWallet.reserveKeyFromKeyPool, ← hw₁]
  cases hset : w₁.setKeyPool with
  | nil => exact ⟨none, w₁, rfl, .empty hrefill⟩
  | cons i rest =>
    obtain ⟨hnew, hok⟩ := hrefill.ok.take hset
    obtain ⟨r, hr⟩ : ∃ r, w₁.pool i = some r :=
      Option.isSome_iff_exists.mp (hok.reserved i (.inl rfl)).2
    have hhave : { w₁ with setKeyPool := rest }.haveKey r.vchPubKey = true :=
      decide_eq_true (hok.known i r hr)
    refine ⟨some (i, r), { w₁ with setKeyPool := rest }, ?_, .index hnew hr hok hrefill.kept⟩
    simp only [hr]
    rw [if_pos hhave]

theorem isSome_mapM {α β : Type} {f : α → Option β} {l : List α} (h : ∀ a ∈ l, (f a).isSome = true) :
    (l.mapM f).isSome = true := by
  induction l with
  | nil => rfl
  | cons a l ih =>
    obtain ⟨b, hb⟩ := Option.isSome_iff_exists.mp (h a List.mem_cons_self)
    obtain ⟨bs, hbs⟩ := Option.isSome_iff_exists.mp (ih fun a' ha => h a' (List.mem_cons_of_mem a ha))
    rw [List.mapM_cons, hb, hbs]
    rfl

/-- `GetAllReserveKeys` does not throw. -/
theorem getAllReserveKeys_ok (h : WalletOk held handed w) :
    (w.getAllReserveKeys).isSome = true := by
  refine isSome_mapM fun i hi => ?_
  obtain ⟨r, hr⟩ := Option.isSome_iff_exists.mp (h.recorded i hi)
  have hhave : w.haveKey r.vchPubKey = true := decide_eq_true (h.known i r hr)
  rw [hr]
  simp only [hhave]
  rfl

end

/-! ## Holders -/

namespace KeySystem

/-- The index is reserved by a holder, or by a call of `GetOldestKeyPoolTime`. -/
def Held (s : KeySystem) (i : Nat) : Prop :=
  (∃ h, (s.holders h).nIndex = some i) ∨ i ∈ s.calls.map Prod.fst

/-- The indices under which a critical section writes new keys. -/
def writes (keypool : Nat) (s : KeySystem) : KeyOp → List Nat
  | .topUpKeyPool kpSize => s.wallet.topUpIndices keypool kpSize
  | .newKeyPool => if s.wallet.fLocked then [] else KeyWallet.newIndices keypool
  | .getKeyFromPool | .oldestReserve => s.wallet.topUpIndices keypool 0
  | .getReservedKey holder =>
    if (s.holders holder).nIndex = none then s.wallet.topUpIndices keypool 0 else []
  | _ => []

/-- No critical section writes a reserved index. -/
def Spares (keypool : Nat) (s : KeySystem) (op : KeyOp) : Prop :=
  ∀ i ∈ s.writes keypool op, ¬ s.Held i

end KeySystem

/-- What the wallet and its holders maintain. -/
structure SystemOk (s : KeySystem) : Prop where
  wallet : WalletOk s.Held s.handed s.wallet
  key : ∀ h i, (s.holders h).nIndex = some i →
    ∃ r, s.wallet.pool i = some r ∧ (s.holders h).vchPubKey = some r.vchPubKey
  holders : ∀ h h' i, (s.holders h).nIndex = some i → (s.holders h').nIndex = some i → h = h'
  calls : (s.calls.map Prod.fst).Nodup
  apart : ∀ h i, (s.holders h).nIndex = some i → i ∉ s.calls.map Prod.fst

section

variable {s : KeySystem} {w : KeyWallet} {keypool : Nat} {getTime : KeyId → Int} {holder : Nat}

theorem systemOk_init : SystemOk .init where
  wallet := ⟨List.Pairwise.nil, fun _ _ hr => (by cases hr), fun _ _ _ _ hr => (by cases hr),
    fun _ hi => absurd hi List.not_mem_nil,
    fun _ hi => hi.elim (fun ⟨_, hh⟩ => by cases hh) fun hi => absurd hi List.not_mem_nil,
    fun _ hk => absurd hk List.not_mem_nil, List.nodup_nil⟩
  key := fun _ _ hi => by cases hi
  holders := fun _ _ _ hi => by cases hi
  calls := List.nodup_nil
  apart := fun _ _ hi => by cases hi

/-- A wallet that was refilled, with keys handed out of it. -/
theorem SystemOk.refill (h : SystemOk s) {handed : List KeyId} (hok : WalletOk s.Held handed w)
    (hkept : ∀ i, s.Held i → w.pool i = s.wallet.pool i) :
    SystemOk { s with wallet := w, handed } where
  wallet := hok
  key := fun holder i hi => by
    obtain ⟨r, hr, hkey⟩ := h.key holder i hi
    exact ⟨r, (hkept i (.inl ⟨holder, hi⟩)).trans hr, hkey⟩
  holders := h.holders
  calls := h.calls
  apart := h.apart

/-- The holder without its index. -/
theorem held_setHolder {i : Nat} (h : SystemOk s) (hindex : (s.holders holder).nIndex = some i)
    (w : KeyWallet) (handed : List KeyId) (j : Nat) :
    { s.setHolder holder .init with wallet := w, handed }.Held j ↔ j ≠ i ∧ s.Held j := by
  have hnIndex : ∀ h', ({ s.setHolder holder .init with wallet := w, handed }.holders h').nIndex =
      if h' = holder then none else (s.holders h').nIndex := fun h' => by
    show (if h' = holder then CReserveKey.init else s.holders h').nIndex = _
    split_ifs <;> rfl
  constructor
  · rintro (⟨h', hh'⟩ | hcall)
    · rw [hnIndex] at hh'
      split_ifs at hh' with hne
      refine ⟨fun heq => hne (h.holders h' holder i (heq ▸ hh') hindex), .inl ⟨h', hh'⟩⟩
    · exact ⟨fun heq => h.apart holder i hindex (heq ▸ hcall), .inr hcall⟩
  · rintro ⟨hne, ⟨h', hh'⟩ | hcall⟩
    · refine .inl ⟨h', ?_⟩
      rw [hnIndex, if_neg]
      · exact hh'
      · rintro rfl
        exact hne (Option.some.inj (hh'.symm.trans hindex))
    · exact .inr hcall

/-- A holder gives its index up. -/
theorem SystemOk.release {i : Nat} (h : SystemOk s) (hindex : (s.holders holder).nIndex = some i)
    {handed : List KeyId} (hok : WalletOk (fun j => j ≠ i ∧ s.Held j) handed w)
    (hkept : ∀ j, j ≠ i → w.pool j = s.wallet.pool j) :
    SystemOk { s.setHolder holder .init with wallet := w, handed } := by
  have hholder : ∀ h' j, ({ s.setHolder holder .init with
      wallet := w, handed }.holders h').nIndex = some j →
      h' ≠ holder ∧ (s.holders h').nIndex = some j := fun h' j hj => by
    have hj : (if h' = holder then CReserveKey.init else s.holders h').nIndex = some j := hj
    split_ifs at hj with hne
    · cases hj
    · exact ⟨hne, hj⟩
  refine ⟨hok.congr (held_setHolder h hindex w handed), fun h' j hj => ?_, fun h₁ h₂ j h₁j h₂j => ?_,
    h.calls, fun h' j hj => h.apart h' j (hholder h' j hj).2⟩
  · obtain ⟨hne, hj⟩ := hholder h' j hj
    obtain ⟨r, hr, hkey⟩ := h.key h' j hj
    have hji : j ≠ i := fun heq => hne (h.holders h' holder i (heq ▸ hj) hindex)
    refine ⟨r, (hkept j hji).trans hr, ?_⟩
    show (if h' = holder then CReserveKey.init else s.holders h').vchPubKey = _
    rw [if_neg hne]
    exact hkey
  · exact h.holders h₁ h₂ j (hholder h₁ j h₁j).2 (hholder h₂ j h₂j).2

/-- A holder without an index is reset. -/
theorem SystemOk.reset (h : SystemOk s) (hindex : (s.holders holder).nIndex = none) :
    SystemOk (s.setHolder holder .init) := by
  have hholder : ∀ h', ((s.setHolder holder .init).holders h').nIndex = (s.holders h').nIndex :=
    fun h' => by
      show (if h' = holder then CReserveKey.init else s.holders h').nIndex = _
      split_ifs with heq
      · rw [heq, hindex]
        rfl
      · rfl
  have hheld : ∀ i, (s.setHolder holder .init).Held i ↔ s.Held i := fun i =>
    or_congr (exists_congr fun h' => by rw [hholder]) Iff.rfl
  refine ⟨h.wallet.congr hheld, fun h' i hi => ?_, fun h₁ h₂ i h₁i h₂i => ?_, h.calls,
    fun h' i hi => h.apart h' i (hholder h' ▸ hi)⟩
  · have hne : h' ≠ holder := by
      rintro rfl
      rw [hholder, hindex] at hi
      cases hi
    show ∃ r, _ ∧ (if h' = holder then CReserveKey.init else s.holders h').vchPubKey = _
    rw [if_neg hne]
    exact h.key h' i (hholder h' ▸ hi)
  · exact h.holders h₁ h₂ i (hholder h₁ ▸ h₁i) (hholder h₂ ▸ h₂i)

/-- A holder without an index is given one that was not reserved. -/
theorem SystemOk.hold (h : SystemOk s) (hindex : (s.holders holder).nIndex = none) {i : Nat}
    {r : CKeyPool} (hnew : ¬ s.Held i) (hpool : w.pool i = some r)
    (hok : WalletOk (fun j => j = i ∨ s.Held j) s.handed w)
    (hkept : ∀ j, s.Held j → w.pool j = s.wallet.pool j) :
    SystemOk { s.setHolder holder ⟨some i, some r.vchPubKey⟩ with wallet := w } := by
  obtain ⟨t, ht⟩ : ∃ t, t = { s.setHolder holder ⟨some i, some r.vchPubKey⟩ with wallet := w } :=
    ⟨_, rfl⟩
  have hholder : ∀ h', t.holders h' =
      if h' = holder then ⟨some i, some r.vchPubKey⟩ else s.holders h' := fun h' => by
    rw [ht]
    rfl
  have hcases : ∀ {h' j}, (t.holders h').nIndex = some j →
      (h' = holder ∧ j = i) ∨ (h' ≠ holder ∧ (s.holders h').nIndex = some j) :=
    fun {h' j} hj => by
      rw [hholder] at hj
      split_ifs at hj with heq
      · exact .inl ⟨heq, (Option.some.inj hj).symm⟩
      · exact .inr ⟨heq, hj⟩
  have hcalls : t.calls = s.calls := by rw [ht]; rfl
  have hheld : ∀ j, t.Held j ↔ j = i ∨ s.Held j := fun j => by
    constructor
    · rintro (⟨h', hj⟩ | hj)
      · rcases hcases hj with ⟨-, heq⟩ | ⟨-, hj⟩
        · exact .inl heq
        · exact .inr (.inl ⟨h', hj⟩)
      · exact .inr (.inr (hcalls ▸ hj))
    · rintro (rfl | ⟨h', hj⟩ | hj)
      · refine .inl ⟨holder, ?_⟩
        rw [hholder, if_pos rfl]
      · refine .inl ⟨h', ?_⟩
        rw [hholder, if_neg]
        · exact hj
        · rintro rfl
          rw [hindex] at hj
          cases hj
      · exact .inr (hcalls ▸ hj)
  have hwallet : t.wallet = w := by rw [ht]
  have hhanded : t.handed = s.handed := by rw [ht]; rfl
  rw [← ht]
  refine ⟨?_, fun h' j hj => ?_, fun h₁ h₂ j h₁j h₂j => ?_, hcalls ▸ h.calls, fun h' j hj => ?_⟩
  · rw [hwallet, hhanded]
    exact hok.congr hheld
  · rw [hwallet, hholder]
    rcases hcases hj with ⟨rfl, rfl⟩ | ⟨hne, hj⟩
    · exact ⟨r, hpool, by rw [if_pos rfl]⟩
    · obtain ⟨r', hr', hkey⟩ := h.key h' j hj
      rw [if_neg hne]
      exact ⟨r', (hkept j (.inl ⟨h', hj⟩)).trans hr', hkey⟩
  · rcases hcases h₁j with ⟨heq₁, hj₁⟩ | ⟨-, hj₁⟩ <;> rcases hcases h₂j with ⟨heq₂, hj₂⟩ | ⟨-, hj₂⟩
    · exact heq₁.trans heq₂.symm
    · exact absurd (.inl ⟨h₂, hj₁ ▸ hj₂⟩) hnew
    · exact absurd (.inl ⟨h₁, hj₂ ▸ hj₁⟩) hnew
    · exact h.holders h₁ h₂ j hj₁ hj₂
  · rw [hcalls]
    rcases hcases hj with ⟨-, rfl⟩ | ⟨-, hj⟩
    · exact fun hcall => hnew (.inr hcall)
    · exact h.apart h' j hj

/-- `GetOldestKeyPoolTime` reserves an index. -/
theorem SystemOk.call (h : SystemOk s) {i : Nat} (t : Int) (hnew : ¬ s.Held i)
    (hok : WalletOk (fun j => j = i ∨ s.Held j) s.handed w)
    (hkept : ∀ j, s.Held j → w.pool j = s.wallet.pool j) :
    SystemOk { s with wallet := w, calls := (i, t) :: s.calls } where
  wallet := hok.congr fun j => by
    simp only [KeySystem.Held, List.map_cons, List.mem_cons]
    tauto
  key := fun h' j hj => by
    obtain ⟨r, hr, hkey⟩ := h.key h' j hj
    exact ⟨r, (hkept j (.inl ⟨h', hj⟩)).trans hr, hkey⟩
  holders := h.holders
  calls := List.nodup_cons.mpr ⟨fun hcall => hnew (.inr hcall), h.calls⟩
  apart := fun h' j hj hcall => by
    rcases List.mem_cons.mp hcall with rfl | hcall
    · exact hnew (.inl ⟨h', hj⟩)
    · exact h.apart h' j hj hcall

/-- `GetOldestKeyPoolTime` returns its index. -/
theorem SystemOk.returnCall (h : SystemOk s) {call i : Nat} {t : Int}
    (hcall : s.calls[call]? = some (i, t)) :
    SystemOk { s with wallet := s.wallet.returnKey i, calls := s.calls.eraseIdx call } := by
  have hperm : s.calls.Perm ((i, t) :: s.calls.eraseIdx call) := by
    obtain ⟨hlt, hget⟩ := List.getElem?_eq_some_iff.mp hcall
    rw [← hget]
    exact (List.getElem_cons_eraseIdx_perm hlt).symm
  have hmem : ∀ j, j ∈ s.calls.map Prod.fst ↔
      j = i ∨ j ∈ (s.calls.eraseIdx call).map Prod.fst := fun j =>
    ((hperm.map Prod.fst).mem_iff).trans List.mem_cons
  obtain ⟨hout, hnodup⟩ := List.nodup_cons.mp ((hperm.map Prod.fst).nodup_iff.mp h.calls)
  have hi : i ∈ s.calls.map Prod.fst := (hmem i).mpr (.inl rfl)
  refine ⟨(h.wallet.return (.inr hi)).congr fun j => ?_, h.key, h.holders, hnodup,
    fun h' j hj hin => h.apart h' j hj ((hmem j).mpr (.inr hin))⟩
  constructor
  · rintro (⟨h', hj⟩ | hj)
    · exact ⟨fun heq => h.apart h' j hj (heq ▸ hi), .inl ⟨h', hj⟩⟩
    · exact ⟨fun heq => hout (heq ▸ hj), .inr ((hmem j).mpr (.inr hj))⟩
  · rintro ⟨hne, hj | hj⟩
    · exact .inl hj
    · exact .inr (((hmem j).mp hj).resolve_left hne)

/-! ## Steps -/

theorem setHolder_self (s : KeySystem) (holder : Nat) :
    s.setHolder holder (s.holders holder) = s := by
  unfold KeySystem.setHolder
  congr
  funext h'
  split_ifs with heq
  · rw [heq]
  · rfl

/-- No critical section throws while reserved indices are spared. -/
theorem SystemOk.step (getTime : KeyId → Int) (h : SystemOk s) {op : KeyOp}
    (hspares : s.Spares keypool op) :
    ∃ s', s.step keypool getTime op = some s' ∧ SystemOk s' := by
  cases op with
  | lock => exact ⟨_, rfl, h.refill { h.wallet with } fun _ _ => rfl⟩
  | unlock => exact ⟨_, rfl, h.refill { h.wallet with } fun _ _ => rfl⟩
  | topUpKeyPool kpSize =>
    have hrefill : Refilled s.Held s.handed s.wallet
        (s.wallet.topUpKeyPool keypool getTime kpSize).2 := topUpKeyPool_refilled h.wallet hspares
    exact ⟨_, rfl, h.refill hrefill.ok hrefill.kept⟩
  | newKeyPool =>
    have hrefill : Refilled s.Held s.handed s.wallet (s.wallet.newKeyPool keypool getTime).2 :=
      newKeyPool_refilled h.wallet fun hlocked i hi =>
        hspares i (by rw [KeySystem.writes, hlocked]; exact hi)
    exact ⟨_, rfl, h.refill hrefill.ok hrefill.kept⟩
  | getKeyFromPool =>
    obtain ⟨r, w, heq, hr⟩ := reserveKeyFromKeyPool_ok getTime h.wallet hspares
    simp only [KeySystem.step, KeyWallet.getKeyFromPool, heq, Option.map_some]
    refine ⟨_, rfl, ?_⟩
    cases hr with
    | empty hrefill =>
      cases hlocked : w.fLocked with
      | true =>
        simp only [hlocked, if_true]
        exact h.refill hrefill.ok hrefill.kept
      | false =>
        simp only [hlocked, Bool.false_eq_true, if_false]
        exact h.refill hrefill.ok.generate hrefill.kept
    | @index _ i r hnew hpool hok hkept =>
      refine h.refill ((hok.keep hpool (.inl rfl)).congr fun j => ?_) fun j hj => ?_
      · exact ⟨fun hj => ⟨fun heq => hnew (heq ▸ hj), .inr hj⟩, fun hj => hj.2.resolve_left hj.1⟩
      · exact (if_neg fun heq : j = i => hnew (heq ▸ hj)).trans (hkept j hj)
  | getReservedKey holder =>
    cases hindex : (s.holders holder).nIndex with
    | none =>
      have hfree : ∀ i ∈ s.wallet.topUpIndices keypool 0, ¬ s.Held i := fun i hi =>
        hspares i (by rw [KeySystem.writes, if_pos hindex]; exact hi)
      obtain ⟨r, w, heq, hr⟩ := reserveKeyFromKeyPool_ok getTime h.wallet hfree
      simp only [KeySystem.step, CReserveKey.getReservedKey, hindex, heq, Option.map_some]
      refine ⟨_, rfl, ?_⟩
      cases hr with
      | empty hrefill =>
        rw [setHolder_self]
        exact h.refill hrefill.ok hrefill.kept
      | index hnew hpool hok hkept => exact h.hold hindex hnew hpool hok hkept
    | some i =>
      obtain ⟨r, -, hkey⟩ := h.key holder i hindex
      simp only [KeySystem.step, CReserveKey.getReservedKey, hindex, hkey, Option.map_some,
        setHolder_self]
      exact ⟨_, rfl, h⟩
  | keepKey holder =>
    cases hindex : (s.holders holder).nIndex with
    | none =>
      simp only [KeySystem.step, CReserveKey.keepKey, hindex]
      exact ⟨_, rfl, h.reset hindex⟩
    | some i =>
      obtain ⟨r, hr, hkey⟩ := h.key holder i hindex
      simp only [KeySystem.step, CReserveKey.keepKey, hindex, hkey]
      refine ⟨_, rfl, h.release hindex (h.wallet.keep hr (.inl ⟨holder, hindex⟩)) fun j hne => ?_⟩
      exact if_neg hne
  | returnKey holder =>
    cases hindex : (s.holders holder).nIndex with
    | none =>
      simp only [KeySystem.step, CReserveKey.returnKey, hindex]
      exact ⟨_, rfl, h.reset hindex⟩
    | some i =>
      simp only [KeySystem.step, CReserveKey.returnKey, hindex]
      exact ⟨_, rfl, h.release hindex (h.wallet.return (.inl ⟨holder, hindex⟩)) fun _ _ => rfl⟩
  | oldestReserve =>
    obtain ⟨r, w, heq, hr⟩ := reserveKeyFromKeyPool_ok getTime h.wallet hspares
    simp only [KeySystem.step, heq, Option.map_some]
    refine ⟨_, rfl, ?_⟩
    cases hr with
    | empty hrefill => exact h.refill hrefill.ok hrefill.kept
    | index hnew hpool hok hkept => exact h.call _ hnew hok hkept
  | oldestReturn call =>
    cases hcall : s.calls[call]? with
    | none =>
      simp only [KeySystem.step, hcall]
      exact ⟨s, rfl, h⟩
    | some entry =>
      simp only [KeySystem.step, hcall]
      exact ⟨_, rfl, h.returnCall hcall⟩
  | getAllReserveKeys =>
    obtain ⟨keys, hkeys⟩ := Option.isSome_iff_exists.mp (getAllReserveKeys_ok h.wallet)
    simp only [KeySystem.step, hkeys, Option.map_some]
    exact ⟨s, rfl, h⟩

end

/-! ## Runs -/

namespace KeySystem

/-- Every index of the pool has a record, and no key is with two holders, with a holder and a
completed request, or with two requests. -/
structure Safe (s : KeySystem) : Prop where
  recorded : ∀ i ∈ s.wallet.setKeyPool, (s.wallet.pool i).isSome = true
  holders : ∀ h h', (s.holders h).nIndex.isSome = true → (s.holders h').nIndex.isSome = true →
    (s.holders h).vchPubKey = (s.holders h').vchPubKey → h = h'
  requests : ∀ h k, (s.holders h).nIndex.isSome = true → (s.holders h).vchPubKey = some k →
    k ∉ s.handed
  handed : s.handed.Nodup

/-- All critical sections of a run spare the indices that are reserved when they are made. -/
def Sparing (keypool : Nat) (getTime : KeyId → Int) : List KeyOp → KeySystem → Prop
  | [], _ => True
  | op :: ops, s =>
    s.Spares keypool op ∧ ∀ s', s.step keypool getTime op = some s' → Sparing keypool getTime ops s'

end KeySystem

theorem SystemOk.safe {s : KeySystem} (h : SystemOk s) : s.Safe where
  recorded := h.wallet.recorded
  holders := fun h₁ h₂ h₁i h₂i hkey => by
    obtain ⟨i, hi⟩ := Option.isSome_iff_exists.mp h₁i
    obtain ⟨j, hj⟩ := Option.isSome_iff_exists.mp h₂i
    obtain ⟨r, hr, hrkey⟩ := h.key h₁ i hi
    obtain ⟨r', hr', hrkey'⟩ := h.key h₂ j hj
    rw [hrkey, hrkey'] at hkey
    have heq : i = j := h.wallet.inj i j r r' hr hr' (Option.some.inj hkey)
    exact h.holders h₁ h₂ i hi (heq ▸ hj)
  requests := fun h₁ k h₁i hkey hk => by
    obtain ⟨i, hi⟩ := Option.isSome_iff_exists.mp h₁i
    obtain ⟨r, hr, hrkey⟩ := h.key h₁ i hi
    exact (h.wallet.used k hk).2 i r hr (Option.some.inj (hrkey.symm.trans hkey))
  handed := h.wallet.nodup

theorem SystemOk.run {keypool : Nat} {getTime : KeyId → Int} {ops : List KeyOp} {s : KeySystem}
    (h : SystemOk s) (hspares : KeySystem.Sparing keypool getTime ops s) :
    ∃ s', s.run keypool getTime ops = some s' ∧ SystemOk s' := by
  induction ops generalizing s with
  | nil => exact ⟨s, rfl, h⟩
  | cons op ops ih =>
    obtain ⟨s₁, hs₁, hok⟩ := h.step getTime hspares.1
    obtain ⟨s', hs', hok'⟩ := ih hok (hspares.2 s₁ hs₁)
    refine ⟨s', ?_, hok'⟩
    rw [KeySystem.run, Framework.run, hs₁]
    exact hs'

/-- In a run of critical sections none of which writes a key under a reserved index, none throws
and no key is given twice. -/
theorem keyPool_safe (keypool : Nat) (getTime : KeyId → Int) (ops : List KeyOp)
    (hspares : KeySystem.Sparing keypool getTime ops .init) :
    ∃ s, KeySystem.init.run keypool getTime ops = some s ∧ s.Safe := by
  obtain ⟨s, hs, hok⟩ := systemOk_init.run hspares
  exact ⟨s, hs, hok.safe⟩

/-- A request while a holder has a key, which is then given back. -/
def sparingOps : List KeyOp := [.getReservedKey 1, .getKeyFromPool, .returnKey 1, .getAllReserveKeys]

theorem sparingOps_safe :
    ∃ s, KeySystem.init.run 1 (fun _ => 0) sparingOps = some s ∧ s.Safe := by
  refine keyPool_safe 1 (fun _ => 0) sparingOps ⟨fun i _ hheld => ?_, fun s hs => ?_⟩
  · rcases hheld with ⟨h, hh⟩ | hcall
    · cases hh
    · cases hcall
  · cases hs
    refine ⟨fun i hi hheld => ?_, fun s hs => ?_⟩
    · -- The holder has the index 1, and the key is written under the index 3.
      have hi : i ∈ [3] := hi
      obtain rfl := List.mem_singleton.mp hi
      rcases hheld with ⟨h, hh⟩ | hcall
      · have hh : (if h = 1 then ⟨some 1, some 0⟩ else CReserveKey.init).nIndex = some 3 := hh
        split_ifs at hh <;> cases hh
      · cases hcall
    · cases hs
      refine ⟨fun i hi => absurd hi List.not_mem_nil, fun s hs => ?_⟩
      cases hs
      exact ⟨fun i hi => absurd hi List.not_mem_nil, fun _ _ => trivial⟩

/-- With `-keypool=0` the second holder's key is written under the index of the first one, which
then returns the second one's key. -/
def reusedOps : List KeyOp :=
  [.getReservedKey 1, .getReservedKey 2, .returnKey 1, .getReservedKey 3]

/-- The same, where the second holder keeps its key before the first one returns its own. -/
def brickedOps : List KeyOp :=
  [.getReservedKey 1, .getReservedKey 2, .keepKey 2, .returnKey 1, .getKeyFromPool]

theorem reusedOps_unsafe :
    (¬ ∃ s, KeySystem.init.run 0 (fun _ => 0) reusedOps = some s ∧ s.Safe) ∧
      KeySystem.init.run 0 (fun _ => 0) brickedOps = none := by
  refine ⟨?_, rfl⟩
  rintro ⟨s, hrun, hsafe⟩
  cases hrun
  exact absurd (hsafe.holders 2 3 rfl rfl rfl) (by decide)

end GC
