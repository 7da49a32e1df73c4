import GameCredits.Model.Mempool
import GameCredits.Proof.Inputs
import Mathlib.Data.List.Enum
import Mathlib.Data.List.Nodup

/-!
# What the memory pool takes out

`CTxMemPool.Books` says that `mapNextTx` lists the inputs of the transactions of the pool and
nothing else, and that the total is right; `Linked` that the outputs of the pool that it spends
exist. All updates keep the books, and a removal leaves a `Part` of the pool.

* `remove_recursive`: a recursive removal leaves no transaction whose parent it has taken out, and
  none that spends an output of the removed one.
* `removeForBlock_part`, `removeCoinbaseSpends_part`: what the removals for a block leave.
-/

namespace GC

open Framework

namespace CTxMemPool

variable {env : Env} {pool pool' : CTxMemPool} {hash : UInt256} {entry : CTxMemPoolEntry}

/-- Whether the pool has the transaction of an input that spends `o`. -/
def Spends (pool : CTxMemPool) (o : COutPoint) (inPoint : CInPoint) : Prop :=
  ∃ entry, pool.mapTx.lookup inPoint.ptx = some entry ∧ entry.tx.prevouts[inPoint.n]? = some o

/-- The books of a pool: keys are the hashes, `mapNextTx` is the map from the outpoints of all
inputs to these, and `totalTxSize` is the sum of the sizes. -/
structure Books (env : Env) (pool : CTxMemPool) : Prop where
  key : ∀ {h e}, pool.mapTx.lookup h = some e → e.tx.getHash env.hash = h
  next : ∀ o inPoint, pool.mapNextTx.lookup o = some inPoint ↔ pool.Spends o inPoint
  total : pool.totalTxSize = Assoc.total (fun _ e => e.nTxSize) pool.mapTx

/-- An input that spends an output of the pool spends one that exists. -/
def Linked (pool : CTxMemPool) : Prop :=
  ∀ h e o p, pool.mapTx.lookup h = some e → o ∈ e.tx.prevouts →
    pool.mapTx.lookup o.hash = some p → o.n.toNat < p.tx.vout.length

/-- A part of a pool; it has the parents of its transactions that the pool has, but for those with
a hash in `D`. -/
structure Part (D : UInt256 → Prop) (pool' pool : CTxMemPool) : Prop where
  sub : ∀ {h e}, pool'.mapTx.lookup h = some e → pool.mapTx.lookup h = some e
  parents : ∀ {h e o}, pool'.mapTx.lookup h = some e → o ∈ e.tx.prevouts →
    pool.hasTx o.hash = true → pool'.hasTx o.hash = true ∨ D o.hash

theorem hasTx_iff : pool.hasTx hash = true ↔ ∃ e, pool.mapTx.lookup hash = some e :=
  Option.isSome_iff_exists

theorem hasTx_of_lookup (h : pool.mapTx.lookup hash = some entry) : pool.hasTx hash = true :=
  hasTx_iff.mpr ⟨entry, h⟩

theorem hasTx_eq_false : pool.hasTx hash = false ↔ pool.mapTx.lookup hash = none :=
  Option.isSome_eq_false_iff.trans Option.isNone_iff_eq_none

namespace Part

variable {D D' : UInt256 → Prop} {pool'' : CTxMemPool}

theorem refl (pool : CTxMemPool) : Part D pool pool := ⟨id, fun _ _ h => .inl h⟩

theorem trans (h : Part D pool'' pool') (h' : Part D pool' pool) : Part D pool'' pool := by
  refine ⟨fun he => h'.sub (h.sub he), fun he ho hp => ?_⟩
  rcases h'.parents (h.sub he) ho hp with hp' | hD
  · exact h.parents he ho hp'
  · exact .inr hD

theorem mono (hD : ∀ x, D x → D' x) (h : Part D pool' pool) : Part D' pool' pool :=
  ⟨h.sub, fun he ho hp => (h.parents he ho hp).imp_right (hD _)⟩

theorem hasTx (h : Part D pool' pool) (hp : pool'.hasTx hash = true) : pool.hasTx hash = true := by
  obtain ⟨e, he⟩ := hasTx_iff.mp hp
  exact hasTx_of_lookup (h.sub he)

theorem linked (h : Part D pool' pool) (hl : pool.Linked) : pool'.Linked :=
  fun _ _ _ _ he ho hp => hl _ _ _ _ (h.sub he) ho (h.sub hp)

/-- A parent that the whole pool has, where none may be missing. -/
theorem parent (h : Part (fun _ => False) pool' pool) {h' : UInt256} {e : CTxMemPoolEntry}
    {o : COutPoint} (he : pool'.mapTx.lookup h' = some e) (ho : o ∈ e.tx.prevouts)
    (hp : pool.hasTx o.hash = true) : pool'.hasTx o.hash = true :=
  (h.parents he ho hp).resolve_right id

end Part

theorem Books.empty : Books env .empty := by
  refine ⟨fun h => ?_, fun o inPoint => ?_, rfl⟩
  · cases h
  · refine ⟨fun h => ?_, fun ⟨e, he, _⟩ => ?_⟩
    · cases h
    · cases he

/-- Two inputs of the pool with one outpoint are the same. -/
theorem Books.spender_unique (h : Books env pool) {o : COutPoint} {a b : CInPoint}
    (ha : pool.Spends o a) (hb : pool.Spends o b) : a = b :=
  Option.some.inj (((h.next o a).mpr ha).symm.trans ((h.next o b).mpr hb))

/-- The transaction that the entry of an outpoint points at. -/
theorem Books.deref (h : Books env pool) {o : COutPoint} {inPoint : CInPoint}
    (hn : pool.mapNextTx.lookup o = some inPoint) :
    ∃ e, pool.mapTx.lookup inPoint.ptx = some e ∧ pool.deref inPoint = some e.tx ∧
      e.tx.getHash env.hash = inPoint.ptx ∧ o ∈ e.tx.prevouts := by
  obtain ⟨e, he, ho⟩ := (h.next o inPoint).mp hn
  exact ⟨e, he, by rw [CTxMemPool.deref, he]; rfl, h.key he, List.mem_of_getElem? ho⟩

/-- The entry of the outpoint of an input. -/
theorem Books.lookup_next (h : Books env pool) {o : COutPoint}
    (he : pool.mapTx.lookup hash = some entry) (ho : o ∈ entry.tx.prevouts) :
    ∃ n, pool.mapNextTx.lookup o = some ⟨hash, n⟩ := by
  obtain ⟨n, hn⟩ := List.mem_iff_getElem?.mp ho
  exact ⟨n, (h.next o ⟨hash, n⟩).mpr ⟨entry, he, hn⟩⟩

/-! ## Adding -/

theorem prevouts_zipIdx (hash : UInt256) (tx : CTransaction) :
    (tx.vin.zipIdx.map fun txin => (txin.1.prevout, CInPoint.mk hash txin.2)).map Prod.fst =
      tx.prevouts := by
  rw [List.map_map]
  show tx.vin.zipIdx.map (CTxIn.prevout ∘ Prod.fst) = _
  rw [← List.map_map, List.zipIdx_map_fst]

theorem mem_zipIdx_prevouts {tx : CTransaction} {o : COutPoint} {inPoint : CInPoint} :
    (o, inPoint) ∈ tx.vin.zipIdx.map (fun txin => (txin.1.prevout, CInPoint.mk hash txin.2)) ↔
      inPoint.ptx = hash ∧ tx.prevouts[inPoint.n]? = some o := by
  obtain ⟨h, n⟩ := inPoint
  simp only [List.mem_map, Prod.exists, List.mk_mem_zipIdx_iff_getElem?, Prod.mk.injEq,
    CInPoint.mk.injEq, List.getElem?_map, Option.map_eq_some_iff]
  constructor
  · rintro ⟨txin, i, htxin, rfl, rfl, rfl⟩
    exact ⟨rfl, txin, htxin, rfl⟩
  · rintro ⟨rfl, txin, htxin, rfl⟩
    exact ⟨txin, n, htxin, rfl, rfl, rfl⟩

/-- Adding a transaction whose inputs no transaction of the pool has. -/
theorem Books.addUnchecked (h : Books env pool) (hkey : entry.tx.getHash env.hash = hash)
    (hnew : pool.mapTx.lookup hash = none) (hnodup : entry.tx.prevouts.Nodup)
    (hfree : ∀ o ∈ entry.tx.prevouts, pool.mapNextTx.lookup o = none) :
    Books env (pool.addUnchecked hash entry) := by
  refine ⟨fun {h' e} he => ?_, fun o inPoint => ?_, ?_⟩
  · rcases Assoc.lookup_insert_iff.mp he with ⟨rfl, rfl⟩ | ⟨-, he⟩
    · exact hkey
    · exact h.key he
  · have hmap : (pool.addUnchecked hash entry).mapNextTx =
        (entry.tx.vin.zipIdx.map fun txin => (txin.1.prevout, CInPoint.mk hash txin.2)).foldl
          (fun m e => m.insert e.1 e.2) pool.mapNextTx := by
      rw [List.foldl_map]; rfl
    rw [hmap, Assoc.lookup_foldl_insert (by rwa [prevouts_zipIdx]), mem_zipIdx_prevouts,
      prevouts_zipIdx, h.next]
    constructor
    · rintro (⟨hptx, ho⟩ | ⟨-, e, he, ho⟩)
      · exact ⟨entry, Assoc.lookup_insert_iff.mpr (.inl ⟨hptx, rfl⟩), ho⟩
      · have hne : inPoint.ptx ≠ hash := fun hc => by rw [hc, hnew] at he; cases he
        exact ⟨e, Assoc.lookup_insert_iff.mpr (.inr ⟨hne, he⟩), ho⟩
    · rintro ⟨e, he, ho⟩
      rcases Assoc.lookup_insert_iff.mp he with ⟨hptx, rfl⟩ | ⟨-, he⟩
      · exact .inl ⟨hptx, ho⟩
      · refine .inr ⟨fun hmem => ?_, e, he, ho⟩
        have hnone := hfree o hmem
        rw [(h.next o inPoint).mpr ⟨e, he, ho⟩] at hnone
        cases hnone
  · show pool.totalTxSize + entry.nTxSize = Assoc.total _ (pool.mapTx.insert hash entry)
    rw [h.total, add_comm, Assoc.total_insert_none hnew]

/-! ## Removing -/

/-- Removing one entry. -/
theorem Books.eraseEntry (h : Books env pool) (he : pool.mapTx.lookup hash = some entry) :
    Books env (pool.eraseEntry hash entry) := by
  refine ⟨fun he' => h.key (Assoc.lookup_erase_iff.mp he').2, fun o inPoint => ?_, ?_⟩
  · show AList.lookup o (List.foldl _ _ _) = _ ↔ _
    rw [Assoc.lookup_foldl_erase, h.next]
    constructor
    · rintro ⟨hnot, e, he', ho⟩
      refine ⟨e, Assoc.lookup_erase_iff.mpr ⟨fun hc => hnot ?_, he'⟩, ho⟩
      rw [hc, he] at he'
      cases he'
      exact List.mem_of_getElem? ho
    · rintro ⟨e, he', ho⟩
      obtain ⟨hne, he'⟩ := Assoc.lookup_erase_iff.mp he'
      refine ⟨fun hmem => hne ?_, e, he', ho⟩
      -- the outpoint would be that of two inputs
      obtain ⟨n, hn⟩ := List.mem_iff_getElem?.mp hmem
      exact congrArg CInPoint.ptx (h.spender_unique ⟨e, he', ho⟩ (b := ⟨hash, n⟩) ⟨entry, he, hn⟩)
  · show pool.totalTxSize - entry.nTxSize = Assoc.total _ (pool.mapTx.erase hash)
    rw [h.total, Assoc.total_erase he, add_sub_cancel_left]

/-- A transaction of the pool that spends an output of `tx` is among the spenders. -/
theorem Books.mem_spenders (h : Books env pool) {tx : CTransaction} {o : COutPoint} {h' : UInt256}
    {e : CTxMemPoolEntry} (he : pool.mapTx.lookup h' = some e) (ho : o ∈ e.tx.prevouts)
    (hn : o.n.toNat < tx.vout.length) : h' ∈ pool.spenders env o.hash tx := by
  obtain ⟨n, hnext⟩ := h.lookup_next he ho
  refine List.mem_filterMap.mpr ⟨o.n.toNat, List.mem_range.mpr hn, ?_⟩
  rw [UInt32.ofNat_toNat, show (⟨o.hash, o.n⟩ : COutPoint) = o from rfl, hnext, Option.bind_some,
    CTxMemPool.deref, he]
  exact congrArg some (h.key he)

theorem hasTx_eraseEntry : (pool.eraseEntry hash entry).hasTx hash = false :=
  hasTx_eq_false.mpr (AList.lookup_erase hash pool.mapTx)

/-- What a part of a pool does not have that the pool does not have. -/
theorem Part.hasTx_eq_false {D : UInt256 → Prop} (h : Part D pool' pool) {x : UInt256}
    (hx : pool.hasTx x = false) : pool'.hasTx x = false := by
  rw [← Bool.not_eq_true] at hx ⊢
  exact fun hc => hx (h.hasTx hc)

/-- What the loop of `remove` leaves: a part of the pool without the queued transactions; when it
is recursive, with all parents. -/
theorem removeFrom_part (fRecursive : Bool) (queue : List UInt256) (removed : List CTransaction)
    (h : Books env pool) (hl : fRecursive = true → pool.Linked) :
    Books env (removeFrom env fRecursive queue pool removed).1 ∧
      Part (fun x => fRecursive = false ∧ x ∈ queue) (removeFrom env fRecursive queue pool removed).1
        pool ∧
      ∀ x ∈ queue, (removeFrom env fRecursive queue pool removed).1.hasTx x = false := by
  fun_induction removeFrom env fRecursive queue pool removed with
  | case1 pool removed => exact ⟨h, .refl pool, fun _ hx => by cases hx⟩
  | case2 pool removed hash rest hnone ih =>
    obtain ⟨hb, hp, hq⟩ := ih h hl
    refine ⟨hb, hp.mono fun x hx => ⟨hx.1, List.mem_cons_of_mem _ hx.2⟩, fun x hx => ?_⟩
    rcases List.mem_cons.mp hx with rfl | hx
    · exact hp.hasTx_eq_false (CTxMemPool.hasTx_eq_false.mpr hnone)
    · exact hq x hx
  | case3 pool removed hash rest entry he ih =>
    have hsub : ∀ {h' e}, (pool.eraseEntry hash entry).mapTx.lookup h' = some e →
        pool.mapTx.lookup h' = some e := fun he' => (Assoc.lookup_erase_iff.mp he').2
    have hrest : ∀ x ∈ rest,
        x ∈ if fRecursive then rest ++ pool.spenders env hash entry.tx else rest := by
      intro x hx
      split_ifs
      · exact List.mem_append_left _ hx
      · exact hx
    simp only [dite_eq_ite] at ih
    obtain ⟨hb, hp, hq⟩ := ih (h.eraseEntry he) fun hrec _ _ _ _ he' ho hp =>
      hl hrec _ _ _ _ (hsub he') ho (hsub hp)
    refine ⟨hb, ⟨fun he' => hsub (hp.sub he'), fun {h' e o} he' ho hpar => ?_⟩, fun x hx => ?_⟩
    · by_cases hhash : o.hash = hash
      · cases hrec : fRecursive with
        | false => exact .inr ⟨rfl, hhash ▸ List.mem_cons_self ..⟩
        | true =>
          -- a child of the transaction removed has been queued
          have hin := hsub (hp.sub he')
          have hspender := h.mem_spenders hin ho (hl hrec _ _ _ _ hin ho (hhash ▸ he))
          have hgone := hq h' (by rw [hrec, ← hhash]; exact List.mem_append_right _ hspender)
          rw [hasTx_of_lookup he'] at hgone
          cases hgone
      · obtain ⟨p, hp'⟩ := hasTx_iff.mp hpar
        refine (hp.parents he' ho (hasTx_of_lookup
          (Assoc.lookup_erase_iff.mpr ⟨hhash, hp'⟩))).imp_right fun ⟨hrec, hmem⟩ => ⟨hrec, ?_⟩
        rw [hrec] at hmem
        exact List.mem_cons_of_mem _ hmem
    · rcases List.mem_cons.mp hx with rfl | hx
      · exact hp.hasTx_eq_false hasTx_eraseEntry
      · exact hq x (hrest x hx)

/-- A recursive removal leaves a part of the pool with all parents, without the transaction and
without those that spend its outputs. -/
theorem remove_recursive (h : Books env pool) (hl : pool.Linked) (tx : CTransaction) :
    Books env (pool.remove env tx [] true).1 ∧ Part (fun _ => False) (pool.remove env tx [] true).1 pool ∧
      (pool.remove env tx [] true).1.hasTx (tx.getHash env.hash) = false ∧
      ∀ {h' e o}, (pool.remove env tx [] true).1.mapTx.lookup h' = some e → o ∈ e.tx.prevouts →
        o.hash = tx.getHash env.hash → tx.vout.length ≤ o.n.toNat := by
  obtain ⟨hb, hp, hq⟩ := removeFrom_part true (tx.getHash env.hash ::
    if true && !pool.hasTx (tx.getHash env.hash) then pool.spenders env (tx.getHash env.hash) tx
    else []) [] h fun _ => hl
  have hp' : Part (fun _ => False) (pool.remove env tx [] true).1 pool := hp.mono fun _ h => by cases h.1
  refine ⟨hb, hp', hq _ (List.mem_cons_self ..), fun {h' e o} he ho hhash => ?_⟩
  cases hin : pool.hasTx (tx.getHash env.hash) with
  | true =>
    have hgone := hq _ (List.mem_cons_self ..)
    have := hp'.parent he ho (hhash ▸ hin)
    rw [hhash] at this
    exact absurd (this.symm.trans hgone) (by decide)
  | false =>
    by_contra hn
    have hspender := h.mem_spenders (hp'.sub he) ho (Nat.lt_of_not_le hn)
    have hgone := hq h' (by
      rw [hin, ← hhash]
      exact List.mem_cons_of_mem _ hspender)
    exact absurd ((hasTx_of_lookup he).symm.trans hgone) (by decide)

/-- A removal that is not recursive takes out one transaction. -/
theorem remove_single (h : Books env pool) (tx : CTransaction) :
    Books env (pool.remove env tx [] false).1 ∧
      Part (fun x => x = tx.getHash env.hash) (pool.remove env tx [] false).1 pool ∧
      (pool.remove env tx [] false).1.hasTx (tx.getHash env.hash) = false := by
  obtain ⟨hb, hp, hq⟩ := removeFrom_part false [tx.getHash env.hash] [] h fun hc => by cases hc
  exact ⟨hb, hp.mono fun x hx => List.mem_singleton.mp hx.2, hq _ (List.mem_singleton_self _)⟩

/-! ## Removals one after another -/

/-- Removals one after another, each of which leaves a part of the pool with a property that parts
inherit. -/
theorem foldl_part {α : Type} {D : UInt256 → Prop} {f : CTxMemPool → α → CTxMemPool}
    {Q : α → CTxMemPool → Prop} (hmono : ∀ a p p', Part D p' p → Q a p → Q a p') {l : List α}
    (hstep : ∀ a ∈ l, ∀ p, Part D p pool → Books env p →
      Books env (f p a) ∧ Part D (f p a) p ∧ Q a (f p a)) (h : Books env pool) :
    Books env (l.foldl f pool) ∧ Part D (l.foldl f pool) pool ∧ ∀ a ∈ l, Q a (l.foldl f pool) := by
  induction l generalizing pool with
  | nil => exact ⟨h, .refl pool, fun _ ha => by cases ha⟩
  | cons a l ih =>
    obtain ⟨hb, hp, hq⟩ := hstep a (List.mem_cons_self ..) pool (.refl pool) h
    obtain ⟨hb', hp', hq'⟩ := ih (fun b hb p hpart hbooks =>
      hstep b (List.mem_cons_of_mem _ hb) p (hpart.trans hp) hbooks) hb
    refine ⟨hb', hp'.trans hp, fun b hmem => ?_⟩
    rcases List.mem_cons.mp hmem with rfl | hmem
    · exact hmono _ _ _ hp' hq
    · exact hq' b hmem

/-- No transaction of the pool spends the outpoint. -/
def Avoids (pool : CTxMemPool) (o : COutPoint) : Prop :=
  ∀ h e, pool.mapTx.lookup h = some e → o ∉ e.tx.prevouts

theorem Avoids.part {D : UInt256 → Prop} {o : COutPoint} (h : pool.Avoids o)
    (hp : Part D pool' pool) : pool'.Avoids o := fun h' e he => h h' e (hp.sub he)

/-- A pool without the transaction keeps none that spends the outpoint of its input. -/
theorem removeConflict_part {tx : CTransaction} (txin : CTxIn) (h : Books env pool)
    (hl : pool.Linked) (hnew : pool.hasTx (tx.getHash env.hash) = false) :
    Books env (pool.removeConflict env tx txin) ∧
      Part (fun _ => False) (pool.removeConflict env tx txin) pool ∧
      (pool.removeConflict env tx txin).Avoids txin.prevout := by
  unfold removeConflict
  cases hnext : pool.mapNextTx.lookup txin.prevout with
  | none =>
    refine ⟨h, .refl pool, fun h' e he hmem => ?_⟩
    obtain ⟨n, hn⟩ := h.lookup_next he hmem
    rw [hnext] at hn
    cases hn
  | some inPoint =>
    obtain ⟨conflict, he, hderef, hhash, hspends⟩ := h.deref hnext
    rw [Option.bind_some, hderef]
    have hne : conflict.tx.getHash env.hash ≠ tx.getHash env.hash := fun hc => by
      rw [← hc, hhash, hasTx_of_lookup he] at hnew
      cases hnew
    obtain ⟨hb, hp, hgone, -⟩ := remove_recursive h hl conflict.tx
    refine ⟨?_, ?_, fun h' e he' hmem => ?_⟩
    · show Books env (if _ then _ else _)
      rwa [if_pos hne]
    · show Part _ (if _ then _ else _) _
      rwa [if_pos hne]
    · have he' : (if conflict.tx.getHash env.hash ≠ tx.getHash env.hash then
          (pool.remove env conflict.tx [] true).1 else pool).mapTx.lookup h' = some e := he'
      rw [if_pos hne] at he'
      obtain ⟨n, hn⟩ := h.lookup_next (hp.sub he') hmem
      rw [hnext, Option.some.injEq] at hn
      rw [hhash, hn, hasTx_of_lookup he'] at hgone
      cases hgone

theorem removeConflicts_part {tx : CTransaction} (h : Books env pool) (hl : pool.Linked)
    (hnew : pool.hasTx (tx.getHash env.hash) = false) :
    Books env (pool.removeConflicts env tx) ∧
      Part (fun _ => False) (pool.removeConflicts env tx) pool ∧
      ∀ txin ∈ tx.vin, (pool.removeConflicts env tx).Avoids txin.prevout :=
  foldl_part (Q := fun (txin : CTxIn) p => p.Avoids txin.prevout) (fun _ _ _ hp hq => hq.part hp)
    (fun txin _ _ hp hb => removeConflict_part txin hb (hp.linked hl) (hp.hasTx_eq_false hnew)) h

/-- What `removeForBlock` leaves: a part of the pool without the transactions of the block and those
that spend outpoints of their inputs; only parents in the block may be missing. -/
theorem removeForBlock_part (h : Books env pool) (hl : pool.Linked) (vtx : List CTransaction) :
    Books env (pool.removeForBlock env vtx) ∧
      Part (fun x => ∃ tx ∈ vtx, tx.getHash env.hash = x) (pool.removeForBlock env vtx) pool ∧
      ∀ tx ∈ vtx, (pool.removeForBlock env vtx).hasTx (tx.getHash env.hash) = false ∧
        ∀ txin ∈ tx.vin, (pool.removeForBlock env vtx).Avoids txin.prevout := by
  refine foldl_part (Q := fun (tx : CTransaction) p => p.hasTx (tx.getHash env.hash) = false ∧
    ∀ txin ∈ tx.vin, p.Avoids txin.prevout) (fun tx p p' hp hq => ?_) (fun tx htx p hp hb => ?_) h
  · exact ⟨hp.hasTx_eq_false hq.1, fun txin hmem => (hq.2 txin hmem).part hp⟩
  · obtain ⟨hb₁, hp₁, hgone⟩ := remove_single hb tx
    obtain ⟨hb₂, hp₂, havoid⟩ := removeConflicts_part hb₁ (hp₁.linked (hp.linked hl)) hgone
    refine ⟨hb₂, .trans (hp₂.mono fun _ => False.elim) (hp₁.mono fun x hx => ⟨tx, htx, hx.symm⟩), ?_⟩
    exact ⟨hp₂.hasTx_eq_false hgone, havoid⟩

/-- What `removeCoinbaseSpends` leaves: a part of the pool with all parents, without the
transactions that spend something immature. -/
theorem removeCoinbaseSpends_part (h : Books env pool) (hl : pool.Linked)
    (coins : UInt256 → Option CCoins) (nMemPoolHeight : Nat) :
    Books env (pool.removeCoinbaseSpends env coins nMemPoolHeight) ∧
      Part (fun _ => False) (pool.removeCoinbaseSpends env coins nMemPoolHeight) pool ∧
      ∀ {h' e txin}, (pool.removeCoinbaseSpends env coins nMemPoolHeight).mapTx.lookup h' = some e →
        txin ∈ e.tx.vin → pool.spendsImmature coins nMemPoolHeight txin = false := by
  obtain ⟨hb, hp, hq⟩ := foldl_part (Q := fun tx p => p.hasTx (tx.getHash env.hash) = false)
    (f := fun pool tx => (pool.remove env tx [] true).1)
    (l := (pool.entries.map fun entry => entry.2.tx).filter fun tx =>
      tx.vin.any (pool.spendsImmature coins nMemPoolHeight))
    (fun tx p p' hp hq => hp.hasTx_eq_false hq)
    (fun tx _ p hp hb => by
      obtain ⟨hb', hp', hq', -⟩ := remove_recursive hb (hp.linked hl) tx
      exact ⟨hb', hp', hq'⟩) h
  refine ⟨hb, hp, fun {h' e txin} he hmem => ?_⟩
  by_contra himm
  have hin := hp.sub he
  have hlisted : e.tx ∈ (pool.entries.map fun entry => entry.2.tx).filter fun tx =>
      tx.vin.any (pool.spendsImmature coins nMemPoolHeight) := by
    refine List.mem_filter.mpr ⟨List.mem_map.mpr ⟨⟨h', e⟩, ?_, rfl⟩, ?_⟩
    · exact List.mem_mergeSort.mpr (Assoc.mem_entries.mpr hin)
    · exact List.any_eq_true.mpr ⟨txin, hmem, by simpa using himm⟩
  have hgone := hq e.tx hlisted
  rw [h.key hin] at hgone
  exact absurd ((hasTx_of_lookup he).symm.trans hgone) (by decide)

end CTxMemPool

end GC
