import GameCredits.Proof.Mempool
import GameCredits.Proof.Tip

/-!
# The assertions of the memory pool

`CTxMemPool.Ok` is the invariant of a pool: its books are right, each of its transactions was once
paid for, and each input spends an output of the pool or, say, one of the coins of the tip that is
available and mature. Such a pool passes `CTxMemPool::check` (`Ok.check_eq`).

`Queue` says of transactions what they need to be applied in some order: a transaction none of whose
parents is in the queue can be applied (`Queue.exists_ready`), and the rest is a queue again
(`Queue.apply`).
-/

namespace GC

open Framework (Map Prog Assoc.mem_entries)

/-- A relation without infinite descent below a list has a minimal element in it. -/
theorem exists_minimal {α : Type} {r : α → α → Prop} {l : List α} {a : α} (ha : a ∈ l)
    (hacc : Acc r a) : ∃ b ∈ l, ∀ c ∈ l, ¬ r c b := by
  induction hacc with
  | intro a _ ih =>
    by_cases h : ∃ c ∈ l, r c a
    · obtain ⟨c, hc, hr⟩ := h
      exact ih c hr hc
    · exact ⟨a, ha, fun c hc hr => h ⟨c, hc, hr⟩⟩

section

variable (env : Env) (U : CTransaction → Prop)

/-- A transaction that a pool may hold: its inputs have been available, and paid for it. -/
structure PoolTx (tx : CTransaction) : Prop where
  rooted : Rooted env U tx
  checked : CheckedTx tx
  notCoinBase : tx.isCoinBase = false
  paid : ∃ m : CoinsMap, m.Origin env (Rooted env U) ∧ m.Payable tx

/-- An outpoint can be spent: it is available and mature. -/
def CoinsMap.CanSpend (m : CoinsMap) (o : COutPoint) : Prop :=
  (∃ out, m.output? o = some out) ∧ m.Mature (env.heightOf m.tag + 1) o

/-- Transactions that can be applied to a store in some order. -/
structure Queue (m : CoinsMap) (txs : List CTransaction) : Prop where
  origin : m.Origin env (Rooted env U)
  good : ∀ tx ∈ txs, PoolTx env U tx
  disjoint : txs.Pairwise fun s t => s.prevouts.Disjoint t.prevouts
  funded : ∀ tx ∈ txs, ∀ o ∈ tx.prevouts,
    (∃ s ∈ txs, s.getHash env.hash = o.hash) ∨ m.CanSpend env o

end

variable {env : Env} {U : CTransaction → Prop} {m m' : CoinsMap} {tx p : CTransaction}
  {txs : List CTransaction} {o : COutPoint}

theorem PoolTx.spends (h : PoolTx env U tx) : tx.spends = tx.prevouts :=
  spends_not_coinBase h.notCoinBase

/-- The output that an input spends is one that its transaction makes. -/
theorem PoolTx.source (h : PoolTx env U tx) (hinj : TxidInj env U) (ho : o ∈ tx.prevouts)
    (hp : Rooted env U p) (hhash : p.getHash env.hash = o.hash) :
    ∃ out, (CCoins.fromTx p 0).output? o.n.toNat = some out := by
  obtain ⟨m, hm, hpay⟩ := h.paid
  obtain ⟨out, hout, -⟩ := hpay.inputs o ho
  obtain ⟨q, hq, hqhash, -, hmade⟩ := hm.source hout
  obtain rfl := hinj.rooted p q hp hq (hhash.trans hqhash.symm)
  exact ⟨out, hmade⟩

/-- A transaction all of whose inputs can be spent passes `CheckInputs`, and is applied. -/
theorem PoolTx.apply (h : PoolTx env U tx) (hinj : TxidInj env U) (hm : m.Origin env (Rooted env U))
    (hspend : ∀ o ∈ tx.prevouts, m.CanSpend env o) :
    ∃ m', (applyTx env tx).run plain m = (.ok (), m') ∧ Applied env 1000000 m tx m' := by
  obtain ⟨m₀, hm₀, hpaid⟩ := h.paid
  have hpay : m.Payable tx := hpaid.congr fun o ho => by
    obtain ⟨out, hout⟩ := (hspend o ho).1
    obtain ⟨out₀, hout₀, -⟩ := hpaid.inputs o ho
    rw [hout, hout₀, hm.unique hinj.rooted hm₀ hout hout₀]
  have hcheck : (checkInputs env tx false false).run plain m = (.ok [], m) :=
    checkInputs_run h.checked h.notCoinBase hpay fun o ho => (hspend o ho).2
  obtain ⟨txundo, m', hup, happ⟩ := updateCoins_run env 1000000 h.notCoinBase h.checked.inputs
    fun o ho => (hspend o ho).1
  refine ⟨m', ?_, happ⟩
  rw [applyTx, Prog.run_bind, hcheck, Prog.runNext_ok, Prog.run_bind, hup, Prog.runNext_ok]
  rfl

namespace Queue

theorem perm {txs' : List CTransaction} (h : Queue env U m txs) (hperm : txs.Perm txs') :
    Queue env U m txs' := by
  refine ⟨h.origin, fun tx htx => h.good tx (hperm.mem_iff.mpr htx), ?_, fun tx htx o ho => ?_⟩
  · exact hperm.pairwise h.disjoint fun hst => hst.symm
  · rcases h.funded tx (hperm.mem_iff.mpr htx) o ho with ⟨s, hs, hhash⟩ | hspend
    · exact .inl ⟨s, hperm.mem_iff.mp hs, hhash⟩
    · exact .inr hspend

/-- An available input can be spent: where the queue has its transaction, that is no coinbase. -/
theorem canSpend (h : Queue env U m txs) (hinj : TxidInj env U) (htx : tx ∈ txs)
    (ho : o ∈ tx.prevouts) (hav : ∃ out, m.output? o = some out) : m.CanSpend env o := by
  rcases h.funded tx htx o ho with ⟨s, hs, hhash⟩ | hspend
  · refine ⟨hav, fun hcb => ?_⟩
    obtain ⟨out, hout⟩ := hav
    obtain ⟨q, hq, hqhash, hqcb, -⟩ := h.origin.source hout
    obtain rfl := hinj.rooted s q (h.good s hs).rooted hq (hhash.trans hqhash.symm)
    rw [hqcb, (h.good s hs).notCoinBase] at hcb
    cases hcb
  · exact hspend

/-- Some transaction of a queue can be applied. -/
theorem exists_ready (h : Queue env U m txs) (hne : txs ≠ []) :
    ∃ tx ∈ txs, ∀ o ∈ tx.prevouts, m.CanSpend env o := by
  obtain ⟨a, ha⟩ := List.exists_mem_of_ne_nil _ hne
  obtain ⟨tx, htx, hmin⟩ := exists_minimal ha (h.good a ha).rooted.2
  refine ⟨tx, htx, fun o ho => (h.funded tx htx o ho).resolve_left ?_⟩
  rintro ⟨s, hs, hhash⟩
  exact hmin s hs ⟨(h.good s hs).rooted.1, o, (h.good tx htx).spends ▸ ho, hhash⟩

/-- After the first transaction of a queue has been applied, the others are a queue. -/
theorem applied (h : Queue env U m (tx :: txs)) (hinj : TxidInj env U)
    (happ : Applied env 1000000 m tx m') : Queue env U m' txs := by
  have hgood := h.good tx (List.mem_cons_self ..)
  have hrest : ∀ t ∈ txs, t ∈ tx :: txs := fun t ht => List.mem_cons_of_mem _ ht
  obtain ⟨hdisj, hpair⟩ := List.pairwise_cons.mp h.disjoint
  refine ⟨happ.origin h.origin hgood.rooted, fun t ht => h.good t (hrest t ht), hpair,
    fun t ht o ho => ?_⟩
  by_cases hid : o.hash = tx.getHash env.hash
  · -- an output of the transaction just applied
    obtain ⟨out, hout⟩ := (h.good t (hrest t ht)).source hinj ho hgood.rooted hid.symm
    refine .inr ⟨⟨out, ?_⟩, fun hcb => ?_⟩
    · rw [CoinsMap.output?, hid, happ.made, CCoins.output?_cleanup, output?_fromTx_height, hout]
    · rw [hid, happ.made, CCoins.cleanup_fCoinBase, CCoins.fromTx_fCoinBase, hgood.notCoinBase] at hcb
      cases hcb
  · rcases h.funded t (hrest t ht) o ho with ⟨s, hs, hhash⟩ | ⟨⟨out, hout⟩, hmature⟩
    · rcases List.mem_cons.mp hs with rfl | hs
      · exact absurd hhash.symm hid
      · exact .inl ⟨s, hs, hhash⟩
    · have hnot : o ∉ tx.spends := fun hmem =>
        hdisj t ht (hgood.spends ▸ hmem) ho
      refine .inr ⟨⟨out, (happ.kept o hid hnot).trans hout⟩, ?_⟩
      rw [CoinsMap.Mature, happ.tag, happ.fCoinBase _ hid, happ.nHeight _ hid]
      exact hmature

/-- A queue can be applied in some order. -/
theorem order (h : Queue env U m txs) (hinj : TxidInj env U) :
    ∃ txs' : List CTransaction, txs'.Perm txs ∧
      ∃ m', (txs'.forM (applyTx env)).run plain m = (.ok (), m') := by
  induction hlen : txs.length generalizing m txs with
  | zero =>
    rw [List.length_eq_zero_iff] at hlen
    exact ⟨[], hlen ▸ .nil, m, rfl⟩
  | succ n ih =>
    have hne : txs ≠ [] := fun h0 => by rw [h0] at hlen; cases hlen
    obtain ⟨tx, htx, hspend⟩ := h.exists_ready hne
    obtain ⟨rest, hperm⟩ : ∃ rest, txs.Perm (tx :: rest) := by
      obtain ⟨l, r, rfl⟩ := List.append_of_mem htx
      exact ⟨l ++ r, List.perm_middle⟩
    obtain ⟨m₁, hrun, happ⟩ := (h.good tx htx).apply hinj h.origin hspend
    obtain ⟨txs', hperm', m', hrun'⟩ := ih ((h.perm hperm).applied hinj happ) (by
      rw [hperm.length_eq] at hlen
      exact Nat.succ.inj hlen)
    refine ⟨tx :: txs', (hperm'.cons tx).trans hperm.symm, m', ?_⟩
    show (applyTx env tx >>= fun _ => txs'.forM (applyTx env)).run plain m = _
    rw [Prog.run_bind, hrun, Prog.runNext_ok, hrun']

end Queue

/-! ## The loops of the check -/

namespace CTxMemPool

variable {pool : CTxMemPool}

/-- The loop over the transactions that wait. The last `steps` of them have been found to lack an
input since the store has last changed, and some transaction lacks none. -/
theorem checkWaiting_run (hinj : TxidInj env U) (waiting : List CTransaction) (steps : Nat)
    (h : Queue env U m waiting) {fresh stuck : List CTransaction} (heq : waiting = fresh ++ stuck)
    (hlen : stuck.length = steps)
    (hstuck : ∀ tx ∈ stuck, ∃ o ∈ tx.prevouts, m.output? o = none) :
    ∃ m', (checkWaiting env waiting steps).run plain m = (.ok (), m') := by
  fun_induction checkWaiting env waiting steps generalizing m fresh stuck with
  | case1 => exact ⟨m, rfl⟩
  | case2 steps tx rest ih₂ ih₁ =>
    obtain ⟨t, ht, hready⟩ := h.exists_ready (List.cons_ne_nil _ _)
    have hfresh : t ∈ fresh := by
      rw [heq] at ht
      refine (List.mem_append.mp ht).resolve_right fun hmem => ?_
      obtain ⟨o, ho, hnone⟩ := hstuck t hmem
      obtain ⟨out, hout⟩ := (hready o ho).1
      rw [hnone] at hout
      cases hout
    have hgood := h.good tx (List.mem_cons_self ..)
    rw [Prog.run_bind, haveInputs_run hgood.notCoinBase, Prog.runNext_ok]
    cases hall : tx.prevouts.all fun o => (m.output? o).isSome with
    | true =>
      rw [List.all_eq_true] at hall
      obtain ⟨m₁, hrun, happ⟩ := hgood.apply hinj h.origin fun o ho =>
        h.canSpend hinj (List.mem_cons_self ..) ho (Option.isSome_iff_exists.mp (hall o ho))
      obtain ⟨m', hrest⟩ := ih₂ (h.applied hinj happ) (List.append_nil rest).symm rfl
        fun _ hmem => by cases hmem
      refine ⟨m', ?_⟩
      rw [if_pos rfl, Prog.run_bind, hrun, Prog.runNext_ok, hrest]
    | false =>
      obtain ⟨o, ho, hnone⟩ : ∃ o ∈ tx.prevouts, m.output? o = none := by
        rw [List.all_eq_false] at hall
        obtain ⟨o, ho, hsome⟩ := hall
        exact ⟨o, ho, Option.not_isSome_iff_eq_none.mp hsome⟩
      -- the transaction that lacks nothing is behind this one, before those found to lack an input
      obtain ⟨fresh', rfl⟩ : ∃ fresh', fresh = tx :: fresh' := by
        rcases fresh with _ | ⟨f, fresh'⟩
        · cases hfresh
        · exact ⟨fresh', by rw [(List.cons.inj heq).1]⟩
      have hrest : rest = fresh' ++ stuck := (List.cons.inj heq).2
      subst hrest
      have hbehind : t ∈ fresh' := (List.mem_cons.mp hfresh).resolve_left fun ht => by
        obtain ⟨out, hout⟩ := (hready o (ht ▸ ho)).1
        rw [hnone] at hout
        cases hout
      have hsteps : steps + 1 < (fresh' ++ stuck ++ [tx]).length := by
        have := List.length_pos_of_mem hbehind
        simp only [List.length_append, List.length_singleton]
        omega
      obtain ⟨m', hrest⟩ := ih₁ hsteps (h.perm (List.perm_append_singleton _ _).symm)
        (List.append_assoc ..) (by simp [hlen]) fun s hs => by
          rcases List.mem_append.mp hs with hs | hs
          · exact hstuck s hs
          · cases List.mem_singleton.mp hs
            exact ⟨o, ho, hnone⟩
      exact ⟨m', by rw [if_neg (by decide), if_pos hsteps, hrest]⟩

/-- The loop over the entries, after those of `held` have been found to wait. -/
theorem checkEntries_run (hinj : TxidInj env U) (held : List CTransaction)
    {coins : UInt256 → Option CCoins}
    (hcheck : ∀ h e, pool.mapTx.lookup h = some e → ∀ txin ∈ e.tx.vin.zipIdx,
      pool.checkInput coins h txin.1 txin.2 = true)
    {es : List (Sigma fun _ : UInt256 => CTxMemPoolEntry)}
    (hes : ∀ e ∈ es, pool.mapTx.lookup e.1 = some e.2)
    (hhas : ∀ tx ∈ held ++ es.map fun e => e.2.tx, pool.hasTx (tx.getHash env.hash) = true)
    (h : Queue env U m (held ++ es.map fun e => e.2.tx)) :
    ∃ waiting m', (pool.checkEntries env coins es).run plain m = (.ok waiting, m') ∧
      Queue env U m' (held ++ waiting) := by
  induction es generalizing m held with
  | nil => exact ⟨[], m, rfl, h⟩
  | cons e es ih =>
    obtain ⟨hash, entry⟩ := e
    have hassert : (entry.tx.vin.zipIdx.all fun txin => pool.checkInput coins hash txin.1 txin.2) =
        true := List.all_eq_true.mpr (hcheck hash entry (hes _ (List.mem_cons_self ..)))
    have hes' : ∀ e ∈ es, pool.mapTx.lookup e.1 = some e.2 := fun e he =>
      hes e (List.mem_cons_of_mem _ he)
    rw [checkEntries, hassert]
    show ∃ waiting m', Prog.run plain _ m = _ ∧ _
    cases hwait : pool.dependsWait entry.tx with
    | true =>
      have hmove : held ++ entry.tx :: es.map (fun e => e.2.tx) =
          (held ++ [entry.tx]) ++ es.map fun e => e.2.tx := by simp
      rw [List.map_cons, hmove] at h hhas
      obtain ⟨waiting, m', hrun, hq⟩ := ih (held ++ [entry.tx]) hes' hhas h
      refine ⟨entry.tx :: waiting, m', ?_, by simpa using hq⟩
      show (pool.checkEntries env coins es >>= fun waiting =>
        pure (if true then entry.tx :: waiting else waiting)).run plain m = _
      rw [Prog.run_bind, hrun, Prog.runNext_ok]
      rfl
    | false =>
      rw [List.map_cons] at h hhas
      have hready : ∀ o ∈ entry.tx.prevouts, m.CanSpend env o := fun o ho => by
        refine (h.funded entry.tx (by simp) o ho).resolve_left ?_
        rintro ⟨s, hs, hhash⟩
        obtain ⟨txin, hmem, rfl⟩ := List.mem_map.mp ho
        have hnot := (List.any_eq_false.mp hwait) txin hmem
        rw [← hhash, hhas s hs] at hnot
        exact hnot rfl
      have h' := h.perm List.perm_middle
      obtain ⟨m₁, hrun, happ⟩ := (h.good entry.tx (by simp)).apply hinj h.origin hready
      obtain ⟨waiting, m', hrest, hq⟩ := ih held hes'
        (fun tx htx => hhas tx (List.perm_middle.mem_iff.mpr (List.mem_cons_of_mem _ htx)))
        (h'.applied hinj happ)
      refine ⟨waiting, m', ?_, hq⟩
      show (applyTx env entry.tx >>= fun _ => pool.checkEntries env coins es >>= fun waiting =>
        pure (if false then entry.tx :: waiting else waiting)).run plain m = _
      rw [Prog.run_bind, hrun, Prog.runNext_ok, Prog.run_bind, hrest, Prog.runNext_ok]
      rfl

/-! ## The invariant -/

/-- The invariant of a pool whose inputs spend outputs of the pool or what satisfies `F`. -/
structure Ok (env : Env) (U : CTransaction → Prop) (F : COutPoint → Prop) (pool : CTxMemPool) :
    Prop where
  books : pool.Books env
  good : ∀ {h e}, pool.mapTx.lookup h = some e → PoolTx env U e.tx
  funded : ∀ {h e o}, pool.mapTx.lookup h = some e → o ∈ e.tx.prevouts →
    pool.hasTx o.hash = true ∨ F o

/-- What `check` asserts: `mapNextTx` is the map from the outpoints of all inputs to these, every
input spends an output of another transaction of the pool or an available one, the transactions can
be applied in some order, and the total is right. -/
structure Consistent (env : Env) (pool : CTxMemPool) (coins : CoinsMap) : Prop where
  next : ∀ o inPoint, pool.mapNextTx.lookup o = some inPoint ↔ pool.Spends o inPoint
  inputs : ∀ h e o, pool.mapTx.lookup h = some e → o ∈ e.tx.prevouts →
    (o.hash ≠ h ∧ ∃ p out, pool.mapTx.lookup o.hash = some p ∧
      p.tx.vout[o.n.toNat]? = some out ∧ out.isNull = false) ∨ ∃ out, coins.output? o = some out
  order : ∃ txs : List CTransaction, txs.Perm (pool.entries.map fun entry => entry.2.tx) ∧
    ∃ coins', (txs.forM (applyTx env)).run plain coins = (.ok (), coins')
  total : pool.totalTxSize = (pool.entries.map fun entry => entry.2.nTxSize).sum

theorem mem_entries {e : Sigma fun _ : UInt256 => CTxMemPoolEntry} :
    e ∈ pool.entries ↔ pool.mapTx.lookup e.1 = some e.2 :=
  List.mem_mergeSort.trans Framework.Assoc.mem_entries

/-- An output that a transaction makes is not null. -/
theorem vout_of_fromTx {n : Nat} {out : CTxOut} (h : (CCoins.fromTx tx 0).output? n = some out) :
    tx.vout[n]? = some out ∧ out.isNull = false := by
  rw [CCoins.output?_fromTx, Option.filter_eq_some_iff, Option.bind_eq_some_iff] at h
  obtain ⟨⟨x, hx, hout⟩, -⟩ := h
  unfold CTxOut.unlessNull at hout
  split_ifs at hout with hnull
  cases hout
  exact ⟨hx, Bool.not_eq_true _ ▸ hnull⟩

namespace Ok

variable {F : COutPoint → Prop} {h : UInt256} {e : CTxMemPoolEntry}

/-- The output of the pool that an input spends. -/
theorem parent (hok : pool.Ok env U F) (hinj : TxidInj env U) {p : CTxMemPoolEntry}
    (he : pool.mapTx.lookup h = some e) (ho : o ∈ e.tx.prevouts)
    (hp : pool.mapTx.lookup o.hash = some p) :
    ∃ out, p.tx.vout[o.n.toNat]? = some out ∧ out.isNull = false := by
  obtain ⟨out, hout⟩ := (hok.good he).source hinj ho (hok.good hp).rooted (hok.books.key hp)
  exact ⟨out, vout_of_fromTx hout⟩

theorem linked (hok : pool.Ok env U F) (hinj : TxidInj env U) : pool.Linked := by
  intro h e o p he ho hp
  obtain ⟨out, hout, -⟩ := hok.parent hinj he ho hp
  exact (List.getElem?_eq_some_iff.mp hout).1

/-- No transaction spends its own output. -/
theorem ne_self (hok : pool.Ok env U F) (he : pool.mapTx.lookup h = some e)
    (ho : o ∈ e.tx.prevouts) : o.hash ≠ h := by
  intro hself
  have hgood := hok.good he
  have hparent : Parent env U e.tx e.tx :=
    ⟨hgood.rooted.1, o, hgood.spends ▸ ho, (hok.books.key he).trans hself.symm⟩
  obtain ⟨t, ht, hmin⟩ := exists_minimal (List.mem_singleton_self e.tx) hgood.rooted.2
  cases List.mem_singleton.mp ht
  exact hmin _ ht hparent

/-- The transactions of the pool can be applied in some order. -/
theorem queue (hok : pool.Ok env U (m.CanSpend env)) (hm : m.Known env U) :
    Queue env U m (pool.entries.map fun entry => entry.2.tx) := by
  refine ⟨hm.origin, fun tx htx => ?_, ?_, fun tx htx o ho => ?_⟩
  · obtain ⟨e, he, rfl⟩ := List.mem_map.mp htx
    exact hok.good (mem_entries.mp he)
  · have hkeys := List.nodupKeys_iff_pairwise.mp pool.mapTx.nodupKeys
    have hperm : pool.entries.Perm pool.mapTx.entries := List.mergeSort_perm _ _
    have hdisj : pool.mapTx.entries.Pairwise fun a b => a.2.tx.prevouts.Disjoint b.2.tx.prevouts :=
      hkeys.imp_of_mem fun {a b} ha hb hne o hoa hob => by
        obtain ⟨i, hi⟩ := List.mem_iff_getElem?.mp hoa
        obtain ⟨j, hj⟩ := List.mem_iff_getElem?.mp hob
        have heq := hok.books.spender_unique (a := ⟨a.1, i⟩) (b := ⟨b.1, j⟩)
          ⟨a.2, Framework.Assoc.mem_entries.mp ha, hi⟩ ⟨b.2, Framework.Assoc.mem_entries.mp hb, hj⟩
        exact hne (congrArg CInPoint.ptx heq)
    exact List.pairwise_map.mpr (hperm.symm.pairwise hdisj fun h => h.symm)
  · obtain ⟨e, he, rfl⟩ := List.mem_map.mp htx
    refine (hok.funded (mem_entries.mp he) ho).imp_left fun hhas => ?_
    obtain ⟨p, hp⟩ := hasTx_iff.mp hhas
    exact ⟨p.tx, List.mem_map.mpr ⟨⟨o.hash, p⟩, mem_entries.mpr hp, rfl⟩, hok.books.key hp⟩

theorem checkInput (hok : pool.Ok env U (m.CanSpend env)) (hinj : TxidInj env U)
    (he : pool.mapTx.lookup h = some e) {txin : CTxIn × Nat} (htxin : txin ∈ e.tx.vin.zipIdx) :
    pool.checkInput m.rec? h txin.1 txin.2 = true := by
  obtain ⟨txin, i⟩ := txin
  have hget : e.tx.prevouts[i]? = some txin.prevout := by
    rw [List.getElem?_map, List.mk_mem_zipIdx_iff_getElem?.mp htxin]; rfl
  have ho := List.mem_of_getElem? hget
  have hnext := (hok.books.next txin.prevout ⟨h, i⟩).mpr ⟨e, he, hget⟩
  rw [CTxMemPool.checkInput, hnext, Bool.and_eq_true]
  refine ⟨?_, beq_self_eq_true _⟩
  cases hp : pool.mapTx.lookup txin.prevout.hash with
  | some p =>
    obtain ⟨out, hout, hnull⟩ := hok.parent hinj he ho hp
    show (p.tx.vout[txin.prevout.n.toNat]?).any _ = true
    rw [hout, Option.any_some, hnull]
    rfl
  | none =>
    obtain ⟨⟨out, hout⟩, -⟩ := (hok.funded he ho).resolve_left fun hhas => by
      rw [hasTx_eq_false.mpr hp] at hhas
      cases hhas
    show (m.rec? txin.prevout.hash).any _ = true
    rw [CoinsMap.output?, CoinsMap.coins, Map.record] at hout
    cases hrec : m.rec? txin.prevout.hash with
    | none =>
      rw [hrec] at hout
      cases hout
    | some coins =>
      rw [hrec] at hout
      rw [Option.any_some, CCoins.isAvailable, show coins.output? _ = some out from hout]
      rfl

/-- A pool with the invariant is consistent with the coins. -/
theorem consistent (hok : pool.Ok env U (m.CanSpend env)) (hinj : TxidInj env U) (hm : m.Known env U) :
    Consistent env pool m where
  next := hok.books.next
  inputs h e o he ho := by
    rcases hok.funded he ho with hhas | hspend
    · obtain ⟨p, hp⟩ := hasTx_iff.mp hhas
      obtain ⟨out, hout, hnull⟩ := hok.parent hinj he ho hp
      exact .inl ⟨hok.ne_self he ho, p, out, hp, hout, hnull⟩
    · exact .inr hspend.1
  order := (hok.queue hm).order hinj
  total := by
    rw [hok.books.total, Framework.Assoc.total]
    exact ((List.mergeSort_perm _ _).map _).sum_eq.symm

/-- A pool with the invariant passes the check. -/
theorem check_eq (hok : pool.Ok env U (m.CanSpend env)) (hinj : TxidInj env U) (hm : m.Known env U) :
    pool.check env m = true := by
  obtain ⟨waiting, m₁, hentries, hq⟩ := checkEntries_run hinj []
    (fun h e he txin htxin => hok.checkInput hinj he htxin) (fun e he => mem_entries.mp he)
    (fun tx htx => by
      obtain ⟨e, he, rfl⟩ := List.mem_map.mp htx
      rw [hok.books.key (mem_entries.mp he)]
      exact hasTx_of_lookup (mem_entries.mp he)) (hok.queue hm)
  obtain ⟨m₂, hwaiting⟩ := checkWaiting_run hinj waiting 0 hq (List.append_nil waiting).symm rfl
    fun _ hmem => by cases hmem
  rw [check, Bool.and_eq_true, Bool.and_eq_true]
  refine ⟨⟨?_, List.all_eq_true.mpr fun next hnext => ?_⟩, ?_⟩
  · rw [Prog.run_bind, hentries, Prog.runNext_ok, hwaiting]
  · obtain ⟨o, inPoint⟩ := next
    have hlook := Framework.Assoc.mem_entries.mp hnext
    obtain ⟨e, he, ho⟩ := (hok.books.next o inPoint).mp hlook
    rw [checkNext, deref, he]
    show (e.tx.getHash env.hash == inPoint.ptx && (e.tx.vin[inPoint.n]?).map CTxIn.prevout == some o) = true
    rw [List.getElem?_map] at ho
    rw [hok.books.key he, ho, beq_self_eq_true, beq_self_eq_true]
    rfl
  · exact beq_iff_eq.mpr (hok.consistent hinj hm).total

end Ok

end CTxMemPool

end GC
