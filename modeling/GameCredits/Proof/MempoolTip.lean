import GameCredits.Proof.MempoolCheck

/-!
# The memory pool follows the tip

Every operation of a tip keeps the invariant of the pool on the coins of the tip
(`TipState.step_ok`), so that after any operations the pool passes its check (`mempool_consistent`).

Disconnecting a block has a loop in which the pool lacks transactions of the block that are still to
be resurrected; there an input may also spend an output of one of these (`resurrect_ok`).
-/

namespace GC

open Framework (Bytes Map Prog)

namespace CTxMemPool

variable {env : Env} {U : CTransaction → Prop} {index : UInt256 → TipBlock}
  {F F' : COutPoint → Prop} {pool pool' : CTxMemPool}
  {m m' : CoinsMap} {tx : CTransaction}

theorem Ok.empty : CTxMemPool.empty.Ok env U F :=
  ⟨.empty, (fun h => by cases h), fun h => by cases h⟩

theorem Ok.mono (h : pool.Ok env U F) (hF : ∀ o, F o → F' o) : pool.Ok env U F' :=
  ⟨h.books, h.good, fun he ho => (h.funded he ho).imp_right (hF _)⟩

/-- A part of a pool, where what may be missing is funded otherwise. -/
theorem Ok.part {D : UInt256 → Prop} (h : pool.Ok env U F) (hb : pool'.Books env)
    (hp : Part D pool' pool)
    (hF : ∀ {h' e o}, pool'.mapTx.lookup h' = some e → o ∈ e.tx.prevouts →
      pool.hasTx o.hash = true ∧ D o.hash ∨ F o → pool'.hasTx o.hash = true ∨ F' o) :
    pool'.Ok env U F' := by
  refine ⟨hb, fun he => h.good (hp.sub he), fun he ho => ?_⟩
  rcases h.funded (hp.sub he) ho with hhas | hf
  · rcases hp.parents he ho hhas with hhas' | hD
    · exact .inl hhas'
    · exact hF he ho (.inl ⟨hhas, hD⟩)
  · exact hF he ho (.inr hf)

/-! ## Acceptance -/

theorem view_some {txid : UInt256} {e : CTxMemPoolEntry} (he : pool.mapTx.lookup txid = some e) :
    CoinsMap.coins (pool.view m) txid = CCoins.fromTx e.tx MEMPOOL_HEIGHT := by
  rw [CoinsMap.coins, Map.record, view]
  simp only [he, Option.getD_some]

theorem view_none {txid : UInt256} (he : pool.mapTx.lookup txid = none)
    (hp : (CoinsMap.coins (pool.view m) txid).isPruned = false) :
    CoinsMap.coins (pool.view m) txid = m.coins txid := by
  rw [CoinsMap.coins, Map.record, view] at hp ⊢
  simp only [he] at hp ⊢
  rw [CoinsMap.coins, Map.record]
  cases hrec : m.rec? txid with
  | none => rfl
  | some coins =>
    rw [hrec, Option.filter_some] at hp
    rw [Option.filter_some]
    split_ifs at hp ⊢
    · rfl
    · cases hp

/-- What the pool sees comes from known transactions. -/
theorem Ok.view_origin (h : pool.Ok env U F) (hm : m.Origin env (Rooted env U)) :
    CoinsMap.Origin env (Rooted env U) (pool.view m) := by
  intro txid hp
  cases he : pool.mapTx.lookup txid with
  | none =>
    have heq := view_none he hp
    rw [heq] at hp ⊢
    exact hm txid hp
  | some e =>
    rw [view_some he]
    exact ⟨e.tx, (h.good he).rooted, h.books.key he, rfl, fun n out hout => by
      rwa [output?_fromTx_height] at hout⟩

/-- An output that the pool sees is one of the pool's or one of the coins'. -/
theorem view_canSpend {o : COutPoint} (h : CoinsMap.CanSpend env (pool.view m) o) :
    pool.hasTx o.hash = true ∨ m.CanSpend env o := by
  cases he : pool.mapTx.lookup o.hash with
  | some e => exact .inl (hasTx_of_lookup he)
  | none =>
    obtain ⟨⟨out, hout⟩, hmature⟩ := h
    have heq := view_none he (CCoins.not_isPruned hout)
    rw [CoinsMap.output?, heq] at hout
    rw [CoinsMap.Mature, heq] at hmature
    exact .inr ⟨⟨out, hout⟩, hmature⟩

theorem haveCoins_reads (txid : UInt256) : (haveCoins txid).Reads := fun _ => trivial

theorem haveParents_reads (vin : List CTxIn) : (haveParents vin).Reads := by
  induction vin with
  | nil => trivial
  | cons txin vin ih =>
    refine (haveCoins_reads _).bind fun fHave => ?_
    cases fHave with
    | false => trivial
    | true => exact ih.bind fun _ => trivial

/-- What `AcceptToMemoryPool` has found of an accepted transaction, and what it has done. -/
theorem acceptToMemoryPool_ok {policy : Bool}
    (h : acceptToMemoryPool env policy pool m tx = .ok pool') :
    CheckedTx tx ∧ tx.isCoinBase = false ∧ pool.hasTx (tx.getHash env.hash) = false ∧
      (∀ o ∈ tx.prevouts, pool.mapNextTx.lookup o = none) ∧
      CoinsMap.Payable (pool.view m) tx ∧
      (∀ o ∈ tx.prevouts, CoinsMap.CanSpend env (pool.view m) o) ∧
      pool' = pool.addUnchecked (tx.getHash env.hash) ⟨tx, UInt64.ofNat tx.getSerializeSize⟩ := by
  obtain ⟨_, hcheck, h⟩ := bind_ok h
  obtain ⟨_, hcb, h⟩ := bind_ok h
  obtain ⟨_, -, h⟩ := bind_ok h
  obtain ⟨_, hnew, h⟩ := bind_ok h
  obtain ⟨_, hfree, h⟩ := bind_ok h
  obtain ⟨_, hspend, h⟩ := bind_ok h
  have htx := checkTransaction_ok hcheck
  have hcb := require_ok hcb
  have hnew := require_ok hnew
  have hfree := require_ok hfree
  rw [Bool.not_eq_true'] at hcb hnew
  have hrun := Prog.eq_ok_of_fst hspend
  obtain ⟨_, -, hrun⟩ := Map.run_reads_bind_ok (haveCoins_reads _) hrun
  obtain ⟨-, hrun⟩ := Prog.run_check_bind_ok hrun
  obtain ⟨_, -, hrun⟩ := Map.run_reads_bind_ok (haveParents_reads _) hrun
  obtain ⟨-, hrun⟩ := Prog.run_check_bind_ok hrun
  obtain ⟨_, -, hrun⟩ := Map.run_reads_bind_ok (haveInputs_reads _) hrun
  obtain ⟨-, hrun⟩ := Prog.run_check_bind_ok hrun
  rw [run_getBestBlock] at hrun
  obtain ⟨_, -, hrun⟩ := Map.run_reads_bind_ok (getValueIn_reads _) hrun
  obtain ⟨_, -, hrun⟩ := Prog.run_lift_bind_ok hrun
  obtain ⟨_, hinputs, -⟩ := Map.run_reads_bind_ok (checkInputs_reads env _ _ _) hrun
  obtain ⟨hpay, hmature⟩ := checkInputs_payable htx hinputs
  refine ⟨htx, hcb, hnew, fun o ho => ?_, hpay, fun o ho => ⟨?_, hmature o ho⟩, ?_⟩
  · obtain ⟨txin, hmem, rfl⟩ := List.mem_map.mp ho
    exact Option.isNone_iff_eq_none.mp (List.all_eq_true.mp hfree txin hmem)
  · obtain ⟨out, hout, -⟩ := hpay.inputs o ho
    exact ⟨out, hout⟩
  · cases h
    rfl

/-- An accepted transaction joins the pool; its inputs spend outputs of the pool, or of the coins. -/
theorem Ok.accept {policy : Bool} (hok : pool.Ok env U F) (hinj : TxidInj env U)
    (hm : m.Origin env (Rooted env U)) (htx : U tx)
    (h : acceptToMemoryPool env policy pool m tx = .ok pool') :
    pool'.Ok env U (fun o => F o ∨ m.CanSpend env o) ∧ pool'.hasTx (tx.getHash env.hash) = true := by
  obtain ⟨hchecked, hcb, hnew, hfree, hpay, hspend, rfl⟩ := acceptToMemoryPool_ok h
  have hview := hok.view_origin hm
  have hgood : PoolTx env U tx := by
    refine ⟨.intro hinj htx hview fun o ho => ?_, hchecked, hcb, _, hview, hpay⟩
    rw [spends_not_coinBase hcb] at ho
    exact (hspend o ho).1
  have hhas : ∀ x, pool.hasTx x = true →
      (pool.addUnchecked (tx.getHash env.hash) ⟨tx, UInt64.ofNat tx.getSerializeSize⟩).hasTx x = true := by
    intro x hx
    obtain ⟨e, he⟩ := hasTx_iff.mp hx
    refine hasTx_of_lookup (Framework.Assoc.lookup_insert_iff.mpr (.inr ⟨fun hc => ?_, he⟩))
    rw [← hc, hx] at hnew
    cases hnew
  refine ⟨⟨hok.books.addUnchecked rfl (hasTx_eq_false.mp hnew) hchecked.inputs hfree, fun he => ?_,
    fun he ho => ?_⟩, hasTx_of_lookup (Framework.Assoc.lookup_insert_iff.mpr (.inl ⟨rfl, rfl⟩))⟩
  · rcases Framework.Assoc.lookup_insert_iff.mp he with ⟨rfl, rfl⟩ | ⟨-, he⟩
    · exact hgood
    · exact hok.good he
  · rcases Framework.Assoc.lookup_insert_iff.mp he with ⟨rfl, rfl⟩ | ⟨-, he⟩
    · exact (view_canSpend (hspend _ ho)).imp (hhas _) .inr
    · exact (hok.funded he ho).imp (hhas _) .inl

/-! ## Connecting -/

theorem mem_prevouts_of_spends {o : COutPoint} (h : o ∈ tx.spends) : o ∈ tx.prevouts := by
  unfold CTransaction.spends at h
  split_ifs at h
  · cases h
  · exact h

/-- The pool after a block has been connected, on the coins after it. -/
theorem Ok.connect (h : pool.Ok env U (m.CanSpend env)) (hinj : TxidInj env U) {block : CBlock}
    {pindex : BlockRef} {coinbase : CTransaction} {rest : List CTransaction} {blockUndo : CBlockUndo}
    (hconn : Connected env block pindex coinbase rest m blockUndo m') (hb : BlockOk env U index block pindex) :
    (pool.removeForBlock env block.vtx).Ok env U
      (CoinsMap.CanSpend env { m' with tag := pindex.hashBlock }) := by
  obtain ⟨hbooks, hpart, hgone⟩ := removeForBlock_part h.books (h.linked hinj) block.vtx
  refine h.part hbooks hpart fun {h' e o} he ho hcase => .inr ?_
  have hnot : ∀ tx ∈ block.vtx, o ∉ tx.spends := fun tx htx hmem => by
    obtain ⟨txin, hin, rfl⟩ := List.mem_map.mp (mem_prevouts_of_spends hmem)
    exact (hgone tx htx).2 txin hin h' e he ho
  have hin := hpart.sub he
  rcases hcase with ⟨hhas, tx, htx, hhash⟩ | ⟨⟨out, hout⟩, hmature⟩
  · -- the parent is in the block: its output is now one of the coins
    obtain ⟨p, hp⟩ := hasTx_iff.mp hhas
    have hpgood := h.good hp
    obtain rfl := hinj tx p.tx (hb.txs tx htx) hpgood.rooted.1 (hhash.trans (h.books.key hp).symm)
    obtain ⟨out, hmade⟩ := (h.good hin).source hinj ho hpgood.rooted hhash
    obtain ⟨hout, hcb⟩ := hconn.makes hb.indexed.regular.txids htx hhash.symm hnot
    refine ⟨⟨out, hout.trans hmade⟩, fun hc => ?_⟩
    have hc : (m'.coins o.hash).fCoinBase = true := hc
    rw [hcb, hpgood.notCoinBase] at hc
    cases hc
  · obtain ⟨hout', hcb, hheight⟩ := hconn.keeps hout hnot
    refine ⟨⟨out, hout'⟩, fun hc => ?_⟩
    have hold := hmature (hcb ▸ hc)
    show COINBASE_MATURITY ≤ (env.heightOf pindex.hashBlock : Int) + 1 - ((m'.coins o.hash).nHeight : Int)
    rw [hheight, hb.height, hb.next, hconn.prev]
    push_cast
    omega

/-! ## Disconnecting -/

/-- What inputs may spend while transactions are still to be resurrected: one of their outputs, or
one of the coins, mature or not. -/
def Pending (env : Env) (m : CoinsMap) (vtx : List CTransaction) (o : COutPoint) : Prop :=
  (∃ tx ∈ vtx, tx.getHash env.hash = o.hash) ∨ ∃ out, m.output? o = some out

/-- One transaction is resurrected, or all that spends its outputs is removed. -/
theorem Ok.resurrect {policy : CTransaction → Bool} {vtx : List CTransaction}
    (h : pool.Ok env U (Pending env m (tx :: vtx))) (hinj : TxidInj env U)
    (hm : m.Origin env (Rooted env U)) (htx : Rooted env U tx) :
    (TipState.resurrect env policy m pool tx).Ok env U (Pending env m vtx) := by
  have hremove : (pool.remove env tx [] true).1.Ok env U (Pending env m vtx) := by
    obtain ⟨hb, hp, -, hspends⟩ := remove_recursive h.books (h.linked hinj) tx
    refine h.part hb hp fun {h' e o} he ho hcase => .inr ?_
    have hne : tx.getHash env.hash ≠ o.hash := fun hhash => by
      obtain ⟨out, hout⟩ := (h.good (hp.sub he)).source hinj ho htx hhash
      have hlt := (List.getElem?_eq_some_iff.mp (vout_of_fromTx hout).1).1
      exact absurd hlt (Nat.not_lt.mpr (hspends he ho hhash.symm))
    rcases hcase with ⟨-, hfalse⟩ | ⟨s, hs, hhash⟩ | hout
    · exact hfalse.elim
    · rcases List.mem_cons.mp hs with rfl | hs
      · exact absurd hhash hne
      · exact .inl ⟨s, hs, hhash⟩
    · exact .inr hout
  unfold TipState.resurrect
  split_ifs
  · exact hremove
  · cases haccept : acceptToMemoryPool env (policy tx) pool m tx with
    | error e => exact hremove
    | ok pool' =>
      obtain ⟨hok, hhas⟩ := h.accept hinj hm htx.1 haccept
      refine ⟨hok.books, hok.good, fun he ho => ?_⟩
      rcases hok.funded he ho with hin | (⟨s, hs, hhash⟩ | hout) | hspend
      · exact .inl hin
      · rcases List.mem_cons.mp hs with rfl | hs
        · exact .inl (hhash ▸ hhas)
        · exact .inr (.inl ⟨s, hs, hhash⟩)
      · exact .inr (.inr hout)
      · exact .inr (.inr hspend.1)

theorem Ok.resurrectAll {vtx : List CTransaction} (h : pool.Ok env U (Pending env m vtx))
    (hinj : TxidInj env U) (policy : CTransaction → Bool)
    (hm : m.Origin env (Rooted env U)) (hvtx : ∀ tx ∈ vtx, Rooted env U tx) :
    (vtx.foldl (TipState.resurrect env policy m) pool).Ok env U (Pending env m []) := by
  induction vtx generalizing pool with
  | nil => exact h
  | cons tx vtx ih =>
    exact ih (h.resurrect hinj hm (hvtx tx (List.mem_cons_self ..)))
      fun s hs => hvtx s (List.mem_cons_of_mem _ hs)

/-- What `removeCoinbaseSpends` leaves is mature at the height it is told. -/
theorem mature_of_spendsImmature {nMemPoolHeight : Nat} {txin : CTxIn}
    (himm : pool.spendsImmature m.rec? nMemPoolHeight txin = false)
    (hhas : pool.hasTx txin.prevout.hash = false) (hheight : nMemPoolHeight < 2 ^ 32)
    (hle : (m.coins txin.prevout.hash).nHeight ≤ nMemPoolHeight) :
    m.Mature nMemPoolHeight txin.prevout := by
  intro hcb
  rw [spendsImmature, hhas] at himm
  rw [CoinsMap.coins, Map.record] at hcb hle ⊢
  cases hrec : m.rec? txin.prevout.hash with
  | none =>
    rw [hrec] at himm
    cases himm
  | some coins =>
    rw [hrec] at himm hcb hle
    have hcb : coins.fCoinBase = true := hcb
    have hle : coins.nHeight ≤ nMemPoolHeight := hle
    have himm : (coins.fCoinBase &&
      decide (UInt32.ofNat nMemPoolHeight - UInt32.ofNat coins.nHeight < 100)) = false := himm
    rw [hcb, Bool.true_and, decide_eq_false_iff_not, UInt32.lt_iff_toNat_lt] at himm
    have hsub : (UInt32.ofNat nMemPoolHeight - UInt32.ofNat coins.nHeight).toNat =
        nMemPoolHeight - coins.nHeight := by
      have hn := UInt32.toNat_ofNat_of_lt' (n := nMemPoolHeight) hheight
      have hc := UInt32.toNat_ofNat_of_lt' (n := coins.nHeight) (Nat.lt_of_le_of_lt hle hheight)
      rw [UInt32.toNat_sub_of_le _ _ (UInt32.le_iff_toNat_le.mpr (by rw [hn, hc]; exact hle)), hn, hc]
    rw [hsub] at himm
    show (100 : Int) ≤ nMemPoolHeight - (coins.nHeight : Int)
    have h100 : (100 : UInt32).toNat = 100 := rfl
    omega

/-- The pool after a block has been disconnected, on the coins before it. -/
theorem Ok.disconnect {policy : CTransaction → Bool} {vtx : List CTransaction} {nHeight : Nat}
    (h : pool.Ok env U (m.CanSpend env)) (hinj : TxidInj env U) (hm : m'.Known env U)
    (hvtx : ∀ tx ∈ vtx, Rooted env U tx) (hheight : nHeight = env.heightOf m'.tag + 1)
    (hmax : nHeight < 2 ^ 31)
    (hback : ∀ o out, m.output? o = some out → (∀ tx ∈ vtx, tx.getHash env.hash ≠ o.hash) →
      m'.output? o = some out) :
    ((vtx.foldl (TipState.resurrect env policy m') pool).removeCoinbaseSpends env m'.rec?
      nHeight).Ok env U (m'.CanSpend env) := by
  have hpending : pool.Ok env U (Pending env m' vtx) := by
    refine h.mono fun o hspend => ?_
    obtain ⟨⟨out, hout⟩, -⟩ := hspend
    by_cases hmem : ∃ tx ∈ vtx, tx.getHash env.hash = o.hash
    · exact .inl hmem
    · exact .inr ⟨out, hback o out hout fun tx htx hhash => hmem ⟨tx, htx, hhash⟩⟩
  have hall := hpending.resurrectAll hinj policy hm.origin hvtx
  obtain ⟨hb, hp, himm⟩ := removeCoinbaseSpends_part hall.books (hall.linked hinj) m'.rec?
    nHeight
  refine hall.part hb hp fun {h' e o} he ho hcase => ?_
  obtain ⟨txin, hmem, rfl⟩ := List.mem_map.mp ho
  rcases hcase with ⟨-, hfalse⟩ | ⟨s, hs, -⟩ | ⟨out, hout⟩
  · exact hfalse.elim
  · cases hs
  · cases hhas : (vtx.foldl (TipState.resurrect env policy m') pool).hasTx txin.prevout.hash with
    | true => exact .inl (hp.parent he ho hhas)
    | false =>
      have hle := (hm.height txin.prevout.hash (CCoins.not_isPruned hout)).2
      have hmature := mature_of_spendsImmature (himm he hmem) hhas (by omega) (by omega)
      refine .inr ⟨⟨out, hout⟩, ?_⟩
      rw [hheight] at hmature
      exact_mod_cast hmature

end CTxMemPool

/-! ## All operations -/

variable {env : Env} {U : CTransaction → Prop} {index : UInt256 → TipBlock} {s : TipState}

/-- An operation with transactions of `U`, and with blocks whose index entries are right. -/
def TipOp.Ok (env : Env) (U : CTransaction → Prop) (index : UInt256 → TipBlock) : TipOp → Prop
  | .accept _ tx => U tx
  | .connect block pindex => BlockOk env U index block pindex
  | .disconnect _ => True
  | .clear => True

namespace TipState

/-- The coins follow the chain, and the pool has its invariant on them. -/
structure Ok (env : Env) (U : CTransaction → Prop) (index : UInt256 → TipBlock) (s : TipState) :
    Prop where
  follow : Follow env index s.undo s.blocks s.coins
  blocks : ∀ b ∈ s.blocks, BlockOk env U index b.block b.pindex
  mempool : s.mempool.Ok env U (CoinsMap.CanSpend env s.coins)

theorem init_ok : (init env).Ok env U index := ⟨.nil, (fun _ hb => by cases hb), .empty⟩

theorem Ok.known (h : s.Ok env U index) (hinj : TxidInj env U) : CoinsMap.Known env U s.coins :=
  h.follow.known hinj h.blocks

theorem accept_ok (hinj : TxidInj env U) (h : s.Ok env U index) {policy : Bool} {tx : CTransaction}
    (htx : U tx) : (s.accept env policy tx).Ok env U index := by
  unfold accept
  cases haccept : acceptToMemoryPool env policy s.mempool s.coins tx with
  | error e => exact h
  | ok mempool =>
    have hok := (h.mempool.accept hinj (h.known hinj).origin htx haccept).1
    exact ⟨h.follow, h.blocks, hok.mono fun _ ho => ho.elim id id⟩

theorem connectTip_ok (hinj : TxidInj env U) (hops : env.ops.Lawful) (h : s.Ok env U index)
    {block : CBlock} {pindex : BlockRef} (hb : BlockOk env U index block pindex) :
    (s.connectTip env block pindex).Ok env U index := by
  rcases hrun : (connectBlock env block pindex false).run plain s.coins with ⟨r, coins⟩
  cases r with
  | error e =>
    have hstep : s.connectTip env block pindex = s := by rw [connectTip, hrun]
    rwa [hstep]
  | ok blockundo =>
    have hstep : s.connectTip env block pindex =
        ⟨⟨block, pindex⟩ :: s.blocks, coins,
          s.undo.write pindex.hashBlock (writeBlockUndo env.ops blockundo),
          s.mempool.removeForBlock env block.vtx⟩ := by rw [connectTip, hrun]
    rw [hstep]
    obtain ⟨coinbase, rest, m₁, hconn, rfl⟩ := connectBlock_ok hb.indexed.regular.notGenesis hrun
    refine ⟨h.follow.connect hops hb.indexed hrun, fun b hmem => ?_,
      h.mempool.connect hinj hconn hb⟩
    rcases List.mem_cons.mp hmem with rfl | hmem
    · exact hb
    · exact h.blocks b hmem

theorem disconnectTip_ok (hinj : TxidInj env U) (h : s.Ok env U index) {policy : CTransaction → Bool} :
    (s.disconnectTip env policy).Ok env U index := by
  obtain ⟨blocks, coins, undo, mempool⟩ := s
  rcases blocks with _ | ⟨b, blocks⟩
  · exact h
  · obtain ⟨blockUndo, coins', hstored, hrun, hfollow, htag, hback⟩ := h.follow.disconnect
    have hall : ∀ b' ∈ b :: blocks, BlockOk env U index b'.block b'.pindex := h.blocks
    have hb := hall b (List.mem_cons_self ..)
    have hblocks : ∀ b ∈ blocks, BlockOk env U index b.block b.pindex := fun b hb =>
      hall b (List.mem_cons_of_mem _ hb)
    have hstep : disconnectTip env ⟨b :: blocks, coins, undo, mempool⟩ policy =
        ⟨blocks, coins', undo, (b.block.vtx.foldl (resurrect env policy coins')
          mempool).removeCoinbaseSpends env coins'.rec? b.pindex.nHeight⟩ := by
      simp only [disconnectTip, hstored, hrun]
    rw [hstep]
    exact ⟨hfollow, hblocks, h.mempool.disconnect hinj (hfollow.known hinj hblocks)
      (h.follow.rooted hinj hall) (by rw [hb.next, htag]) hb.indexed.regular.height.2 hback⟩

/-- Every operation keeps the invariant. -/
theorem step_ok (hinj : TxidInj env U) (hops : env.ops.Lawful) (h : s.Ok env U index) {op : TipOp}
    (hop : op.Ok env U index) : (s.step env op).Ok env U index := by
  cases op with
  | accept policy tx => exact accept_ok hinj h hop
  | connect block pindex => exact connectTip_ok hinj hops h hop
  | disconnect policy => exact disconnectTip_ok hinj h
  | clear => exact ⟨h.follow, h.blocks, .empty⟩

theorem foldl_ok (hinj : TxidInj env U) (hops : env.ops.Lawful) (h : s.Ok env U index) {ops : List TipOp}
    (hall : ∀ op ∈ ops, op.Ok env U index) : (ops.foldl (step env) s).Ok env U index := by
  induction ops generalizing s with
  | nil => exact h
  | cons op ops ih =>
    exact ih (step_ok hinj hops h (hall op (List.mem_cons_self ..)))
      fun op' hmem => hall op' (List.mem_cons_of_mem _ hmem)

end TipState

/-- After any operations, in which transactions are told apart by their identifiers, the pool passes
its check and is consistent with the coins of the tip. -/
theorem mempool_consistent (hinj : TxidInj env U) (hops : env.ops.Lawful) {ops : List TipOp}
    (hall : ∀ op ∈ ops, op.Ok env U index) :
    (TipState.run env ops).mempool.check env (TipState.run env ops).coins = true ∧
      (TipState.run env ops).mempool.Consistent env (TipState.run env ops).coins := by
  have hok : (TipState.run env ops).Ok env U index := TipState.foldl_ok hinj hops TipState.init_ok hall
  have hknown := hok.known hinj
  exact ⟨hok.mempool.check_eq hinj hknown, hok.mempool.consistent hinj hknown⟩

/-! ## A spend of a coinbase -/

/-- A chain whose block hashes are the heights. -/
def chainEnv : Env := { sampleEnv with heightOf := Fin.val }

def chainCoinbase (i : Nat) : CTransaction := { sampleCoinbase 10 with nVersion := i }

def chainBlock (i : Nat) : CBlock := sampleBlock [chainCoinbase i]

def chainIndex (i : Nat) : BlockRef := ⟨Fin.ofNat _ (i + 1), some (Fin.ofNat _ i), i + 1⟩

def chainBlocks (hash : UInt256) : TipBlock := ⟨chainBlock (hash.val - 1), chainIndex (hash.val - 1)⟩

/-- A transaction that spends the first coinbase. -/
def chainSpend : CTransaction :=
  ⟨1, [⟨⟨(chainCoinbase 0).getHash chainEnv.hash, 0⟩, [], 0⟩], [⟨9, []⟩], 0⟩

def chainTxs : List CTransaction := chainSpend :: (List.range 100).map chainCoinbase

/-- A hundred blocks, after which the first coinbase is mature, its spend, and two blocks back. -/
def chainOps : List TipOp :=
  (List.range 100).map (fun i => .connect (chainBlock i) (chainIndex i)) ++
    [.accept true chainSpend, .disconnect fun _ => true, .disconnect fun _ => false]

theorem chainOps_consistent :
    (TipState.run chainEnv chainOps).mempool.check chainEnv (TipState.run chainEnv chainOps).coins =
        true ∧
      (TipState.run chainEnv chainOps).mempool.Consistent chainEnv
        (TipState.run chainEnv chainOps).coins := by
  have hnodup : (chainTxs.map (CTransaction.getHash chainEnv.hash)).Nodup := by decide +kernel
  have hgenesis : ∀ i ∈ List.range 100,
      (chainBlock i).getHash chainEnv.hash ≠ chainEnv.hashGenesisBlock := by decide +kernel
  have hval : ∀ i, i ≤ 100 → (Fin.ofNat (2 ^ 256) i).val = i := fun i hi =>
    Nat.mod_eq_of_lt (Nat.lt_of_le_of_lt hi (by decide))
  refine @mempool_consistent chainEnv (fun tx => tx ∈ chainTxs) chainBlocks
    (fun s t hs ht h => List.inj_on_of_nodup_map hnodup hs ht h) (fun _ _ _ _ h => by cases h)
    _ fun op hop => ?_
  rcases List.mem_append.mp hop with hop | hop
  · obtain ⟨i, hi, rfl⟩ := List.mem_map.mp hop
    have hlt := List.mem_range.mp hi
    have hindex : (Fin.ofNat (2 ^ 256) (i + 1)).val - 1 = i := by rw [hval (i + 1) hlt]; rfl
    refine ⟨⟨⟨hgenesis i hi, ⟨Nat.succ_pos i, show i + 1 < 2 ^ 31 by omega⟩, fun tx htx => ?_,
      fun s hs t ht _ => ?_⟩, ?_, fun hzero => ?_⟩, fun tx htx => ?_, hval (i + 1) hlt, ?_⟩
    · cases List.mem_singleton.mp htx
      show (i : Int) < 2 ^ 31
      omega
    · exact (List.mem_singleton.mp hs).trans (List.mem_singleton.mp ht).symm
    · exact congrArg (fun n => (⟨chainBlock n, chainIndex n⟩ : TipBlock)) hindex
    · exact Nat.succ_ne_zero i ((hval (i + 1) hlt).symm.trans (congrArg Fin.val hzero))
    · cases List.mem_singleton.mp htx
      exact List.mem_cons_of_mem _ (List.mem_map_of_mem hi)
    · exact congrArg (· + 1) (hval i hlt.le).symm
  · rcases List.mem_cons.mp hop with rfl | hop
    · exact List.mem_cons_self ..
    · rcases List.mem_cons.mp hop with rfl | hop
      · trivial
      · cases List.mem_singleton.mp hop
        trivial

end GC
