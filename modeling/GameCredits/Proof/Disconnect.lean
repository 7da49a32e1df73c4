import GameCredits.Proof.Inflation

/-!
# Disconnecting undoes connecting

`DisconnectBlock` on a plain store undoes the changes of the block, the last first
(`disconnectBlock_run`). The undo data that `ConnectBlock` makes describes the changes as long as
every record has a height (`Connected.valid`), and survives its encoding (`Connected.stored`), so
that disconnecting an accepted block is clean and leads back (`disconnectBlock_connectBlock`).
-/

namespace GC

open Framework (Map Journal Prog)

/-! ## Running `DisconnectBlock` -/

section Run

variable {env : Env} {nHeight : Nat} {m : CoinsMap}

/-- The change that an input makes, with its undo data. -/
def inputChange (t : CTxIn × CTxInUndo) : Change := .spend t.1.prevout t.2

theorem spendChanges_zip (vin : List CTxIn) (vprevout : List CTxInUndo) :
    spendChanges (vin.map CTxIn.prevout) vprevout = (vin.zip vprevout).map inputChange := by
  rw [spendChanges, List.zip, List.map_zipWith, List.zipWith_map_left]
  rfl

/-- Undoing the inputs of a transaction, given the last first. -/
theorem applyTxUndo_run (env : Env) (nHeight : Nat) (undos : List (CTxIn × CTxInUndo)) :
    (applyTxUndo undos).run plain m =
      (.ok ((changes env nHeight).undoAll (undos.reverse.map inputChange) m).1,
        ((changes env nHeight).undoAll (undos.reverse.map inputChange) m).2) := by
  induction undos generalizing m with
  | nil => rfl
  | cons t undos ih =>
    obtain ⟨txin, undo⟩ := t
    have hone : (applyTxInUndo undo txin.prevout).run plain m =
        (.ok ((changes env nHeight).undo (.spend txin.prevout undo) m).1,
          ((changes env nHeight).undo (.spend txin.prevout undo) m).2) := rfl
    rw [applyTxUndo, Prog.run_bind, hone, Prog.runNext_ok, Prog.run_bind, ih, Prog.runNext_ok,
      Prog.run_pure, List.reverse_cons, List.map_append, Journal.undoAll_append]
    rfl

/-- The changes of the transactions of a block. -/
def blockChanges (txs : List (CTransaction × CTxUndo)) : List Change :=
  txs.flatMap fun t => txChanges t.1 t.2

theorem blockChanges_cons (t : CTransaction × CTxUndo) (txs : List (CTransaction × CTxUndo)) :
    blockChanges (t :: txs) = txChanges t.1 t.2 ++ blockChanges txs := rfl

/-- Undoing the transactions of a block but the coinbase, given the last first. -/
theorem disconnectTxs_run (env : Env) (nHeight : Nat) (m : CoinsMap)
    {txs : List (CTransaction × CTxUndo)}
    (hcb : ∀ t ∈ txs, t.1.isCoinBase = false)
    (hlen : ∀ t ∈ txs, t.2.vprevout.length = t.1.vin.length) :
    (disconnectTxs env nHeight txs).run plain m =
      (.ok ((changes env nHeight).undoAll (blockChanges txs.reverse) m).1,
        ((changes env nHeight).undoAll (blockChanges txs.reverse) m).2) := by
  induction txs generalizing m with
  | nil => rfl
  | cons t txs ih =>
    obtain ⟨tx, txundo⟩ := t
    have hcb' : tx.isCoinBase = false := hcb _ (List.mem_cons_self ..)
    have hlen' : (txundo.vprevout.length == tx.vin.length) = true :=
      beq_iff_eq.mpr (hlen _ (List.mem_cons_self ..))
    have hrest := fun m : CoinsMap => ih (m := m) (fun t ht => hcb t (List.mem_cons_of_mem _ ht))
      fun t ht => hlen t (List.mem_cons_of_mem _ ht)
    have hone : (removeOutputs env tx nHeight).run plain m =
        (.ok ((changes env nHeight).undo (.create tx) m).1,
          ((changes env nHeight).undo (.create tx) m).2) := rfl
    have hblock : blockChanges ((tx, txundo) :: txs).reverse = blockChanges txs.reverse ++
        ((tx.vin.zip txundo.vprevout).map inputChange ++ [.create tx]) := by
      rw [blockChanges, List.reverse_cons, List.flatMap_append, List.flatMap_singleton, txChanges,
        spends_not_coinBase hcb', spendChanges_zip]
      rfl
    rw [disconnectTxs, Prog.run_bind, hone, Prog.runNext_ok, hlen']
    show ((applyTxUndo _ >>= _ : CoinsProg Bool)).run plain _ = _
    rw [Prog.run_bind, applyTxUndo_run env nHeight, Prog.runNext_ok,
      Prog.run_bind, hrest, Prog.runNext_ok, Prog.run_pure, List.reverse_reverse, hblock,
      Journal.undoAll_append, Journal.undoAll_append]
    rfl

/-- Undo data with an entry for every transaction but the coinbase, and in it for every input. -/
structure CBlockUndo.Fits (rest : List CTransaction) (blockUndo : CBlockUndo) : Prop where
  length : blockUndo.vtxundo.length = rest.length
  inputs : ∀ t ∈ rest.zip blockUndo.vtxundo, t.2.vprevout.length = t.1.vin.length

/-- `DisconnectBlock` undoes the changes of the block, the last first. -/
theorem disconnectBlock_run {block : CBlock} {pindex : BlockRef} {coinbase : CTransaction}
    {rest : List CTransaction} {blockUndo : CBlockUndo} (hb : CheckedBlock block coinbase rest)
    (htag : m.tag = pindex.hashBlock) (hfit : blockUndo.Fits rest) :
    (disconnectBlock env block pindex blockUndo).run plain m =
      (.ok ((changes env pindex.nHeight).undoAll (blockChanges (undoPairs coinbase rest blockUndo)) m).1,
        { ((changes env pindex.nHeight).undoAll (blockChanges (undoPairs coinbase rest blockUndo)) m).2
          with tag := pindex.hashPrev.getD 0 }) := by
  have htxs := disconnectTxs_run env pindex.nHeight m
    (fun t ht => hb.others _ (List.of_mem_zip (List.mem_reverse.mp ht)).1)
    (fun t ht => hfit.inputs t (List.mem_reverse.mp ht))
  have hpairs : blockChanges (undoPairs coinbase rest blockUndo) =
      .create coinbase :: blockChanges (rest.zip blockUndo.vtxundo) := by
    rw [undoPairs, blockChanges_cons, txChanges, spends_coinBase hb.first]; rfl
  have hlen : (blockUndo.vtxundo.length + 1 == block.vtx.length) = true := by
    rw [hb.vtx, List.length_cons, hfit.length]; exact beq_self_eq_true _
  rw [disconnectBlock, run_getBestBlock, Prog.run_bind, htag, beq_self_eq_true, Prog.run_check,
    if_pos rfl, Prog.runNext_ok, hlen, Prog.run_bind, Prog.run_check, if_pos rfl, Prog.runNext_ok,
    hb.vtx]
  show ((disconnectTxs env pindex.nHeight _ >>= _ : CoinsProg Bool)).run plain _ = _
  rw [Prog.run_bind, htxs, Prog.runNext_ok, List.reverse_reverse, hpairs]
  rfl

end Run

/-! ## Valid changes -/

/-- A record that the encodings keep, up to a negative version. -/
structure CCoins.Sound (coins : CCoins) : Prop where
  height : 0 < coins.nHeight ∧ coins.nHeight < 2 ^ 31
  version : coins.nVersion < 2 ^ 31
  outs : ∀ n out, coins.output? n = some out → out.Compressible

/-- Every record with outputs is one that the encodings keep. -/
def CoinsMap.Sound (m : CoinsMap) : Prop :=
  ∀ txid, (m.coins txid).isPruned = false → (m.coins txid).Sound

theorem VersionKept.trans {a b c : Int} (h : VersionKept a b) (h' : VersionKept b c) :
    VersionKept a c := fun hc => (h (h' hc ▸ hc)).trans (h' hc)

theorem storedVersion_kept (n : Int) : VersionKept (storedVersion n) n := storedVersion_eq

section Valid

variable {env : Env} {nHeight : Nat} {m m' : CoinsMap}

/-- A spend of a sound record is described by its undo data, which the encoding keeps. -/
theorem spendUndo_describes {c : CCoins} {n : Nat} {out : CTxOut} (hc : c.Sound)
    (hout : c.output? n = some out) :
    (spendUndo c n out).Describes c n ∧ (spendUndo c n out).stored.Encodable := by
  have hav : c.isAvailable n = true := by rw [CCoins.isAvailable, hout]; rfl
  have hcomp := hc.outs n out hout
  have hnull : out.isNull = false := by
    have := (moneyRange_iff.mp hcomp.1).1
    rw [CTxOut.isNull, beq_eq_false_iff_ne]
    omega
  unfold spendUndo
  rw [spend_isEmpty hav]
  split_ifs with hp
  · refine ⟨⟨hout, hnull, fun _ => ⟨hc.height.1, rfl, rfl, fun _ => rfl⟩, fun h => ?_⟩, hcomp,
      hc.height.2, ⟨storedVersion_nonneg _, storedVersion_lt hc.version⟩, fun h0 => ?_⟩
    · rw [hp] at h; cases h
    · exact absurd h0 (Nat.pos_iff_ne_zero.mp hc.height.1)
  · exact ⟨⟨hout, hnull, fun h => absurd h hp, fun _ => rfl⟩, hcomp, Nat.two_pow_pos 31,
      ⟨le_refl 0, show (0 : Int) < 2 ^ 31 by decide⟩, fun _ => rfl⟩

/-- A sound store stays sound when an output is spent. -/
theorem CoinsMap.Sound.spend {out : COutPoint} {undo : CTxInUndo} (hm : m.Sound)
    (hex : Change.Exact m (.spend out undo)) :
    CoinsMap.Sound ((changes env nHeight).redo (.spend out undo) m) := by
  obtain ⟨txout, hout, -⟩ := hex
  have hav : (m.coins out.hash).isAvailable out.n.toNat = true := by
    rw [CCoins.isAvailable, show (m.coins out.hash).output? out.n.toNat = _ from hout]; rfl
  have hs := hm out.hash (CCoins.not_isPruned hout)
  intro txid
  show (CoinsMap.coins (Map.put m out.hash _) txid).isPruned = false → (CoinsMap.coins (Map.put m out.hash _) txid).Sound
  rw [coins_put]
  split_ifs
  · intro _
    refine ⟨?_, ?_, fun n x hx => ?_⟩
    · simpa using hs.height
    · simpa using hs.version
    · rw [CCoins.output?_cleanup, CCoins.output?_spend hav] at hx
      split_ifs at hx
      exact hs.outs n x hx
  · exact hm txid

/-- Sound spends are valid, and their undo data is kept by the encoding. -/
theorem spendChanges_valid {spends : List COutPoint} {undos : List CTxInUndo}
    (hlen : undos.length = spends.length) (hm : m.Sound)
    (hex : (changes env nHeight).Along Change.Exact m (spendChanges spends undos)) :
    (changes env nHeight).Along (Change.Valid env) m (spendChanges spends undos) ∧
      CoinsMap.Sound ((changes env nHeight).redoAll (spendChanges spends undos) m) ∧
      ∀ u ∈ undos, u.stored.Encodable := by
  induction spends generalizing m undos with
  | nil =>
    obtain rfl := List.length_eq_zero_iff.mp hlen
    exact ⟨trivial, hm, fun _ h => by cases h⟩
  | cons o spends ih =>
    obtain ⟨u, undos, rfl⟩ := List.exists_cons_of_length_eq_add_one hlen
    obtain ⟨hfirst, hrest⟩ := hex
    obtain ⟨hvalid, hsound, henc⟩ := ih (by simpa using hlen) (hm.spend hfirst) hrest
    obtain ⟨txout, hout, rfl⟩ := id hfirst
    obtain ⟨hdesc, hfits⟩ := spendUndo_describes (hm o.hash (CCoins.not_isPruned hout)) hout
    refine ⟨⟨hdesc, hvalid⟩, hsound, fun u hu => ?_⟩
    rcases List.mem_cons.mp hu with rfl | hu
    · exact hfits
    · exact henc u hu

theorem length_le_vectorBytes {α : Type} {put : α → Framework.Bytes} {v : List α}
    (h : ∀ a ∈ v, 0 < (put a).length) : v.length ≤ (vectorBytes put v).length := by
  have hsum : v.length ≤ (v.flatMap put).length := by
    induction v with
    | nil => exact Nat.zero_le _
    | cons a v ih =>
      have ha := h a (List.mem_cons_self ..)
      have := ih fun b hb => h b (List.mem_cons_of_mem _ hb)
      rw [List.length_cons, List.flatMap_cons, List.length_append]
      omega
  rw [vectorBytes, List.length_append]
  omega

theorem length_le_of_mem {α : Type} (put : α → Framework.Bytes) {v : List α} {a : α} (h : a ∈ v) :
    (put a).length ≤ (vectorBytes put v).length := by
  obtain ⟨l, r, rfl⟩ := List.append_of_mem h
  rw [vectorBytes, List.flatMap_append, List.flatMap_cons]
  simp only [List.length_append]
  omega

/-- The size limit of transactions bounds the number of inputs. -/
theorem CheckedTx.length_vin {tx : CTransaction} (h : CheckedTx tx) : tx.vin.length ≤ MAX_SIZE := by
  have hsize := h.size
  have hvin : tx.vin.length ≤ (vectorBytes CTxIn.bytes tx.vin).length :=
    length_le_vectorBytes fun txin _ => by
      simp [CTxIn.bytes, COutPoint.bytes, uint256Bytes, uint32Bytes]
  simp only [CTransaction.bytes, List.length_append] at hsize
  have : MAX_BLOCK_SIZE ≤ MAX_SIZE := by decide
  omega

/-- The outputs of an accepted transaction survive the compact encoding. -/
theorem CheckedTx.compressible {tx : CTransaction} (h : CheckedTx tx) {out : CTxOut}
    (hout : out ∈ tx.vout) : out.Compressible := by
  have hsize := h.size
  have hlen := length_le_of_mem CTxOut.bytes hout
  simp only [CTxOut.bytes, scriptBytes, List.length_append] at hlen
  simp only [CTransaction.bytes, List.length_append] at hsize
  have : MAX_BLOCK_SIZE + nSpecialScripts < 2 ^ 32 := by decide
  exact ⟨moneyRange_iff.mpr (h.values out hout), by omega⟩

/-- An accepted transaction makes valid changes to a sound store. -/
theorem TxStep.valid {tx : CTransaction} {txundo : CTxUndo} {nFees nFees' : Int}
    (h : TxStep env nHeight m tx txundo nFees nFees' m') (htx : CheckedTx tx)
    (hver : tx.nVersion < 2 ^ 31) (hheight : 0 < nHeight ∧ nHeight < 2 ^ 31) (hm : m.Sound)
    (hfresh : ∀ n, ¬ m.Avail (tx.getHash env.hash, n)) :
    (changes env nHeight).Along (Change.Valid env) m (txChanges tx txundo) ∧ m'.Sound ∧
      txundo.stored.Encodable := by
  have hex := (Journal.along_append.mp h.exact).1
  obtain ⟨hvalid, hsound, henc⟩ := spendChanges_valid h.length hm hex
  have hleft := (spendChanges_output? h.length hex).2
  have hstore := h.store
  rw [txChanges, Journal.redoAll_append] at hstore
  refine ⟨Journal.along_append.mpr ⟨hvalid, ?_, trivial⟩, ?_, ?_, ?_⟩
  · refine CCoins.isPruned_iff.mpr fun n => ?_
    by_contra hne
    obtain ⟨out, hout⟩ := Option.ne_none_iff_exists'.mp hne
    refine hfresh n ?_
    show (m.coins _).output? n ≠ none
    rw [(hleft _ n out hout).1]
    exact Option.some_ne_none _
  · have hput : m' = Map.put _ (tx.getHash env.hash) (CCoins.fromTx tx nHeight).cleanup := hstore
    intro txid hp
    rw [hput, coins_put] at hp ⊢
    split_ifs at hp ⊢
    · refine ⟨hheight, hver, fun n out hout => ?_⟩
      rw [CCoins.output?_cleanup] at hout
      exact htx.compressible (output?_fromTx_mem hout)
    · exact hsound txid hp
  · show (txundo.vprevout.map _).length ≤ _
    rw [List.length_map, h.length]
    refine le_trans ?_ htx.length_vin
    unfold CTransaction.spends
    split_ifs
    · exact Nat.zero_le _
    · rw [List.length_map]
  · intro u hu
    obtain ⟨u', hu', rfl⟩ := List.mem_map.mp hu
    exact henc u' hu'

/-- Accepted transactions make valid changes, when no identifier is taken. -/
theorem TxSteps.valid {ds : List CTransaction} {start : UInt256 × Nat → Prop}
    {txs : List (CTransaction × CTxUndo)} {nFees nFees' : Int}
    (h : TxSteps env nHeight m nFees txs nFees' m')
    (hdone : Framework.Ledger.Done (CTransaction.getHash env.hash) CTransaction.places start ds m.Avail)
    (htxs : ∀ t ∈ txs, CheckedTx t.1 ∧ t.1.nVersion < 2 ^ 31)
    (hheight : 0 < nHeight ∧ nHeight < 2 ^ 31) (hm : m.Sound)
    (hfresh : ∀ t ∈ txs, ∀ n, ¬ start (t.1.getHash env.hash, n))
    (hinj : TxidInjOn env (ds ++ txs.map Prod.fst))
    (hsome : ∀ t ∈ (ds ++ txs.map Prod.fst).tail, t.places ≠ []) :
    (changes env nHeight).Along (Change.Valid env) m (blockChanges txs) ∧
      m' = (changes env nHeight).redoAll (blockChanges txs) m ∧ m'.Sound ∧
      ∀ t ∈ txs, t.2.stored.Encodable := by
  induction h generalizing ds with
  | nil => exact ⟨trivial, rfl, hm, fun _ h => by cases h⟩
  | @cons m m₁ m' nFees nFees₁ nFees' tx txundo txs step _ ih =>
    obtain ⟨htx, hver⟩ := htxs (tx, txundo) (List.mem_cons_self ..)
    have hstart := hfresh (tx, txundo) (List.mem_cons_self ..)
    have hids : ∀ s ∈ ds, s.getHash env.hash = tx.getHash env.hash → s.places = tx.places :=
      fun s hs hid => by rw [hinj s (List.mem_append_left _ hs) tx (by simp) hid]
    have huse : ds ≠ [] → tx.places ≠ [] := fun hne => hsome tx (by
      rw [List.tail_append_of_ne_nil hne]; simp)
    obtain ⟨hvalid, hsound, henc⟩ := step.valid htx hver hheight hm
      (hdone.fresh (step.ledger htx) hstart hids huse)
    have happ : ds ++ ((tx, txundo) :: txs).map Prod.fst = (ds ++ [tx]) ++ txs.map Prod.fst := by simp
    rw [happ] at hinj hsome
    obtain ⟨hrest, hstore, hsound', henc'⟩ := ih (hdone.step (step.ledger htx) hstart hids huse)
      (fun t ht => htxs t (List.mem_cons_of_mem _ ht)) hsound
      (fun t ht => hfresh t (List.mem_cons_of_mem _ ht)) hinj hsome
    rw [step.store] at hrest hstore
    rw [blockChanges_cons, Journal.along_append, Journal.redoAll_append]
    refine ⟨⟨hvalid, hrest⟩, hstore, hsound', fun t ht => ?_⟩
    rcases List.mem_cons.mp ht with rfl | ht
    · exact henc
    · exact henc' t ht

end Valid

/-! ## Undo data that has been stored -/

/-- The same change, with undo data that agrees up to negative versions. -/
inductive Change.Agrees : Change → Change → Prop
  | spend (out : COutPoint) {u v : CTxInUndo} (h : u.Agrees VersionKept v) :
      Change.Agrees (.spend out u) (.spend out v)
  | create (tx : CTransaction) : Change.Agrees (.create tx) (.create tx)

theorem CTxInUndo.Describes.agrees {u v : CTxInUndo} {c : CCoins} {n : Nat} (h : v.Describes c n)
    (huv : u.Agrees VersionKept v) : u.Describes c n := by
  obtain ⟨htx, hcb, hh, hver⟩ := huv
  refine ⟨by rw [htx]; exact h.txout, by rw [htx]; exact h.value, fun hp => ?_, fun hp => ?_⟩
  · obtain ⟨hpos, hheight, hcoin, hkept⟩ := h.last hp
    exact ⟨hh ▸ hpos, hh.trans hheight, hcb.trans hcoin, hver.trans hkept⟩
  · rw [hh]; exact h.notLast hp

section Stored

variable {env : Env} {nHeight : Nat} {m : CoinsMap}

theorem spendChanges_agrees (spends : List COutPoint) {us vs : List CTxInUndo}
    (h : List.Forall₂ (CTxInUndo.Agrees VersionKept) us vs) :
    List.Forall₂ Change.Agrees (spendChanges spends us) (spendChanges spends vs) := by
  induction h generalizing spends with
  | nil => rw [spendChanges, List.zipWith_nil_right]; exact .nil
  | cons huv _ ih =>
    rcases spends with _ | ⟨o, spends⟩
    · exact .nil
    · exact .cons (.spend o huv) (ih spends)

theorem blockChanges_agrees {rest : List CTransaction} {us vs : List CTxUndo}
    (h : List.Forall₂ (CTxUndo.Agrees VersionKept) us vs) :
    List.Forall₂ Change.Agrees (blockChanges (rest.zip us)) (blockChanges (rest.zip vs)) := by
  induction h generalizing rest with
  | nil => rw [List.zip_nil_right]; exact .nil
  | cons huv _ ih =>
    rcases rest with _ | ⟨tx, rest⟩
    · exact .nil
    · rw [List.zip_cons_cons, List.zip_cons_cons, blockChanges_cons, blockChanges_cons]
      exact List.rel_append (List.rel_append (spendChanges_agrees _ huv) (.cons (.create tx) .nil)) ih

/-- Valid changes stay valid with undo data that agrees. -/
theorem valid_agrees {ops ops' : List Change} (h : List.Forall₂ Change.Agrees ops ops')
    (hvalid : (changes env nHeight).Along (Change.Valid env) m ops') :
    (changes env nHeight).Along (Change.Valid env) m ops ∧
      (changes env nHeight).redoAll ops m = (changes env nHeight).redoAll ops' m := by
  refine Journal.Along.congr (fun op op' s hop => ?_) (fun s op op' hop hv => ?_) h hvalid
  · cases hop <;> rfl
  · cases hop with
    | spend out huv => exact CTxInUndo.Describes.agrees hv huv
    | create tx => exact hv

theorem stored_agrees (undo : CBlockUndo) : undo.stored.Agrees VersionKept undo := by
  refine List.forall₂_map_left_iff.mpr (List.forall₂_same.mpr fun u _ => ?_)
  refine List.forall₂_map_left_iff.mpr (List.forall₂_same.mpr fun v _ => ?_)
  exact ⟨rfl, rfl, rfl, storedVersion_kept _⟩

theorem CBlockUndo.Agrees.fits {rest : List CTransaction} {u v : CBlockUndo}
    (h : u.Agrees VersionKept v) (hv : v.Fits rest) : u.Fits rest := by
  refine ⟨h.length_eq.trans hv.length, ?_⟩
  have hall := hv.inputs
  unfold CBlockUndo.Agrees at h
  generalize u.vtxundo = us at h
  generalize v.vtxundo = vs at h hall
  clear hv
  induction h generalizing rest with
  | nil => intro t ht; rw [List.zip_nil_right] at ht; cases ht
  | cons huv _ ih =>
    rcases rest with _ | ⟨tx, rest⟩
    · intro t ht; cases ht
    · rintro t ht
      rw [List.zip_cons_cons] at ht hall
      rcases List.mem_cons.mp ht with rfl | ht
      · exact huv.length_eq.trans (hall _ (List.mem_cons_self ..))
      · exact ih (fun t ht => hall t (List.mem_cons_of_mem _ ht)) t ht

end Stored

/-! ## Blocks -/

/-- A block at a height after the genesis block, with `int` fields and told-apart transactions. -/
structure CBlock.Regular (env : Env) (block : CBlock) (nHeight : Nat) : Prop where
  notGenesis : block.getHash env.hash ≠ env.hashGenesisBlock
  height : 0 < nHeight ∧ nHeight < 2 ^ 31
  version : ∀ tx ∈ block.vtx, tx.nVersion < 2 ^ 31
  txids : TxidInjOn env block.vtx

section Block

variable {env : Env} {block : CBlock} {pindex : BlockRef} {coinbase : CTransaction}
  {rest : List CTransaction} {blockUndo : CBlockUndo} {m m' : CoinsMap}

/-- The changes of an accepted block to a sound store: valid, and described by undo data that the
encoding keeps. -/
theorem Connected.valid (h : Connected env block pindex coinbase rest m blockUndo m')
    (hb : block.Regular env pindex.nHeight) (hm : m.Sound) :
    (changes env pindex.nHeight).Along (Change.Valid env) m
        (blockChanges (undoPairs coinbase rest blockUndo)) ∧
      m' = (changes env pindex.nHeight).redoAll (blockChanges (undoPairs coinbase rest blockUndo)) m ∧
      m'.Sound ∧ blockUndo.stored.Encodable := by
  obtain ⟨nFees, -, hsteps, -⟩ := h.steps
  have hmem : ∀ t ∈ undoPairs coinbase rest blockUndo, t.1 ∈ block.vtx := fun t ht =>
    h.pairs_fst ▸ List.mem_map_of_mem ht
  have hsome : ∀ t ∈ ([] ++ (undoPairs coinbase rest blockUndo).map Prod.fst).tail, t.places ≠ [] := by
    intro t ht
    rw [List.nil_append, h.pairs_fst, h.checked.vtx, List.tail_cons] at ht
    exact h.places_ne_nil ht
  obtain ⟨hvalid, hstore, hsound, henc⟩ := hsteps.valid .nil
    (fun t ht => ⟨h.checked.txs _ (hmem t ht), hb.version _ (hmem t ht)⟩) hb.height hm
    (fun t ht n hav => hav (CCoins.isPruned_iff.mp (h.fresh _ (hmem t ht)) n))
    (by rw [List.nil_append, h.pairs_fst]; exact hb.txids) hsome
  refine ⟨hvalid, hstore, hsound, ?_, fun u hu => ?_⟩
  · show (blockUndo.vtxundo.map _).length ≤ _
    rw [List.length_map, h.length]
    have hlen := h.checked.length
    rw [h.checked.vtx, List.length_cons] at hlen
    have : MAX_BLOCK_SIZE ≤ MAX_SIZE := by decide
    omega
  · obtain ⟨u', hu', rfl⟩ := List.mem_map.mp hu
    obtain ⟨n, hn, rfl⟩ := List.mem_iff_getElem.mp hu'
    have hrest : n < rest.length := h.length ▸ hn
    refine henc (rest[n], blockUndo.vtxundo[n]) (List.mem_cons_of_mem _ ?_)
    exact List.mem_iff_getElem.mpr ⟨n, by simp [hn, hrest], by simp⟩

/-- The undo data of an accepted block has an entry for every input. -/
theorem Connected.fits (h : Connected env block pindex coinbase rest m blockUndo m') :
    blockUndo.Fits rest := by
  refine ⟨h.length, fun t ht => ?_⟩
  obtain ⟨nFees, -, hsteps, -⟩ := h.steps
  have hall : ∀ {m nFees txs nFees' m'}, TxSteps env pindex.nHeight m nFees txs nFees' m' →
      ∀ t ∈ txs, t.2.vprevout.length = t.1.spends.length := by
    intro m nFees txs nFees' m' hs
    induction hs with
    | nil => intro t ht; cases ht
    | cons step _ ih =>
      intro t ht
      rcases List.mem_cons.mp ht with rfl | ht
      · exact step.length
      · exact ih t ht
  have hlen := hall hsteps t (List.mem_cons_of_mem _ ht)
  rwa [spends_not_coinBase (h.checked.others _ (List.of_mem_zip ht).1), List.length_map] at hlen

/-- Disconnecting an accepted block from a store that agrees with the one after it, with undo data
that agrees with that of the block: clean, and back to a store that agrees with the one before. -/
theorem Connected.disconnect (h : Connected env block pindex coinbase rest m blockUndo m')
    (hb : block.Regular env pindex.nHeight) (hm : m.Sound) {undo : CBlockUndo}
    (hundo : undo.Agrees VersionKept blockUndo) {t : CoinsMap} (ht : t.Agrees m')
    (htag : t.tag = pindex.hashBlock) :
    ∃ t', (disconnectBlock env block pindex undo).run plain t = (.ok true, t') ∧ t'.Agrees m ∧
      t'.tag = m.tag := by
  obtain ⟨hvalid, rfl, -, -⟩ := h.valid hb hm
  have hops : List.Forall₂ Change.Agrees (blockChanges (undoPairs coinbase rest undo))
      (blockChanges (undoPairs coinbase rest blockUndo)) := by
    have hcb : txChanges coinbase ⟨[]⟩ = [.create coinbase] := by
      rw [txChanges, spends_coinBase h.checked.first]; rfl
    rw [undoPairs, undoPairs, blockChanges_cons, blockChanges_cons, hcb]
    exact .cons (.create coinbase) (blockChanges_agrees hundo)
  obtain ⟨hvalid', hend⟩ := valid_agrees hops hvalid
  rw [← hend] at ht
  obtain ⟨hclean, hback⟩ := changes_invert.undoAll hvalid' ht
  rw [disconnectBlock_run h.checked htag (hundo.fits h.fits), hclean]
  exact ⟨_, rfl, hback, h.prev⟩

end Block

/-! ## Views -/

section View

variable {env : Env} {block : CBlock} {pindex : BlockRef} {view view' : CacheView}
  {blockUndo : CBlockUndo}

/-- Running `ConnectBlock` on a view, and on a plain store that the view stands for. -/
theorem connectBlock_plain {m : CoinsMap} (hv : view.Repr env.ops m) (hhash : pindex.hashBlock ≠ 0)
    (h : (connectBlock env block pindex false).run (viewImpl env.ops) view = (.ok blockUndo, view')) :
    ∃ undo m', (connectBlock env block pindex false).run plain m = (.ok undo, m') ∧
      blockUndo.Agrees Eq undo ∧ view'.Repr env.ops m' := by
  obtain ⟨hout, hrepr⟩ := ((connectBlock_rel env (fun _ => rfl) block pindex false hhash).run
    viewImpl_sim hv).resolve_right fun hf => hf.1
  rw [h] at hout hrepr
  rcases hplain : (connectBlock env block pindex false).run plain m with ⟨r, m'⟩
  rw [hplain] at hout hrepr
  cases r with
  | error e => exact hout.elim
  | ok undo => exact ⟨undo, m', rfl, hout, hrepr⟩

/-- A clean run of `DisconnectBlock` on a plain store is one on the views that stand for it. -/
theorem disconnectBlock_view {m m' : CoinsMap} {undo : CBlockUndo} (hv : view.Repr env.ops m)
    (hprev : pindex.hashPrev.getD 0 ≠ 0)
    (h : (disconnectBlock env block pindex undo).run plain m = (.ok true, m')) :
    ∃ view', (disconnectBlock env block pindex undo).run (viewImpl env.ops) view = (.ok true, view') ∧
      view'.Repr env.ops m' := by
  have hrun := (disconnectBlock_rel env block pindex undo hprev).run viewImpl_sim hv
  rw [h] at hrun
  obtain ⟨hout, hrepr⟩ := hrun.resolve_right fun hf => hf.2 rfl
  rcases hview : (disconnectBlock env block pindex undo).run (viewImpl env.ops) view with ⟨r, view'⟩
  rw [hview] at hout hrepr
  cases r with
  | error e => exact hout.elim
  | ok b => exact ⟨view', by rw [show b = true from hout], hrepr⟩

/-- Disconnecting a block that was just connected, with its undo data written and read back, is
clean and gives the view back, when every record of the view has a height and a version that is not
negative. -/
theorem disconnectBlock_connectBlock (hops : env.ops.Lawful) (hw : view.stack.Wf env.ops)
    (hsound : CoinsMap.Sound (view.contents env.ops))
    (hversion : ∀ txid, (view.stack.record env.ops txid).isPruned = false →
      0 ≤ (view.stack.record env.ops txid).nVersion)
    (hb : block.Regular env pindex.nHeight) (hhash : pindex.hashBlock ≠ 0)
    (hbest : view.stack.best ≠ 0)
    (h : (connectBlock env block pindex false).run (viewImpl env.ops) view =
      (.ok blockUndo, view')) :
    ∃ undo view'', (readBlockUndo env.ops).run (writeBlockUndo env.ops blockUndo) = some (undo, []) ∧
      (disconnectBlock env block pindex undo).run (viewImpl env.ops) view' = (.ok true, view'') ∧
      (∀ txid, (view''.stack.record env.ops txid).Agrees Eq (view.stack.record env.ops txid)) ∧
      view''.stack.best = view.stack.best := by
  obtain ⟨undo, m', hplain, hundo, hrepr⟩ := connectBlock_plain (CacheView.repr_contents hw) hhash h
  obtain rfl : blockUndo = undo := hundo.eq
  obtain ⟨coinbase, rest, m₁, hconn, rfl⟩ := connectBlock_ok hb.notGenesis hplain
  obtain ⟨-, -, -, henc⟩ := hconn.valid hb hsound
  have hprev : pindex.hashPrev.getD 0 ≠ 0 := hconn.prev ▸ hbest
  obtain ⟨t, hrun, hback, htag⟩ := hconn.disconnect hb hsound (stored_agrees blockUndo)
    (t := { m₁ with tag := pindex.hashBlock }) (fun _ => .refl (fun _ _ => rfl) _) rfl
  obtain ⟨view'', hview, hrepr'⟩ := disconnectBlock_view hrepr hprev hrun
  refine ⟨blockUndo.stored, view'', readBlockUndo_stored hops henc, hview, fun txid => ?_,
    hrepr'.best.trans htag⟩
  have hagree := (hrepr'.record txid).trans (fun h h' => h ▸ h') (hback txid)
  exact ⟨hagree.output, hagree.fCoinBase, hagree.nHeight,
    fun hp => hagree.nVersion hp (hversion txid hp)⟩

theorem paidRun_disconnect :
    ∃ undo view'', (readBlockUndo sampleEnv.ops).run (writeBlockUndo sampleEnv.ops
        ⟨[⟨[⟨⟨10, []⟩, false, 3, 1⟩]⟩]⟩) = some (undo, []) ∧
      (disconnectBlock sampleEnv paidBlock paidIndex undo).run (viewImpl sampleEnv.ops) paidRun.2 =
        (.ok true, view'') ∧
      (∀ txid, (view''.stack.record sampleEnv.ops txid).Agrees Eq
        ((sampleView sampleCoins).stack.record sampleEnv.ops txid)) ∧
      view''.stack.best = (sampleView sampleCoins).stack.best := by
  have hrun : paidRun = (.ok ⟨[⟨[⟨⟨10, []⟩, false, 3, 1⟩]⟩]⟩, paidRun.2) :=
    Prog.eq_ok_of_fst (by decide +kernel)
  have hsound : CoinsMap.Sound ((sampleView sampleCoins).contents sampleEnv.ops) := by
    intro txid hp
    rw [show CoinsMap.coins ((sampleView sampleCoins).contents sampleEnv.ops) txid = _ from
      sampleView_record sampleCoins txid] at hp ⊢
    split_ifs at hp ⊢
    · refine ⟨by decide, by decide, fun n out hout => ?_⟩
      rcases n with _ | n
      · cases hout; exact ⟨by decide, by decide⟩
      · cases hout
    · cases hp
  have hversion : ∀ txid, ((sampleView sampleCoins).stack.record sampleEnv.ops txid).isPruned = false →
      0 ≤ ((sampleView sampleCoins).stack.record sampleEnv.ops txid).nVersion := by
    intro txid _
    rw [sampleView_record]
    split_ifs <;> decide
  exact @disconnectBlock_connectBlock sampleEnv paidBlock paidIndex (sampleView sampleCoins) paidRun.2 _
    (fun _ _ _ _ h => by cases h) (sampleView_wf _) hsound hversion
    ⟨by decide +kernel, by decide, by decide +kernel, by unfold TxidInjOn; decide +kernel⟩
    (by decide) (by decide) hrun

/-! ## A record of height zero -/

/-- The same block on a view whose record has height zero. -/
def zeroRun : Except Failure CBlockUndo × CacheView :=
  (connectBlock sampleEnv paidBlock paidIndex false).run (viewImpl sampleEnv.ops)
    (sampleView { sampleCoins with nHeight := 0 })

/-- The height in the undo data is zero, which reads as a spend that left other outputs. -/
theorem zeroRun_disconnect :
    (sampleView { sampleCoins with nHeight := 0 }).stack.Wf sampleEnv.ops ∧
      zeroRun.1 = .ok ⟨[⟨[⟨⟨10, []⟩, false, 0, 1⟩]⟩]⟩ ∧
      (readBlockUndo sampleEnv.ops).run (writeBlockUndo sampleEnv.ops
        ⟨[⟨[⟨⟨10, []⟩, false, 0, 1⟩]⟩]⟩) = some (⟨[⟨[⟨⟨10, []⟩, false, 0, 0⟩]⟩]⟩, []) ∧
      ((disconnectBlock sampleEnv paidBlock paidIndex ⟨[⟨[⟨⟨10, []⟩, false, 0, 0⟩]⟩]⟩).run
        (viewImpl sampleEnv.ops) zeroRun.2).1 = .ok false := by
  refine ⟨sampleView_wf _, ?_⟩
  decide +kernel

end View

end GC
