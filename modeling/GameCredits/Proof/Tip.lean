import GameCredits.Model.Tip
import GameCredits.Proof.Disconnect
import GameCredits.Proof.Inputs

/-!
# The coins follow the chain

`ChainCoins blocks m` says that the blocks connect one after another, from a store without records,
and that `m` are the coins at the end. The coins of the tip `Follow` the chain when they agree with
these, and all undo data on disk reads back as that of its block (`UndoOk`). Undo data is written
when a block is first connected; the block before it determines the coins before it
(`ChainCoins.unique`), so that the data still fits when the block is connected again.

* `Follow.connect`, `Follow.disconnect`: connecting and disconnecting a block keep this, and
  disconnecting succeeds.
* `Follow.known`: the records are those of transactions of the chain, with the heights of their
  blocks.
-/

namespace GC

open Framework (Bytes Impl Map Journal Prog)

/-! ## Coins that agree -/

/-- Coins that agree in their records and are at the same block. -/
def CoinsMap.Same (a b : CoinsMap) : Prop := a.Agrees b ∧ a.tag = b.tag

theorem plain_sim : plain.Sim CCoins.empty (CCoins.Agrees VersionKept) (fun _ => True) plain
    CoinsMap.Same where
  get k h := ⟨h.1 k, h⟩
  edit k f g h := by
    refine ⟨h.1 k, fun hfg => ⟨fun txid => ?_, h.2⟩⟩
    show (CoinsMap.coins (Map.put _ k _) txid).Agrees _ (CoinsMap.coins (Map.put _ k _) txid)
    rw [coins_put, coins_put]
    split_ifs
    · exact hfg
    · exact h.1 txid
  getTag h := ⟨h.2, h⟩
  setTag x _ h := ⟨h.1, rfl⟩

/-- No version of a record with outputs is above those of an `int`. -/
def CoinsMap.Versions (m : CoinsMap) : Prop :=
  ∀ txid, (m.coins txid).isPruned = false → (m.coins txid).nVersion < 2 ^ 31

theorem CoinsMap.Versions.put {m : CoinsMap} (h : m.Versions) {txid : UInt256} {c : CCoins}
    (hc : c.isPruned = false → c.nVersion < 2 ^ 31) : CoinsMap.Versions (m.put txid c) := by
  intro i
  rw [coins_put]
  split_ifs
  · exact hc
  · exact h i

theorem isPruned_spend {c : CCoins} {n : Nat} (h : (c.spend n).isPruned = false) :
    c.isPruned = false := by
  rw [← Bool.not_eq_true] at h ⊢
  intro hp
  have hav : c.isAvailable n = false := by
    rw [CCoins.isAvailable, CCoins.isPruned_iff.mp hp n]
    rfl
  rw [CCoins.spend, hav, if_neg (by decide)] at h
  exact h hp

/-- Coins that agree with sound ones are sound. -/
theorem CoinsMap.Agrees.sound {a b : CoinsMap} (h : a.Agrees b) (hb : b.Sound) (ha : a.Versions) :
    a.Sound := by
  intro txid hp
  have hp' : (b.coins txid).isPruned = false := (h txid).isPruned.symm.trans hp
  have hs := hb txid hp'
  exact ⟨(h txid).nHeight hp' ▸ hs.height, ha txid hp, fun n out hout =>
    hs.outs n out ((h txid).output n ▸ hout)⟩

section Versions

variable {env : Env} {nHeight : Nat} {m : CoinsMap} {ops : List Change}

theorem CoinsMap.Versions.redoAll (h : m.Versions)
    (hops : ∀ tx, .create tx ∈ ops → tx.nVersion < 2 ^ 31) :
    CoinsMap.Versions ((changes env nHeight).redoAll ops m) := by
  induction ops generalizing m with
  | nil => exact h
  | cons op ops ih =>
    refine ih ?_ fun tx htx => hops tx (List.mem_cons_of_mem _ htx)
    cases op with
    | spend out undo =>
      refine h.put fun hp => ?_
      rw [CCoins.cleanup_nVersion, CCoins.spend_nVersion]
      exact h _ (isPruned_spend (CCoins.isPruned_cleanup _ ▸ hp))
    | create tx => exact h.put fun _ => hops tx (List.mem_cons_self ..)

/-- Undoing changes cleanly takes versions from undo data only. -/
theorem CoinsMap.Versions.undoAll (h : m.Versions)
    (hops : ∀ out undo, .spend out undo ∈ ops → undo.nVersion < 2 ^ 31)
    (hclean : ((changes env nHeight).undoAll ops m).1 = true) :
    CoinsMap.Versions ((changes env nHeight).undoAll ops m).2 := by
  induction ops with
  | nil => exact h
  | cons op ops ih =>
    rw [Journal.undoAll, Bool.and_eq_true] at hclean
    have hrest := ih (fun out undo hmem => hops out undo (List.mem_cons_of_mem _ hmem)) hclean.1
    cases op with
    | spend out undo =>
      refine hrest.put fun _ => ?_
      rw [CCoins.cleanup_nVersion, undoSpend_nVersion]
      split_ifs with hzero
      · exact hops out undo (List.mem_cons_self ..)
      · have hspent : undoSpendClean undo out.n (CoinsMap.coins
            ((changes env nHeight).undoAll ops m).2 out.hash) = true := hclean.2
        rw [undoSpendClean, if_neg hzero, Bool.and_eq_true, Bool.not_eq_true'] at hspent
        exact hrest _ hspent.1
    | create tx => exact hrest.put fun _ => show (0 : Int) < 2 ^ 31 by decide

end Versions

/-! ## Following a chain -/

/-- What is read of undo data on disk: that of the block, up to negative versions. -/
def ReadsBack (env : Env) (undo : Bytes) (blockUndo : CBlockUndo) : Prop :=
  ∃ u, (readBlockUndo env.ops).run undo = some (u, []) ∧ u.Agrees VersionKept blockUndo ∧ u.Encodable

/-- A block that the block index has under its hash, above the genesis block. -/
structure Indexed (env : Env) (index : UInt256 → TipBlock) (b : TipBlock) : Prop where
  regular : b.block.Regular env b.pindex.nHeight
  entry : index b.pindex.hashBlock = b
  other : b.pindex.hashBlock ≠ env.hashGenesisBlock

/-- The coins after the blocks, the last one first. -/
inductive ChainCoins (env : Env) (index : UInt256 → TipBlock) : List TipBlock → CoinsMap → Prop
  | nil : ChainCoins env index [] ⟨fun _ => none, env.hashGenesisBlock⟩
  | cons {blocks m b blockUndo m'}
      (hchain : ChainCoins env index blocks m)
      (hb : Indexed env index b)
      (hrun : (connectBlock env b.block b.pindex false).run plain m = (.ok blockUndo, m')) :
      ChainCoins env index (b :: blocks) m'

/-- All undo data on disk is that of a block, on the coins after the blocks before it. -/
def UndoOk (env : Env) (index : UInt256 → TipBlock) (undo : UndoFiles) : Prop :=
  ∀ hash bytes, undo hash = some bytes →
    ∃ b blocks m blockUndo m', b.pindex.hashBlock = hash ∧ Indexed env index b ∧
      ChainCoins env index blocks m ∧
      (connectBlock env b.block b.pindex false).run plain m = (.ok blockUndo, m') ∧
      ReadsBack env bytes blockUndo

/-- Coins that are those after the blocks, up to negative versions, with undo data of the blocks. -/
structure Follow (env : Env) (index : UInt256 → TipBlock) (undo : UndoFiles)
    (blocks : List TipBlock) (coins : CoinsMap) : Prop where
  versions : coins.Versions
  written : UndoOk env index undo
  undo : ∀ b ∈ blocks, ∃ bytes, undo b.pindex.hashBlock = some bytes
  chain : ∃ m, ChainCoins env index blocks m ∧ coins.Same m

section

variable {env : Env} {index : UInt256 → TipBlock} {undo : UndoFiles} {block : CBlock}
  {pindex : BlockRef} {blocks blocks' : List TipBlock} {b : TipBlock} {m m' coins coins' : CoinsMap}
  {blockUndo : CBlockUndo}

theorem ChainCoins.sound (h : ChainCoins env index blocks m) : m.Sound := by
  induction h with
  | nil => intro txid hp; cases hp
  | cons _ hb hrun ih =>
    obtain ⟨coinbase, rest, m₁, hconn, rfl⟩ := connectBlock_ok hb.regular.notGenesis hrun
    exact (hconn.valid hb.regular ih).2.2.1

/-- An accepted block stands on the block of the coins before it, and is that of the coins after. -/
theorem Indexed.connects (hb : Indexed env index b)
    (hrun : (connectBlock env b.block b.pindex false).run plain m = (.ok blockUndo, m')) :
    b.pindex.hashPrev.getD 0 = m.tag ∧ m'.tag = b.pindex.hashBlock := by
  obtain ⟨coinbase, rest, m₁, hconn, rfl⟩ := connectBlock_ok hb.regular.notGenesis hrun
  exact ⟨hconn.prev, rfl⟩

/-- The hash of the last block determines the blocks and the coins. -/
theorem ChainCoins.unique (h : ChainCoins env index blocks m) (h' : ChainCoins env index blocks' m')
    (htag : m.tag = m'.tag) : blocks = blocks' ∧ m = m' := by
  induction h generalizing blocks' m' with
  | nil =>
    cases h' with
    | nil => exact ⟨rfl, rfl⟩
    | cons _ hb' hrun' => exact (hb'.other ((hb'.connects hrun').2.symm.trans htag.symm)).elim
  | cons _ hb hrun ih =>
    cases h' with
    | nil => exact (hb.other ((hb.connects hrun).2.symm.trans htag)).elim
    | cons hchain' hb' hrun' =>
      obtain ⟨hprev, hhash⟩ := hb.connects hrun
      obtain ⟨hprev', hhash'⟩ := hb'.connects hrun'
      have hentry := congrArg index (hhash.symm.trans (htag.trans hhash'))
      rw [hb.entry, hb'.entry] at hentry
      obtain rfl := hentry
      obtain ⟨rfl, rfl⟩ := ih hchain' (hprev.symm.trans hprev')
      exact ⟨rfl, congrArg Prod.snd (hrun.symm.trans hrun')⟩

/-- Undo data of a block reads back as that of the block after any chain that it connects to. -/
theorem UndoOk.readsBack (h : UndoOk env index undo) (hchain : ChainCoins env index blocks m)
    (hb : Indexed env index b)
    (hrun : (connectBlock env b.block b.pindex false).run plain m = (.ok blockUndo, m'))
    {bytes : Bytes} (hbytes : undo b.pindex.hashBlock = some bytes) :
    ReadsBack env bytes blockUndo := by
  obtain ⟨b', blocks', m₀, blockUndo', m₀', hhash, hb', hchain', hrun', hread⟩ := h _ _ hbytes
  have hentry := congrArg index hhash
  rw [hb'.entry, hb.entry] at hentry
  obtain rfl := hentry
  obtain ⟨-, rfl⟩ := hchain.unique hchain' ((hb.connects hrun).1.symm.trans (hb.connects hrun').1)
  obtain rfl : blockUndo = blockUndo' :=
    Except.ok.inj (congrArg Prod.fst (hrun.symm.trans hrun'))
  exact hread

theorem Follow.sound (h : Follow env index undo blocks coins) : coins.Sound := by
  obtain ⟨m, hchain, hsame⟩ := h.chain
  exact hsame.1.sound hchain.sound h.versions

theorem Follow.nil :
    Follow env index (fun _ => none) [] ⟨fun _ => none, env.hashGenesisBlock⟩ where
  versions _ _ := show (0 : Int) < 2 ^ 31 by decide
  written _ _ h := by cases h
  undo _ hb := by cases hb
  chain := ⟨_, .nil, fun _ => .refl (fun _ _ => rfl) _, rfl⟩

/-- Writing undo data that reads back as that of the block. -/
theorem UndoOk.write (h : UndoOk env index undo) (hchain : ChainCoins env index blocks m)
    (hb : Indexed env index b)
    (hrun : (connectBlock env b.block b.pindex false).run plain m = (.ok blockUndo, m'))
    {bytes : Bytes} (hread : ReadsBack env bytes blockUndo) :
    UndoOk env index (undo.write b.pindex.hashBlock bytes) := by
  intro hash bytes' hbytes'
  unfold UndoFiles.write at hbytes'
  split_ifs at hbytes' with hhash
  · subst hhash
    cases hold : undo b.pindex.hashBlock with
    | none =>
      rw [hold] at hbytes'
      cases hbytes'
      exact ⟨b, blocks, m, blockUndo, m', rfl, hb, hchain, hrun, hread⟩
    | some old =>
      rw [hold] at hbytes'
      cases hbytes'
      exact h _ _ hold
  · exact h _ _ hbytes'

theorem UndoFiles.write_isSome {hash : UInt256} {bytes : Bytes} (h : ∃ bytes, undo hash = some bytes)
    (hashBlock : UInt256) : ∃ bytes', undo.write hashBlock bytes hash = some bytes' := by
  obtain ⟨old, hold⟩ := h
  unfold UndoFiles.write
  split_ifs with hhash
  · exact ⟨_, rfl⟩
  · exact ⟨old, hold⟩

theorem forall₂_trans {α : Type} {R : α → α → Prop} (hR : ∀ {a b c}, R a b → R b c → R a c)
    {as bs cs : List α} (h : List.Forall₂ R as bs) (h' : List.Forall₂ R bs cs) :
    List.Forall₂ R as cs := by
  induction h generalizing cs with
  | nil => exact h'
  | cons hab _ ih =>
    cases h' with
    | cons hbc hrest => exact .cons (hR hab hbc) (ih hrest)

theorem CTxInUndo.Agrees.trans {u v w : CTxInUndo} (h : u.Agrees VersionKept v)
    (h' : v.Agrees VersionKept w) : u.Agrees VersionKept w :=
  ⟨h.txout.trans h'.txout, h.fCoinBase.trans h'.fCoinBase, h.nHeight.trans h'.nHeight,
    h.nVersion.trans h'.nVersion⟩

theorem CTxUndo.Agrees.trans {u v w : CTxUndo} (h : u.Agrees VersionKept v)
    (h' : v.Agrees VersionKept w) : u.Agrees VersionKept w :=
  forall₂_trans (R := CTxInUndo.Agrees VersionKept) CTxInUndo.Agrees.trans h h'

theorem CBlockUndo.Agrees.trans {u v w : CBlockUndo} (h : u.Agrees VersionKept v)
    (h' : v.Agrees VersionKept w) : u.Agrees VersionKept w :=
  forall₂_trans (R := CTxUndo.Agrees VersionKept) CTxUndo.Agrees.trans h h'

theorem mem_spendChanges {spends : List COutPoint} {undos : List CTxInUndo} {op : Change}
    (h : op ∈ spendChanges spends undos) : ∃ o u, op = .spend o u ∧ u ∈ undos := by
  rw [spendChanges, ← List.map_uncurry_zip_eq_zipWith] at h
  obtain ⟨⟨o, u⟩, hmem, rfl⟩ := List.mem_map.mp h
  exact ⟨o, u, rfl, (List.of_mem_zip hmem).2⟩

/-- The undo data that the changes of a block mention is that of the block. -/
theorem mem_spend {coinbase : CTransaction} {rest : List CTransaction}
    {out : COutPoint} {undo : CTxInUndo}
    (h : .spend out undo ∈ blockChanges (undoPairs coinbase rest blockUndo)) :
    ∃ u ∈ blockUndo.vtxundo, undo ∈ u.vprevout := by
  obtain ⟨t, ht, hmem⟩ := List.mem_flatMap.mp h
  rcases List.mem_append.mp hmem with hspend | hcreate
  · obtain ⟨o, u, hou, hu⟩ := mem_spendChanges hspend
    cases hou
    rcases List.mem_cons.mp ht with rfl | ht
    · cases hu
    · exact ⟨t.2, (List.of_mem_zip ht).2, hu⟩
  · cases List.mem_singleton.mp hcreate

/-- The changes of an accepted block add transactions of the block. -/
theorem Connected.mem_create {coinbase : CTransaction} {rest : List CTransaction}
    (h : Connected env block pindex coinbase rest m blockUndo m') {tx : CTransaction}
    (htx : .create tx ∈ blockChanges (undoPairs coinbase rest blockUndo)) : tx ∈ block.vtx := by
  obtain ⟨t, ht, hmem⟩ := List.mem_flatMap.mp htx
  rcases List.mem_append.mp hmem with hspend | hcreate
  · obtain ⟨o, u, hou⟩ := mem_spendChanges hspend
    cases hou.1
  · cases List.mem_singleton.mp hcreate
    exact h.pairs_fst ▸ List.mem_map_of_mem ht

/-- Connecting a block on coins that follow a chain. -/
theorem Follow.connect (hops : env.ops.Lawful) (h : Follow env index undo blocks coins)
    (hb : Indexed env index ⟨block, pindex⟩)
    (hrun : (connectBlock env block pindex false).run plain coins = (.ok blockUndo, coins')) :
    Follow env index (undo.write pindex.hashBlock (writeBlockUndo env.ops blockUndo))
      (⟨block, pindex⟩ :: blocks) coins' := by
  obtain ⟨m, hchain, hsame⟩ := h.chain
  obtain ⟨hout, hsame'⟩ := ((connectBlock_rel env (fun _ _ => rfl) block pindex false
    (T := fun _ => True) trivial).run plain_sim hsame).resolve_right fun hf => hf.1
  rw [hrun] at hout hsame'
  rcases hplain : (connectBlock env block pindex false).run plain m with ⟨r, m'⟩
  rw [hplain] at hout hsame'
  obtain ⟨coinbase, rest, m₁, hconn, rfl⟩ := connectBlock_ok hb.regular.notGenesis hrun
  obtain ⟨-, hstore, -, henc⟩ := hconn.valid hb.regular h.sound
  cases r with
  | error e => exact hout.elim
  | ok undo' =>
    have hread : ReadsBack env (writeBlockUndo env.ops blockUndo) undo' :=
      ⟨blockUndo.stored, readBlockUndo_stored hops henc, (stored_agrees blockUndo).trans hout, henc⟩
    refine ⟨?_, h.written.write hchain hb hplain hread, fun b hmem => ?_, m', .cons hchain hb hplain,
      hsame'⟩
    · rw [hstore]
      exact h.versions.redoAll fun tx htx => hb.regular.version tx (hconn.mem_create htx)
    · rcases List.mem_cons.mp hmem with rfl | hmem
      · exact ⟨_, if_pos rfl⟩
      · exact UndoFiles.write_isSome (h.undo b hmem) _

end

/-! ## What a block leaves alone, and what it makes -/

section Steps

variable {env : Env} {nHeight : Nat} {m m' : CoinsMap} {nFees nFees' : Int}
  {txs : List (CTransaction × CTxUndo)}

/-- The identifiers of transactions with their undo data. -/
abbrev txidsOf (env : Env) (txs : List (CTransaction × CTxUndo)) : List UInt256 :=
  txs.map fun t => t.1.getHash env.hash

theorem TxSteps.record (h : TxSteps env nHeight m nFees txs nFees' m') {txid : UInt256}
    (hid : txid ∉ txidsOf env txs) :
    (m'.coins txid).fCoinBase = (m.coins txid).fCoinBase ∧
      (m'.coins txid).nHeight = (m.coins txid).nHeight ∧
      ∀ n out, (m'.coins txid).output? n = some out → (m.coins txid).output? n = some out := by
  induction h with
  | nil => exact ⟨rfl, rfl, fun _ _ h => h⟩
  | cons step _ ih =>
    rw [txidsOf, List.map_cons, List.mem_cons, not_or] at hid
    obtain ⟨hcb, hh, hout⟩ := ih hid.2
    have happ := step.applied
    exact ⟨hcb.trans (happ.fCoinBase _ hid.1), hh.trans (happ.nHeight _ hid.1),
      fun n out h => happ.left _ n out hid.1 (hout n out h)⟩

theorem TxSteps.kept (h : TxSteps env nHeight m nFees txs nFees' m') {o : COutPoint}
    (hid : o.hash ∉ txidsOf env txs) (ho : ∀ t ∈ txs, o ∉ t.1.spends) :
    m'.output? o = m.output? o := by
  induction h with
  | nil => rfl
  | cons step _ ih =>
    rw [txidsOf, List.map_cons, List.mem_cons, not_or] at hid
    exact (ih hid.2 fun t ht => ho t (List.mem_cons_of_mem _ ht)).trans
      (step.applied.kept o hid.1 (ho _ (List.mem_cons_self ..)))

/-- The outputs that a transaction of the list has made and none has spent. -/
theorem TxSteps.made (h : TxSteps env nHeight m nFees txs nFees' m') (hids : (txidsOf env txs).Nodup)
    {t : CTransaction × CTxUndo} (ht : t ∈ txs) {o : COutPoint} (hhash : o.hash = t.1.getHash env.hash)
    (ho : ∀ t ∈ txs, o ∉ t.1.spends) :
    m'.output? o = (CCoins.fromTx t.1 0).output? o.n.toNat ∧
      (m'.coins o.hash).fCoinBase = t.1.isCoinBase := by
  induction h with
  | nil => cases ht
  | @cons m m₁ m' _ _ _ tx txundo txs step hrest ih =>
    rw [txidsOf, List.map_cons, List.nodup_cons] at hids
    have ho' : ∀ t ∈ txs, o ∉ t.1.spends := fun t ht => ho t (List.mem_cons_of_mem _ ht)
    rcases List.mem_cons.mp ht with rfl | ht
    · have hid : o.hash ∉ txidsOf env txs := hhash ▸ hids.1
      rw [hrest.kept hid ho', (hrest.record hid).1, CoinsMap.output?, hhash, step.applied.made,
        CCoins.output?_cleanup, output?_fromTx_height]
      exact ⟨rfl, rfl⟩
    · exact ih hids.2 ht ho'

/-- The records of a block are those of earlier transactions and of its own. -/
theorem TxSteps.height (h : TxSteps env nHeight m nFees txs nFees' m') (hpos : 0 < nHeight)
    (hm : ∀ txid, (m.coins txid).isPruned = false →
      0 < (m.coins txid).nHeight ∧ (m.coins txid).nHeight ≤ nHeight) :
    ∀ txid, (m'.coins txid).isPruned = false →
      0 < (m'.coins txid).nHeight ∧ (m'.coins txid).nHeight ≤ nHeight := by
  induction h with
  | nil => exact hm
  | @cons m m₁ m' _ _ _ tx txundo txs step _ ih =>
    have happ := step.applied
    refine ih fun txid hp => ?_
    by_cases hid : txid = tx.getHash env.hash
    · rw [hid, happ.made]
      exact ⟨hpos, le_refl _⟩
    · rw [happ.nHeight txid hid]
      exact hm txid (happ.unpruned hid hp)

end Steps

/-! ## One block -/

section Block

variable {env : Env} {block : CBlock} {pindex : BlockRef} {coinbase : CTransaction}
  {rest : List CTransaction} {blockUndo : CBlockUndo} {m m' : CoinsMap} {o : COutPoint} {out : CTxOut}

theorem Connected.txids (h : Connected env block pindex coinbase rest m blockUndo m') :
    txidsOf env (undoPairs coinbase rest blockUndo) = block.vtx.map (CTransaction.getHash env.hash) := by
  rw [← h.pairs_fst, List.map_map]
  rfl

theorem Connected.mem_pairs (h : Connected env block pindex coinbase rest m blockUndo m')
    {t : CTransaction × CTxUndo} (ht : t ∈ undoPairs coinbase rest blockUndo) : t.1 ∈ block.vtx :=
  h.pairs_fst ▸ List.mem_map_of_mem ht

/-- An available output that the block does not spend stays. -/
theorem Connected.keeps (h : Connected env block pindex coinbase rest m blockUndo m')
    (hout : m.output? o = some out) (hnot : ∀ tx ∈ block.vtx, o ∉ tx.spends) :
    m'.output? o = some out ∧ (m'.coins o.hash).fCoinBase = (m.coins o.hash).fCoinBase ∧
      (m'.coins o.hash).nHeight = (m.coins o.hash).nHeight := by
  obtain ⟨nFees, -, hsteps, -⟩ := h.steps
  have hid : o.hash ∉ txidsOf env (undoPairs coinbase rest blockUndo) := by
    rw [h.txids]
    intro hmem
    obtain ⟨tx, htx, hhash⟩ := List.mem_map.mp hmem
    have hp := h.fresh tx htx
    rw [hhash, CCoins.not_isPruned hout] at hp
    cases hp
  obtain ⟨hcb, hh, -⟩ := hsteps.record hid
  exact ⟨(hsteps.kept hid fun t ht => hnot _ (h.mem_pairs ht)).trans hout, hcb, hh⟩

/-- An output of a transaction of the block that the block does not spend is made. -/
theorem Connected.makes (h : Connected env block pindex coinbase rest m blockUndo m')
    (hinj : TxidInjOn env block.vtx) {tx : CTransaction} (htx : tx ∈ block.vtx)
    (hhash : o.hash = tx.getHash env.hash) (hnot : ∀ tx ∈ block.vtx, o ∉ tx.spends) :
    m'.output? o = (CCoins.fromTx tx 0).output? o.n.toNat ∧
      (m'.coins o.hash).fCoinBase = tx.isCoinBase := by
  obtain ⟨nFees, -, hsteps, -⟩ := h.steps
  rw [← h.pairs_fst] at htx
  obtain ⟨t, ht, rfl⟩ := List.mem_map.mp htx
  exact hsteps.made (h.txids ▸ (h.done hinj).ids) ht hhash fun t ht => hnot _ (h.mem_pairs ht)

/-- An output available after the block that is not one of its transactions' was available before. -/
theorem Connected.before (h : Connected env block pindex coinbase rest m blockUndo m')
    (hout : m'.output? o = some out) (hid : ∀ tx ∈ block.vtx, tx.getHash env.hash ≠ o.hash) :
    m.output? o = some out ∧ (m'.coins o.hash).fCoinBase = (m.coins o.hash).fCoinBase ∧
      (m'.coins o.hash).nHeight = (m.coins o.hash).nHeight := by
  obtain ⟨nFees, -, hsteps, -⟩ := h.steps
  have hnot : o.hash ∉ txidsOf env (undoPairs coinbase rest blockUndo) := by
    rw [h.txids]
    intro hmem
    obtain ⟨tx, htx, hhash⟩ := List.mem_map.mp hmem
    exact hid tx htx hhash
  obtain ⟨hcb, hh, hleft⟩ := hsteps.record hnot
  exact ⟨hleft _ out hout, hcb, hh⟩

variable {index : UInt256 → TipBlock} {undo : UndoFiles} {blocks : List TipBlock} {b : TipBlock}
  {coins : CoinsMap}

/-- Disconnecting the last block, with the undo data on disk, from coins that follow a chain: clean,
and back to coins that have what was there before the block and still is. -/
theorem Follow.disconnect (h : Follow env index undo (b :: blocks) coins) :
    ∃ blockUndo coins', disconnectStored env b.block b.pindex (undo b.pindex.hashBlock) =
        disconnectBlock env b.block b.pindex blockUndo ∧
      (disconnectBlock env b.block b.pindex blockUndo).run plain coins = (.ok true, coins') ∧
      Follow env index undo blocks coins' ∧ coins'.tag = b.pindex.hashPrev.getD 0 ∧
      ∀ o out, coins.output? o = some out →
        (∀ tx ∈ b.block.vtx, tx.getHash env.hash ≠ o.hash) → coins'.output? o = some out := by
  obtain ⟨m, hchain, hsame⟩ := h.chain
  obtain ⟨bytes, hbytes⟩ := h.undo b (List.mem_cons_self ..)
  cases hchain with
  | @cons _ m₀ _ blockUndo _ hchain hb hrun =>
    obtain ⟨u, hread, hagree, henc⟩ := h.written.readsBack hchain hb hrun hbytes
    obtain ⟨coinbase, rest, m₁, hconn, rfl⟩ := connectBlock_ok hb.regular.notGenesis hrun
    obtain ⟨coins', hdisc, hback, htag⟩ := hconn.disconnect hb.regular hchain.sound hagree
      (t := coins) hsame.1 hsame.2
    have hstored : disconnectStored env b.block b.pindex (undo b.pindex.hashBlock) =
        disconnectBlock env b.block b.pindex u := by
      simp only [disconnectStored, hbytes, Option.bind_some, hread]
    refine ⟨u, coins', hstored, hdisc, ⟨?_, h.written, fun b' hmem =>
      h.undo b' (List.mem_cons_of_mem _ hmem), m₀, hchain, hback, htag⟩,
      htag.trans hconn.prev.symm, fun o out hout hid => ?_⟩
    · rw [disconnectBlock_run hconn.checked hsame.2 (hagree.fits hconn.fits)] at hdisc
      obtain ⟨hclean, rfl⟩ := Prod.mk.inj hdisc
      have hspent : ∀ out undo, .spend out undo ∈ blockChanges (undoPairs coinbase rest u) →
          undo.nVersion < 2 ^ 31 := fun out undo hmem => by
        obtain ⟨txundo, htxundo, hundo⟩ := mem_spend hmem
        exact ((henc.2 txundo htxundo).2 undo hundo).version.2
      exact h.versions.undoAll hspent (Except.ok.inj hclean)
    · have hafter : m₁.output? o = some out := ((hsame.1 o.hash).output _).symm.trans hout
      exact ((hback o.hash).output _).trans (hconn.before hafter hid).1

end Block

/-! ## Known transactions -/

section Known

variable (env : Env) (U : CTransaction → Prop) (index : UInt256 → TipBlock)

/-- Transaction `p`, one of `U`, makes an output that `t` spends. -/
def Parent (p t : CTransaction) : Prop := U p ∧ ∃ o ∈ t.spends, p.getHash env.hash = o.hash

/-- A transaction of `U` all of whose ancestries end. -/
def Rooted (t : CTransaction) : Prop := U t ∧ Acc (Parent env U) t

/-- The transactions of `U` are told apart by their identifiers. -/
def TxidInj : Prop := ∀ s t, U s → U t → s.getHash env.hash = t.getHash env.hash → s = t

/-- What a store knows: its records are those of transactions of `U`, with heights up to that of its
block. -/
structure CoinsMap.Known (m : CoinsMap) : Prop where
  origin : m.Origin env (Rooted env U)
  height : ∀ txid, (m.coins txid).isPruned = false →
    0 < (m.coins txid).nHeight ∧ (m.coins txid).nHeight ≤ env.heightOf m.tag

/-- A block of the block index whose entry has the height of its hash, one above that of the block
before, and whose transactions are all in `U`. -/
structure BlockOk (block : CBlock) (pindex : BlockRef) : Prop where
  indexed : Indexed env index ⟨block, pindex⟩
  txs : ∀ tx ∈ block.vtx, U tx
  height : env.heightOf pindex.hashBlock = pindex.nHeight
  next : pindex.nHeight = env.heightOf (pindex.hashPrev.getD 0) + 1

variable {env U index} {m m' : CoinsMap}

theorem TxidInj.rooted (h : TxidInj env U) : ∀ s t, Rooted env U s → Rooted env U t →
    s.getHash env.hash = t.getHash env.hash → s = t := fun s t hs ht => h s t hs.1 ht.1

/-- A transaction is rooted when the transactions that it spends from are. -/
theorem Rooted.intro (hinj : TxidInj env U) {tx : CTransaction} (htx : U tx)
    (hm : m.Origin env (Rooted env U)) (hall : ∀ o ∈ tx.spends, ∃ out, m.output? o = some out) :
    Rooted env U tx := by
  refine ⟨htx, .intro _ ?_⟩
  rintro p ⟨hp, o, ho, hhash⟩
  obtain ⟨out, hout⟩ := hall o ho
  obtain ⟨q, hq, hqhash, -⟩ := hm.source hout
  obtain rfl := hinj p q hp hq.1 (hhash.trans hqhash.symm)
  exact hq.2

theorem CoinsMap.Known.agrees {a b : CoinsMap} (h : a.Same b) (hb : b.Known env U) :
    a.Known env U := by
  refine ⟨fun txid hp => ?_, fun txid hp => ?_⟩
  · have hp' : (b.coins txid).isPruned = false := (h.1 txid).isPruned.symm.trans hp
    obtain ⟨tx, htx, hhash, hcb, hout⟩ := hb.origin txid hp'
    exact ⟨tx, htx, hhash, ((h.1 txid).fCoinBase hp').trans hcb, fun n out ho =>
      hout n out ((h.1 txid).output n ▸ ho)⟩
  · have hp' : (b.coins txid).isPruned = false := (h.1 txid).isPruned.symm.trans hp
    rw [(h.1 txid).nHeight hp', h.2]
    exact hb.height txid hp'

theorem TxSteps.origin (hinj : TxidInj env U) {nHeight : Nat} {nFees nFees' : Int}
    {txs : List (CTransaction × CTxUndo)} (h : TxSteps env nHeight m nFees txs nFees' m')
    (htxs : ∀ t ∈ txs, U t.1) (hm : m.Origin env (Rooted env U)) :
    m'.Origin env (Rooted env U) ∧ ∀ t ∈ txs, Rooted env U t.1 := by
  induction h with
  | nil => exact ⟨hm, fun _ h => by cases h⟩
  | @cons m m₁ m' _ _ _ tx txundo txs step _ ih =>
    have htx : Rooted env U tx := .intro hinj (htxs _ (List.mem_cons_self ..)) hm fun o ho => by
      obtain ⟨out, hout, -⟩ := step.inputs o ho
      exact ⟨out, hout⟩
    obtain ⟨hend, hall⟩ := ih (fun t ht => htxs t (List.mem_cons_of_mem _ ht))
      (step.applied.origin hm htx)
    refine ⟨hend, fun t ht => ?_⟩
    rcases List.mem_cons.mp ht with rfl | ht
    · exact htx
    · exact hall t ht

variable {block : CBlock} {pindex : BlockRef} {undo : UndoFiles} {coinbase : CTransaction}
  {rest : List CTransaction} {blockUndo : CBlockUndo} {b : TipBlock} {blocks : List TipBlock}

/-- An accepted block on a store that knows its records. -/
theorem Connected.known (hinj : TxidInj env U)
    (h : Connected env block pindex coinbase rest m blockUndo m') (hb : BlockOk env U index block pindex)
    (hm : m.Known env U) :
    CoinsMap.Known env U { m' with tag := pindex.hashBlock } ∧ ∀ tx ∈ block.vtx, Rooted env U tx := by
  obtain ⟨nFees, -, hsteps, -⟩ := h.steps
  obtain ⟨horigin, hrooted⟩ := hsteps.origin hinj
    (fun t ht => hb.txs _ (h.pairs_fst ▸ List.mem_map_of_mem ht)) hm.origin
  refine ⟨⟨horigin, fun txid hp => ?_⟩, fun tx htx => ?_⟩
  · rw [hb.height]
    refine hsteps.height hb.indexed.regular.height.1 (fun txid hp => ?_) txid hp
    obtain ⟨hpos, hle⟩ := hm.height txid hp
    rw [← h.prev] at hle
    exact ⟨hpos, by rw [hb.next]; omega⟩
  · rw [← h.pairs_fst] at htx
    obtain ⟨t, ht, rfl⟩ := List.mem_map.mp htx
    exact hrooted t ht

theorem ChainCoins.known (hinj : TxidInj env U) (h : ChainCoins env index blocks m)
    (hblocks : ∀ b ∈ blocks, BlockOk env U index b.block b.pindex) : m.Known env U := by
  induction h with
  | nil => exact ⟨(fun _ hp => by cases hp), fun _ hp => by cases hp⟩
  | cons _ hb hrun ih =>
    obtain ⟨coinbase, rest, m₁, hconn, rfl⟩ := connectBlock_ok hb.regular.notGenesis hrun
    exact (hconn.known hinj (hblocks _ (List.mem_cons_self ..))
      (ih fun b hb => hblocks b (List.mem_cons_of_mem _ hb))).1

/-- Coins that follow a chain of known transactions know their records. -/
theorem Follow.known (hinj : TxidInj env U) (h : Follow env index undo blocks m)
    (hblocks : ∀ b ∈ blocks, BlockOk env U index b.block b.pindex) : m.Known env U := by
  obtain ⟨m₀, hchain, hsame⟩ := h.chain
  exact .agrees hsame (hchain.known hinj hblocks)

/-- The transactions of a block that coins follow are rooted. -/
theorem Follow.rooted (hinj : TxidInj env U) (h : Follow env index undo (b :: blocks) m)
    (hblocks : ∀ b' ∈ b :: blocks, BlockOk env U index b'.block b'.pindex) :
    ∀ tx ∈ b.block.vtx, Rooted env U tx := by
  obtain ⟨m₀, hchain, -⟩ := h.chain
  cases hchain with
  | cons hchain hb hrun =>
    obtain ⟨coinbase, rest, m₁, hconn, -⟩ := connectBlock_ok hb.regular.notGenesis hrun
    exact (hconn.known hinj (hblocks _ (List.mem_cons_self ..))
      (hchain.known hinj fun b hb => hblocks b (List.mem_cons_of_mem _ hb))).2

end Known

end GC
