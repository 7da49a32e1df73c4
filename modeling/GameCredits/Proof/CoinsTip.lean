import GameCredits.Model.CoinsTip
import GameCredits.Proof.CoinsDB
import GameCredits.Proof.Tip

/-!
# `pcoinsTip` is the replay of the active chain

* `batchWrite_spec`: what is under a cache has its contents after the cache was written down.
* `CoinsTip.step_ok`: connecting a block, disconnecting the tip, reading and flushing keep the
  contents of `pcoinsTip` those after the blocks of the chain.
* `pcoinsTip_replay`: after any operations they are those of the blocks applied to an empty view.
-/

namespace GC

open Framework (Bytes Impl Map Prog)

/-! ## Writing a cache down -/

section Batch

variable {ops : PubKeyOps} {view : CacheView} {us : CCoinsViewCache} {base : CoinsView}
  {txid : UInt256}

/-- What `BatchWrite` makes of an entry of the cache below: its flags are right, and the contents
are those of the cache above. -/
theorem batchEntry_ok (hus : ∀ e, us.cacheCoins txid = some e → e.Ok ops base txid)
    {entry : CCoinsCacheEntry} (hok : entry.Ok ops (.cache us base) txid) :
    (∀ e, batchEntry (some entry) (us.cacheCoins txid) = some e → e.Ok ops base txid) ∧
      ((((batchEntry (some entry) (us.cacheCoins txid)).map CCoinsCacheEntry.coins).or
        (base.coins? ops txid)).getD .empty).Agrees Eq entry.coins := by
  have hrefl : entry.coins.Agrees Eq entry.coins := .refl (fun _ => rfl) _
  cases hd : entry.dirty with
  | false =>
    rw [batchEntry_clean hd]
    exact ⟨hus, (hok.clean hd).symm⟩
  | true =>
    cases hentry : us.cacheCoins txid with
    | none =>
      have hfresh : entry.fresh = true := by
        by_contra hf
        have hread := hok.read (Bool.eq_false_iff.mpr hf)
        rw [CoinsView.hasEntry, hentry] at hread
        cases hread
      have hpruned : (base.record ops txid).isPruned = true := by
        have := hok.fresh hfresh
        rwa [CoinsView.record, coins?_of_none hentry] at this
      rw [batchEntry_absent hd]
      split_ifs with hp
      · exact ⟨(fun _ h => by cases h), .of_pruned hpruned hp⟩
      · refine ⟨fun e he => ?_, hrefl⟩
        cases he
        exact ⟨fun _ => hpruned, (fun h => by cases h), (fun h => by cases h)⟩
    | some us₀ =>
      have hus₀ := hus us₀ hentry
      rw [batchEntry_present hd]
      split_ifs with hp
      · rw [Bool.and_eq_true] at hp
        exact ⟨(fun _ h => by cases h), .of_pruned (hus₀.fresh hp.1) hp.2⟩
      · refine ⟨fun e he => ?_, hrefl⟩
        cases he
        exact ⟨hus₀.fresh, (fun h => by cases h), hus₀.read⟩

/-- A version that was read back: that of before unless negative, and an `int`. -/
def VersionRead (a b : Int) : Prop := VersionKept a b ∧ (b < 2 ^ 31 → a < 2 ^ 31)

theorem VersionRead.of_eq {a b : Int} (h : a = b) : VersionRead a b := ⟨fun _ => h, fun hb => h ▸ hb⟩

theorem stored_agrees_coins (coins : CCoins) : coins.stored.Agrees VersionRead coins := by
  rw [CCoins.stored]
  exact ⟨fun n => CCoins.output?_cleanup _ n, fun _ => rfl, fun _ => rfl,
    fun _ => ⟨storedVersion_kept _, storedVersion_lt⟩⟩

/-- What the database reads after an entry has been written. -/
theorem batchRecord_agrees (hops : ops.Lawful) {db : CCoinsViewDB} {entry : CCoinsCacheEntry}
    (hok : entry.Ok ops (.db db) txid) (henc : entry.coins.isPruned = false → entry.coins.Encodable) :
    ((((batchRecord ops (some entry) (db.records txid)).bind fun bytes =>
      ((readCoins ops).run bytes).map Prod.fst)).getD .empty).Agrees VersionRead entry.coins := by
  cases hd : entry.dirty with
  | false =>
    simp only [batchRecord, hd, Bool.not_false, if_true]
    exact (hok.clean hd).symm.mono VersionRead.of_eq
  | true =>
    cases hp : entry.coins.isPruned with
    | true =>
      simp only [batchRecord, hd, hp, Bool.not_true, Bool.false_eq_true, if_false, if_true]
      exact .of_pruned rfl hp
    | false =>
      have hread := CCoins.readCoins_write hops (henc hp) []
      rw [List.append_nil] at hread
      simp only [batchRecord, hd, hp, Bool.not_true, Bool.false_eq_true, if_false, Option.bind_some,
        hread, Option.map_some, Option.getD_some]
      exact stored_agrees_coins _

/-- A view that has read back the records of another, with its best block. -/
structure CoinsView.Keeps (ops : PubKeyOps) (view view' : CoinsView) : Prop where
  wf : view'.Wf ops
  record : ∀ txid, (view'.record ops txid).Agrees VersionRead (view.record ops txid)
  best : view'.best = view.best
  tagged : view'.Tagged

/-- What is under a cache, after the cache was written down. -/
theorem batchWrite_spec (hops : ops.Lawful) (hw : view.stack.Wf ops) (ht : view.stack.Tagged)
    (henc : ∀ txid, (view.stack.record ops txid).isPruned = false →
      (view.stack.record ops txid).Encodable) :
    view.stack.Keeps ops
      (view.base.batchWrite ops view.cache.cacheCoins view.cache.hashBlock) := by
  obtain ⟨cache, base⟩ := view
  have ht : cache.hashBlock = (CoinsView.cache cache base).best := ht
  cases base with
  | db db =>
    refine ⟨trivial, fun txid => ?_, rfl, trivial⟩
    cases hentry : cache.cacheCoins txid with
    | none =>
      simp only [CacheView.stack, CoinsView.record, coins?_of_none hentry, CoinsView.batchWrite,
        CoinsView.coins?, CCoinsViewDB.getCoins, hentry, batchRecord]
      exact .refl (fun _ => .of_eq rfl) _
    | some entry =>
      have hok := hw.1 txid entry hentry
      have hrecord : (CoinsView.cache cache (.db db)).record ops txid = entry.coins := by
        rw [CoinsView.record, coins?_of_entry hentry]
        rfl
      have hgoal := batchRecord_agrees hops hok (hrecord ▸ henc txid)
      rw [← hentry] at hgoal
      rw [CacheView.stack, hrecord]
      exact hgoal
  | cache us base =>
    have hbest : (CoinsView.cache ⟨fun txid => batchEntry (cache.cacheCoins txid)
        (us.cacheCoins txid), cache.hashBlock⟩ base).best = cache.hashBlock := by
      by_cases h0 : cache.hashBlock = 0
      · have hbase : (CoinsView.cache cache (.cache us base)).best =
            (CoinsView.cache us base).best := if_pos h0
        have hus : (CoinsView.cache us base).best = 0 := hbase.symm.trans (ht.symm.trans h0)
        have hus0 : us.hashBlock = 0 := by
          by_contra hne
          rw [CoinsView.best, if_neg hne] at hus
          exact hne hus
        rw [CoinsView.best, if_pos hus0] at hus
        rw [CoinsView.best, if_pos h0, hus, h0]
      · exact if_neg h0
    refine ⟨⟨fun txid e he => ?_, hw.2.2⟩, fun txid => ?_, hbest.trans ht, hbest.symm⟩
    · cases hentry : cache.cacheCoins txid with
      | none =>
        simp only [hentry, batchEntry] at he
        exact hw.2.1 txid e he
      | some entry =>
        simp only [hentry] at he
        exact (batchEntry_ok (hw.2.1 txid) (hw.1 txid entry hentry)).1 e he
    · cases hentry : cache.cacheCoins txid with
      | none =>
        simp only [CacheView.stack, CoinsView.record, coins?_of_none hentry, CoinsView.batchWrite,
          CoinsView.coins?, hentry, batchEntry]
        exact .refl (fun _ => .of_eq rfl) _
      | some entry =>
        have hagree := (batchEntry_ok (hw.2.1 txid) (hw.1 txid entry hentry)).2
        rw [← hentry] at hagree
        have hrecord : (CoinsView.cache cache (.cache us base)).record ops txid = entry.coins := by
          rw [CoinsView.record, coins?_of_entry hentry]
          rfl
        rw [CacheView.stack, hrecord]
        exact hagree.mono VersionRead.of_eq

end Batch

/-! ## Coins that a view has -/

/-- The contents of a view as a plain store. -/
def CoinsView.contents (ops : PubKeyOps) (view : CoinsView) : CoinsMap := ⟨view.coins? ops, view.best⟩

section Contents

variable {env : Env} {index : UInt256 → TipBlock} {undo : UndoFiles} {blocks : List TipBlock}
  {coins coins' m m' : CoinsMap} {nHeight : Nat} {nFees nFees' : Int}

theorem CoinsView.Same.contents {ops : PubKeyOps} {view view' : CoinsView} (h : view.Same ops view') :
    view'.contents ops = view.contents ops := by
  rw [CoinsView.contents, CoinsView.contents, h.coins?, h.best]

/-- Coins that were written down and read back follow the same chain. -/
theorem Follow.read (h : Follow env index undo blocks coins)
    (hread : ∀ txid, (coins'.coins txid).Agrees VersionRead (coins.coins txid))
    (htag : coins'.tag = coins.tag) : Follow env index undo blocks coins' := by
  obtain ⟨m, hchain, hsame⟩ := h.chain
  refine ⟨fun txid hp => ?_, h.written, h.undo, m, hchain, fun txid => ?_, htag.trans hsame.2⟩
  · have hp' : (coins.coins txid).isPruned = false := (hread txid).isPruned.symm.trans hp
    exact ((hread txid).nVersion hp').2 (h.versions txid hp')
  · exact (hread txid).trans (fun hr hk => hr.1.trans hk) (hsame.1 txid)

theorem TxSteps.checked {txs : List (CTransaction × CTxUndo)}
    (h : TxSteps env nHeight m nFees txs nFees' m') (htxs : ∀ t ∈ txs, CheckedTx t.1)
    (hm : m.Origin env CheckedTx) : m'.Origin env CheckedTx := by
  induction h with
  | nil => exact hm
  | cons step _ ih =>
    exact ih (fun t ht => htxs t (List.mem_cons_of_mem _ ht))
      (step.applied.origin hm (htxs _ (List.mem_cons_self ..)))

/-- The records after a chain of blocks are those of checked transactions. -/
theorem ChainCoins.checked (h : ChainCoins env index blocks m) : m.Origin env CheckedTx := by
  induction h with
  | nil => exact fun _ hp => by cases hp
  | cons _ hb hrun ih =>
    obtain ⟨coinbase, rest, m₁, hconn, rfl⟩ := connectBlock_ok hb.regular.notGenesis hrun
    obtain ⟨nFees, -, hsteps, -⟩ := hconn.steps
    exact hsteps.checked (fun t ht => hconn.checked.txs _ (hconn.mem_pairs ht)) ih

theorem CheckedTx.length_vout {tx : CTransaction} (h : CheckedTx tx) :
    tx.vout.length ≤ MAX_BLOCK_SIZE := by
  have hsize := h.size
  have hvout : tx.vout.length ≤ (vectorBytes CTxOut.bytes tx.vout).length :=
    length_le_vectorBytes fun out _ => by simp [CTxOut.bytes, int64Bytes]
  simp only [CTransaction.bytes, List.length_append] at hsize
  omega

/-- The records of coins that follow a chain can be written down. -/
theorem Follow.encodable (h : Follow env index undo blocks coins) (txid : UInt256)
    (hp : (coins.coins txid).isPruned = false) : (coins.coins txid).Encodable := by
  obtain ⟨m, hchain, hsame⟩ := h.chain
  have hs := h.sound txid hp
  refine ⟨hp, hs.height.2, hs.version, fun n out hout => ⟨?_, hs.outs n out hout⟩⟩
  have hp' : (m.coins txid).isPruned = false := (hsame.1 txid).isPruned.symm.trans hp
  obtain ⟨tx, htx, -, -, houts⟩ := hchain.checked txid hp'
  have hfrom := houts n out (((hsame.1 txid).output n).symm.trans hout)
  rw [CCoins.output?_fromTx, Option.filter_eq_some_iff, Option.bind_eq_some_iff] at hfrom
  obtain ⟨⟨txout, htxout, -⟩, -⟩ := hfrom
  have hlt := (List.getElem?_eq_some_iff.mp htxout).1
  have hlen := htx.length_vout
  have : MAX_BLOCK_SIZE ≤ 2 ^ 31 := by decide
  omega

theorem ChainCoins.tag (h : ChainCoins env index blocks m) :
    m.tag = (blocks.head?.map fun b => b.pindex.hashBlock).getD env.hashGenesisBlock := by
  cases h with
  | nil => rfl
  | cons _ hb hrun => exact (hb.connects hrun).2

end Contents

/-! ## The child cache -/

section Child

variable {env : Env} {block : CBlock} {pindex : BlockRef} {view view' : CacheView}

/-- A new cache on a view. -/
theorem child_wf {ops : PubKeyOps} {base : CoinsView} (h : base.Wf ops) :
    (CacheView.mk .new base).stack.Wf ops :=
  ⟨fun _ _ he => (nomatch he), h⟩

theorem child_contents (ops : PubKeyOps) (base : CoinsView) :
    (CacheView.mk .new base).contents ops = base.contents ops := by
  have hcoins : (CoinsView.cache .new base).coins? ops = base.coins? ops :=
    funext fun txid => coins?_of_none rfl base
  exact congrArg (fun coins => Map.mk coins base.best) hcoins

/-- A block that was connected on a cache is its best block. -/
theorem connectBlock_hashBlock {blockUndo : CBlockUndo}
    (h : (connectBlock env block pindex false).run (viewImpl env.ops) view = (.ok blockUndo, view')) :
    view'.cache.hashBlock = pindex.hashBlock := by
  obtain ⟨_, view₁, -, h⟩ := Prog.run_bind_ok h
  obtain ⟨_, view₂, hset, h⟩ := Prog.run_bind_ok h
  obtain ⟨-, rfl⟩ := Prog.run_pure_ok h
  cases hset
  rfl

theorem disconnectBlock_hashBlock {blockUndo : CBlockUndo} {fClean : Bool}
    (h : (disconnectBlock env block pindex blockUndo).run (viewImpl env.ops) view =
      (.ok fClean, view')) : view'.cache.hashBlock = pindex.hashPrev.getD 0 := by
  obtain ⟨_, view₁, -, h⟩ := Prog.run_bind_ok h
  obtain ⟨-, h⟩ := Prog.run_check_bind_ok h
  obtain ⟨-, h⟩ := Prog.run_check_bind_ok h
  rcases hvtx : block.vtx with _ | ⟨coinbase, vtx⟩
  · rw [hvtx] at h
    cases h
  · rw [hvtx] at h
    obtain ⟨_, view₂, -, h⟩ := Prog.run_bind_ok h
    obtain ⟨_, view₃, -, h⟩ := Prog.run_bind_ok h
    obtain ⟨_, view₄, hset, h⟩ := Prog.run_bind_ok h
    obtain ⟨-, rfl⟩ := Prog.run_pure_ok h
    cases hset
    rfl

end Child

/-! ## All operations -/

variable {env : Env} {index : UInt256 → TipBlock} {s : CoinsTip} {b : TipBlock}

/-- The genesis block and its index entry. -/
structure IsGenesis (env : Env) (b : TipBlock) : Prop where
  hash : b.block.getHash env.hash = env.hashGenesisBlock
  entry : b.pindex.hashBlock = env.hashGenesisBlock ∧ b.pindex.hashPrev = none

/-- An operation with the genesis block or with a block that the block index has under its hash,
which is not null, with a parent. -/
def CoinsTipOp.Ok (env : Env) (index : UInt256 → TipBlock) : CoinsTipOp → Prop
  | .connectTip b => IsGenesis env b ∨
      Indexed env index b ∧ b.pindex.hashBlock ≠ 0 ∧ b.pindex.hashPrev ≠ none
  | _ => True

namespace CoinsTip

/-- The chain is empty, as are the coins, or it is that of the genesis block and the blocks above,
which the coins follow. -/
inductive Follows (env : Env) (index : UInt256 → TipBlock) (chain : List TipBlock)
    (undo : UndoFiles) (coins : CoinsMap) : Prop
  | empty (hchain : chain = []) (hversions : coins.Versions)
      (hcoins : coins.Same ⟨fun _ => none, 0⟩)
  | above (blocks : List TipBlock) (genesis : TipBlock) (hchain : chain = blocks ++ [genesis])
      (hgen : IsGenesis env genesis)
      (happly : applyBlocks env [genesis] = some ⟨fun _ => none, env.hashGenesisBlock⟩)
      (hnull : ∀ b ∈ blocks, b.pindex.hashBlock ≠ 0)
      (hfollow : Follow env index undo blocks coins)

/-- The flags of the caches are right, and the coins are those of the chain. -/
structure Ok (env : Env) (index : UInt256 → TipBlock) (s : CoinsTip) : Prop where
  wf : s.pcoinsTip.Wf env.ops
  tagged : s.pcoinsTip.Tagged
  written : UndoOk env index s.undo
  follows : Follows env index s.chainActive s.undo (s.pcoinsTip.contents env.ops)

theorem init_ok : init.Ok env index where
  wf := ⟨fun _ _ he => (nomatch he), trivial⟩
  tagged := rfl
  written _ _ h := nomatch h
  follows := .empty rfl (fun _ _ => show (0 : Int) < 2 ^ 31 by decide)
    ⟨fun _ => .refl (fun _ _ => rfl) _, rfl⟩

/-- Reading `pcoinsTip`, or running in a child cache that is discarded. -/
theorem Ok.same (h : s.Ok env index) {view : CoinsView} (hs : s.pcoinsTip.Same env.ops view) :
    Ok env index { s with pcoinsTip := view } :=
  ⟨hs.wf h.wf, hs.tagged h.tagged, h.written, hs.contents ▸ h.follows⟩

theorem Ok.discard (h : s.Ok env index) {α : Type} (p : CoinsProg α) :
    Ok env index { s with pcoinsTip := (p.run (viewImpl env.ops) ⟨.new, s.pcoinsTip⟩).2.base } :=
  h.same (run_base p _ (child_wf h.wf)).2

/-- Coins that were written down and read back. -/
theorem Follows.read {chain : List TipBlock} {undo : UndoFiles} {coins coins' : CoinsMap}
    (h : Follows env index chain undo coins)
    (hread : ∀ txid, (coins'.coins txid).Agrees VersionRead (coins.coins txid))
    (htag : coins'.tag = coins.tag) : Follows env index chain undo coins' := by
  cases h with
  | empty hchain hversions hcoins =>
    refine .empty hchain (fun txid hp => ?_) ⟨fun txid => ?_, htag.trans hcoins.2⟩
    · have hp' : (coins.coins txid).isPruned = false := (hread txid).isPruned.symm.trans hp
      exact ((hread txid).nVersion hp').2 (hversions txid hp')
    · exact (hread txid).trans (fun hr hk => hr.1.trans hk) (hcoins.1 txid)
  | above blocks genesis hchain hgen happly hnull hfollow =>
    exact .above blocks genesis hchain hgen happly hnull (hfollow.read hread htag)

theorem Follows.encodable {chain : List TipBlock} {undo : UndoFiles} {coins : CoinsMap}
    (h : Follows env index chain undo coins) (txid : UInt256)
    (hp : (coins.coins txid).isPruned = false) : (coins.coins txid).Encodable := by
  cases h with
  | empty hchain hversions hcoins =>
    rw [(hcoins.1 txid).isPruned] at hp
    cases hp
  | above blocks genesis hchain hgen happly hnull hfollow => exact hfollow.encodable txid hp

/-- A cache on a view, with the coins of a chain, written down. -/
theorem Ok.of_flush (hops : env.ops.Lawful) {view : CacheView} {chain : List TipBlock}
    {undo : UndoFiles} (hw : view.stack.Wf env.ops) (ht : view.stack.Tagged)
    (hwritten : UndoOk env index undo)
    (hfollows : Follows env index chain undo (view.contents env.ops)) :
    Ok env index ⟨chain, (view.flush env.ops).base, undo⟩ := by
  have hkeeps := batchWrite_spec hops hw ht hfollows.encodable
  exact ⟨hkeeps.wf, hkeeps.tagged, hwritten, hfollows.read hkeeps.record hkeeps.best⟩

theorem flush_ok (hops : env.ops.Lawful) (h : s.Ok env index) :
    Ok env index { s with pcoinsTip := s.pcoinsTip.flush env.ops } := by
  obtain ⟨chain, view, undo⟩ := s
  cases view with
  | db db => exact h
  | cache view base =>
    have hkeeps : (CacheView.mk view base).stack.Keeps env.ops _ :=
      batchWrite_spec hops h.wf h.tagged h.follows.encodable
    have hcoins : (CoinsView.flush env.ops (.cache view base)).coins? env.ops =
        (base.batchWrite env.ops view.cacheCoins view.hashBlock).coins? env.ops :=
      funext fun txid => coins?_of_none rfl _
    have hbest : (CoinsView.flush env.ops (.cache view base)).best = view.hashBlock := by
      by_cases h0 : view.hashBlock = 0
      · have hbase : (base.batchWrite env.ops view.cacheCoins view.hashBlock).best = view.hashBlock :=
          hkeeps.best.trans h.tagged.symm
        exact (if_pos h0).trans hbase
      · exact if_neg h0
    refine ⟨⟨fun _ _ he => (nomatch he), hkeeps.wf⟩, hbest.symm, h.written, h.follows.read
      (fun txid => ?_) (hbest.trans h.tagged)⟩
    show (CoinsView.record env.ops (CoinsView.flush env.ops (.cache view base)) txid).Agrees _ _
    rw [CoinsView.record, hcoins]
    exact hkeeps.record txid

/-- A cache with a best block of its own. -/
theorem tagged_of_ne {view : CacheView} (h : view.cache.hashBlock ≠ 0) : view.stack.Tagged :=
  (if_neg h).symm

/-- Connecting the genesis block changes nothing but the best block. -/
theorem connectBlock_genesis {m m' : CoinsMap} {blockUndo : CBlockUndo} (hb : IsGenesis env b)
    (h : (connectBlock env b.block b.pindex false).run plain m = (.ok blockUndo, m')) :
    m' = { m with tag := env.hashGenesisBlock } := by
  obtain ⟨undo, m₁, hc, h⟩ := Prog.run_bind_ok h
  obtain ⟨_, m₂, hset, h⟩ := Prog.run_bind_ok h
  obtain ⟨-, rfl⟩ := Prog.run_pure_ok h
  obtain ⟨-, -, hc⟩ := Prog.run_lift_bind_ok hc
  rw [run_getBestBlock] at hc
  obtain ⟨-, hc⟩ := Prog.run_check_bind_ok hc
  rw [if_pos hb.hash] at hc
  obtain ⟨-, rfl⟩ := Prog.run_pure_ok hc
  cases hset
  exact congrArg (fun hash => { m with tag := hash }) hb.entry.1

/-- The genesis block on the empty chain. -/
theorem follows_genesis {undo : UndoFiles} {m m' : CoinsMap} {blockUndo : CBlockUndo}
    (hb : IsGenesis env b) (hversions : m.Versions) (hsame : m.Same ⟨fun _ => none, 0⟩)
    (hwritten : UndoOk env index undo)
    (h : (connectBlock env b.block b.pindex false).run plain m = (.ok blockUndo, m')) :
    Follows env index [b] undo m' := by
  obtain ⟨hout, hsame'⟩ := ((connectBlock_rel env (fun _ _ => rfl) b.block b.pindex false
    (T := fun _ => True) trivial).run plain_sim hsame).resolve_right fun hf => hf.1
  rw [h] at hout hsame'
  rcases hempty : (connectBlock env b.block b.pindex false).run plain ⟨fun _ => none, 0⟩ with ⟨r, m₀⟩
  rw [hempty] at hout hsame'
  obtain rfl := connectBlock_genesis hb h
  cases r with
  | error e => exact hout.elim
  | ok undo' =>
    obtain rfl := connectBlock_genesis hb hempty
    refine .above [] b rfl hb ?_ (fun _ h => by cases h)
      ⟨hversions, hwritten, fun _ h => (nomatch h), _, .nil, hsame'⟩
    show (match (connectBlock env b.block b.pindex false).run plain ⟨fun _ => none, 0⟩ with
      | (.ok _, coins) => some coins
      | (.error _, _) => none) = _
    rw [hempty]

theorem tip_above {blocks : List TipBlock} {genesis : TipBlock}
    (h : s.chainActive = blocks ++ [genesis]) : s.tip ≠ none := by
  rw [tip, h]
  cases blocks <;> exact Option.some_ne_none _

/-- What `ConnectTip` makes of the chain and of the coins, when `ConnectBlock` accepts the block. -/
theorem Ok.follows_connect (hops : env.ops.Lawful) (h : s.Ok env index)
    (hb : (CoinsTipOp.connectTip b).Ok env index) (hprev : b.pindex.hashPrev = s.tip)
    {blockUndo : CBlockUndo} {m' : CoinsMap}
    (hrun : (connectBlock env b.block b.pindex false).run plain (s.pcoinsTip.contents env.ops) =
      (.ok blockUndo, m')) :
    UndoOk env index (s.writeUndo env b blockUndo) ∧
      Follows env index (b :: s.chainActive) (s.writeUndo env b blockUndo) m' := by
  rcases hb with hgen | ⟨hidx, hhash, hparent⟩
  · rw [writeUndo, if_pos hgen.hash]
    refine ⟨h.written, ?_⟩
    cases h.follows with
    | empty hchain hversions hcoins =>
      rw [hchain]
      exact follows_genesis hgen hversions hcoins h.written hrun
    | above blocks genesis hchain =>
      exact absurd (hprev.symm.trans hgen.entry.2) (tip_above hchain)
  · rw [writeUndo, if_neg hidx.regular.notGenesis]
    cases h.follows with
    | empty hchain =>
      rw [tip, hchain] at hprev
      exact absurd hprev hparent
    | above blocks genesis hchain hgen happly hnull hfollow =>
      have hfollow' := hfollow.connect hops hidx hrun
      refine ⟨hfollow'.written, .above (b :: blocks) genesis (by rw [hchain]; rfl) hgen happly
        (fun b' hmem => ?_) hfollow'⟩
      rcases List.mem_cons.mp hmem with rfl | hmem
      · exact hhash
      · exact hnull b' hmem

theorem connectTip_ok (hops : env.ops.Lawful) (hnull : env.hashGenesisBlock ≠ 0)
    (h : s.Ok env index) (hb : (CoinsTipOp.connectTip b).Ok env index) :
    (s.connectTip env b).Ok env index := by
  unfold connectTip
  split_ifs with hprev
  · have hdiscard := h.discard (connectBlock env b.block b.pindex false)
    rcases hrun : (connectBlock env b.block b.pindex false).run (viewImpl env.ops)
      ⟨.new, s.pcoinsTip⟩ with ⟨r, view⟩
    rw [hrun] at hdiscard
    cases r with
    | error e => exact hdiscard
    | ok blockUndo =>
      have hhash : b.pindex.hashBlock ≠ 0 := hb.elim (fun hgen => hgen.entry.1 ▸ hnull) fun h => h.2.1
      obtain ⟨undo, m', hplain, hagree, hrepr⟩ :=
        connectBlock_plain (CacheView.repr_contents (child_wf h.wf)) hhash hrun
      obtain rfl : blockUndo = undo := hagree.eq
      rw [child_contents] at hplain
      have ht := tagged_of_ne ((connectBlock_hashBlock hrun).symm ▸ hhash)
      obtain ⟨hwritten, hfollows⟩ := h.follows_connect hops hb hprev hplain
      exact .of_flush hops hrepr.wf ht hwritten
        (hfollows.read (fun txid => (hrepr.record txid).mono .of_eq) hrepr.best)
  · exact h

/-- The genesis block has no undo data: it is not disconnected. -/
theorem disconnectStored_genesis {undo : UndoFiles} (hwritten : UndoOk env index undo)
    (hb : IsGenesis env b) {view view' : CacheView} {fClean : Bool} :
    (disconnectStored env b.block b.pindex (undo b.pindex.hashBlock)).run (viewImpl env.ops) view ≠
      (.ok fClean, view') := by
  have hnone : undo b.pindex.hashBlock = none := by
    by_contra hne
    obtain ⟨bytes, hbytes⟩ := Option.ne_none_iff_exists'.mp hne
    obtain ⟨b', -, -, -, -, hhash, hidx, -⟩ := hwritten _ _ hbytes
    exact hidx.other (hhash.trans hb.entry.1)
  rw [hnone]
  intro h
  obtain ⟨_, _, -, h⟩ := Prog.run_bind_ok h
  obtain ⟨-, h⟩ := Prog.run_check_bind_ok h
  cases h

/-- What a clean `DisconnectBlock` leaves of the chain and of the coins. -/
theorem Ok.follows_disconnect (hnull : env.hashGenesisBlock ≠ 0) (h : s.Ok env index)
    {blocks : List TipBlock} (hchain : s.chainActive = b :: blocks) {view : CacheView}
    (hrun : (disconnectStored env b.block b.pindex (s.undo b.pindex.hashBlock)).run
      (viewImpl env.ops) ⟨.new, s.pcoinsTip⟩ = (.ok true, view)) :
    view.stack.Wf env.ops ∧ view.stack.Tagged ∧
      Follows env index blocks s.undo (view.contents env.ops) := by
  cases h.follows with
  | empty hempty =>
    rw [hempty] at hchain
    cases hchain
  | above blocks' genesis hchain' hgen happly hhash hfollow =>
    rw [hchain] at hchain'
    rcases blocks' with _ | ⟨b', blocks'⟩
    · cases hchain'
      exact absurd hrun (disconnectStored_genesis h.written hgen)
    · cases hchain'
      obtain ⟨blockUndo, coins', hstored, hplain, hback, htag, -⟩ := hfollow.disconnect
      obtain ⟨m, hm, hsame⟩ := hback.chain
      have hprev : b.pindex.hashPrev.getD 0 ≠ 0 := by
        rw [← htag, hsame.2, hm.tag]
        rcases blocks' with _ | ⟨b', blocks'⟩
        · exact hnull
        · exact hhash b' (List.mem_cons_of_mem _ (List.mem_cons_self ..))
      rw [← child_contents] at hplain
      obtain ⟨view', hview, hrepr⟩ :=
        disconnectBlock_view (CacheView.repr_contents (child_wf h.wf)) hprev hplain
      rw [hstored, hview] at hrun
      cases hrun
      refine ⟨hrepr.wf, tagged_of_ne ((disconnectBlock_hashBlock hview).symm ▸ hprev), .read ?_
        (fun txid => (hrepr.record txid).mono .of_eq) hrepr.best⟩
      exact .above blocks' genesis rfl hgen happly
        (fun b hb => hhash b (List.mem_cons_of_mem _ hb)) hback

theorem disconnectTip_ok (hops : env.ops.Lawful) (hnull : env.hashGenesisBlock ≠ 0)
    (h : s.Ok env index) : (s.disconnectTip env).Ok env index := by
  cases hchain : s.chainActive with
  | nil =>
    rw [show s.disconnectTip env = s by simp only [disconnectTip, hchain]]
    exact h
  | cons b blocks =>
    have hdiscard := h.discard (disconnectStored env b.block b.pindex (s.undo b.pindex.hashBlock))
    rcases hrun : (disconnectStored env b.block b.pindex (s.undo b.pindex.hashBlock)).run
      (viewImpl env.ops) ⟨.new, s.pcoinsTip⟩ with ⟨r, view⟩
    rw [hrun] at hdiscard
    by_cases hclean : r = .ok true
    · subst hclean
      have hstep : s.disconnectTip env = ⟨blocks, (view.flush env.ops).base, s.undo⟩ := by
        simp only [disconnectTip, hchain, hrun]
      rw [hstep]
      obtain ⟨hw, ht, hfollows⟩ := h.follows_disconnect hnull hchain hrun
      exact .of_flush hops hw ht h.written hfollows
    · have hstep : s.disconnectTip env = { s with pcoinsTip := view.base } := by
        rcases r with e | _ | _
        · simp only [disconnectTip, hchain, hrun]
        · simp only [disconnectTip, hchain, hrun]
        · exact absurd rfl hclean
      rw [hstep]
      exact hdiscard

/-- Every operation keeps the invariant. -/
theorem step_ok (hops : env.ops.Lawful) (hnull : env.hashGenesisBlock ≠ 0) (h : s.Ok env index)
    {op : CoinsTipOp} (hop : op.Ok env index) : (s.step env op).Ok env index := by
  cases op with
  | connectTip b => exact connectTip_ok hops hnull h hop
  | disconnectTip => exact disconnectTip_ok hops hnull h
  | getCoins txid => exact h.same (getCoins_spec env.ops s.pcoinsTip txid).2.1
  | getBestBlock => exact h.same (getBestBlock_spec env.ops s.pcoinsTip).2
  | flush => exact flush_ok hops h

theorem foldl_ok (hops : env.ops.Lawful) (hnull : env.hashGenesisBlock ≠ 0) {ops : List CoinsTipOp}
    (h : s.Ok env index) (hall : ∀ op ∈ ops, op.Ok env index) :
    (ops.foldl (step env) s).Ok env index := by
  induction ops generalizing s with
  | nil => exact h
  | cons op ops ih =>
    exact ih (step_ok hops hnull h (hall op (List.mem_cons_self ..)))
      fun op' hmem => hall op' (List.mem_cons_of_mem _ hmem)

end CoinsTip

/-! ## Replaying the chain -/

/-- The coins after a chain of blocks are those of applying the blocks. -/
theorem ChainCoins.applyBlocks {blocks : List TipBlock} {genesis : TipBlock} {m : CoinsMap}
    (h : ChainCoins env index blocks m)
    (hgen : applyBlocks env [genesis] = some ⟨fun _ => none, env.hashGenesisBlock⟩) :
    applyBlocks env (blocks ++ [genesis]) = some m := by
  induction h with
  | nil => exact hgen
  | cons _ _ hrun ih =>
    rw [List.cons_append, GC.applyBlocks, ih, Option.bind_some, hrun]

/-- After any operations `pcoinsTip` has the coins that the blocks of the chain leave when they are
applied to an empty view, and its best block is the tip. -/
theorem pcoinsTip_replay (hops : env.ops.Lawful) (hnull : env.hashGenesisBlock ≠ 0)
    {ops : List CoinsTipOp} (hall : ∀ op ∈ ops, op.Ok env index) :
    ∃ coins, applyBlocks env (CoinsTip.run env ops).chainActive = some coins ∧
      (∀ txid, (((CoinsTip.run env ops).pcoinsTip.getCoins env.ops txid).1.getD .empty).Agrees
        VersionKept (coins.record .empty txid)) ∧
      (CoinsTip.run env ops).pcoinsTip.getBestBlock.1 = (CoinsTip.run env ops).tip.getD 0 := by
  have hok : (CoinsTip.run env ops).Ok env index := CoinsTip.foldl_ok hops hnull CoinsTip.init_ok hall
  have hget := fun txid => (getCoins_spec env.ops (CoinsTip.run env ops).pcoinsTip txid).1
  have hbest := (getBestBlock_spec env.ops (CoinsTip.run env ops).pcoinsTip).1
  cases hok.follows with
  | empty hchain hversions hcoins =>
    refine ⟨_, by rw [hchain]; rfl, fun txid => ?_, ?_⟩
    · rw [hget]
      exact hcoins.1 txid
    · rw [hbest, CoinsTip.tip, hchain]
      exact hcoins.2
  | above blocks genesis hchain hgen happly _ hfollow =>
    obtain ⟨m, hm, hsame⟩ := hfollow.chain
    refine ⟨m, by rw [hchain]; exact hm.applyBlocks happly, fun txid => ?_, ?_⟩
    · rw [hget]
      exact hsame.1 txid
    · rw [hbest, CoinsTip.tip, hchain]
      refine (hsame.2.trans hm.tag).trans ?_
      rcases blocks with _ | ⟨b, blocks⟩
      · exact hgen.entry.1.symm
      · rfl

/-! ## A reorganisation -/

/-- A genesis block, told apart by its version. -/
def tipGenesis : CBlock := { sampleBlock [sampleCoinbase 50] with nVersion := 9 }

def tipEnv : Env := { sampleEnv with hashGenesisBlock := tipGenesis.getHash sampleEnv.hash }

def genesisEntry : TipBlock := ⟨tipGenesis, ⟨tipEnv.hashGenesisBlock, none, 0⟩⟩

/-- A block on the genesis block whose coinbase claims `nValue`. -/
def tipEntry (nValue : Int) (hashBlock : UInt256) : TipBlock :=
  ⟨sampleBlock [sampleCoinbase nValue], ⟨hashBlock, some tipEnv.hashGenesisBlock, 1⟩⟩

def tipIndex (hash : UInt256) : TipBlock :=
  if hash = 8 then tipEntry 10 8 else if hash = 9 then tipEntry 20 9 else tipEntry (60 * COIN) 10

/-- A block is connected, a rejected one is not, and a reorganisation to another one and back. -/
def tipOps : List CoinsTipOp :=
  [.connectTip genesisEntry, .connectTip (tipEntry 10 8), .flush, .disconnectTip,
    .connectTip (tipEntry (60 * COIN) 10), .connectTip (tipEntry 20 9), .getCoins 7, .disconnectTip,
    .connectTip (tipEntry 10 8)]

theorem tipOps_replay :
    ∃ coins, applyBlocks tipEnv (CoinsTip.run tipEnv tipOps).chainActive = some coins ∧
      (∀ txid, (((CoinsTip.run tipEnv tipOps).pcoinsTip.getCoins tipEnv.ops txid).1.getD
        .empty).Agrees VersionKept (coins.record .empty txid)) ∧
      (CoinsTip.run tipEnv tipOps).pcoinsTip.getBestBlock.1 =
        (CoinsTip.run tipEnv tipOps).tip.getD 0 := by
  have hentry : ∀ nValue hash, tipIndex hash = tipEntry nValue hash → hash ≠ 0 →
      hash ≠ tipEnv.hashGenesisBlock → (sampleBlock [sampleCoinbase nValue]).getHash tipEnv.hash ≠
        tipEnv.hashGenesisBlock → (CoinsTipOp.connectTip (tipEntry nValue hash)).Ok tipEnv tipIndex := by
    intro nValue hash hindex hzero hother hgen
    refine .inr ⟨⟨⟨hgen, ⟨Nat.one_pos, show 1 < 2 ^ 31 by decide⟩, fun tx htx => ?_,
      fun s hs t ht _ => ?_⟩, hindex, hother⟩, hzero, Option.some_ne_none _⟩
    · cases List.mem_singleton.mp htx
      exact show (1 : Int) < 2 ^ 31 by decide
    · exact (List.mem_singleton.mp hs).trans (List.mem_singleton.mp ht).symm
  have h8 : (CoinsTipOp.connectTip (tipEntry 10 8)).Ok tipEnv tipIndex :=
    hentry 10 8 rfl (by decide) (by decide +kernel) (by decide +kernel)
  have h9 : (CoinsTipOp.connectTip (tipEntry 20 9)).Ok tipEnv tipIndex :=
    hentry 20 9 rfl (by decide) (by decide +kernel) (by decide +kernel)
  have h10 : (CoinsTipOp.connectTip (tipEntry (60 * COIN) 10)).Ok tipEnv tipIndex :=
    hentry (60 * COIN) 10 rfl (by decide) (by decide +kernel) (by decide +kernel)
  refine @pcoinsTip_replay tipEnv tipIndex (fun _ _ _ _ h => by cases h) (by decide +kernel) _
    fun op hop => ?_
  simp only [tipOps, List.mem_cons, List.not_mem_nil, or_false] at hop
  rcases hop with rfl | rfl | rfl | rfl | rfl | rfl | rfl | rfl | rfl
  · exact .inl ⟨rfl, rfl, rfl⟩
  · exact h8
  · trivial
  · trivial
  · exact h10
  · exact h9
  · trivial
  · trivial
  · exact h8

end GC
