import GameCredits.Framework.Assoc
import GameCredits.Model.Pow
import GameCredits.Proof.Steps

/-!
# The work of headers

What calls of `AcceptBlockHeader` maintain (`HeadersOk`): the entries are a tree over the genesis
block, each above the last checkpoint has the work that its parent requires, and each at the height of
a checkpoint has its hash if checkpoints are on.

* `acceptBlockHeader_isSome`: no assertion fails.
* `headers_work`: above the last checkpoint no required work is skipped, if checkpoints are on, or if
  the headers up to the last checkpoint have the required work, which the code then does not check.
* `uncheckedCalls_skip`: a run in which one has not.
-/

namespace GC

open Framework

/-! ## GetNextWorkRequired -/

section

variable {s s' : ChainState} {p q : Ptr}

theorem length_chainFrom (T : s.Tree) (hp : s.Known p) :
    (s.chainFrom p).length = s.height p + 1 := by
  rw [ChainState.chainFrom, List.length_map]
  exact T.graded.length_lineage hp (le_refl _)

theorem chainFrom_head (s : ChainState) (p : Ptr) :
    ∃ rest, s.chainFrom p = s.node p :: rest := ⟨_, rfl⟩

/-- A new entry does not change what is below an entry. -/
theorem ChainState.Added.chainFrom {pnew : Ptr} (A : s.Added s' pnew) (T : s.Tree)
    (hp : s.Known p) : s'.chainFrom p = s.chainFrom p := by
  have hlineage : lineage s'.parent (s.height p + 1) p = lineage s.parent (s.height p + 1) p :=
    T.graded.lineage_congr (fun c hc => A.parent_eq hc) _ hp
  show (lineage s'.parent (s'.height p + 1) p).map s'.node =
    (lineage s.parent (s.height p + 1) p).map s.node
  rw [A.height_eq hp, hlineage]
  refine List.map_congr_left fun c hc => A.node c ?_
  exact T.graded.anc_mem (T.graded.mem_lineage hp hc).1 hp

/-- `GetNextWorkRequired` finds the blocks that it reads. -/
theorem getNextWorkRequired_isSome (params : PowParams) (T : s.Tree) (hp : s.Known p) :
    (params.getNextWorkRequired (s.chainFrom p)).isSome = true := by
  have hlen := length_chainFrom T hp
  obtain ⟨rest, hchain⟩ := chainFrom_head s p
  have hh : s.height p = (s.node p).nHeight := rfl
  rw [hchain] at hlen ⊢
  rw [PowParams.getNextWorkRequired]
  split_ifs with h₁ h₂ h₃
  · rw [PowParams.getNextWorkRequiredOld]
    simp only
    generalize (params.nPowTargetTimespan / params.nPowTargetSpacing).toNat = interval
    split_ifs with hmod hback
    · rfl
    · -- An interval back there is a block, the height being two intervals less one at least.
      obtain ⟨k, hk⟩ := Nat.dvd_of_mod_eq_zero (not_not.mp hmod)
      have hk2 : 2 ≤ k := by
        rcases k with _ | _ | k
        · omega
        · omega
        · omega
      have hmul : interval * 2 ≤ interval * k := Nat.mul_le_mul_left interval hk2
      rw [List.getElem?_eq_getElem (by omega)]
      rfl
    · rw [List.getElem?_eq_getElem (by omega)]
      rfl
  · rfl
  · rfl
  · cases rest with
    | nil =>
      rw [List.length_singleton] at hlen
      omega
    | cons first rest => rfl

end

/-! ## Entries -/

namespace HeaderEnv

variable (env : HeaderEnv) (s : ChainState)

/-- The entry has the work that its parent requires. -/
def Required (p : Ptr) : Prop :=
  ∃ q, s.parent p = some q ∧
    env.pow.getNextWorkRequired (s.chainFrom q) = some (s.node p).nBits

/-- The hash of the entry is listed as a checkpoint. -/
def Checkpointed (p : Ptr) : Prop :=
  ∃ checkpoint ∈ env.checkpoints.mapCheckpoints, checkpoint.2 = (s.node p).phashBlock

/-- A header that is not known has the required work, where this is not checked while checkpoints are
off. -/
def WorkOk (call : Call) (s : ChainState) : Prop :=
  env.fCheckpointsEnabled = true ∨
    ∀ q, s.find (call.block.getHash env.hash) = none → s.find call.block.hashPrevBlock = some q →
      s.height q + 1 ≤ env.checkpoints.getTotalBlocksEstimate →
        env.pow.getNextWorkRequired (s.chainFrom q) = some call.block.nBits

/-- Every block on the way to the entry has the required work, or a checkpoint is on top of it. -/
def WorkKept (p : Ptr) : Prop :=
  ∀ a, s.Anc a p → a ≠ 0 →
    env.Required s a ∨ ∃ c, s.Known c ∧ env.Checkpointed s c ∧ s.Anc a c

/-- The checkpoints are on the way to the entry. -/
def LockedIn (p : Ptr) : Prop :=
  ∀ checkpoint ∈ env.checkpoints.mapCheckpoints,
    ∃ a, s.Anc a p ∧ s.height a = checkpoint.1 ∧ (s.node a).phashBlock = checkpoint.2

/-- A checkpoint at the height 0 is the genesis block. -/
def GenesisListed : Prop :=
  ∀ hash, env.checkpoints.mapCheckpoints.lookup 0 = some hash → hash = env.hashGenesisBlock

end HeaderEnv

/-- A tree of entries with the genesis block at the address 0. -/
structure HeaderTree (env : HeaderEnv) (s : ChainState) : Prop where
  tree : s.Tree
  genesis : s.Known 0 ∧ (s.node 0).phashBlock = env.hashGenesisBlock ∧ s.height 0 = 0

/-- What calls of `AcceptBlockHeader` maintain. -/
structure HeadersOk (env : HeaderEnv) (s : ChainState) : Prop extends HeaderTree env s where
  root : ∀ p, s.Known p → s.parent p = none → p = 0
  work : ∀ p q, s.Known p → s.parent p = some q →
    env.fCheckpointsEnabled = false ∨ env.checkpoints.getTotalBlocksEstimate < s.height p →
      env.Required s p
  locked : ∀ p q, s.Known p → s.parent p = some q → env.fCheckpointsEnabled = true →
    env.checkpoints.checkBlock (s.height p) (s.node p).phashBlock = true

section

variable {env : HeaderEnv} {s s' : ChainState} {p q : Ptr} {block : CBlockHeader}

open HeaderEnv ChainState

theorem ChainState.Added.required {pnew : Ptr} (A : s.Added s' pnew) (T : s.Tree)
    (hp : s.Known p) (h : env.Required s p) : env.Required s' p := by
  obtain ⟨q, hq, hwork⟩ := h
  have hkq : s.Known q := T.graded.closed p q hp hq
  refine ⟨q, (A.parent_eq hp).trans hq, ?_⟩
  rw [A.chainFrom T hkq, A.node p hp]
  exact hwork

/-- The checks that an accepted header has passed. -/
theorem contextualCheckBlockHeader_true
    (h : env.contextualCheckBlockHeader s block (some q) = some true)
    (hother : block.getHash env.hash ≠ env.hashGenesisBlock) :
    (env.checkpoints.getTotalBlocksEstimate < s.height q + 1 →
      env.pow.getNextWorkRequired (s.chainFrom q) = some block.nBits) ∧
    (env.fCheckpointsEnabled = true →
      env.checkpoints.checkBlock (s.height q + 1) (block.getHash env.hash) = true) := by
  rw [contextualCheckBlockHeader, if_neg hother] at h
  obtain ⟨work, hwork, hchecks⟩ := Option.map_eq_some_iff.mp h
  simp only [Bool.and_eq_true, Bool.or_eq_true, Bool.not_eq_true'] at hchecks
  obtain ⟨⟨⟨hok, -⟩, hcheckpoints⟩, -⟩ := hchecks
  subst hok
  refine ⟨fun hlt => ?_, fun hon => ?_⟩
  · rw [if_pos (show _ < (s.node q).nHeight + 1 from hlt)] at hwork
    obtain ⟨nBits, hnBits, heq⟩ := Option.map_eq_some_iff.mp hwork
    rw [hnBits, beq_iff_eq.mp heq]
  · rcases hcheckpoints with hoff | hlocked
    · rw [hon] at hoff
      cases hoff
    · exact hlocked.1

theorem HeaderTree.add (h : HeaderTree env s) {pnew : Ptr} (A : s.Added s' pnew) : HeaderTree env s' := by
  obtain ⟨hk, hhash, hh⟩ := h.genesis
  refine ⟨A.tree h.tree, ?_⟩
  rw [A.node 0 hk, A.height_eq hk]
  exact ⟨A.known.mpr (.inl hk), hhash, hh⟩

/-- The entry of a header that passed its checks. -/
theorem HeadersOk.add (h : HeadersOk env s) {pnew : Ptr} (hnew : ¬ s.Known pnew)
    (hq : s.find block.hashPrevBlock = some q)
    (hwork : env.fCheckpointsEnabled = false ∨
      env.checkpoints.getTotalBlocksEstimate < s.height q + 1 →
        env.pow.getNextWorkRequired (s.chainFrom q) = some block.nBits)
    (hlocked : env.fCheckpointsEnabled = true →
      env.checkpoints.checkBlock (s.height q + 1) (block.getHash env.hash) = true) :
    HeadersOk env (s.addEntry (block.getHash env.hash) block pnew) := by
  obtain ⟨s', hs'⟩ : ∃ s', s' = s.addEntry (block.getHash env.hash) block pnew := ⟨_, rfl⟩
  have A : s.Added s' pnew := hs' ▸ added_addEntry _ block hnew
  have hnode : s'.node pnew = s.newEntry (block.getHash env.hash) block := by
    rw [hs']
    exact node_modify_self (s := s) fun _ => s.newEntry _ block
  have hparent : s'.parent pnew = some q := by
    rw [ChainState.parent, hnode]
    exact hq
  obtain ⟨hkq, hheight⟩ := A.parent q hparent
  rw [← hs']
  have hother : ∀ {p}, s.Known p → p ≠ pnew := fun hp heq => hnew (heq ▸ hp)
  refine ⟨h.toHeaderTree.add A, fun p hp hroot => ?_, fun p r hp hr hcond => ?_,
    fun p r hp hr hon => ?_⟩
  · rcases A.known.mp hp with hp | rfl
    · exact h.root p hp ((A.parent_eq hp).symm.trans hroot)
    · rw [hparent] at hroot
      cases hroot
  · rcases A.known.mp hp with hp | rfl
    · rw [A.height_eq hp] at hcond
      exact A.required h.tree hp (h.work p r hp ((A.parent_eq hp).symm.trans hr) hcond)
    · refine ⟨q, hparent, ?_⟩
      rw [A.chainFrom h.tree hkq, hnode]
      rw [hheight] at hcond
      exact hwork hcond
  · rcases A.known.mp hp with hp | rfl
    · rw [A.height_eq hp, A.node p hp]
      exact h.locked p r hp ((A.parent_eq hp).symm.trans hr) hon
    · rw [hheight, hnode]
      exact hlocked hon

/-! ## Calls -/

theorem contextualCheckBlockHeader_isSome (env : HeaderEnv) (T : s.Tree) (hq : s.Known q) (block : CBlockHeader) :
    (env.contextualCheckBlockHeader s block (some q)).isSome = true := by
  obtain ⟨nBits, hnBits⟩ := Option.isSome_iff_exists.mp (getNextWorkRequired_isSome env.pow T hq)
  unfold contextualCheckBlockHeader
  simp only [hnBits, Option.map_some]
  split_ifs
  · rfl
  · rfl
  · rfl

/-- The state after a call of `AcceptBlockHeader`. -/
inductive Accepts (env : HeaderEnv) (s : ChainState) (block : CBlockHeader) (pnew : Ptr) :
    ChainState → Prop
  | same : Accepts env s block pnew s
  | added {q : Ptr} (hnew : s.find (block.getHash env.hash) = none)
    (hq : s.find block.hashPrevBlock = some q)
    (hother : block.getHash env.hash ≠ env.hashGenesisBlock)
    (hchecks : env.contextualCheckBlockHeader s block (some q) = some true) :
    Accepts env s block pnew (s.addEntry (block.getHash env.hash) block pnew)

/-- No assertion of `AcceptBlockHeader` fails. -/
theorem acceptBlockHeader_isSome (h : HeaderTree env s) (block : CBlockHeader) (nAdjustedTime : Int)
    (pnew : Ptr) :
    ∃ p s', env.acceptBlockHeader s block nAdjustedTime pnew = some (p, s') ∧
      Accepts env s block pnew s' := by
  unfold HeaderEnv.acceptBlockHeader
  cases hfind : s.find (block.getHash env.hash) with
  | some p =>
    simp only [hfind]
    exact ⟨_, s, rfl, .same⟩
  | none =>
    have hother : block.getHash env.hash ≠ env.hashGenesisBlock := fun heq =>
      find_eq_none hfind h.genesis.1 (h.genesis.2.1.trans heq.symm)
    simp only [hfind, if_neg hother]
    split_ifs with h₁ h₂ h₃
    · exact ⟨none, s, rfl, .same⟩
    · exact ⟨none, s, rfl, .same⟩
    · exact ⟨none, s, rfl, .same⟩
    · obtain ⟨q, hq⟩ := Option.ne_none_iff_exists'.mp fun hnone => h₂ ⟨hother, hnone⟩
      obtain ⟨ok, hok⟩ := Option.isSome_iff_exists.mp
        (contextualCheckBlockHeader_isSome env h.tree (find_known hq) block)
      simp only [hq, hok, Option.map_some]
      cases ok with
      | false => exact ⟨none, s, rfl, .same⟩
      | true =>
        refine ⟨some pnew, _, ?_, .added hfind hq hother hok⟩
        rw [if_pos rfl, addToBlockIndex, hfind]

/-- What one call does. -/
theorem HeaderTree.accepts (h : HeaderTree env s) {call : Call} (hstep : env.step call s = some s') :
    ¬ s.Known call.pindexNew ∧ Accepts env s call.block call.pindexNew s' := by
  unfold HeaderEnv.step at hstep
  split_ifs at hstep with hnew
  obtain ⟨p, t, hr, hadd⟩ :=
    acceptBlockHeader_isSome h call.block call.nAdjustedTime call.pindexNew
  rw [hr] at hstep
  cases hstep
  exact ⟨hnew, hadd⟩

theorem HeaderTree.step (h : HeaderTree env s) {call : Call} (hstep : env.step call s = some s') :
    HeaderTree env s' := by
  obtain ⟨hnew, hadd⟩ := h.accepts hstep
  cases hadd with
  | same => exact h
  | added _ _ _ _ => exact h.add (added_addEntry _ call.block hnew)

theorem headersOk_init (env : HeaderEnv) : HeadersOk env env.init := by
  have A : ChainState.empty.Added env.init 0 := added_addEntry _ _ List.not_mem_nil
  have hknown : ∀ {p}, env.init.Known p → p = 0 := fun hp =>
    (A.known.mp hp).resolve_left List.not_mem_nil
  have hparent : env.init.parent 0 = none := rfl
  refine ⟨⟨A.tree index_empty.tree, A.known.mpr (.inr rfl), rfl, rfl⟩, fun p hp _ => hknown hp,
    fun p q hp hq => ?_, fun p q hp hq => ?_⟩
  · rw [hknown hp, hparent] at hq
    cases hq
  · rw [hknown hp, hparent] at hq
    cases hq

theorem HeadersOk.step (h : HeadersOk env s) {call : Call} (hok : env.WorkOk call s)
    (hstep : env.step call s = some s') : HeadersOk env s' := by
  obtain ⟨hnew, hadd⟩ := h.toHeaderTree.accepts hstep
  cases hadd with
  | same => exact h
  | @added q hfind hq hother hchecks =>
    obtain ⟨hwork, hlocked⟩ := contextualCheckBlockHeader_true hchecks hother
    refine h.add hnew hq (fun hcond => ?_) hlocked
    rcases Nat.lt_or_ge env.checkpoints.getTotalBlocksEstimate (s.height q + 1) with hlt | hge
    · exact hwork hlt
    · rcases hcond with hoff | hlt
      · rcases hok with hon | hunchecked
        · rw [hoff] at hon
          cases hon
        · exact hunchecked q hfind hq hge
      · exact hwork hlt

/-! ## Checkpoints -/

theorem lookup_checkpoint (data : CCheckpointData) {checkpoint : Nat × UInt256}
    (h : checkpoint ∈ data.mapCheckpoints) :
    data.mapCheckpoints.lookup checkpoint.1 = some checkpoint.2 := by
  obtain ⟨l, sorted⟩ := data
  induction l with
  | nil => cases h
  | cons first l ih =>
    obtain ⟨hfirst, hl⟩ := List.pairwise_cons.mp sorted
    rw [List.lookup_cons]
    rcases List.mem_cons.mp h with rfl | h
    · rw [beq_self_eq_true]
    · rw [beq_false_of_ne (Nat.ne_of_gt (hfirst checkpoint h))]
      exact ih hl h

theorem le_getTotalBlocksEstimate (data : CCheckpointData) {checkpoint : Nat × UInt256}
    (h : checkpoint ∈ data.mapCheckpoints) : checkpoint.1 ≤ data.getTotalBlocksEstimate := by
  obtain ⟨l, last, heq⟩ := List.eq_nil_or_concat' data.mapCheckpoints |>.resolve_left
    (List.ne_nil_of_mem h)
  have hsorted := data.sorted
  rw [CCheckpointData.getTotalBlocksEstimate, heq, List.getLast?_concat]
  rw [heq] at h hsorted
  rcases List.mem_append.mp h with h | h
  · exact Nat.le_of_lt ((List.pairwise_append.mp hsorted).2.2 checkpoint h last
      (List.mem_singleton_self last))
  · rw [List.mem_singleton.mp h]

theorem lastCheckpoint (data : CCheckpointData) (h : 0 < data.getTotalBlocksEstimate) :
    ∃ checkpoint ∈ data.mapCheckpoints, checkpoint.1 = data.getTotalBlocksEstimate := by
  unfold CCheckpointData.getTotalBlocksEstimate at h ⊢
  cases hlast : data.mapCheckpoints.getLast? with
  | none =>
    rw [hlast] at h
    cases h
  | some last => exact ⟨last, List.mem_of_getLast? hlast, rfl⟩

/-- With checkpoints on, an entry at the height of a checkpoint has its hash. -/
theorem HeadersOk.checkpoint (h : HeadersOk env s) (hon : env.fCheckpointsEnabled = true)
    (hp : s.Known p) (hpos : 0 < s.height p) {checkpoint : Nat × UInt256}
    (hmem : checkpoint ∈ env.checkpoints.mapCheckpoints) (hheight : s.height p = checkpoint.1) :
    (s.node p).phashBlock = checkpoint.2 := by
  obtain ⟨q, hq⟩ := h.tree.graded.parent_of_pos hp hpos
  have hlocked := h.locked p q hp hq hon
  rw [CCheckpointData.checkBlock, hheight, lookup_checkpoint _ hmem] at hlocked
  exact beq_iff_eq.mp hlocked

/-- The ancestor of an entry at a height that is not above its own. -/
theorem HeadersOk.ancestor (h : HeadersOk env s) (hp : s.Known p) {n : Nat} (hn : n ≤ s.height p) :
    ∃ a, s.Anc a p ∧ s.Known a ∧ s.height a = n := by
  obtain ⟨a, -, hanc, hheight⟩ := h.tree.graded.up_spec (s.height p - n) hp (by omega)
  exact ⟨a, hanc, h.tree.graded.anc_mem hanc hp, by omega⟩

end

/-- Above the last checkpoint no required work is skipped, in any run in which checkpoints are on or
the headers up to the last checkpoint have the work that is not checked. With checkpoints on, the
checkpoints are on the way to a block above them, where the one at the height 0 is right. -/
theorem headers_work (env : HeaderEnv) (s : ChainState)
    (hs : Reachable (fun s => s = env.init) env.step env.WorkOk s) (p : Ptr) (hp : s.Known p)
    (habove : env.checkpoints.getTotalBlocksEstimate < s.height p) :
    env.WorkKept s p ∧
      (env.fCheckpointsEnabled = true → (env.LockedIn s p ↔ env.GenesisListed)) := by
  have h : HeadersOk env s := hs.invariant
    (fun t (ht : t = env.init) => ht ▸ headersOk_init env) fun _ _ _ ht hok hstep => ht.step hok hstep
  have hzero : ∀ {a}, s.Known a → s.height a = 0 → a = 0 := fun {a} hka hheight => by
    refine h.root a hka ?_
    cases hroot : s.parent a with
    | none => rfl
    | some q =>
      have := h.tree.graded.child a q hka hroot
      omega
  refine ⟨fun a ha hne => ?_, fun hon => ⟨fun hlocked hash hlookup => ?_,
    fun hlisted checkpoint hmem => ?_⟩⟩
  · have hka := h.tree.graded.anc_mem ha hp
    have hpos : 0 < s.height a := Nat.pos_of_ne_zero fun hheight => hne (hzero hka hheight)
    obtain ⟨q, hq⟩ := h.tree.graded.parent_of_pos hka hpos
    cases hon : env.fCheckpointsEnabled with
    | false => exact .inl (h.work a q hka hq (.inl hon))
    | true =>
      rcases Nat.lt_or_ge env.checkpoints.getTotalBlocksEstimate (s.height a) with hlt | hge
      · exact .inl (h.work a q hka hq (.inr hlt))
      · -- The ancestor at the last checkpoint is locked in, and `a` is below it.
        obtain ⟨c, hc, hkc, hheight⟩ := h.ancestor hp (Nat.le_of_lt habove)
        obtain ⟨checkpoint, hmem, hlast⟩ :=
          lastCheckpoint env.checkpoints (Nat.lt_of_lt_of_le hpos hge)
        have hhash := h.checkpoint hon hkc (by omega) hmem (hheight.trans hlast.symm)
        refine .inr ⟨c, hkc, ⟨checkpoint, hmem, hhash.symm⟩, ?_⟩
        exact h.tree.graded.comparable ha hc hp (hheight ▸ hge)
  · obtain ⟨a, ha, hheight, hhash⟩ := hlocked (0, hash) (Assoc.mem_of_lookup hlookup)
    have hhash : (s.node a).phashBlock = hash := hhash
    rw [← hhash, hzero (h.tree.graded.anc_mem ha hp) hheight, h.genesis.2.1]
  · have hle := le_getTotalBlocksEstimate env.checkpoints hmem
    obtain ⟨a, ha, hka, hheight⟩ := h.ancestor hp (Nat.le_of_lt (Nat.lt_of_le_of_lt hle habove))
    refine ⟨a, ha, hheight, ?_⟩
    rcases Nat.eq_zero_or_pos (s.height a) with hh | hpos
    · have hlookup := lookup_checkpoint env.checkpoints hmem
      rw [← hheight, hh] at hlookup
      rw [hzero hka hh, h.genesis.2.1, hlisted _ hlookup]
    · exact h.checkpoint hon hka hpos hmem hheight

/-! ## Samples -/

/-- The genesis block of the main and the test network. -/
def genesisHeader : CBlockHeader where
  nVersion := 1
  hashPrevBlock := 0
  hashMerkleRoot := 0xd849db99a14164f4b4c8ad6d2d8d7e2b1ba7f89963e9f4bf9fad5ff1a4754429
  nTime := 1392757140
  nBits := 0x1e0ffff0
  nNonce := 2084565393

/-- Its hash. -/
def genesisHash : UInt256 := 0x91ec5f25ee9a0ffa1af7d4da4db9a552228dd2dc77cdb15b738be4e1f55f30ee

/-- The parameters of the main and the test network with some checkpoints; the hash of any other
header is its nonce. -/
def sampleHeaders (checkpoints : CCheckpointData) (fCheckpointsEnabled : Bool) : HeaderEnv where
  hash bytes := if bytes = genesisHeader.bytes then genesisHash else Fin.ofNat _ (leNat (bytes.drop 76))
  powHash _ := 0
  genesis := genesisHeader
  pow := ⟨2 ^ 236 - 1, 150, 302400, 90, 1800⟩
  checkpoints := checkpoints
  fCheckpointsEnabled := fCheckpointsEnabled

/-- A header on top of a block. -/
def sampleCall (hashPrevBlock : UInt256) (nBits : UInt32) (n : Nat) : HeaderEnv.Call where
  block := ⟨2, hashPrevBlock, 0, 1392757140 + UInt32.ofNat n, nBits, UInt32.ofNat n⟩
  nAdjustedTime := 1392757140 + n
  pindexNew := n

/-- The checkpoints of the test network. -/
def testnetCheckpoints : CCheckpointData where
  mapCheckpoints := [(0, 0x2d6329aeff3ff6786635afd5d6715b24667329cfda199bd7a1d6626d81a4573c)]
  sorted := by simp

/-- The genesis block and a block at the height 1. -/
def sampleCheckpoints : CCheckpointData where
  mapCheckpoints := [(0, genesisHash), (1, 1)]
  sorted := by simp

/-- The genesis block with the blocks of some calls on top of each other. -/
def chainOf (calls : List HeaderEnv.Call) : ChainState :=
  calls.foldl (fun s call => s.addEntry (Fin.ofNat _ call.pindexNew) call.block call.pindexNew)
    (sampleHeaders sampleCheckpoints true).init

/-- Two blocks, the first of which is a checkpoint. Its work is not the required one. -/
def lockedCalls : List HeaderEnv.Call :=
  [sampleCall genesisHash 0x1e0fffff 1, sampleCall 1 0x1e0fffff 2]

theorem lockedCalls_run : Framework.run (sampleHeaders sampleCheckpoints true).step lockedCalls
    (sampleHeaders sampleCheckpoints true).init = some (chainOf lockedCalls) := rfl

theorem lockedCalls_work :
    (sampleHeaders sampleCheckpoints true).WorkKept (chainOf lockedCalls) 2 := by
  refine (headers_work (sampleHeaders sampleCheckpoints true) _ ?_ 2 ?_ ?_).1
  · exact Reachable.run (.init rfl) (fun _ _ _ _ _ _ => .inl rfl) lockedCalls_run
  · exact List.mem_of_getElem? (i := 2) rfl
  · exact Nat.lt_succ_self 1

/-- The same with checkpoints off and another block at the height of the checkpoint. -/
def uncheckedCalls : List HeaderEnv.Call :=
  [sampleCall genesisHash 0x1e0fffff 2, sampleCall 2 0x1e0fffff 3]

/-- A block on top of the genesis block, with the required work. -/
def testnetCalls : List HeaderEnv.Call := [sampleCall genesisHash 0x1e0ffff0 1]

/-- The work of the first block is skipped; and in the test network, with checkpoints on, the genesis
block is not the one listed. -/
theorem uncheckedCalls_skip :
    (∃ s, Framework.run (sampleHeaders sampleCheckpoints false).step uncheckedCalls
      (sampleHeaders sampleCheckpoints false).init = some s ∧ s.Known 3 ∧
      sampleCheckpoints.getTotalBlocksEstimate < s.height 3 ∧
      ¬ (sampleHeaders sampleCheckpoints false).WorkKept s 3) ∧
    ∃ s, Framework.run (sampleHeaders testnetCheckpoints true).step testnetCalls
      (sampleHeaders testnetCheckpoints true).init = some s ∧ s.Known 1 ∧
      testnetCheckpoints.getTotalBlocksEstimate < s.height 1 ∧
      ¬ (sampleHeaders testnetCheckpoints true).LockedIn s 1 := by
  refine ⟨⟨chainOf uncheckedCalls, rfl, ?_, ?_, fun h => ?_⟩,
    chainOf testnetCalls, rfl, ?_, ?_, fun h => ?_⟩
  · exact List.mem_of_getElem? (i := 2) rfl
  · exact Nat.lt_succ_self 1
  · rcases h 2 (.step rfl .refl) (by decide) with ⟨q, hq, hwork⟩ | ⟨c, hc, hlisted, hanc⟩
    · cases hq
      exact absurd hwork (by decide)
    · have hc : c ∈ [0, 2, 3] := hc
      obtain ⟨checkpoint, hmem, hhash⟩ := hlisted
      have hmem : checkpoint.2 ∈ [genesisHash, 1] := List.mem_map_of_mem (f := Prod.snd) hmem
      rw [hhash] at hmem
      have hc0 : c = 0 := by
        rcases List.mem_cons.mp hc with rfl | hc
        · rfl
        · exact absurd hmem (by
            rcases List.mem_cons.mp hc with rfl | hc
            · decide
            · rw [List.mem_singleton.mp hc]
              decide)
      rw [hc0] at hanc
      exact absurd (hanc.of_root rfl) (by decide)
  · exact List.mem_of_getElem? (i := 1) rfl
  · exact Nat.lt_succ_self 0
  · obtain ⟨a, ha, hheight, hhash⟩ := h _ (List.mem_singleton_self _)
    rcases ha.eq_or_parent with rfl | ⟨q, hq, ha⟩
    · cases hheight
    · cases hq
      rw [ha.of_root rfl] at hhash
      exact absurd hhash (by decide)

end GC
