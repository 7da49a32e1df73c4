import GameCredits.Proof.BestChain

/-!
# A node that follows the chain with the most work

Headers and blocks arrive in any order, and `ActivateBestChain` is called at any time. No chain has
`2 ^ 32` transactions, and the work grows from parent to child.

* `Settled`: the invariant between two operations; all of them keep it (`settled_nodeStep`).
* `activateBestChain_runs`: in every state that is reached, `ActivateBestChain` ends, no assertion fails,
  and the tip has the most work of all blocks that could be connected.
-/

namespace GC

open Framework

namespace ChainState

variable {s s' : ChainState} {p q x m : Ptr} {g : UInt256} {connectBlock : Ptr → Verdict}

/-- The totals of the chains fit: the transactions are fewer than `2 ^ 32`, and the work grows. -/
structure Fits (s : ChainState) : Prop where
  txs : ∀ p, s.Known p → s.pathTx p < 2 ^ 32
  work : ∀ p q, s.Known p → s.parent p = some q → (s.node q).nChainWork < (s.node p).nChainWork

/-- The invariant between two operations. -/
structure Settled (g : UInt256) (connectBlock : Ptr → Verdict) (s : ChainState) : Prop where
  node : s.NodeOk g connectBlock
  listed : s.Listed s.tip
  raised : s.Raised

theorem settled_empty : empty.Settled g connectBlock where
  node :=
    { index := index_empty
      root := fun _ h => by cases h
      distinct := fun _ _ h => by cases h
      work := fun _ _ h => by cases h
      filed :=
        { linking := linking_empty
          fits := fun _ h => by cases h
          tree := fun _ h => by cases h
          fresh := fun _ h => by cases h
          nodup := List.nodup_nil }
      data := fun _ h => by cases h
      verdict := fun _ h => by cases h
      flags := fun _ h => by cases h
      levels :=
        { sequence := fun _ h => by cases h
          undo := fun _ h => by cases h
          txs := fun _ h => by cases h
          scripts := fun _ _ h => by cases h
          active := fun p h => by
            have := contains_getElem.mp h
            cases this }
      active := fun p h => by
        have := contains_getElem.mp h
        cases this }
  listed := ⟨List.Pairwise.nil, (fun _ h => by cases h), fun _ h => by cases h⟩
  raised := fun _ h => by cases h

/-- The tip is the best tip that there has been. -/
theorem Settled.round (h : s.Settled g connectBlock) : s.Round g connectBlock s.tip where
  node := h.node
  listed := h.listed
  ref t ht := by
    have I := h.node.index
    have hact : ∀ a, s.Anc a t → _ := fun a ha =>
      h.node.active a ((contains_iff I.tree I.path).mpr ⟨t, ht, ha⟩)
    exact ⟨tip_known I.path ht, (hact t .refl).1, fun a ha => (hact a ha).2.2.1⟩
  tip x hx := ⟨x, hx, (totalLess s).irrefl x⟩
  raised := h.raised

theorem Settled.tip_linked (h : s.Settled g connectBlock) : ∀ t, s.tip = some t →
    (s.node t).nChainTx ≠ 0 := fun t ht => (h.round.ref t ht).2.1

theorem Finished.settled (h : Finished g connectBlock s s') : s'.Settled g connectBlock :=
  ⟨h.node, h.listed, h.raised⟩

/-- `ActivateBestChain`. -/
theorem Settled.activate (hv : ∀ p, connectBlock p ≠ .invalid true) (h : s.Settled g connectBlock) :
    ∃ s', s.activateBestChain connectBlock s.rounds = .returns (true, s') ∧ Finished g connectBlock s s' := by
  apply h.round.activate hv
  have hu : s.unfailed ≤ s.mapBlockIndex.length := List.countP_le_length
  have ha := above_le s
  have hmul := Nat.mul_le_mul_right (s.mapBlockIndex.length + 1) hu
  unfold rounds
  rw [Nat.succ_mul]
  omega

/-! ## A header arrives -/

theorem Levels.added (h : s.Levels) (A : s.Added s' p) (I : s.Index)
    (hseq : (s'.node p).nSequenceId = 0) : s'.Levels where
  sequence x hx hc := by
    rcases A.known.mp hx with hk | rfl
    · rw [A.node x hk] at hc ⊢
      exact h.sequence x hk hc
    · exact hseq
  undo x hx hu := by
    rcases A.known.mp hx with hk | rfl
    · rw [A.status_eq hk] at hu
      rw [A.node x hk]
      exact h.undo x hk hu
    · rw [A.haveUndo] at hu
      cases hu
  txs x hx := by
    rcases A.known.mp hx with hk | rfl
    · rw [A.status_eq hk, A.node x hk]
      exact h.txs x hk
    · rw [A.valid, A.nTx]
      decide
  scripts x q hx hq hv := by
    rcases A.known.mp hx with hk | rfl
    · rw [A.parent_eq hk] at hq
      have hqk := I.tree.graded.closed x q hk hq
      rw [A.status_eq hk] at hv ⊢
      rw [A.parent_eq hqk, A.status_eq hqk]
      exact h.scripts x q hk hq hv
    · rw [A.valid] at hv
      exact absurd hv (by decide)
  active x hx hn := by
    have hget := contains_getElem.mp hx
    rw [A.chain] at hget
    have hk := I.path.known _ _ hget
    rw [A.height_eq hk] at hget
    rw [A.parent_eq hk] at hn
    rw [A.status_eq hk]
    exact h.active x (contains_getElem.mpr hget) hn

theorem Settled.added (h : s.Settled g connectBlock) (A : s.Added s' p) {hash : UInt256}
    (hhash : (s'.node p).phashBlock = hash) (hseq : (s'.node p).nSequenceId = 0) (hfresh : s.find hash = none)
    (hroot : s'.parent p = none → hash = g) (F : s'.Fits) : s'.Settled g connectBlock := by
  have I := h.node.index
  have T := I.tree
  have hcont : ∀ x, s.Known x → s'.contains x = s.contains x := fun x hx => by
    rw [contains, contains, CChain.contains, CChain.contains, cchain, cchain, A.chain, A.node x hx]
  have hnew : ∀ x, s.Known x → (s'.node x).phashBlock ≠ hash := fun x hx => by
    rw [A.node x hx]
    exact find_eq_none hfresh hx
  have htip : s'.tip = s.tip := congrArg List.getLast? A.chain
  constructor
  case listed =>
    rw [htip]
    exact h.listed.added A I fun t ht => tip_known I.path ht
  case raised =>
    intro x hx
    rw [A.candidates] at hx
    rw [belowTip, htip]
    refine (below_congr ?_ fun t ht => ?_).trans (h.raised x hx)
    · rw [A.node x (I.members x hx)]
    · rw [A.node t (tip_known I.path ht)]
  case node =>
    constructor
    case index => exact A.toIndex I
    case work => exact F.work
    case filed => exact h.node.filed.added A I F.txs
    case flags => exact h.node.flags.added I A
    case levels => exact h.node.levels.added A I hseq
    case root =>
      intro x hx hn
      rcases A.known.mp hx with hk | rfl
      · rw [A.parent_eq hk] at hn
        rw [A.node x hk]
        exact h.node.root x hk hn
      · exact hhash.trans (hroot hn)
    case distinct =>
      intro x y hx hy hxy
      rcases A.known.mp hx with hk | rfl <;> rcases A.known.mp hy with hk' | rfl
      · rw [A.node x hk, A.node y hk'] at hxy
        exact h.node.distinct x y hk hk' hxy
      · exact absurd (hxy.trans hhash) (hnew x hk)
      · exact absurd (hxy.symm.trans hhash) (hnew y hk')
      · rfl
    case data =>
      intro x hx
      rcases A.known.mp hx with hk | rfl
      · rw [A.status_eq hk, A.node x hk]
        exact h.node.data x hk
      · simp [A.haveData, A.nTx]
    case verdict =>
      intro x hx hf
      rcases A.known.mp hx with hk | rfl
      · rw [A.status_eq hk] at hf
        rw [A.node x hk]
        exact h.node.verdict x hk hf
      · exact .inl A.nTx
    case active =>
      intro x hx
      have hk : s.Known x := by
        have hget := contains_getElem.mp hx
        rw [A.chain] at hget
        exact I.path.known _ _ hget
      rw [hcont x hk] at hx
      rw [A.node x hk, A.status_eq hk, A.parent_eq hk]
      exact h.node.active x hx

/-- `AcceptBlockHeader` finds an entry that is not failed or adds one, or changes nothing. -/
theorem acceptBlockHeader_cases {checks : Option Ptr → Bool} {hash : UInt256} {block : CBlockHeader}
    {pindexNew : Ptr} (hnew : ¬ s.Known pindexNew) {r : Option Ptr × ChainState}
    (h : s.acceptBlockHeader g checks hash block pindexNew = r) :
    (r.2 = s ∧ ∀ p, r.1 = some p → s.Known p ∧ (s.status p).failed = false) ∨
      r.1 = some pindexNew ∧ s.Added r.2 pindexNew ∧ s.find hash = none ∧
        (r.2.node pindexNew).phashBlock = hash ∧ (r.2.node pindexNew).nSequenceId = 0 ∧
        (r.2.parent pindexNew = none → hash = g) := by
  subst h
  unfold acceptBlockHeader
  cases hfind : s.find hash with
  | some q =>
    refine .inl ⟨rfl, fun p hp => ?_⟩
    simp only at hp
    split_ifs at hp with hf
    cases hp
    exact ⟨find_known hfind, Bool.eq_false_of_not_eq_true hf⟩
  | none =>
    simp only
    obtain ⟨prev, hprev⟩ : ∃ prev, prev = if hash = g then none else s.find block.hashPrevBlock :=
      ⟨_, rfl⟩
    rw [← hprev]
    split_ifs with hroot hfailed hchecks
    · exact .inl ⟨rfl, fun p hp => by cases hp⟩
    · exact .inl ⟨rfl, fun p hp => by cases hp⟩
    · have hnode : (s.addEntry hash block pindexNew).node pindexNew = s.newEntry hash block :=
        node_modify_self (s := s) fun _ => s.newEntry hash block
      simp only [addToBlockIndex, hfind]
      refine .inr ⟨trivial, added_addEntry hash block hnew, trivial, by rw [hnode]; rfl,
        by rw [hnode]; rfl, fun hn => ?_⟩
      by_contra hne
      refine hroot ⟨hne, ?_⟩
      rw [hprev, if_neg hne]
      rw [parent, hnode] at hn
      exact hn
    · exact .inl ⟨rfl, fun p hp => by cases hp⟩

/-- `AcceptBlockHeader`: the entry that it returns is not failed. -/
theorem Settled.header (h : s.Settled g connectBlock) {checks : Option Ptr → Bool} {hash : UInt256}
    {block : CBlockHeader} {pindexNew : Ptr} (hnew : ¬ s.Known pindexNew) {r : Option Ptr × ChainState}
    (hr : s.acceptBlockHeader g checks hash block pindexNew = r) (F : r.2.Fits) :
    r.2.Settled g connectBlock ∧ ∀ p, r.1 = some p → r.2.Known p ∧ (r.2.status p).failed = false := by
  rcases acceptBlockHeader_cases hnew hr with ⟨hs, hp⟩ | ⟨hp, A, hfind, hhash, hseq, hroot⟩
  · rw [hs]
    exact ⟨h, hp⟩
  · refine ⟨h.added A hhash hseq hfind hroot F, fun p hp' => ?_⟩
    obtain rfl := Option.some.inj (hp.symm.trans hp')
    exact ⟨A.known.mpr (.inr rfl), A.failed⟩

/-! ## A block arrives -/

theorem Settled.reject (h : s.Settled g connectBlock) (hp : s.Known p)
    (hdata : (s.status p).haveData = false) : (s.rejectBlock p).Settled g connectBlock := by
  have hst : ∀ x, (s.rejectBlock p).status x =
      if x = p then { s.status p with failedValid := true } else s.status x := fun x => by
    show (if x = p then _ else s.node x : CBlockIndex).nStatus = _
    split_ifs <;> rfl
  have hsame : ∀ {β : Type} {v : CBlockIndex → β},
      (∀ e, v { e with nStatus := { e.nStatus with failedValid := true } } = v e) →
      Same v s (s.rejectBlock p) := fun hv => same_modify hv
  have hundo : ∀ x, ((s.rejectBlock p).status x).haveUndo = (s.status x).haveUndo :=
    hsame (v := fun e => e.nStatus.haveUndo) fun _ => rfl
  have hvalid : ∀ x, ((s.rejectBlock p).status x).valid = (s.status x).valid :=
    hsame (v := fun e => e.nStatus.valid) fun _ => rfl
  have hp0 : (s.node p).nTx = 0 := by
    by_contra hne
    rw [(h.node.data p hp).mpr hne] at hdata
    cases hdata
  have hcont : s.contains p = false := by
    by_contra hc
    obtain ⟨hlinked, -⟩ := h.node.active p (Bool.eq_true_of_not_eq_false hc)
    exact (h.node.filed.chain p hp hlinked).1 hp0
  have hmono : ∀ x, (s.status x).failed = true → ((s.rejectBlock p).status x).failed = true :=
      fun x hx => by
    rw [hst]
    split_ifs
    · rfl
    · exact hx
  have k := kept_rejectBlock s p
  refine ⟨h.node.flag (h.node.index.kept k) k.same k.chain (hsame fun _ => rfl) (hsame fun _ => rfl)
    (hsame fun _ => rfl) (fun x hx => ?_) (fun x => ?_) rfl hmono (fun x hx hf => ?_)
    (fun x hx hf => ?_) (h.node.flags.invalid p) (h.node.levels.same k.same (fun x hx => ?_)
    (hsame fun _ => rfl) (hsame fun _ => rfl) (hsame fun _ => rfl) hundo hvalid), ?_, fun x hx => ?_⟩
  · exact (hundo x).trans hx
  · exact Nat.le_of_eq (hvalid x).symm
  · rw [hst] at hf
    split_ifs at hf with hxp
    · exact .inr (by rw [hxp]; exact ⟨hcont, .inr hp0⟩)
    · exact .inl hf
  · rw [hst] at hf
    split_ifs at hf with hxp
    · exact .inr (.inl (by rw [hxp]; exact hp0))
    · exact .inl hf
  · rwa [← k.same.contains k.chain]
  · exact h.listed.shrink k.same (hsame fun _ => rfl) (hsame fun _ => rfl) hmono (.refl _)
      fun x hx _ _ => hx
  · have hkey : Same CBlockIndex.key s (s.rejectBlock p) := hsame fun _ => rfl
    exact (below_congr (r := s.tip) (hkey x) fun t _ => hkey t).trans (h.raised x hx)

theorem nTx_received (s : ChainState) (p : Ptr) (nTx : Nat) (pos : DiskBlockPos) (x : Ptr) :
    ((s.receivedBlockTransactions p nTx pos).node x).nTx = if x = p then nTx else (s.node x).nTx := by
  have hmarked : Same CBlockIndex.nTx (s.markReceived p nTx pos) (s.receivedBlockTransactions p nTx pos) :=
    same_marked_received (fun _ _ => same_assignLink fun _ _ _ => rfl) nTx pos
  rw [hmarked x, markReceived, node_modify]
  split_ifs <;> rfl

theorem Levels.received (h : s.Levels) (F : s.Filed []) (I : s.Index) (hp : s.Known p)
    (hp0 : (s.node p).nTx = 0) (hf : (s.status p).failed = false) {nTx : Nat} (hpos : 0 < nTx)
    (pos : DiskBlockPos)
    (hfits : ∀ x, s.Known x → (s.receivedBlockTransactions p nTx pos).pathTx x < 2 ^ 32) :
    (s.receivedBlockTransactions p nTx pos).Levels := by
  have k := I.received hp nTx pos
  have hs := k.same
  have hc0 : (s.node p).nChainTx = 0 := by
    by_contra hne
    exact (F.chain p hp hne).1 hp0
  -- the sequence numbers are written when the entries are linked
  have hseq := (F.received_rule I hp hp0 hf hpos pos hfits
    (J := fun t => ∀ x, s.Known x → (t.node x).nChainTx = 0 → (t.node x).nSequenceId = 0)
    (fun x hx hc => ?_) (fun x queue t ht hF hJ y hy hc => ?_) fun t _ _ hJ x hx hc => ?_).2
  · have hundo : ∀ x, ((s.receivedBlockTransactions p nTx pos).status x).haveUndo =
        (s.status x).haveUndo := fun x =>
      (same_modify (v := fun e => e.nStatus.haveUndo) (fun e => BlockStatus.raiseValidity_haveUndo
        { e.nStatus with haveData := true } _) : Same _ s (s.markReceived p nTx pos)).trans
      (same_marked_received (v := fun e => e.nStatus.haveUndo)
        (fun _ _ => same_assignLink fun _ _ _ => rfl) nTx pos) x
    have hmarked : ∀ x, ((s.receivedBlockTransactions p nTx pos).status x).valid =
        ((s.markReceived p nTx pos).status x).valid :=
      same_marked_received (v := fun e => e.nStatus.valid)
        (fun _ _ => same_assignLink fun _ _ _ => rfl) nTx pos
    have hself : ((s.receivedBlockTransactions p nTx pos).status p).valid =
        max (s.status p).valid BLOCK_VALID_TRANSACTIONS := by
      rw [hmarked, status, markReceived, node_modify_self]
      have hf' : ({ (s.node p).nStatus with haveData := true } : BlockStatus).failed = false := hf
      simp only [BlockStatus.raiseValidity, hf', Bool.false_eq_true, if_false]
      rfl
    have hne : ∀ x, x ≠ p → ((s.receivedBlockTransactions p nTx pos).status x).valid =
        (s.status x).valid := fun x hx => by
      rw [hmarked, status, node_markReceived_ne hx]
      rfl
    have hle : ∀ x, (s.status x).valid ≤ ((s.receivedBlockTransactions p nTx pos).status x).valid :=
      fun x => by
        rw [hmarked]
        exact le_status_markReceived s p nTx pos x
    have hlow : (s.status p).valid < BLOCK_VALID_TRANSACTIONS := by
      by_contra hge
      exact (h.txs p hp).mp (by omega) hp0
    constructor
    case sequence =>
      intro x hx
      rw [hs.known] at hx
      exact hseq x hx
    case undo =>
      intro x hx hu
      rw [hs.known] at hx
      rw [hundo] at hu
      rw [nTx_received]
      split_ifs
      · omega
      · exact h.undo x hx hu
    case txs =>
      intro x hx
      rw [hs.known] at hx
      rw [nTx_received]
      by_cases hxp : x = p
      · rw [hxp, hself, if_pos rfl]
        omega
      · rw [hne x hxp, if_neg hxp]
        exact h.txs x hx
    case scripts =>
      intro x q hx hq hv
      rw [hs.known] at hx
      rw [hs.parent] at hq ⊢
      have hxp : x ≠ p := fun hxp => by
        rw [hxp, hself] at hv
        omega
      rw [hne x hxp] at hv ⊢
      exact (h.scripts x q hx hq hv).imp_right fun hq' hn => Nat.le_trans (hq' hn) (hle q)
    case active =>
      intro x hx hn
      rw [hs.contains k.chain] at hx
      rw [hs.parent] at hn
      exact Nat.le_trans (h.active x hx hn) (hle x)
  · by_cases hxp : x = p
    · rw [hxp, markReceived, node_modify_self]
      exact h.sequence p hp hc0
    · rw [node_markReceived_ne hxp] at hc ⊢
      exact h.sequence x hx hc
  · by_cases hyx : y = x
    · obtain ⟨heq, hpath⟩ := hF.linkEntry_total (I.kept ht).tree
      rw [hyx, heq] at hc
      exact absurd hc hpath
    · rw [node_linkEntry_ne hyx] at hc ⊢
      exact hJ y hy hc
  · rw [node_waitForParent] at hc ⊢
    exact hJ x hx hc

theorem Settled.received (h : s.Settled g connectBlock) (hp : s.Known p)
    (hdata : (s.status p).haveData = false) (hf : (s.status p).failed = false) {nTx : Nat}
    (hpos : 0 < nTx) (pos : DiskBlockPos) (F : (s.receivedBlockTransactions p nTx pos).Fits) :
    (s.receivedBlockTransactions p nTx pos).Settled g connectBlock := by
  have I := h.node.index
  have k := I.received hp nTx pos
  have hs := k.same
  have hp0 : (s.node p).nTx = 0 := by
    by_contra hne
    rw [(h.node.data p hp).mpr hne] at hdata
    cases hdata
  have hfits : ∀ x, s.Known x → (s.receivedBlockTransactions p nTx pos).pathTx x < 2 ^ 32 :=
    fun x hx => F.txs x (by rwa [hs.known])
  obtain ⟨hfiled, hlisted, hraised, hchain⟩ :=
    h.node.filed.received h.listed h.raised I h.tip_linked hp hp0 hf hpos pos hfits
  have hmarked : ∀ {β : Type} {v : CBlockIndex → β},
      (∀ (e : CBlockIndex) (n m : Nat), v { e with nChainTx := n, nSequenceId := m } = v e) →
      Same v (s.markReceived p nTx pos) (s.receivedBlockTransactions p nTx pos) := fun hv =>
    same_marked_received (fun _ _ => same_assignLink hv) nTx pos
  have htx := nTx_received s p nTx pos
  have hhave : ∀ x, ((s.receivedBlockTransactions p nTx pos).status x).haveData =
      (decide (x = p) || (s.status x).haveData) := fun x => by
    refine (hmarked (v := fun e => e.nStatus.haveData) (fun _ _ _ => rfl) x).trans ?_
    rw [markReceived, node_modify]
    by_cases hxp : x = p <;> simp [hxp, status]
  have hsame : ∀ {β : Type} {v : BlockStatus → β},
      (∀ st : BlockStatus, v ({ st with haveData := true }.raiseValidity BLOCK_VALID_TRANSACTIONS) = v st) →
      ∀ x, v ((s.receivedBlockTransactions p nTx pos).status x) = v (s.status x) := fun {β v} hv x =>
    (same_modify (v := fun e => v e.nStatus) (fun e => hv e.nStatus) : Same _ s (s.markReceived p nTx pos)).trans
      (hmarked (v := fun e => v e.nStatus) fun _ _ _ => rfl) x
  have hfailed := hsame (v := BlockStatus.failed) fun st => BlockStatus.raiseValidity_failed _ _
  have hvalid := hsame (v := BlockStatus.failedValid) fun st => BlockStatus.raiseValidity_failedValid _ _
  have hundo := hsame (v := BlockStatus.haveUndo) fun st => BlockStatus.raiseValidity_haveUndo _ _
  have hhash : ∀ x, ((s.receivedBlockTransactions p nTx pos).node x).phashBlock = (s.node x).phashBlock :=
    fun x => congrArg Prod.fst (hs.place x)
  constructor
  case listed => exact hlisted
  case raised => exact hraised
  case node =>
    constructor
    case index => exact I.kept k
    case levels => exact h.node.levels.received h.node.filed I hp hp0 hf hpos pos hfits
    case work => exact F.work
    case filed => exact hfiled
    case root =>
      intro x hx hn
      rw [hs.known] at hx
      rw [hs.parent] at hn
      rw [hhash]
      exact h.node.root x hx hn
    case distinct =>
      intro x y hx hy hxy
      rw [hs.known] at hx hy
      rw [hhash, hhash] at hxy
      exact h.node.distinct x y hx hy hxy
    case data =>
      intro x hx
      rw [hs.known] at hx
      rw [hhave, htx]
      by_cases hxp : x = p
      · simp [hxp]
        omega
      · simpa [hxp] using h.node.data x hx
    case verdict =>
      intro x hx hfv
      rw [hs.known] at hx
      rw [hvalid] at hfv
      have hxp : x ≠ p := fun hxp => by
        rw [hxp] at hfv
        rw [BlockStatus.failed, hfv] at hf
        cases hf
      rw [htx, if_neg hxp]
      exact h.node.verdict x hx hfv
    case flags =>
      refine h.node.flags.same hs fun x => Prod.ext (hvalid x) ?_
      exact hsame (v := BlockStatus.failedChild) (fun st => BlockStatus.raiseValidity_failedChild _ _) x
    case active =>
      intro x hx
      rw [hs.contains k.chain] at hx
      obtain ⟨hc, hfx, hvx, hu⟩ := h.node.active x hx
      rw [hchain x hc, hfailed, hs.parent, hundo]
      exact ⟨hc, hfx, hvx, hu⟩

/-- The entry that `AcceptBlockHeader` returns has no transactions unless it has its data. -/
theorem Settled.entry (h : s.Settled g connectBlock) {checks : Option Ptr → Bool} {hash : UInt256}
    {block : CBlockHeader} {pindexNew : Ptr} (hnew : ¬ s.Known pindexNew) {r : Option Ptr × ChainState}
    (hr : s.acceptBlockHeader g checks hash block pindexNew = r) (hp : r.1 = some p) :
    r.2.Index ∧ r.2.Known p ∧ ((r.2.status p).haveData = false → (r.2.node p).nTx = 0) := by
  rcases acceptBlockHeader_cases hnew hr with ⟨hs, hall⟩ | ⟨hp', A, -⟩
  · obtain ⟨hk, -⟩ := hall p hp
    rw [hs]
    refine ⟨h.node.index, hk, fun hdata => ?_⟩
    by_contra hne
    rw [(h.node.data p hk).mpr hne] at hdata
    cases hdata
  · obtain rfl := Option.some.inj (hp'.symm.trans hp)
    exact ⟨A.toIndex h.node.index, A.known.mpr (.inr rfl), fun _ => A.nTx⟩

/-- With fewer transactions the totals fit as well. -/
theorem Fits.mono (F : s'.Fits) (hs : s.SameTree s') (htx : ∀ x, (s.node x).nTx ≤ (s'.node x).nTx) :
    s.Fits where
  txs x hx := Nat.lt_of_le_of_lt (pathTx_le hs htx) (F.txs x (by rwa [hs.known]))
  work x y hx hy := by
    have hwork : ∀ x, (s'.node x).nChainWork = (s.node x).nChainWork := fun x =>
      congrArg (fun e => e.2.2.2.2) (hs.place x)
    rw [← hwork, ← hwork]
    exact F.work x y (by rwa [hs.known]) (by rwa [hs.parent])

/-- `AcceptBlock`. -/
theorem Settled.block (h : s.Settled g connectBlock) {checks : Option Ptr → Bool} {hash : UInt256}
    {block : CBlockHeader} {pindexNew : Ptr} {fRequested : Bool} {nTx : Nat} {body : Ptr → BodyVerdict}
    (hnew : ¬ s.Known pindexNew) (hpos : 0 < nTx)
    (F : (s.acceptBlock g checks hash block pindexNew fRequested nTx body).2.Fits) :
    (s.acceptBlock g checks hash block pindexNew fRequested nTx body).2.Settled g connectBlock := by
  unfold acceptBlock at F ⊢
  rcases hacc : s.acceptBlockHeader g checks hash block pindexNew with ⟨_ | p, s₁⟩
  · rw [hacc] at F
    exact (h.header hnew hacc F).1
  · rw [hacc] at F
    have hheader : s₁.Fits → s₁.Settled g connectBlock ∧ s₁.Known p ∧ (s₁.status p).failed = false :=
      fun F => (h.header hnew hacc F).imp_right fun hp => hp p rfl
    simp only at F ⊢
    split_ifs at F ⊢ with hdata hwant
    · exact (hheader F).1
    · exact (hheader F).1
    · have hdata' := Bool.eq_false_of_not_eq_true hdata
      cases hb : body p with
      | invalid c =>
        simp only [hb] at F ⊢
        split_ifs at F ⊢
        · exact (hheader F).1
        · have htx : Same CBlockIndex.nTx s₁ (s₁.rejectBlock p) :=
            same_modify (f := fun e => { e with nStatus := { e.nStatus with failedValid := true } })
              fun _ => rfl
          have F₁ : s₁.Fits := F.mono (kept_rejectBlock s₁ p).same fun x => Nat.le_of_eq (htx x).symm
          obtain ⟨h₁, hk, -⟩ := hheader F₁
          exact h₁.reject hk hdata'
      | stored pos =>
        simp only [hb] at F ⊢
        obtain ⟨I, hk, hp0⟩ := h.entry hnew hacc rfl
        have F₁ : s₁.Fits := F.mono (I.received hk nTx pos).same fun x => by
          rw [nTx_received]
          split_ifs with hxp
          · rw [hxp, hp0 hdata']
            exact Nat.zero_le _
          · exact Nat.le_refl _
        obtain ⟨h₁, hk, hf⟩ := hheader F₁
        exact h₁.received hk hdata' hf hpos pos F

/-! ## Runs -/

/-- The totals fit after the operation. -/
def FitsAfter (g : UInt256) (connectBlock : Ptr → Verdict) (op : NodeOp) (s : ChainState) : Prop :=
  ∀ s', nodeStep g connectBlock op s = some s' → s'.Fits

/-- The states of a node that is left alone, from the empty index. -/
abbrev NodeRuns (g : UInt256) (connectBlock : Ptr → Verdict) : ChainState → Prop :=
  Reachable (· = empty) (nodeStep g connectBlock) (FitsAfter g connectBlock)

theorem settled_nodeStep (h : s.Settled g connectBlock)
    {op : NodeOp} (hstep : nodeStep g connectBlock op s = some s') (F : s'.Fits) :
    s'.Settled g connectBlock := by
  cases op with
  | header checks hash block pindexNew =>
    rw [nodeStep] at hstep
    split_ifs at hstep with hnew
    cases hstep
    exact (h.header hnew rfl F).1
  | block checks hash block pindexNew fRequested nTx body =>
    rw [nodeStep] at hstep
    split_ifs at hstep with hnew
    cases hstep
    rw [not_or] at hnew
    exact h.block hnew.1 (Nat.pos_of_ne_zero hnew.2) F
  | activate =>
    rw [nodeStep] at hstep
    obtain ⟨⟨b, t⟩, ht, hbt⟩ := Option.map_eq_some_iff.mp hstep
    cases hbt
    exact (h.round.returned (LoopResult.of_value? ht)).2.settled

theorem settled_runs (h : NodeRuns g connectBlock s) : s.Settled g connectBlock := by
  refine h.invariant (fun s hs => ?_) fun op s s' hs hok hstep =>
    settled_nodeStep hs hstep (hok s' hstep)
  rw [hs]
  exact settled_empty

/-- `ActivateBestChain` ends with the best chain. -/
theorem Settled.best (hv : ∀ p, connectBlock p ≠ .invalid true) (h : s.Settled g connectBlock) :
    ∃ s', s.activateBestChain connectBlock s.rounds = .returns (true, s') ∧
      s'.mapBlockIndex = s.mapBlockIndex ∧
      (∀ p, s'.Known p → s'.Received p → (∀ a, s'.Anc a p → Connects connectBlock a) →
        ∃ t, s'.tip = some t ∧ (s'.node p).nChainWork ≤ (s'.node t).nChainWork ∧
          s'.less t p = false) ∧
      ∀ p, s'.contains p = true → s'.Received p ∧ Connects connectBlock p ∧
        (s'.status p).failed = false := by
  obtain ⟨s', heq, hF⟩ := h.activate hv
  have I := hF.node.index
  refine ⟨s', heq, hF.order.tree.index, fun p hp hr hc => ?_, fun p hp => ?_⟩
  · obtain ⟨t, ht, hless⟩ := hF.best p hp (hF.node.filed.linked_of_received I.tree hp hr) hc
    exact ⟨t, ht, work_le_of_not_less hless, hless⟩
  · obtain ⟨hc, hf, hcon, -⟩ := hF.node.active p hp
    have hk : s'.Known p := I.path.known _ _ (contains_getElem.mp hp)
    exact ⟨hF.node.filed.received_of_linked I.tree hk hc, hcon, hf⟩

/-- In every state that is reached `ActivateBestChain` ends, and no assertion fails. The tip then has the
most work of all blocks that have been received with their ancestors and could be connected, the first
that was received among equals; and every block of the active chain is such a block. -/
theorem activateBestChain_runs (hv : ∀ p, connectBlock p ≠ .invalid true)
    (h : NodeRuns g connectBlock s) :
    ∃ s', s.activateBestChain connectBlock s.rounds = .returns (true, s') ∧
      s'.mapBlockIndex = s.mapBlockIndex ∧
      (∀ p, s'.Known p → s'.Received p → (∀ a, s'.Anc a p → Connects connectBlock a) →
        ∃ t, s'.tip = some t ∧ (s'.node p).nChainWork ≤ (s'.node t).nChainWork ∧
          s'.less t p = false) ∧
      ∀ p, s'.contains p = true → s'.Received p ∧ Connects connectBlock p ∧
        (s'.status p).failed = false := (settled_runs h).best hv

/-- A block that is reported as perhaps corrupt is not flagged. If one is on the way to the last candidate,
and none there is invalid, `ActivateBestChain` does not return, however many rounds it makes. -/
theorem activateBestChain_corrupt (h : NodeRuns g connectBlock s)
    (hlast : s.setBlockIndexCandidates.getLast? = some m)
    (hclean : ∀ a, s.Anc a m → (s.status a).failed = false)
    (hcorrupt : ∃ c, s.Anc c m ∧ connectBlock c = .invalid true)
    (hall : ∀ a, s.Anc a m → connectBlock a ≠ .invalid false) (fuel : Nat) :
    s.activateBestChain connectBlock fuel = .goesOn :=
  (settled_runs h).round.never hlast hclean hcorrupt hall fuel

instance (s : ChainState) : Decidable s.Fits :=
  decidable_of_iff ((∀ p ∈ s.mapBlockIndex, s.pathTx p < 2 ^ 32) ∧ ∀ p ∈ s.mapBlockIndex,
    ∀ q ∈ s.parent p, (s.node q).nChainWork < (s.node p).nChainWork)
    ⟨fun h => ⟨h.1, fun p q hp hq => h.2 p hp q hq⟩, fun h => ⟨h.txs, fun p hp q hq => h.work p q hp hq⟩⟩

instance (g : UInt256) (connectBlock : Ptr → Verdict) (op : NodeOp) (s : ChainState) :
    Decidable (FitsAfter g connectBlock op s) :=
  decidable_of_iff (∀ s' ∈ nodeStep g connectBlock op s, s'.Fits) Iff.rfl

/-- A block of one transaction on top of `prev` arrives. -/
def sampleBlock (p prev : Nat) : NodeOp :=
  .block (fun _ => true) (Fin.ofNat _ p) ⟨1, Fin.ofNat _ prev, 0, 0, 0x207fffff, UInt32.ofNat p⟩ p true 1
    fun _ => .stored ⟨0, p⟩

/-- Block 3 is the tip, and block 4 on top of it is invalid; block 6 has as much work. -/
def forkRun : List NodeOp :=
  [sampleBlock 1 0, sampleBlock 2 1, sampleBlock 3 2, .activate, sampleBlock 4 3, sampleBlock 6 5,
    sampleBlock 5 2, sampleBlock 6 5]

def forkVerdict (p : Ptr) : Verdict := if p = 4 then .invalid false else .connects 7

theorem forkVerdict_sound (p : Ptr) : forkVerdict p ≠ .invalid true := by
  unfold forkVerdict
  split_ifs <;> exact fun h => by cases h

theorem forkRun_activateBestChain : ∃ s, NodeRuns 1 forkVerdict s ∧ s.tip = some 3 ∧
    ∃ s', s.activateBestChain forkVerdict s.rounds = .returns (true, s') ∧
      s'.mapBlockIndex = s.mapBlockIndex ∧
      (∀ p, s'.Known p → s'.Received p → (∀ a, s'.Anc a p → Connects forkVerdict a) →
        ∃ t, s'.tip = some t ∧ (s'.node p).nChainWork ≤ (s'.node t).nChainWork ∧
          s'.less t p = false) ∧
      ∀ p, s'.contains p = true → s'.Received p ∧ Connects forkVerdict p ∧
        (s'.status p).failed = false := by
  have hrun : (run (guarded (nodeStep 1 forkVerdict) (FitsAfter 1 forkVerdict)) forkRun empty).any
    (fun s => decide (s.tip = some 3 ∧ s.mapBlockIndex.length = 6)) = true := by decide +kernel
  cases hs : run (guarded (nodeStep 1 forkVerdict) (FitsAfter 1 forkVerdict)) forkRun empty with
  | none => rw [hs] at hrun; cases hrun
  | some s =>
    rw [hs] at hrun
    obtain ⟨htip, -⟩ := of_decide_eq_true hrun
    have hreach : NodeRuns 1 forkVerdict s :=
      (show NodeRuns 1 forkVerdict empty from .init rfl).guarded hs
    exact ⟨s, hreach, htip, activateBestChain_runs forkVerdict_sound hreach⟩

/-- The same, but block 4 is reported as perhaps corrupt. -/
def corruptVerdict (p : Ptr) : Verdict := if p = 4 then .invalid true else .connects 7

theorem anc_four {s : ChainState} (h : s.parent 4 = some 3 ∧ s.parent 3 = some 2 ∧ s.parent 2 = some 1 ∧
    s.parent 1 = none) {a : Ptr} (ha : s.Anc a 4) : a = 4 ∨ a = 3 ∨ a = 2 ∨ a = 1 := by
  obtain ⟨h4, h3, h2, h1⟩ := h
  obtain rfl | ⟨p, hp, ha⟩ := ha.eq_or_parent
  · exact .inl rfl
  rw [h4] at hp
  cases hp
  obtain rfl | ⟨p, hp, ha⟩ := ha.eq_or_parent
  · exact .inr (.inl rfl)
  rw [h3] at hp
  cases hp
  obtain rfl | ⟨p, hp, ha⟩ := ha.eq_or_parent
  · exact .inr (.inr (.inl rfl))
  rw [h2] at hp
  cases hp
  exact .inr (.inr (.inr (ha.of_root h1)))

theorem forkRun_corrupt : ∃ s, NodeRuns 1 corruptVerdict s ∧
    ∀ fuel, s.activateBestChain corruptVerdict fuel = .goesOn := by
  have hrun : (run (guarded (nodeStep 1 corruptVerdict) (FitsAfter 1 corruptVerdict))
    (forkRun.take 5) empty).any
    (fun s => decide (s.setBlockIndexCandidates.getLast? = some 4 ∧ (s.parent 4 = some 3 ∧
      s.parent 3 = some 2 ∧ s.parent 2 = some 1 ∧ s.parent 1 = none) ∧
      ∀ a ∈ ([4, 3, 2, 1] : List Ptr), (s.status a).failed = false)) = true := by decide +kernel
  cases hs : run (guarded (nodeStep 1 corruptVerdict) (FitsAfter 1 corruptVerdict))
    (forkRun.take 5) empty with
  | none => rw [hs] at hrun; cases hrun
  | some s =>
    rw [hs] at hrun
    obtain ⟨hlast, hpar, hclean⟩ := of_decide_eq_true hrun
    have hreach : NodeRuns 1 corruptVerdict s :=
      (show NodeRuns 1 corruptVerdict empty from .init rfl).guarded hs
    refine ⟨s, hreach, activateBestChain_corrupt hreach hlast (fun a ha => hclean a ?_)
      ⟨4, .refl, rfl⟩ fun a _ => ?_⟩
    · simpa using anc_four hpar ha
    · unfold corruptVerdict
      split_ifs <;> exact fun h => by cases h

end ChainState

end GC
