import GameCredits.Proof.Links
import GameCredits.Proof.Candidates

/-!
# Blocks that arrive among failed ones

Which entries are candidates, when entries may be flagged as failed and all totals of transactions fit.

* `Filed`: the invariant of `Proof/Links.lean` where no total wraps around.
* `Listed`: the candidates are sorted and linked, and no entry that is linked, without a failed ancestor
  and not below a reference is missing.
* `Filed.received`, `Listed.received`: both are kept by `ReceivedBlockTransactions`.
-/

namespace GC

open Framework

namespace ChainState

variable {s s' : ChainState} {p q x : Ptr} {queue : List Ptr}

/-- All totals fit, and each entry to be linked is on the queue once and not linked. -/
structure Filed (s : ChainState) (queue : List Ptr) : Prop where
  linking : s.Linking queue
  fits : ∀ p, s.Known p → s.pathTx p < 2 ^ 32
  tree : ∀ p, s.Known p → BLOCK_VALID_TREE ≤ (s.status p).valid
  fresh : ∀ p ∈ queue, (s.node p).nChainTx = 0
  nodup : queue.Nodup

namespace Filed

theorem small (h : s.Filed queue) (hp : s.Known p) : s.Small p := ⟨hp, h.fits p hp⟩

theorem chain (h : s.Filed queue) (p : Ptr) (hp : s.Known p) (hne : (s.node p).nChainTx ≠ 0) :
    (s.node p).nTx ≠ 0 ∧ s.ParentLinked p ∧ (s.node p).nChainTx = s.prevChainTx p + (s.node p).nTx :=
  ⟨h.linking.received p hp hne, h.linking.chain p (h.small hp) hne⟩

/-- The ancestors of an entry that is linked are linked. -/
theorem linked_anc (h : s.Filed queue) (T : s.Tree) (hp : s.Known p)
    (hne : (s.node p).nChainTx ≠ 0) {a : Ptr} (ha : s.Anc a p) : (s.node a).nChainTx ≠ 0 :=
  (h.linking.linked_anc T (h.small hp) hne ha).2

theorem received_of_linked (h : s.Filed queue) (T : s.Tree) (hp : s.Known p)
    (hne : (s.node p).nChainTx ≠ 0) : s.Received p := h.linking.received_of_linked T (h.small hp) hne

theorem linked_of_received (h : s.Filed []) (T : s.Tree) (hp : s.Known p) (hr : s.Received p) :
    (s.node p).nChainTx ≠ 0 := h.linking.complete T (h.small hp) hr

/-- The entry that is linked gets its total. -/
theorem linkEntry_total (h : s.Filed (p :: queue)) (T : s.Tree) :
    ((s.linkEntry p).node p).nChainTx = s.pathTx p ∧ s.pathTx p ≠ 0 :=
  h.linking.linkEntry_self T (h.small (h.linking.queued p (List.mem_cons_self ..)).1)

theorem nodup_waiting (h : s.Filed queue) (p : Ptr) : (s.waiting p).Nodup := by
  refine List.Nodup.map_on (fun a ha b hb hab => ?_) (h.linking.distinct.filter _)
  have ha := beq_iff_eq.mp (List.mem_filter.mp ha).2
  have hb := beq_iff_eq.mp (List.mem_filter.mp hb).2
  exact Prod.ext (ha.trans hb.symm) hab

/-- One round: the entry is linked, and those that wait for it are put on the queue. -/
theorem linkEntry (h : s.Filed (p :: queue)) (I : s.Index) :
    (s.linkEntry p).Filed (queue ++ s.waiting p) := by
  have hs : s.SameTree (s.linkEntry p) := sameTree_linkEntry
  have hwaiting : ∀ {x}, x ∈ s.waiting p → s.parent x = some p ∧ (s.node x).nChainTx = 0 := fun hx => by
    obtain ⟨hk, hparent⟩ := I.unlinked _ (mem_waiting.mp hx)
    exact ⟨hparent, (h.linking.waiting_fresh I (h.small hk) hx).1⟩
  constructor
  case linking => exact h.linking.linkEntry I
  case fits =>
    intro x hx
    rw [hs.known] at hx
    rw [pathTx_eq I.tree hs hx fun a _ => nTx_linkEntry s p a]
    exact h.fits x hx
  case tree =>
    intro x hx
    rw [hs.known] at hx
    rw [status_linkEntry]
    exact h.tree x hx
  case fresh =>
    intro x hmem
    rw [nChainTx_linkEntry]
    rcases List.mem_append.mp hmem with hmem | hmem
    · rw [if_neg fun hxp : x = p => (List.nodup_cons.mp h.nodup).1 (hxp ▸ hmem)]
      exact h.fresh x (List.mem_cons_of_mem _ hmem)
    · obtain ⟨hparent, h0⟩ := hwaiting hmem
      have hxp : x ≠ p := fun hxp => by
        have := I.tree.graded.child x p (I.unlinked _ (mem_waiting.mp hmem)).1 hparent
        rw [hxp] at this
        omega
      rwa [if_neg hxp]
  case nodup =>
    refine List.nodup_append.mpr ⟨(List.nodup_cons.mp h.nodup).2, h.nodup_waiting p, ?_⟩
    rintro x hx _ hy rfl
    have hx := List.mem_cons_of_mem p hx
    obtain ⟨hl, -⟩ := h.linking.ready x hx (h.small (h.linking.queued x hx).1)
    exact hl p (hwaiting hy).1 (h.fresh p (List.mem_cons_self ..))

end Filed

/-! ## The candidates -/

/-- Whether an entry sorts below a reference. -/
def below (s : ChainState) (r : Option Ptr) (p : Ptr) : Bool := r.any fun t => s.less p t

/-- Neither an entry nor one of its ancestors is failed. -/
def Clean (s : ChainState) (p : Ptr) : Prop := ∀ a, s.Anc a p → (s.status a).failed = false

theorem below_congr {r : Option Ptr} (hp : (s'.node p).key = (s.node p).key)
    (hr : ∀ t, r = some t → (s'.node t).key = (s.node t).key) : s'.below r p = s.below r p := by
  cases r with
  | none => rfl
  | some t => exact less_congr hp (hr t rfl)

theorem Clean.congr (h : s.Clean p) (hs : s.SameTree s')
    (hst : ∀ a, s.Anc a p → (s'.status a).failed = true → (s.status a).failed = true) :
    s'.Clean p := fun a ha => by
  rw [hs.anc] at ha
  by_contra hf
  have := hst a ha (Bool.eq_true_of_not_eq_false hf)
  rw [h a ha] at this
  cases this

/-- The candidates are sorted and linked, and contain what is not below `r`. -/
structure Listed (s : ChainState) (r : Option Ptr) : Prop where
  sorted : s.CandidatesSorted
  members : ∀ p ∈ s.setBlockIndexCandidates, (s.node p).nChainTx ≠ 0
  complete : ∀ p, s.Known p → (s.node p).nChainTx ≠ 0 → s.Clean p → s.below r p = false →
    p ∈ s.setBlockIndexCandidates

theorem vChain_linkEntry (s : ChainState) (p : Ptr) : (s.linkEntry p).vChain = s.vChain := by
  unfold linkEntry offerCandidate
  split_ifs <;> rfl

theorem tip_linkEntry (s : ChainState) (p : Ptr) : (s.linkEntry p).tip = s.tip :=
  congrArg List.getLast? (vChain_linkEntry s p)

/-- The entry that is linked becomes a candidate, unless it sorts below the tip. -/
theorem Listed.linkEntry (h : s.Listed s.tip) (F : s.Filed (p :: queue)) (I : s.Index)
    (htip : ∀ t, s.tip = some t → (s.node t).nChainTx ≠ 0) :
    (s.linkEntry p).Listed (s.linkEntry p).tip := by
  have hs : s.SameTree (s.linkEntry p) := sameTree_linkEntry
  obtain ⟨hself, hpath⟩ := F.linkEntry_total I.tree
  have hp0 := F.fresh p (List.mem_cons_self ..)
  have hmem : p ∉ s.setBlockIndexCandidates := fun hp => h.members p hp hp0
  have hkey : ∀ x, x ≠ p → ((s.linkEntry p).node x).key = (s.node x).key := fun x hx => by
    rw [node_linkEntry_ne hx]
  constructor
  case sorted => exact h.sorted.linkEntry hmem
  case members =>
    intro x hx
    rcases of_mem_linkEntry hx with rfl | hx
    · rwa [hself]
    · rw [node_linkEntry_ne fun hxp : x = p => hmem (hxp ▸ hx)]
      exact h.members x hx
  case complete =>
    intro x hx hc hclean hbelow
    rw [hs.known] at hx
    rw [tip_linkEntry] at hbelow
    by_cases hxp : x = p
    · subst hxp
      have hassign : (s.assignLink x).belowTip x = false := by
        rw [← hbelow]
        have hnode : (s.linkEntry x).node = (s.assignLink x).node := node_offerCandidate
        refine (below_congr ?_ fun t _ => ?_).symm <;> rw [hnode]
      have hsorted : (s.assignLink x).CandidatesSorted := by
        refine h.sorted.sublist (.refl _) fun y hy => ?_
        rw [node_assignLink_ne fun hyx : y = x => hmem (hyx ▸ hy)]
      rw [candidates_linkEntry, hassign]
      exact (SortedSet.mem_insert (totalLess _) hsorted).mpr (.inl rfl)
    · apply mem_linkEntry_of_mem
      rw [node_linkEntry_ne hxp] at hc
      refine h.complete x hx hc (hclean.congr ?_ fun a _ hf => ?_) ?_
      · exact ⟨hs.index.symm, fun y => (hs.place y).symm⟩
      · rwa [status_linkEntry]
      · rw [← hbelow]
        refine (below_congr (hkey x hxp) fun t ht => hkey t fun htp => ?_).symm
        exact htip t ht (htp ▸ hp0)

/-- No candidate sorts below the tip. -/
def Raised (s : ChainState) : Prop := ∀ x ∈ s.setBlockIndexCandidates, s.belowTip x = false

theorem Raised.linkEntry (h : s.Raised) (L : s.Listed s.tip) (F : s.Filed (p :: queue))
    (htip : ∀ t, s.tip = some t → (s.node t).nChainTx ≠ 0) : (s.linkEntry p).Raised := fun x hx => by
  have hp0 := F.fresh p (List.mem_cons_self ..)
  have hkey : ∀ y, y ≠ p → ((s.linkEntry p).node y).key = (s.node y).key := fun y hy => by
    rw [node_linkEntry_ne hy]
  have hmem : p ∉ s.setBlockIndexCandidates := fun hp => L.members p hp hp0
  by_cases hxp : x = p
  · -- it has been compared with the tip
    subst hxp
    rw [candidates_linkEntry] at hx
    split_ifs at hx with hb
    · exact absurd hx hmem
    · rw [belowTip, tip_linkEntry]
      have hnode : (s.linkEntry x).node = (s.assignLink x).node := node_offerCandidate
      refine (below_congr (r := s.tip) ?_ fun t _ => ?_).trans (Bool.eq_false_of_not_eq_true hb) <;>
        rw [hnode]
  · rw [belowTip, tip_linkEntry]
    refine (below_congr (hkey x hxp) fun t ht => hkey t fun htp => ?_).trans
      (h x ((of_mem_linkEntry hx).resolve_left hxp))
    exact htip t ht (htp ▸ hp0)

/-! ## A body arrives -/

/-- An entry whose transactions arrive is on the queue, or begins to wait. -/
theorem Filed.marked (h : s.Filed []) (I : s.Index) (hp : s.Known p) (hp0 : (s.node p).nTx = 0)
    (hpf : (s.status p).failed = false) {nTx : Nat} (hpos : 0 < nTx) (pos : DiskBlockPos)
    (hfits : ∀ x, s.Known x → (s.markReceived p nTx pos).pathTx x < 2 ^ 32) :
    ((s.markReceived p nTx pos).parentLinked p = true → (s.markReceived p nTx pos).Filed [p]) ∧
    ((s.markReceived p nTx pos).parentLinked p = false →
      ((s.markReceived p nTx pos).waitForParent p).Filed []) := by
  obtain ⟨hlink, hwait⟩ := h.linking.marked I h.tree hp hp0 hpf hpos pos
  have hs : s.SameTree (s.markReceived p nTx pos) := sameTree_markReceived nTx pos
  have htree : ∀ x, s.Known x → BLOCK_VALID_TREE ≤ ((s.markReceived p nTx pos).status x).valid :=
    fun x hx => Nat.le_trans (h.tree x hx) (le_status_markReceived s p nTx pos x)
  refine ⟨fun hl => ⟨hlink hl, fun x hx => hfits x ?_, fun x hx => htree x ?_, fun x hx => ?_,
    List.nodup_singleton p⟩, fun hl => ?_⟩
  · rwa [hs.known] at hx
  · rwa [hs.known] at hx
  · rw [List.mem_singleton.mp hx, nChainTx_markReceived]
  · have hnode : ((s.markReceived p nTx pos).waitForParent p).node = (s.markReceived p nTx pos).node :=
      node_waitForParent
    have hs' : (s.markReceived p nTx pos).SameTree ((s.markReceived p nTx pos).waitForParent p) :=
      (kept_waitForParent (show (s.markReceived p nTx pos).Known p from hp)).same
    refine ⟨hwait hl, fun x hx => ?_, fun x hx => ?_, fun x hx => absurd hx List.not_mem_nil,
      List.nodup_nil⟩
    · rw [hs'.known, hs.known] at hx
      refine Nat.lt_of_le_of_lt (pathTx_le ⟨hs'.index.symm, fun y => (hs'.place y).symm⟩ fun a => ?_)
        (hfits x hx)
      rw [hnode]
    · rw [hs'.known, hs.known] at hx
      rw [status, hnode]
      exact htree x hx

/-- What may change between arrivals: entries become failed, and those that are leave the
candidates. -/
theorem Listed.shrink {r : Option Ptr} (h : s.Listed r) (hs : s.SameTree s')
    (hkey : Same CBlockIndex.key s s') (hchain : Same CBlockIndex.nChainTx s s')
    (hfailed : ∀ x, (s.status x).failed = true → (s'.status x).failed = true)
    (hsub : s'.setBlockIndexCandidates.Sublist s.setBlockIndexCandidates)
    (hkeep : ∀ p ∈ s.setBlockIndexCandidates, s'.Clean p → s.below r p = false →
      p ∈ s'.setBlockIndexCandidates) : s'.Listed r where
  sorted := h.sorted.sublist hsub fun q _ => hkey q
  members p hp := by
    rw [hchain p]
    exact h.members p (hsub.subset hp)
  complete p hp hc hclean hbelow := by
    rw [hs.known] at hp
    rw [hchain p] at hc
    rw [below_congr (hkey p) fun t _ => hkey t] at hbelow
    refine hkeep p (h.complete p hp hc ?_ hbelow) hclean hbelow
    exact hclean.congr ⟨hs.index.symm, fun y => (hs.place y).symm⟩ fun a _ => hfailed a

/-- `ReceivedBlockTransactions` keeps what links the entries, and what each round keeps. -/
theorem Filed.received_rule (h : s.Filed []) (I : s.Index) (hp : s.Known p) (hp0 : (s.node p).nTx = 0)
    (hpf : (s.status p).failed = false) {nTx : Nat} (hpos : 0 < nTx) (pos : DiskBlockPos)
    (hfits : ∀ x, s.Known x → (s.receivedBlockTransactions p nTx pos).pathTx x < 2 ^ 32)
    {J : ChainState → Prop} (hmark : J (s.markReceived p nTx pos))
    (hstep : ∀ x queue t, s.Kept t → t.Filed (x :: queue) → J t → J (t.linkEntry x))
    (hwait : ∀ t, s.Kept t → t.Known p → J t → J (t.waitForParent p)) :
    (s.receivedBlockTransactions p nTx pos).Filed [] ∧ J (s.receivedBlockTransactions p nTx pos) := by
  have hk := kept_markReceived s p nTx pos
  have hkp : (s.markReceived p nTx pos).Known p := by rwa [hk.same.known]
  have hmfits : ∀ x, s.Known x → (s.markReceived p nTx pos).pathTx x < 2 ^ 32 := fun x hx => by
    have hsame := same_marked_received (s := s) (p := p) (v := CBlockIndex.nTx)
      (fun _ _ => same_assignLink fun _ _ _ => rfl) nTx pos
    have hs := (I.received hp nTx pos).same
    refine Nat.lt_of_le_of_lt (pathTx_le ⟨?_, fun y => ?_⟩ fun a => ?_) (hfits x hx)
    · exact hs.index
    · exact (hs.place y).trans (hk.same.place y).symm
    · exact Nat.le_of_eq (hsame a).symm
  obtain ⟨hlink, hwaits⟩ := h.marked I hp hp0 hpf hpos pos hmfits
  have hrun := ChainState.received_rule (I := fun queue t => s.Kept t ∧ t.Filed queue ∧ J t) nTx pos
    (fun x queue t ht => ?_) (fun hl => ⟨hk, hlink hl, hmark⟩)
    fun hl => ⟨hk.trans (kept_waitForParent hkp), hwaits hl, hwait _ hk hkp hmark⟩
  · exact hrun.2
  · obtain ⟨hkt, hF, hJ⟩ := ht
    exact ⟨hkt.trans (kept_linkEntry (hF.linking.queued x (List.mem_cons_self ..)).1),
      hF.linkEntry (I.kept hkt), hstep x queue t hkt hF hJ⟩

/-- An entry that is linked is not linked again. -/
theorem Filed.linked_ne (h : s.Filed (p :: queue)) (hx : (s.node x).nChainTx ≠ 0) : x ≠ p :=
  fun hxp => hx (hxp ▸ h.fresh p (List.mem_cons_self ..))

theorem candidates_waitForParent (s : ChainState) (p : Ptr) :
    (s.waitForParent p).setBlockIndexCandidates = s.setBlockIndexCandidates := by
  unfold waitForParent
  split
  · rfl
  · split_ifs <;> rfl

/-- `ReceivedBlockTransactions` keeps the candidates, and the totals of the entries that are linked. -/
theorem Filed.received (h : s.Filed []) (L : s.Listed s.tip) (R : s.Raised) (I : s.Index)
    (htip : ∀ t, s.tip = some t → (s.node t).nChainTx ≠ 0) (hp : s.Known p)
    (hp0 : (s.node p).nTx = 0) (hpf : (s.status p).failed = false) {nTx : Nat} (hpos : 0 < nTx)
    (pos : DiskBlockPos)
    (hfits : ∀ x, s.Known x → (s.receivedBlockTransactions p nTx pos).pathTx x < 2 ^ 32) :
    (s.receivedBlockTransactions p nTx pos).Filed [] ∧
      (s.receivedBlockTransactions p nTx pos).Listed (s.receivedBlockTransactions p nTx pos).tip ∧
      (s.receivedBlockTransactions p nTx pos).Raised ∧ ∀ x, (s.node x).nChainTx ≠ 0 →
        ((s.receivedBlockTransactions p nTx pos).node x).nChainTx = (s.node x).nChainTx := by
  have hmark := kept_markReceived s p nTx pos
  have hc0 : (s.node p).nChainTx = 0 := by
    by_contra hne
    exact (h.chain p hp hne).1 hp0
  have hmchain : Same CBlockIndex.nChainTx s (s.markReceived p nTx pos) := fun x => by
    by_cases hx : x = p
    · rw [hx, hc0, nChainTx_markReceived]
    · rw [node_markReceived_ne hx]
  have hmlist : (s.markReceived p nTx pos).Listed s.tip :=
    L.shrink hmark.same (same_modify fun _ => rfl) hmchain
      (fun x hx => by rwa [status_markReceived_failed]) (.refl _) fun x hx _ _ => hx
  refine h.received_rule I hp hp0 hpf hpos pos hfits
    (J := fun t => t.Listed t.tip ∧ t.Raised ∧ ∀ x, (s.node x).nChainTx ≠ 0 →
      (t.node x).nChainTx = (s.node x).nChainTx) ⟨hmlist, fun x hx => ?_, fun x _ => hmchain x⟩ ?_ ?_
  · have hkey : Same CBlockIndex.key s (s.markReceived p nTx pos) := same_modify fun _ => rfl
    exact (below_congr (r := s.tip) (hkey x) fun t _ => hkey t).trans (R x hx)
  · rintro x queue t hk hF ⟨hL, hR, hc⟩
    have htt : ∀ u, t.tip = some u → (t.node u).nChainTx ≠ 0 := fun u hu => by
      have hu' : s.tip = some u := by rw [tip, ← hk.chain]; exact hu
      rw [hc u (htip u hu')]
      exact htip u hu'
    refine ⟨hL.linkEntry hF (I.kept hk) htt, hR.linkEntry hL hF htt, fun y hy => ?_⟩
    rw [node_linkEntry_ne (hF.linked_ne (by rwa [hc y hy]))]
    exact hc y hy
  · rintro t hk hkp ⟨hL, hR, hc⟩
    have hkept := kept_waitForParent hkp
    have htip' : (t.waitForParent p).tip = t.tip := congrArg List.getLast? hkept.chain
    have hcands := candidates_waitForParent t p
    rw [htip']
    refine ⟨hL.shrink hkept.same (same_of_node node_waitForParent) (same_of_node node_waitForParent)
      (fun x hx => ?_) (by rw [hcands]) fun x hx _ _ => by rwa [hcands], fun x hx => ?_, fun x hx => ?_⟩
    · rwa [status, node_waitForParent]
    · rw [hcands] at hx
      rw [belowTip, htip']
      refine (below_congr ?_ fun t _ => ?_).trans (hR x hx) <;> rw [node_waitForParent]
    · rw [node_waitForParent]
      exact hc x hx

/-! ## Flags and new entries -/

/-- Entries that are linked, or have no transactions, may become failed. -/
theorem Linking.flag (h : s.Linking []) (T : s.Tree) (hs : s.SameTree s')
    (htx : Same CBlockIndex.nTx s s') (hchain : Same CBlockIndex.nChainTx s s')
    (hU : s'.mapBlocksUnlinked = s.mapBlocksUnlinked)
    (hmono : ∀ x, (s.status x).failed = true → (s'.status x).failed = true)
    (hnew : ∀ x, s.Known x → (s'.status x).failed = true →
      (s.node x).nChainTx ≠ 0 ∨ (s.node x).nTx = 0) : s'.Linking [] := by
  have hsmall : ∀ {x}, s'.Small x ↔ s.Small x := small_same T hs htx
  have hparents : ∀ x, (s'.ParentLinked x ↔ s.ParentLinked x) ∧ s'.prevChainTx x = s.prevChainTx x :=
    fun x => parentLinked_same hs fun q _ => hchain q
  constructor
  case received =>
    intro x hx hc
    rw [hs.known] at hx
    rw [htx x]
    exact h.received x hx (by rwa [← hchain x])
  case chain =>
    intro x hx hc
    rw [hsmall] at hx
    rw [hchain x] at hc ⊢
    rw [htx x, (hparents x).1, (hparents x).2]
    exact h.chain x hx hc
  case linked =>
    intro x hx htxx hl
    rw [hsmall] at hx
    rw [htx x] at htxx
    rw [hchain x]
    exact h.linked x hx htxx ((hparents x).1.mp hl)
  case queued => exact fun x hx => absurd hx List.not_mem_nil
  case ready => exact fun x hx => absurd hx List.not_mem_nil
  case arrived =>
    intro e he
    rw [htx e.2]
    exact h.arrived e (hU ▸ he)
  case unlinked =>
    intro e he hx
    rw [hsmall] at hx
    rw [hchain e.1]
    exact h.unlinked e (hU ▸ he) hx
  case distinct =>
    rw [hU]
    exact h.distinct
  case waits =>
    intro x q hx htxx hq hq0 hqf
    rw [hsmall] at hx
    rw [htx x] at htxx
    rw [hs.parent] at hq
    rw [hchain q] at hq0
    rw [hU]
    refine h.waits x q hx htxx hq hq0 ?_
    by_contra hf
    rw [hmono q (Bool.eq_true_of_not_eq_false hf)] at hqf
    cases hqf
  case failed =>
    intro x hx hf
    rw [hsmall] at hx
    rw [hchain x, htx x]
    exact hnew x hx.known hf

theorem Filed.flag (h : s.Filed []) (T : s.Tree) (hs : s.SameTree s') (htx : Same CBlockIndex.nTx s s')
    (hchain : Same CBlockIndex.nChainTx s s') (hU : s'.mapBlocksUnlinked = s.mapBlocksUnlinked)
    (hvalid : ∀ x, (s.status x).valid ≤ (s'.status x).valid)
    (hmono : ∀ x, (s.status x).failed = true → (s'.status x).failed = true)
    (hnew : ∀ x, s.Known x → (s'.status x).failed = true →
      (s.node x).nChainTx ≠ 0 ∨ (s.node x).nTx = 0) : s'.Filed [] where
  linking := h.linking.flag T hs htx hchain hU hmono hnew
  fits x hx := ((small_same T hs htx).mpr (h.small (by rwa [hs.known] at hx))).lt
  tree x hx := Nat.le_trans (h.tree x (by rwa [hs.known] at hx)) (hvalid x)
  fresh x hx := absurd hx List.not_mem_nil
  nodup := List.nodup_nil

theorem Filed.added (h : s.Filed []) (A : s.Added s' p) (I : s.Index)
    (hfits : ∀ x, s'.Known x → s'.pathTx x < 2 ^ 32) : s'.Filed [] where
  linking := h.linking.added A I
  fits := hfits
  tree x hx := by
    rcases A.known.mp hx with hk | rfl
    · rw [A.status_eq hk]
      exact h.tree x hk
    · rw [A.valid]
  fresh x hx := absurd hx List.not_mem_nil
  nodup := List.nodup_nil

theorem Listed.added {r : Option Ptr} (h : s.Listed r) (A : s.Added s' p) (I : s.Index)
    (hr : ∀ t, r = some t → s.Known t) : s'.Listed r where
  sorted := h.sorted.added I A
  members x hx := by
    rw [A.candidates] at hx
    rw [A.node x (I.members x hx)]
    exact h.members x hx
  complete x hx hc hclean hbelow := by
    have hk := (A.known.mp hx).resolve_right fun hxp => hc (hxp ▸ A.nChainTx)
    rw [A.node x hk] at hc
    rw [below_congr (s := s) (by rw [A.node x hk]) fun t ht => by rw [A.node t (hr t ht)]] at hbelow
    rw [A.candidates]
    refine h.complete x hk hc (fun a ha => ?_) hbelow
    rw [← A.status_eq (I.tree.graded.anc_mem ha hk)]
    exact hclean a ((A.anc I.tree hk).mpr ha)

end ChainState

end GC
