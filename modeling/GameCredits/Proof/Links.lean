import Mathlib.Algebra.Order.BigOperators.Group.List
import GameCredits.Proof.Steps

/-!
# The entries whose ancestors have all been received

`nChainTx` says whether all transactions up to an entry have been received, and `mapBlocksUnlinked`
holds the entries that wait for that (`Linking`), while headers and bodies arrive in any order. The
invariant is about the entries with fewer than `2 ^ 32` transactions up to them: `nChainTx` wraps
around.

* `Linking.linkEntry`: one round of the loop of `ReceivedBlockTransactions`.
* `Links.received`, `Links.added`: the arrival of a body and of a header.
* `links_runs`: the entries in every run.
-/

namespace GC

open Framework

namespace ChainState

variable {s s' : ChainState} {p q x : Ptr}

/-! ## Totals of transactions -/

/-- All transactions up to an entry have been received. -/
def Received (s : ChainState) (p : Ptr) : Prop := ∀ a, s.Anc a p → (s.node a).nTx ≠ 0

/-- The number of transactions from the genesis block to an entry. -/
def pathTx (s : ChainState) (p : Ptr) : Nat :=
  ((lineage s.parent (s.height p + 1) p).map fun a => (s.node a).nTx).sum

theorem pathTx_root (h : s.parent p = none) : s.pathTx p = (s.node p).nTx := sum_lineage_root h _

theorem pathTx_child (T : s.Tree) (hp : s.Known p) (hq : s.parent p = some q) :
    s.pathTx p = s.pathTx q + (s.node p).nTx := by
  rw [pathTx, sum_lineage_child hq, T.graded.child p q hp hq]
  rfl

theorem pathTx_eq (T : s.Tree) (h : s.SameTree s') (hp : s.Known p)
    (htx : ∀ a, s.Anc a p → (s'.node a).nTx = (s.node a).nTx) : s'.pathTx p = s.pathTx p := by
  rw [pathTx, pathTx, h.parent, h.height]
  refine congrArg List.sum (List.map_congr_left fun a ha => htx a (T.graded.mem_lineage hp ha).1)

theorem pathTx_le (h : s.SameTree s')
    (htx : ∀ a, (s.node a).nTx ≤ (s'.node a).nTx) : s.pathTx p ≤ s'.pathTx p := by
  rw [pathTx, pathTx, h.parent, h.height]
  exact List.sum_le_sum fun a _ => htx a

/-- An entry of the index with fewer than `2 ^ 32` transactions up to it. -/
def Small (s : ChainState) (p : Ptr) : Prop := s.Known p ∧ s.pathTx p < 2 ^ 32

theorem Small.known (h : s.Small p) : s.Known p := h.1

theorem Small.lt (h : s.Small p) : s.pathTx p < 2 ^ 32 := h.2

theorem Small.parent (h : s.Small p) (T : s.Tree) (hq : s.parent p = some q) : s.Small q := by
  have := pathTx_child T h.known hq
  have := h.lt
  exact ⟨T.graded.closed p q h.known hq, by omega⟩

/-- All entries up to the parent are linked. -/
def ParentLinked (s : ChainState) (p : Ptr) : Prop :=
  ∀ q, s.parent p = some q → (s.node q).nChainTx ≠ 0

theorem parentLinked_iff : s.parentLinked p = true ↔ s.ParentLinked p := by
  unfold parentLinked ParentLinked parent
  cases (s.node p).pprev with
  | none => exact ⟨fun _ q hq => (by cases hq), fun _ => rfl⟩
  | some q =>
    rw [bne_iff_ne]
    exact ⟨fun h r hr => (by cases hr; exact h), fun h => h q rfl⟩

/-! ## The invariant -/

/-- The entries of `queue` are about to be linked; the others that can be, are, and the rest of what
has been received waits for its parent, unless this is failed. An entry that is failed and not linked has
no transactions. -/
structure Linking (queue : List Ptr) (s : ChainState) : Prop where
  received : ∀ p, s.Known p → (s.node p).nChainTx ≠ 0 → (s.node p).nTx ≠ 0
  chain : ∀ p, s.Small p → (s.node p).nChainTx ≠ 0 → s.ParentLinked p ∧
    (s.node p).nChainTx = s.prevChainTx p + (s.node p).nTx
  linked : ∀ p, s.Small p → (s.node p).nTx ≠ 0 → s.ParentLinked p →
    (s.node p).nChainTx ≠ 0 ∨ p ∈ queue
  queued : ∀ p ∈ queue, s.Known p ∧ (s.node p).nTx ≠ 0
  ready : ∀ p ∈ queue, s.Small p → s.ParentLinked p ∧ (s.status p).failed = false
  arrived : ∀ e ∈ s.mapBlocksUnlinked, (s.node e.2).nTx ≠ 0
  unlinked : ∀ e ∈ s.mapBlocksUnlinked, s.Small e.2 → (s.node e.1).nChainTx = 0
  distinct : s.mapBlocksUnlinked.Nodup
  waits : ∀ p q, s.Small p → (s.node p).nTx ≠ 0 → s.parent p = some q → (s.node q).nChainTx = 0 →
    (s.status q).failed = false → (q, p) ∈ s.mapBlocksUnlinked
  failed : ∀ p, s.Small p → (s.status p).failed = true → (s.node p).nChainTx ≠ 0 ∨ (s.node p).nTx = 0

/-! ## The sums -/

namespace Linking

variable {queue : List Ptr}

/-- An entry that is linked has its total. -/
theorem sum (h : s.Linking queue) (T : s.Tree) (hp : s.Small p) (hne : (s.node p).nChainTx ≠ 0) :
    (s.node p).nChainTx = s.pathTx p := by
  refine T.graded.induct (P := fun p => s.Small p → (s.node p).nChainTx ≠ 0 →
    (s.node p).nChainTx = s.pathTx p) (fun p _ ih hp hne => ?_) hp.known hp hne
  obtain ⟨hparent, hsum⟩ := h.chain p hp hne
  cases hq : s.parent p with
  | none => rw [hsum, pathTx_root hq, prevChainTx, show (s.node p).pprev = none from hq, Nat.zero_add]
  | some q =>
    rw [hsum, pathTx_child T hp.known hq, prevChainTx, show (s.node p).pprev = some q from hq]
    exact congrArg (· + _) (ih q hq (hp.parent T hq) (hparent q hq))

/-- What is to be linked gets its total. -/
theorem total (h : s.Linking queue) (T : s.Tree) (hp : s.Small p) (hparent : s.ParentLinked p) :
    s.prevChainTx p + (s.node p).nTx = s.pathTx p := by
  cases hq : s.parent p with
  | none => rw [prevChainTx, show (s.node p).pprev = none from hq, Nat.zero_add, pathTx_root hq]
  | some q =>
    rw [pathTx_child T hp.known hq, prevChainTx, show (s.node p).pprev = some q from hq]
    exact congrArg (· + _) (h.sum T (hp.parent T hq) (hparent q hq))

/-- The ancestors of an entry that is linked are linked. -/
theorem linked_anc (h : s.Linking queue) (T : s.Tree) (hp : s.Small p) (hne : (s.node p).nChainTx ≠ 0)
    {a : Ptr} (ha : s.Anc a p) : s.Small a ∧ (s.node a).nChainTx ≠ 0 :=
  ha.closed (P := fun a => s.Small a ∧ (s.node a).nChainTx ≠ 0)
    (fun b c hc hb => ⟨hc.1.parent T hb, (h.chain c hc.1 hc.2).1 b hb⟩) ⟨hp, hne⟩

theorem received_of_linked (h : s.Linking queue) (T : s.Tree) (hp : s.Small p)
    (hne : (s.node p).nChainTx ≠ 0) : s.Received p := fun a ha => by
  obtain ⟨hsmall, hne⟩ := h.linked_anc T hp hne ha
  exact h.received a hsmall.known hne

/-- When no entry is about to be linked, all that have been received with their ancestors are. -/
theorem complete (h : s.Linking []) (T : s.Tree) (hp : s.Small p) (hr : s.Received p) :
    (s.node p).nChainTx ≠ 0 := by
  refine T.graded.induct (P := fun p => s.Small p → s.Received p → (s.node p).nChainTx ≠ 0)
    (fun p _ ih hp hr => ?_) hp.known hp hr
  refine (h.linked p hp (hr p .refl) fun q hq => ?_).resolve_right List.not_mem_nil
  exact ih q hq (hp.parent T hq) fun a ha => hr a (ha.trans (.parent_self hq))

/-- An entry that waits is not linked, nor failed. -/
theorem waiting_fresh (h : s.Linking queue) (I : s.Index) (hx : s.Small x) (hmem : x ∈ s.waiting p) :
    (s.node x).nChainTx = 0 ∧ (s.status x).failed = false := by
  have he := mem_waiting.mp hmem
  have h0 : (s.node x).nChainTx = 0 := by
    by_contra hne
    exact (h.chain x hx hne).1 p (I.unlinked _ he).2 (h.unlinked _ he hx)
  refine ⟨h0, ?_⟩
  by_contra hf
  rcases h.failed x hx (Bool.eq_true_of_not_eq_false hf) with hne | htx
  · exact hne h0
  · exact h.arrived _ he htx

end Linking

/-! ## The loop of `ReceivedBlockTransactions` -/

theorem nChainTx_linkEntry (s : ChainState) (p x : Ptr) :
    ((s.linkEntry p).node x).nChainTx =
      if x = p then (s.prevChainTx p + (s.node p).nTx) % 2 ^ 32 else (s.node x).nChainTx := by
  have hnode : (s.linkEntry p).node = (s.assignLink p).node := node_offerCandidate
  rw [hnode]
  show (if x = p then _ else s.node x : CBlockIndex).nChainTx = _
  split_ifs <;> rfl

theorem nTx_linkEntry (s : ChainState) (p : Ptr) : Same CBlockIndex.nTx s (s.linkEntry p) :=
  same_linkEntry (same_assignLink fun _ _ _ => rfl)

theorem status_linkEntry (s : ChainState) (p x : Ptr) : (s.linkEntry p).status x = s.status x :=
  same_linkEntry (v := CBlockIndex.nStatus) (same_assignLink fun _ _ _ => rfl) x

theorem small_same (T : s.Tree) (hs : s.SameTree s') (htx : Same CBlockIndex.nTx s s') :
    s'.Small x ↔ s.Small x := by
  rw [Small, Small, hs.known]
  exact and_congr_right fun hx => by rw [pathTx_eq T hs hx fun a _ => htx a]

theorem parentLinked_same (hs : s.SameTree s')
    (h : ∀ q, s.parent x = some q → (s'.node q).nChainTx = (s.node q).nChainTx) :
    (s'.ParentLinked x ↔ s.ParentLinked x) ∧ s'.prevChainTx x = s.prevChainTx x := by
  refine ⟨?_, ?_⟩
  · unfold ParentLinked
    rw [hs.parent]
    exact forall₂_congr fun q hq => by rw [h q hq]
  · have hpar : (s'.node x).pprev = (s.node x).pprev := congrFun hs.parent x
    rw [prevChainTx, prevChainTx, hpar]
    cases hq : (s.node x).pprev with
    | none => rfl
    | some q => exact h q hq

/-- The entry that is linked gets its total. -/
theorem Linking.linkEntry_self {queue : List Ptr} (h : s.Linking (p :: queue)) (T : s.Tree)
    (hp : s.Small p) : ((s.linkEntry p).node p).nChainTx = s.pathTx p ∧ s.pathTx p ≠ 0 := by
  have htx := (h.queued p (List.mem_cons_self ..)).2
  have htotal := h.total T hp (h.ready p (List.mem_cons_self ..) hp).1
  refine ⟨?_, by omega⟩
  rw [nChainTx_linkEntry, if_pos rfl, htotal]
  exact Nat.mod_eq_of_lt hp.lt

theorem Linking.linkEntry_linked {queue : List Ptr} (h : s.Linking (p :: queue)) (T : s.Tree)
    (hx : s.Small x) (hne : (s.node x).nChainTx ≠ 0) :
    ((s.linkEntry p).node x).nChainTx = (s.node x).nChainTx := by
  by_cases hxp : x = p
  · subst hxp
    rw [(h.linkEntry_self T hx).1, h.sum T hx hne]
  · rw [nChainTx_linkEntry, if_neg hxp]

theorem Linking.linkEntry_parents {queue : List Ptr} (h : s.Linking (p :: queue)) (T : s.Tree)
    (hx : s.Small x) (hl : s.ParentLinked x) :
    (s.linkEntry p).ParentLinked x ∧ (s.linkEntry p).prevChainTx x = s.prevChainTx x :=
  (parentLinked_same sameTree_linkEntry fun q hq =>
    h.linkEntry_linked T (hx.parent T hq) (hl q hq)).imp_left fun hiff => hiff.mpr hl

/-- What has been received and has its parent linked after the round is linked, or on the queue then. -/
theorem Linking.linkEntry_next {queue : List Ptr} (h : s.Linking (p :: queue)) (T : s.Tree)
    (hx : s.Small x) (hxp : x ≠ p) (htx : (s.node x).nTx ≠ 0) (hl : (s.linkEntry p).ParentLinked x) :
    (s.node x).nChainTx ≠ 0 ∨ x ∈ queue ++ s.waiting p := by
  have hs : s.SameTree (s.linkEntry p) := sameTree_linkEntry
  by_cases hwait : ∃ q, s.parent x = some q ∧ (s.node q).nChainTx = 0
  · -- the parent has just been linked, so that it is `p`
    obtain ⟨q, hq, hq0⟩ := hwait
    have hl' := hl q (by rwa [hs.parent])
    rw [nChainTx_linkEntry] at hl'
    split_ifs at hl' with hqp
    · subst hqp
      have hqf := (h.ready q (List.mem_cons_self ..) (hx.parent T hq)).2
      exact .inr (List.mem_append_right _ (mem_waiting.mpr (h.waits x q hx htx hq hq0 hqf)))
    · exact absurd hq0 hl'
  · refine (h.linked x hx htx fun q hq hq0 => hwait ⟨q, hq, hq0⟩).imp_right fun hmem => ?_
    exact List.mem_append_left _ ((List.mem_cons.mp hmem).resolve_left hxp)

/-- One round: the entry is linked, and those that wait for it are put on the queue. -/
theorem Linking.linkEntry {queue : List Ptr} (h : s.Linking (p :: queue)) (I : s.Index) :
    (s.linkEntry p).Linking (queue ++ s.waiting p) := by
  have T := I.tree
  have hs : s.SameTree (s.linkEntry p) := sameTree_linkEntry
  have htx : ∀ x, ((s.linkEntry p).node x).nTx = (s.node x).nTx := nTx_linkEntry s p
  have hsmall : ∀ {x}, (s.linkEntry p).Small x ↔ s.Small x := small_same T hs htx
  have hst := status_linkEntry s p
  have hchain := nChainTx_linkEntry s p
  have hready := h.ready p (List.mem_cons_self ..)
  have hpne : s.Small p → ((s.linkEntry p).node p).nChainTx ≠ 0 := fun hp => by
    obtain ⟨hself, hpath⟩ := h.linkEntry_self T hp
    rwa [hself]
  constructor
  case received =>
    intro x hx hne
    rw [hs.known] at hx
    rw [htx]
    by_cases hxp : x = p
    · exact hxp ▸ (h.queued p (List.mem_cons_self ..)).2
    · rw [hchain, if_neg hxp] at hne
      exact h.received x hx hne
  case chain =>
    intro x hx hne
    rw [hsmall] at hx
    have hlinks : s.ParentLinked x ∧
        ((s.linkEntry p).node x).nChainTx = s.prevChainTx x + (s.node x).nTx := by
      by_cases hxp : x = p
      · subst hxp
        exact ⟨(hready hx).1, (h.linkEntry_self T hx).1.trans (h.total T hx (hready hx).1).symm⟩
      · rw [hchain, if_neg hxp] at hne ⊢
        exact h.chain x hx hne
    obtain ⟨hparent', hprev⟩ := h.linkEntry_parents T hx hlinks.1
    exact ⟨hparent', by rw [hlinks.2, hprev, htx]⟩
  case linked =>
    intro x hx htxx hl
    rw [hsmall] at hx
    rw [htx] at htxx
    by_cases hxp : x = p
    · exact .inl (hxp ▸ hpne (hxp ▸ hx))
    · rw [hchain, if_neg hxp]
      exact h.linkEntry_next T hx hxp htxx hl
  case queued =>
    intro x hmem
    rw [hs.known, htx]
    rcases List.mem_append.mp hmem with hmem | hmem
    · exact h.queued x (List.mem_cons_of_mem _ hmem)
    · have he := mem_waiting.mp hmem
      exact ⟨(I.unlinked _ he).1, h.arrived _ he⟩
  case ready =>
    intro x hmem hx
    rw [hsmall] at hx
    rw [hst]
    rcases List.mem_append.mp hmem with hmem | hmem
    · obtain ⟨hl, hf⟩ := h.ready x (List.mem_cons_of_mem _ hmem) hx
      exact ⟨(h.linkEntry_parents T hx hl).1, hf⟩
    · obtain ⟨-, hparent⟩ := I.unlinked _ (mem_waiting.mp hmem)
      refine ⟨fun q hq => ?_, (h.waiting_fresh I hx hmem).2⟩
      rw [hs.parent, hparent] at hq
      cases hq
      exact hpne (hx.parent T hparent)
  case arrived =>
    intro e he
    rw [linkEntry_unlinked] at he
    rw [htx]
    exact h.arrived e (List.mem_filter.mp he).1
  case unlinked =>
    intro e he hx
    rw [linkEntry_unlinked] at he
    rw [hsmall] at hx
    obtain ⟨he, hne⟩ := List.mem_filter.mp he
    rw [hchain, if_neg (bne_iff_ne.mp hne)]
    exact h.unlinked e he hx
  case distinct =>
    rw [linkEntry_unlinked]
    exact h.distinct.filter _
  case waits =>
    intro x q hx htxx hq hq0 hqf
    rw [hsmall] at hx
    rw [htx] at htxx
    rw [hs.parent] at hq
    rw [hst] at hqf
    have hqp : q ≠ p := fun hqp => hpne (hqp ▸ hx.parent T hq) (hqp ▸ hq0)
    rw [hchain, if_neg hqp] at hq0
    rw [linkEntry_unlinked]
    exact List.mem_filter.mpr ⟨h.waits x q hx htxx hq hq0 hqf, bne_iff_ne.mpr hqp⟩
  case failed =>
    intro x hx hf
    rw [hsmall] at hx
    rw [hst] at hf
    rw [htx]
    exact (h.failed x hx hf).imp_left fun hne => by rwa [h.linkEntry_linked T hx hne]

/-! ## A body arrives -/

theorem node_markReceived_ne (h : x ≠ p) (nTx : Nat) (pos : DiskBlockPos) :
    (s.markReceived p nTx pos).node x = s.node x := node_modify_ne h _

theorem nTx_markReceived (nTx : Nat) (pos : DiskBlockPos) :
    ((s.markReceived p nTx pos).node p).nTx = nTx :=
  congrArg CBlockIndex.nTx (node_modify_self _)

theorem nChainTx_markReceived (nTx : Nat) (pos : DiskBlockPos) :
    ((s.markReceived p nTx pos).node p).nChainTx = 0 :=
  congrArg CBlockIndex.nChainTx (node_modify_self _)

theorem status_markReceived_failed (s : ChainState) (p : Ptr) (nTx : Nat) (pos : DiskBlockPos) (x : Ptr) :
    ((s.markReceived p nTx pos).status x).failed = (s.status x).failed :=
  same_modify (v := fun e => e.nStatus.failed) (fun e => BlockStatus.raiseValidity_failed
    { e.nStatus with haveData := true } _) x

theorem le_status_markReceived (s : ChainState) (p : Ptr) (nTx : Nat) (pos : DiskBlockPos) (x : Ptr) :
    (s.status x).valid ≤ ((s.markReceived p nTx pos).status x).valid := by
  rw [status, status, markReceived, node_modify]
  split_ifs with h
  · rw [h]
    exact BlockStatus.le_raiseValidity { (s.node p).nStatus with haveData := true } _
  · exact Nat.le_refl _

/-- What the arrival of the transactions of an entry changes. -/
structure Marks (s m : ChainState) (p : Ptr) : Prop where
  same : s.SameTree m
  other : ∀ x, x ≠ p → (m.node x).nTx = (s.node x).nTx
  fresh : (s.node p).nTx = 0
  arrived : (m.node p).nTx ≠ 0
  chain : ∀ x, (m.node x).nChainTx = (s.node x).nChainTx
  failed : ∀ x, (m.status x).failed = (s.status x).failed

theorem marks_markReceived (hp0 : (s.node p).nTx = 0) (hc0 : (s.node p).nChainTx = 0) {nTx : Nat}
    (hpos : 0 < nTx) (pos : DiskBlockPos) : s.Marks (s.markReceived p nTx pos) p where
  same := sameTree_markReceived nTx pos
  other x hx := by rw [node_markReceived_ne hx]
  fresh := hp0
  arrived := by
    rw [nTx_markReceived]
    omega
  chain x := by
    by_cases hx : x = p
    · rw [hx, hc0, nChainTx_markReceived]
    · rw [node_markReceived_ne hx]
  failed := status_markReceived_failed s p nTx pos

theorem Marks.small {m : ChainState} (M : s.Marks m p) (hx : m.Small x) : s.Small x := by
  refine ⟨M.same.known ▸ hx.known, Nat.lt_of_le_of_lt (pathTx_le M.same fun a => ?_) hx.lt⟩
  by_cases ha : a = p
  · rw [ha, M.fresh]
    exact Nat.zero_le _
  · rw [M.other a ha]

/-- The entry is on the queue, or waits in the list of those that do. -/
theorem Linking.mark {m : ChainState} (h : s.Linking []) (M : s.Marks m p) (hp : s.Known p)
    (hpf : (s.status p).failed = false) (queue : List Ptr) (l : List (Ptr × Ptr))
    (hqueue : ∀ x ∈ queue, x = p ∧ m.ParentLinked p) (hl : ∀ e ∈ s.mapBlocksUnlinked, e ∈ l)
    (hnew : ∀ e ∈ l, e ∈ s.mapBlocksUnlinked ∨ e.2 = p ∧ (m.node e.1).nChainTx = 0) (hnodup : l.Nodup)
    (hlink : m.ParentLinked p → p ∈ queue)
    (hwait : ∀ q, m.parent p = some q → (m.node q).nChainTx = 0 → (m.status q).failed = false →
      (q, p) ∈ l) : { m with mapBlocksUnlinked := l }.Linking queue := by
  have hparents : ∀ x, (m.ParentLinked x ↔ s.ParentLinked x) ∧ m.prevChainTx x = s.prevChainTx x :=
    fun x => parentLinked_same M.same fun q _ => M.chain q
  have hne : ∀ x, (m.node x).nChainTx ≠ 0 → s.Known x → x ≠ p := fun x hx hk hxp => by
    rw [M.chain, hxp] at hx
    exact h.received p hp hx M.fresh
  constructor
  case received =>
    intro x hx hc
    have hx : s.Known x := M.same.known ▸ (show m.Known x from hx)
    show (m.node x).nTx ≠ 0
    rw [M.other x (hne x hc hx)]
    exact h.received x hx (by rwa [← M.chain])
  case chain =>
    intro x hx hc
    have hx := M.small hx
    show m.ParentLinked x ∧ (m.node x).nChainTx = m.prevChainTx x + (m.node x).nTx
    rw [(hparents x).1, (hparents x).2, M.chain, M.other x (hne x hc hx.known)]
    exact h.chain x hx (by rwa [← M.chain])
  case linked =>
    intro x hx htx hlinked
    by_cases hxp : x = p
    · exact .inr (hxp ▸ hlink (hxp ▸ hlinked))
    · refine .inl ?_
      show (m.node x).nChainTx ≠ 0
      rw [M.chain]
      exact (h.linked x (M.small hx) (by rwa [← M.other x hxp]) ((hparents x).1.mp hlinked)).resolve_right
        List.not_mem_nil
  case queued =>
    intro x hmem
    rw [(hqueue x hmem).1]
    exact ⟨M.same.known ▸ hp, M.arrived⟩
  case ready =>
    intro x hmem _
    rw [(hqueue x hmem).1]
    exact ⟨(hqueue x hmem).2, (M.failed p).trans hpf⟩
  case arrived =>
    intro e he
    show (m.node e.2).nTx ≠ 0
    by_cases hep : e.2 = p
    · exact hep ▸ M.arrived
    · rw [M.other _ hep]
      exact h.arrived e ((hnew e he).resolve_right fun hnew => hep hnew.1)
  case unlinked =>
    intro e he hx
    rcases hnew e he with he | ⟨-, h0⟩
    · exact (M.chain e.1).trans (h.unlinked e he (M.small hx))
    · exact h0
  case distinct => exact hnodup
  case waits =>
    intro x q hx htx hq hq0 hqf
    by_cases hxp : x = p
    · subst hxp
      exact hwait q hq hq0 hqf
    · refine hl _ (h.waits x q (M.small hx) (by rwa [← M.other x hxp]) ?_ ?_ ?_)
      · rwa [← M.same.parent]
      · rwa [← M.chain]
      · rwa [← M.failed]
  case failed =>
    intro x hx hf
    have hf : (s.status x).failed = true := (M.failed x).symm.trans hf
    have hxp : x ≠ p := fun hxp => by
      rw [hxp, hpf] at hf
      cases hf
    show (m.node x).nChainTx ≠ 0 ∨ (m.node x).nTx = 0
    rw [M.chain, M.other x hxp]
    exact h.failed x (M.small hx) hf

/-- An entry whose transactions arrive is on the queue, or begins to wait. -/
theorem Linking.marked (h : s.Linking []) (I : s.Index)
    (htree : ∀ x, s.Known x → BLOCK_VALID_TREE ≤ (s.status x).valid) (hp : s.Known p)
    (hp0 : (s.node p).nTx = 0) (hpf : (s.status p).failed = false) {nTx : Nat} (hpos : 0 < nTx)
    (pos : DiskBlockPos) :
    ((s.markReceived p nTx pos).parentLinked p = true → (s.markReceived p nTx pos).Linking [p]) ∧
    ((s.markReceived p nTx pos).parentLinked p = false →
      ((s.markReceived p nTx pos).waitForParent p).Linking []) := by
  have hc0 : (s.node p).nChainTx = 0 := by
    by_contra hne
    exact h.received p hp hne hp0
  have M := marks_markReceived hp0 hc0 hpos pos
  have hvalid := le_status_markReceived s p nTx pos
  have hU : (s.markReceived p nTx pos).mapBlocksUnlinked = s.mapBlocksUnlinked := rfl
  generalize s.markReceived p nTx pos = m at M hvalid hU ⊢
  have hnew : ∀ q, (q, p) ∉ s.mapBlocksUnlinked := fun q hmem => h.arrived _ hmem hp0
  refine ⟨fun hl => ?_, fun hl => ?_⟩
  · have hl := parentLinked_iff.mp hl
    have hmark := h.mark M hp hpf [p] m.mapBlocksUnlinked
      (fun x hx => ⟨List.mem_singleton.mp hx, hl⟩) (fun e he => hU ▸ he) (fun e he => .inl (hU ▸ he))
      (hU ▸ h.distinct) (fun _ => List.mem_singleton_self p) fun q hq hq0 _ => absurd hq0 (hl q hq)
    exact hmark
  · have hl' : ¬ m.ParentLinked p := by
      rw [← parentLinked_iff, hl]
      exact Bool.false_ne_true
    have hlink : m.ParentLinked p → p ∈ ([] : List Ptr) := fun hl => absurd hl hl'
    unfold ParentLinked at hl'
    push Not at hl'
    obtain ⟨q, hq, hq0⟩ := hl'
    have hqk : s.Known q := I.tree.graded.closed p q hp (by rwa [M.same.parent] at hq)
    have hparent : ∀ {r}, m.parent p = some r → r = q := fun hr => Option.some.inj (hr.symm.trans hq)
    rw [waitForParent, show (m.node p).pprev = some q from hq]
    simp only
    split_ifs with hv
    · refine h.mark M hp hpf [] _ (fun x hx => absurd hx List.not_mem_nil)
        (fun e he => List.mem_append_left _ (hU ▸ he)) (fun e he => ?_) ?_ hlink
        fun r hr _ _ => hparent hr ▸ List.mem_append_right _ (List.mem_singleton_self _)
      · rcases List.mem_append.mp he with he | he
        · exact .inl (hU ▸ he)
        · rw [List.mem_singleton.mp he]
          exact .inr ⟨rfl, hq0⟩
      · rw [hU]
        exact List.nodup_append.mpr ⟨h.distinct, List.nodup_singleton _, fun a ha b hb hab =>
          hnew q (List.mem_singleton.mp hb ▸ hab ▸ ha)⟩
    · -- a failed parent gets nothing to wait for it
      have hqf : (m.status q).failed = true := by
        have hle := Nat.le_trans (htree q hqk) (hvalid q)
        simp only [BlockStatus.isValid, Bool.and_eq_true, Bool.not_eq_true', decide_eq_true_eq,
          not_and] at hv
        by_contra hf
        exact hv (Bool.eq_false_of_not_eq_true hf) hle
      have hmark := h.mark M hp hpf [] m.mapBlocksUnlinked (fun x hx => absurd hx List.not_mem_nil)
        (fun e he => hU ▸ he) (fun e he => .inl (hU ▸ he)) (hU ▸ h.distinct) hlink fun r hr _ hrf => by
          rw [hparent hr, hqf] at hrf
          cases hrf
      exact hmark

/-! ## A header arrives -/

theorem Added.pathTx (A : s.Added s' p) (T : s.Tree) (hx : s.Known x) : s'.pathTx x = s.pathTx x := by
  rw [ChainState.pathTx, ChainState.pathTx, A.height_eq hx,
    T.graded.lineage_congr (fun c hc => A.parent_eq hc) _ hx]
  refine congrArg List.sum (List.map_congr_left fun a ha => ?_)
  rw [A.node a (T.graded.anc_mem (T.graded.mem_lineage hx ha).1 hx)]

/-- A new entry has no transactions. -/
theorem Linking.added (h : s.Linking []) (A : s.Added s' p) (I : s.Index) : s'.Linking [] := by
  have T := I.tree
  have hold : ∀ {x}, s'.Known x → (s'.node x).nTx ≠ 0 → s.Known x := fun hx htx =>
    (A.known.mp hx).resolve_right fun hxp => htx (hxp ▸ A.nTx)
  have hsmall : ∀ {x}, s.Known x → s'.Small x → s.Small x := fun hx hx' => ⟨hx, A.pathTx T hx ▸ hx'.lt⟩
  have hparents : ∀ x, s.Known x → (s'.ParentLinked x ↔ s.ParentLinked x) := fun x hx => by
    unfold ParentLinked
    rw [A.parent_eq hx]
    exact forall₂_congr fun q hq => by rw [A.node q (T.graded.closed x q hx hq)]
  have hprev : ∀ x, s.Known x → s'.prevChainTx x = s.prevChainTx x := fun x hx => by
    rw [prevChainTx, prevChainTx, A.node x hx]
    cases hq : (s.node x).pprev with
    | none => rfl
    | some q => exact congrArg CBlockIndex.nChainTx (A.node q (T.graded.closed x q hx hq))
  have hlinked : ∀ {x}, s'.Known x → (s'.node x).nChainTx ≠ 0 → s.Known x := fun hx hne =>
    (A.known.mp hx).resolve_right fun hxp => hne (hxp ▸ A.nChainTx)
  constructor
  case received =>
    intro x hx hne
    have hk := hlinked hx hne
    rw [A.node x hk] at hne ⊢
    exact h.received x hk hne
  case chain =>
    intro x hx hne
    have hk := hlinked hx.known hne
    rw [A.node x hk] at hne ⊢
    rw [hparents x hk, hprev x hk]
    exact h.chain x (hsmall hk hx) hne
  case linked =>
    intro x hx htx hl
    have hk := hold hx.known htx
    rw [hparents x hk] at hl
    rw [A.node x hk] at htx ⊢
    exact h.linked x (hsmall hk hx) htx hl
  case queued => exact fun x hx => absurd hx List.not_mem_nil
  case ready => exact fun x hx => absurd hx List.not_mem_nil
  case arrived =>
    intro e he
    rw [A.unlinked] at he
    rw [A.node _ (I.unlinked e he).1]
    exact h.arrived e he
  case unlinked =>
    intro e he hx
    rw [A.unlinked] at he
    obtain ⟨hk, hparent⟩ := I.unlinked e he
    rw [A.node _ (T.graded.closed _ _ hk hparent)]
    exact h.unlinked e he (hsmall hk hx)
  case distinct =>
    rw [A.unlinked]
    exact h.distinct
  case waits =>
    intro x q hx htx hq hq0 hqf
    have hk := hold hx.known htx
    rw [A.parent_eq hk] at hq
    have hqk := T.graded.closed x q hk hq
    rw [A.node x hk] at htx
    rw [A.node q hqk] at hq0
    rw [A.status_eq hqk] at hqf
    rw [A.unlinked]
    exact h.waits x q (hsmall hk hx) htx hq hq0 hqf
  case failed =>
    intro x hx hf
    rcases A.known.mp hx.known with hk | rfl
    · rw [A.status_eq hk] at hf
      rw [A.node x hk]
      exact h.failed x (hsmall hk hx) hf
    · exact .inr A.nTx

theorem linking_empty : empty.Linking [] where
  received _ hx := absurd hx List.not_mem_nil
  chain _ hx := absurd hx.known List.not_mem_nil
  linked _ hx := absurd hx.known List.not_mem_nil
  queued _ hx := absurd hx List.not_mem_nil
  ready _ hx := absurd hx List.not_mem_nil
  arrived _ he := absurd he List.not_mem_nil
  unlinked _ he := absurd he List.not_mem_nil
  distinct := List.nodup_nil
  waits _ _ hx := absurd hx.known List.not_mem_nil
  failed _ hx := absurd hx.known List.not_mem_nil

/-! ## Arrivals -/

/-- The invariant between arrivals, none of which is failed. -/
structure Links (s : ChainState) : Prop where
  index : s.Index
  linking : s.Linking []
  data : ∀ p, s.Known p → ((s.status p).haveData = true ↔ (s.node p).nTx ≠ 0)
  valid : ∀ p, s.Known p → (s.status p).isValid BLOCK_VALID_TREE = true

theorem isValid_tree_iff {st : BlockStatus} :
    st.isValid BLOCK_VALID_TREE = true ↔ st.failed = false ∧ BLOCK_VALID_TREE ≤ st.valid := by
  rw [BlockStatus.isValid, Bool.and_eq_true, Bool.not_eq_true', decide_eq_true_eq]

/-- `ReceivedBlockTransactions` keeps the invariant. -/
theorem Links.received (h : s.Links) (hp : s.Known p) (hdata : (s.status p).haveData = false)
    {nTx : Nat} (hpos : 0 < nTx) (pos : DiskBlockPos) :
    (s.receivedBlockTransactions p nTx pos).Links := by
  have hp0 : (s.node p).nTx = 0 := by
    by_contra htx
    rw [(h.data p hp).mpr htx] at hdata
    cases hdata
  have hvalid := fun x hx => isValid_tree_iff.mp (h.valid x hx)
  obtain ⟨hlink, hwait⟩ := h.linking.marked h.index (fun x hx => (hvalid x hx).2) hp hp0 (hvalid p hp).1
    hpos pos
  have hmark := kept_markReceived s p nTx pos
  have hpm : (s.markReceived p nTx pos).Known p := hp
  have hrun := received_rule (s := s) (p := p) (I := fun queue t => s.Kept t ∧ t.Linking queue) nTx pos
    (fun x queue t ht => ?_) (fun hl => ⟨hmark, hlink hl⟩)
    fun hl => ⟨hmark.trans (kept_waitForParent hpm), hwait hl⟩
  · have hkept := hrun.1
    have hsame := same_marked_received (s := s) (p := p) (v := fun e => (e.nTx, e.nStatus))
      (fun _ _ => same_assignLink fun _ _ _ => rfl) nTx pos
    refine ⟨h.index.kept hkept, hrun.2, fun x hx => ?_, fun x hx => ?_⟩
    · have hx' := Prod.mk.inj (hsame x)
      rw [hkept.same.known] at hx
      rw [status, hx'.1, hx'.2]
      by_cases hxp : x = p
      · subst hxp
        rw [nTx_markReceived]
        refine ⟨fun _ => by omega, fun _ => ?_⟩
        rw [show (s.markReceived x nTx pos).node x = _ from node_modify_self _]
        exact BlockStatus.raiseValidity_haveData _ _
      · rw [node_markReceived_ne hxp]
        exact h.data x hx
    · rw [hkept.same.known] at hx
      rw [status, (Prod.mk.inj (hsame x)).2]
      exact isValid_tree_iff.mpr ⟨(status_markReceived_failed s p nTx pos x).trans (hvalid x hx).1,
        Nat.le_trans (hvalid x hx).2 (le_status_markReceived s p nTx pos x)⟩
  · obtain ⟨hk, hlx⟩ := ht
    have hxt := (hlx.queued x (List.mem_cons_self ..)).1
    exact ⟨hk.trans (kept_linkEntry hxt), hlx.linkEntry (h.index.kept hk)⟩

/-- A new entry keeps the invariant. -/
theorem Links.added (h : s.Links) (A : s.Added s' p) : s'.Links := by
  refine ⟨A.toIndex h.index, h.linking.added A h.index, fun x hx => ?_, fun x hx => ?_⟩
  · rcases A.known.mp hx with hk | rfl
    · rw [A.status_eq hk, A.node x hk]
      exact h.data x hk
    · rw [A.haveData, A.nTx]
      exact ⟨fun h => (by cases h), fun h => absurd rfl h⟩
  · rcases A.known.mp hx with hk | rfl
    · rw [A.status_eq hk]
      exact h.valid x hk
    · rw [BlockStatus.isValid, A.failed, A.valid]
      decide

theorem links_empty : empty.Links where
  index := index_empty
  linking := linking_empty
  data _ hx := absurd hx List.not_mem_nil
  valid _ hx := absurd hx List.not_mem_nil

/-- Headers and bodies arrive. -/
def Arrives : Op → ChainState → Prop
  | .header .., _ => True
  | .body .., _ => True
  | _, _ => False

theorem Links.step (h : s.Links) {op : Op} (hop : Arrives op s) (hstep : step op s = some s') :
    s'.Links := by
  cases op with
  | header hash block pindexNew =>
    simp only [ChainState.step] at hstep
    split_ifs at hstep with hnew
    cases hstep
    unfold addToBlockIndex
    split
    · exact h
    · exact h.added (added_addEntry hash block hnew)
  | body p nTx pos =>
    simp only [ChainState.step] at hstep
    split_ifs at hstep with hwants
    cases hstep
    obtain ⟨hwants, hpos, -⟩ := hwants
    simp only [wantsBody, Bool.and_eq_true, decide_eq_true_eq, Bool.not_eq_true'] at hwants
    exact h.received hwants.1.1 hwants.2 hpos pos
  | _ => exact hop.elim

/-- Headers and bodies arrive in any order. An entry with fewer than `2 ^ 32` transactions up to it
has its total exactly when they have all been received; else, when its own have been received, it
waits once, for its parent. -/
theorem links_runs (h : Runs Arrives s) (hp : s.Known p) (hlt : s.pathTx p < 2 ^ 32) :
    ((s.node p).nChainTx ≠ 0 ↔ s.Received p) ∧
      (s.Received p → (s.node p).nChainTx = s.pathTx p) ∧
      ((s.status p).haveData = true → ¬ s.Received p →
        ∃ q, s.parent p = some q ∧ s.mapBlocksUnlinked.filter (fun e => e.2 == p) = [(q, p)]) := by
  have L : s.Links := Reachable.invariant (I := Links) (fun s (hs : s = empty) => hs ▸ links_empty)
    (fun op s s' hs hop hstep => hs.step hop hstep) h
  have T := L.index.tree
  have hx : s.Small p := ⟨hp, hlt⟩
  have hiff : (s.node p).nChainTx ≠ 0 ↔ s.Received p :=
    ⟨L.linking.received_of_linked T hx, L.linking.complete T hx⟩
  refine ⟨hiff, fun hr => L.linking.sum T hx (hiff.mpr hr), fun hd hr => ?_⟩
  have htx := (L.data p hp).mp hd
  have hwait : ∃ q, s.parent p = some q ∧ (s.node q).nChainTx = 0 := by
    by_contra hnone
    push Not at hnone
    exact hr (hiff.mp ((L.linking.linked p hx htx hnone).resolve_right List.not_mem_nil))
  obtain ⟨q, hq, hq0⟩ := hwait
  refine ⟨q, hq, ?_⟩
  have hqf := (isValid_tree_iff.mp (L.valid q (T.graded.closed p q hp hq))).1
  have hmem := L.linking.waits p q hx htx hq hq0 hqf
  have hfilter : s.mapBlocksUnlinked.filter (fun e => e.2 == p) =
      s.mapBlocksUnlinked.filter (fun e => e == (q, p)) := by
    refine List.filter_congr fun e he => ?_
    rw [Bool.eq_iff_iff, beq_iff_eq, beq_iff_eq]
    refine ⟨fun hep => ?_, fun hep => by rw [hep]⟩
    obtain ⟨-, hparent⟩ := L.index.unlinked e he
    rw [hep, hq] at hparent
    exact Prod.ext (Option.some.inj hparent).symm hep
  rw [hfilter, List.filter_beq, List.count_eq_one_of_mem L.linking.distinct hmem]
  rfl

/-- Block 3 arrives before block 2, and waits for it. -/
def waitingRun : List Op :=
  sampleArrival 1 0 1 ++ [.header 2 ⟨1, 1, 0, 0, 0x207fffff, 2⟩ 2] ++ sampleArrival 3 2 5

instance (op : Op) (s : ChainState) : Decidable (Arrives op s) :=
  match op with
  | .header .. => isTrue trivial
  | .body .. => isTrue trivial
  | .reject _ => isFalse id
  | .findMostWork => isFalse id
  | .activate _ => isFalse id
  | .invalidate _ => isFalse id
  | .reconsider _ => isFalse id
  | .prune _ => isFalse id

theorem waitingRun_links : ∃ s, Runs Arrives s ∧ ((s.status 3).haveData = true ∧ s.pathTx 3 = 6) ∧
    ((s.node 3).nChainTx ≠ 0 ↔ s.Received 3) ∧
      (s.Received 3 → (s.node 3).nChainTx = s.pathTx 3) ∧
      ((s.status 3).haveData = true → ¬ s.Received 3 →
        ∃ q, s.parent 3 = some q ∧ s.mapBlocksUnlinked.filter (fun e => e.2 == 3) = [(q, 3)]) := by
  have hrun : (run (guarded ChainState.step Arrives) waitingRun empty).any (fun s =>
    decide (s.Known 3 ∧ (s.status 3).haveData = true ∧ s.pathTx 3 = 6)) = true := by decide +kernel
  cases hs : run (guarded ChainState.step Arrives) waitingRun empty with
  | none => rw [hs] at hrun; cases hrun
  | some s =>
    rw [hs] at hrun
    obtain ⟨hp, hdata, hsum⟩ := of_decide_eq_true hrun
    have hreach : Runs Arrives s := (show Runs Arrives empty from .init rfl).guarded hs
    exact ⟨s, hreach, ⟨hdata, hsum⟩, links_runs hreach hp (by rw [hsum]; decide)⟩

/-- Two blocks with `2 ^ 31` transactions each arrive, and the sum wraps around to zero. -/
def wrappingRun : List Op := sampleArrival 1 0 (2 ^ 31) ++ sampleArrival 2 1 (2 ^ 31)

theorem wrappingRun_unlinked : ¬ ∀ s, Runs Arrives s → ∀ p, s.Known p →
    ((s.node p).nChainTx ≠ 0 ↔ s.Received p) := by
  intro hall
  have hrun : (run (guarded ChainState.step Arrives) wrappingRun empty).any (fun s =>
    decide (s.mapBlockIndex = [1, 2] ∧ (s.node 2).nChainTx = 0 ∧ (s.node 1).nTx ≠ 0 ∧
      (s.node 2).nTx ≠ 0)) = true := by decide +kernel
  cases hs : run (guarded ChainState.step Arrives) wrappingRun empty with
  | none => rw [hs] at hrun; cases hrun
  | some s =>
    rw [hs] at hrun
    obtain ⟨hindex, h0, h₁, h₂⟩ := of_decide_eq_true hrun
    have hreach : Runs Arrives s := (show Runs Arrives empty from .init rfl).guarded hs
    have hk : s.Known 2 := by rw [Known, hindex]; decide
    refine (hall s hreach 2 hk).mpr (fun a ha => ?_) h0
    have hak := hreach.index.tree.graded.anc_mem ha hk
    rw [Known, hindex] at hak
    rcases List.mem_pair.mp hak with rfl | rfl
    · exact h₁
    · exact h₂

end ChainState

end GC
