import GameCredits.Proof.Tree

/-!
# What the operations do, update by update

Every operation on the chain state is a sequence of updates (`ChainState.Update`), each with what
is known where it is made; invariants are proved update by update. `ChainState.Index` is the
invariant that all of them share: the tree, the active chain, and that the sets hold entries of the
index.

* `linkQueue_rule`: the invariant rule of the loop of `ReceivedBlockTransactions`.
* `Index.update`: every update keeps `Index`.
-/

namespace GC

open Framework

namespace ChainState

variable {s s' : ChainState} {p q : Ptr}

/-! ## Fields after a change -/

theorem node_modify (f : CBlockIndex → CBlockIndex) :
    (s.modify p f).node q = if q = p then f (s.node p) else s.node q := rfl

@[simp] theorem node_modify_self (f : CBlockIndex → CBlockIndex) :
    (s.modify p f).node p = f (s.node p) := if_pos rfl

theorem node_modify_ne (h : q ≠ p) (f : CBlockIndex → CBlockIndex) :
    (s.modify p f).node q = s.node q := if_neg h

/-- The fields `v` of all entries stay the same. -/
def Same {β : Type} (v : CBlockIndex → β) (s s' : ChainState) : Prop :=
  ∀ q, v (s'.node q) = v (s.node q)

section

variable {β : Type} {v : CBlockIndex → β}

theorem Same.refl (s : ChainState) : Same v s s := fun _ => rfl

theorem Same.trans {s s' s'' : ChainState} (h : Same v s s') (h' : Same v s' s'') : Same v s s'' :=
  fun q => (h' q).trans (h q)

theorem same_of_node (h : s'.node = s.node) : Same v s s' := fun q => by rw [h]

theorem same_modify {f : CBlockIndex → CBlockIndex} (hf : ∀ e, v (f e) = v e) :
    Same v s (s.modify p f) := fun q => by
  rw [node_modify]
  split_ifs with h
  · rw [h, hf]
  · rfl

theorem foldl_same {f : ChainState → Ptr → ChainState} (hf : ∀ s p, Same v s (f s p))
    (l : List Ptr) (s : ChainState) : Same v s (l.foldl f s) := by
  induction l generalizing s with
  | nil => exact .refl s
  | cons p l ih => exact (hf s p).trans (ih _)

theorem same_clearAncestors (hclear : ∀ s p, Same v s (s.clearFailed p)) :
    ∀ (fuel : Nat) (p : Option Ptr) (s : ChainState), Same v s (clearAncestors fuel p s)
  | 0, _, s => .refl s
  | _ + 1, none, s => .refl s
  | fuel + 1, some p, s => by
    have h : Same v s (if (s.node p).nStatus.failed then s.clearFailed p else s) := by
      split_ifs
      · exact hclear s p
      · exact .refl s
    exact h.trans (same_clearAncestors hclear fuel _ _)

theorem node_reconsiderEntry (p : Ptr) (n : Nat) (tip : Ptr) :
    (reconsiderEntry p n tip s q).node =
      if !(s.node q).nStatus.isValid BLOCK_VALID_TRANSACTIONS && s.getAncestor q n == some p
      then (s.clearFailed q).node else s.node := by
  unfold reconsiderEntry
  simp only
  split_ifs <;> rfl

theorem same_reconsiderBlock (hclear : ∀ s p, Same v s (s.clearFailed p))
    (h : s.reconsiderBlock p = some s') : Same v s s' := by
  unfold reconsiderBlock at h
  cases ht : s.tip with
  | none => rw [ht] at h; cases h
  | some tip =>
    rw [ht] at h
    cases h
    refine (foldl_same (fun t q => ?_) _ s).trans (same_clearAncestors hclear _ _ _)
    intro a
    rw [node_reconsiderEntry]
    split_ifs
    · exact hclear t q a
    · rfl

theorem same_assignLink
    (hv : ∀ (e : CBlockIndex) (n m : Nat), v { e with nChainTx := n, nSequenceId := m } = v e) :
    Same v s (s.assignLink p) := by
  have h : Same v s (s.modify p fun e =>
      { e with nChainTx := (s.prevChainTx p + e.nTx) % 2 ^ 32, nSequenceId := s.nBlockSequenceId }) :=
    same_modify fun e => hv e _ _
  exact h

theorem same_pruneOneBlockFile (n : Nat)
    (hv : ∀ e : CBlockIndex, v { e with
      nStatus := { e.nStatus with haveData := false, haveUndo := false }
      nFile := 0
      nDataPos := 0
      nUndoPos := 0 } = v e) : Same v s (s.pruneOneBlockFile n) := by
  refine foldl_same (fun t q => ?_) _ s
  have h := same_modify (s := t) (p := q) hv
  unfold pruneEntry
  simp only
  split_ifs
  · exact h
  · exact .refl t

theorem node_prune (h : s.pruneBlockIndexCandidates = some s') : s'.node = s.node := by
  unfold pruneBlockIndexCandidates at h
  simp only at h
  split_ifs at h
  cases h
  rfl

theorem node_readdCandidate : (s.readdCandidate p).node = s.node := by
  unfold readdCandidate
  split_ifs <;> rfl

theorem node_foldl_readd (l : List Ptr) (s : ChainState) :
    (l.foldl readdCandidate s).node = s.node := by
  induction l generalizing s with
  | nil => rfl
  | cons p l ih => exact (ih _).trans node_readdCandidate

end

theorem sameTree_modify {f : CBlockIndex → CBlockIndex} (hf : ∀ e, (f e).place = e.place) :
    s.SameTree (s.modify p f) := by
  refine ⟨rfl, fun q => ?_⟩
  rw [node_modify]
  split_ifs with h
  · rw [h, hf]
  · rfl

theorem sameTree_of_node (hn : s'.node = s.node) (hi : s'.mapBlockIndex = s.mapBlockIndex) :
    s.SameTree s' := ⟨hi, fun q => by rw [hn]⟩

theorem sameTree_modifyStatus (f : BlockStatus → BlockStatus) : s.SameTree (s.modifyStatus p f) :=
  sameTree_modify fun _ => rfl

theorem sameTree_markInvalid : s.SameTree (s.markInvalid p) :=
  ⟨rfl, (sameTree_modifyStatus (p := p) fun st => { st with failedValid := true }).place⟩

theorem sameTree_recordConnected (n : Nat) : s.SameTree (s.recordConnected p n) := by
  unfold recordConnected
  split
  · exact .refl s
  · exact sameTree_modify fun _ => rfl

theorem sameTree_requeue : s.SameTree (s.requeue p) := by
  unfold requeue
  split
  · exact sameTree_of_node rfl rfl
  · exact sameTree_of_node rfl rfl

theorem sameTree_markReceived (nTx : Nat) (pos : DiskBlockPos) :
    s.SameTree (s.markReceived p nTx pos) := sameTree_modify fun _ => rfl

theorem sameTree_assignLink : s.SameTree (s.assignLink p) :=
  ⟨rfl, (sameTree_modify (s := s) (p := p) (f := fun e =>
    { e with nChainTx := (s.prevChainTx p + e.nTx) % 2 ^ 32, nSequenceId := s.nBlockSequenceId })
    fun _ => rfl).place⟩

theorem node_offerCandidate : (s.offerCandidate p).node = s.node := by
  unfold offerCandidate; split_ifs <;> rfl

theorem sameTree_linkEntry : s.SameTree (s.linkEntry p) := by
  refine sameTree_assignLink.trans (sameTree_of_node node_offerCandidate ?_)
  show ((s.assignLink p).offerCandidate p).mapBlockIndex = _
  unfold offerCandidate
  split_ifs <;> rfl

/-! ## The loop of `ReceivedBlockTransactions` -/

theorem length_waiting (s : ChainState) (p : Ptr) :
    (s.waiting p).length + (s.mapBlocksUnlinked.filter fun e => e.1 != p).length =
      s.mapBlocksUnlinked.length := by
  rw [waiting, List.length_map]
  have := List.length_eq_length_filter_add (l := s.mapBlocksUnlinked) fun e => e.1 == p
  rw [this]
  rfl

theorem linkEntry_unlinked (s : ChainState) (p : Ptr) :
    (s.linkEntry p).mapBlocksUnlinked = s.mapBlocksUnlinked.filter fun e => e.1 != p := by
  unfold linkEntry offerCandidate
  split_ifs <;> rfl

/-- What every round keeps, of the entries on the queue and the state, holds with an empty queue at
the end. -/
theorem linkQueue_rule {I : List Ptr → ChainState → Prop}
    (hstep : ∀ p queue s, I (p :: queue) s → I (queue ++ s.waiting p) (s.linkEntry p))
    {fuel : Nat} {queue : List Ptr} {s : ChainState}
    (hfuel : queue.length + s.mapBlocksUnlinked.length ≤ fuel) (h : I queue s) :
    I [] (linkQueue fuel queue s) := by
  induction fuel generalizing queue s with
  | zero =>
    obtain rfl : queue = [] := List.eq_nil_of_length_eq_zero (by omega)
    exact h
  | succ fuel ih =>
    rcases queue with _ | ⟨p, queue⟩
    · exact h
    · refine ih ?_ (hstep p queue s h)
      have := length_waiting s p
      rw [List.length_append, linkEntry_unlinked]
      rw [List.length_cons] at hfuel
      omega

/-- The same for `ReceivedBlockTransactions`: `I` holds when the entry has been marked and is on the
queue, or waits for its parent. -/
theorem received_rule {I : List Ptr → ChainState → Prop} (nTx : Nat) (pos : DiskBlockPos)
    (hstep : ∀ p queue s, I (p :: queue) s → I (queue ++ s.waiting p) (s.linkEntry p))
    (hlink : (s.markReceived p nTx pos).parentLinked p = true → I [p] (s.markReceived p nTx pos))
    (hwait : (s.markReceived p nTx pos).parentLinked p = false →
      I [] ((s.markReceived p nTx pos).waitForParent p)) :
    I [] (s.receivedBlockTransactions p nTx pos) := by
  unfold receivedBlockTransactions
  simp only
  split_ifs with h
  · exact linkQueue_rule hstep (by rw [List.length_singleton]; omega) (hlink h)
  · exact hwait (by simpa using h)

theorem same_linkEntry {β : Type} {v : CBlockIndex → β} (hlink : Same v s (s.assignLink p)) :
    Same v s (s.linkEntry p) :=
  hlink.trans (same_of_node (node_offerCandidate (s := s.assignLink p) (p := p)))

theorem node_waitForParent : (s.waitForParent p).node = s.node := by
  unfold waitForParent
  split
  · rfl
  · split_ifs <;> rfl

/-- The loop changes only what links the entries. -/
theorem same_marked_received {β : Type} {v : CBlockIndex → β}
    (hlink : ∀ t q, Same v t (t.assignLink q)) (nTx : Nat) (pos : DiskBlockPos) :
    Same v (s.markReceived p nTx pos) (s.receivedBlockTransactions p nTx pos) :=
  received_rule (I := fun _ t => Same v (s.markReceived p nTx pos) t) nTx pos
    (fun q _ t h => h.trans (same_linkEntry (hlink t q))) (fun _ => .refl _)
    fun _ => same_of_node node_waitForParent

theorem same_received {β : Type} {v : CBlockIndex → β} {nTx : Nat} {pos : DiskBlockPos}
    (hmark : Same v s (s.markReceived p nTx pos)) (hlink : ∀ t q, Same v t (t.assignLink q)) :
    Same v s (s.receivedBlockTransactions p nTx pos) :=
  hmark.trans (same_marked_received hlink nTx pos)

/-! ## The shared invariant -/

/-- The tree, the active chain, and sets that hold entries of the index. -/
structure Index (s : ChainState) : Prop where
  tree : s.Tree
  path : s.Path
  members : ∀ p ∈ s.setBlockIndexCandidates, s.Known p
  unlinked : ∀ e ∈ s.mapBlocksUnlinked, s.Known e.2 ∧ s.parent e.2 = some e.1

/-- What all updates but those of the tree and of the tip leave alone, and what they may add to the
sets. -/
structure Kept (s s' : ChainState) : Prop where
  same : s.SameTree s'
  chain : s'.vChain = s.vChain
  undo : ∀ p, (s'.status p).haveUndo = true → (s.status p).haveUndo = true
  members : ∀ p ∈ s'.setBlockIndexCandidates, p ∈ s.setBlockIndexCandidates ∨ s.Known p
  unlinked : ∀ e ∈ s'.mapBlocksUnlinked,
    e ∈ s.mapBlocksUnlinked ∨ s.Known e.2 ∧ s.parent e.2 = some e.1

theorem Kept.refl (s : ChainState) : s.Kept s :=
  ⟨.refl s, rfl, fun _ h => h, fun _ h => .inl h, fun _ h => .inl h⟩

theorem Kept.trans {s s' s'' : ChainState} (h : s.Kept s') (h' : s'.Kept s'') : s.Kept s'' where
  same := h.same.trans h'.same
  chain := h'.chain.trans h.chain
  undo p hp := h.undo p (h'.undo p hp)
  members p hp := by
    rcases h'.members p hp with hp | hp
    · exact h.members p hp
    · rw [h.same.known] at hp; exact .inr hp
  unlinked e he := by
    rcases h'.unlinked e he with he | he
    · exact h.unlinked e he
    · rw [h.same.known, h.same.parent] at he; exact .inr he

theorem Index.kept (I : s.Index) (h : s.Kept s') : s'.Index where
  tree := I.tree.same h.same fun p _ hp => .inl (h.undo p hp)
  path := I.path.same h.same h.chain
  members p hp := by
    rw [h.same.known]
    exact (h.members p hp).elim (I.members p) id
  unlinked e he := by
    rw [h.same.known, h.same.parent]
    exact (h.unlinked e he).elim (I.unlinked e) id

theorem kept_insertCandidate (h : s.Known p) : s.Kept (s.insertCandidate p) :=
  ⟨⟨rfl, fun _ => rfl⟩, rfl, fun _ h => h,
    fun _ hq => (SortedSet.of_mem_insert hq).elim (fun h' => .inr (h' ▸ h)) .inl, fun _ h => .inl h⟩

theorem kept_eraseCandidate (s : ChainState) (p : Ptr) : s.Kept (s.eraseCandidate p) :=
  ⟨⟨rfl, fun _ => rfl⟩, rfl, fun _ h => h,
    fun _ hq => .inl ((SortedSet.erase_sublist p _).subset hq), fun _ h => .inl h⟩

theorem kept_modify {f : CBlockIndex → CBlockIndex} (hf : ∀ e, (f e).place = e.place)
    (hu : ∀ e, (f e).nStatus.haveUndo = true → e.nStatus.haveUndo = true) :
    s.Kept (s.modify p f) := by
  refine ⟨sameTree_modify hf, rfl, fun q hq => ?_, fun _ h => .inl h, fun _ h => .inl h⟩
  rw [status, node_modify] at hq
  split_ifs at hq with h
  · rw [status, h]; exact hu _ hq
  · exact hq

theorem kept_modifyStatus {f : BlockStatus → BlockStatus}
    (hu : ∀ st, (f st).haveUndo = true → st.haveUndo = true) : s.Kept (s.modifyStatus p f) :=
  kept_modify (fun _ => rfl) fun e => hu e.nStatus

theorem kept_rejectBlock (s : ChainState) (p : Ptr) : s.Kept (s.rejectBlock p) :=
  kept_modifyStatus fun _ h => h

theorem kept_markInvalid (s : ChainState) (p : Ptr) : s.Kept (s.markInvalid p) :=
  (kept_rejectBlock s p).trans (kept_eraseCandidate _ p)

theorem kept_markFailedChild (s : ChainState) (p : Ptr) : s.Kept (s.markFailedChild p) := by
  have h : s.Kept (s.modifyStatus p fun st => { st with failedChild := true }) :=
    kept_modifyStatus fun _ h => h
  exact h.trans (kept_eraseCandidate _ p)

theorem kept_unlinked (h : s.Known p) (hq : s.parent p = some q) :
    s.Kept { s with mapBlocksUnlinked := s.mapBlocksUnlinked ++ [(q, p)] } := by
  refine ⟨⟨rfl, fun _ => rfl⟩, rfl, fun _ h => h, fun _ h => .inl h, fun e he => ?_⟩
  rcases List.mem_append.mp he with he | he
  · exact .inl he
  · obtain rfl := List.mem_singleton.mp he
    exact .inr ⟨h, hq⟩

theorem kept_requeue (h : s.Known p) : s.Kept (s.requeue p) := by
  unfold requeue
  split
  · exact kept_eraseCandidate s p
  · next q hq =>
    exact (kept_unlinked h hq).trans (kept_eraseCandidate _ p)

theorem kept_sets {cs : List Ptr} {us : List (Ptr × Ptr)} {n : Nat} {bi bh : Option Ptr}
    {tl : List Ptr} (hc : ∀ p ∈ cs, p ∈ s.setBlockIndexCandidates)
    (hu : ∀ e ∈ us, e ∈ s.mapBlocksUnlinked) :
    s.Kept ⟨s.node, s.mapBlockIndex, cs, us, s.vChain, n, bi, bh, tl⟩ :=
  ⟨⟨rfl, fun _ => rfl⟩, rfl, fun _ h => h, fun p hp => .inl (hc p hp), fun e he => .inl (hu e he)⟩

theorem kept_invalidChainFound (s : ChainState) (p : Ptr) : s.Kept (s.invalidChainFound p) :=
  kept_sets (fun _ h => h) fun _ h => h

theorem kept_prune (h : s.pruneBlockIndexCandidates = some s') : s.Kept s' := by
  unfold pruneBlockIndexCandidates at h
  simp only at h
  split_ifs at h
  cases h
  exact kept_sets (fun _ hp => (List.dropWhile_sublist _).subset hp) fun _ h => h

theorem kept_readdCandidate (h : s.Known p) : s.Kept (s.readdCandidate p) := by
  unfold readdCandidate
  split_ifs
  · exact kept_insertCandidate h
  · exact .refl s

theorem kept_offerCandidate (h : s.Known p) : s.Kept (s.offerCandidate p) := by
  unfold offerCandidate
  split_ifs
  · exact .refl s
  · exact kept_insertCandidate h

theorem kept_assignLink (s : ChainState) (p : Ptr) : s.Kept (s.assignLink p) := by
  have h : s.Kept (s.modify p fun e =>
      { e with nChainTx := (s.prevChainTx p + e.nTx) % 2 ^ 32, nSequenceId := s.nBlockSequenceId }) :=
    kept_modify (fun _ => rfl) fun _ h => h
  exact h.trans (kept_sets (fun _ h => h) fun _ h => h)

theorem kept_linkEntry (h : s.Known p) : s.Kept (s.linkEntry p) :=
  ((kept_assignLink s p).trans (kept_offerCandidate (by rwa [sameTree_assignLink.known]))).trans
    (kept_sets (fun _ h => h) fun _ h => (List.mem_filter.mp h).1)

theorem kept_markReceived (s : ChainState) (p : Ptr) (nTx : Nat) (pos : DiskBlockPos) :
    s.Kept (s.markReceived p nTx pos) :=
  kept_modify (fun _ => rfl) fun e h =>
    (BlockStatus.raiseValidity_haveUndo { e.nStatus with haveData := true } _).symm.trans h

theorem kept_waitForParent (h : s.Known p) : s.Kept (s.waitForParent p) := by
  unfold waitForParent
  split
  · exact .refl s
  · next q hq =>
    split_ifs
    · exact kept_unlinked h hq
    · exact .refl s

theorem mem_waiting : q ∈ s.waiting p ↔ (p, q) ∈ s.mapBlocksUnlinked := by
  rw [waiting, List.mem_map]
  constructor
  · rintro ⟨⟨a, b⟩, he, rfl⟩
    obtain ⟨hm, ha⟩ := List.mem_filter.mp he
    rw [beq_iff_eq] at ha
    subst ha
    exact hm
  · exact fun h => ⟨(p, q), List.mem_filter.mpr ⟨h, beq_self_eq_true p⟩, rfl⟩

theorem Index.received (I : s.Index) (h : s.Known p) (nTx : Nat) (pos : DiskBlockPos) :
    s.Kept (s.receivedBlockTransactions p nTx pos) := by
  have hmark := kept_markReceived s p nTx pos
  have hp : (s.markReceived p nTx pos).Known p := by rwa [hmark.same.known]
  have := received_rule (I := fun queue t => s.Kept t ∧ ∀ q ∈ queue, s.Known q) (s := s) (p := p)
    nTx pos ?_ (fun _ => ⟨hmark, fun q hq => List.mem_singleton.mp hq ▸ h⟩)
    (fun _ => ⟨hmark.trans (kept_waitForParent hp), fun q hq => by cases hq⟩)
  · exact this.1
  · rintro p queue t ⟨hk, hq⟩
    have hpt : t.Known p := by rw [hk.same.known]; exact hq p (List.mem_cons_self ..)
    refine ⟨hk.trans (kept_linkEntry hpt), fun q hq' => ?_⟩
    rcases List.mem_append.mp hq' with hq' | hq'
    · exact hq q (List.mem_cons_of_mem _ hq')
    · have := ((I.kept hk).unlinked _ (mem_waiting.mp hq')).1
      rwa [hk.same.known] at this

theorem foldl_kept {f : ChainState → Ptr → ChainState}
    (hf : ∀ (s : ChainState) (p : Ptr), s.Known p → s.Kept (f s p)) :
    ∀ {l : List Ptr} {s : ChainState}, (∀ p ∈ l, s.Known p) → s.Kept (l.foldl f s)
  | [], s, _ => .refl s
  | p :: l, s, hl => by
    have hk := hf s p (hl p (List.mem_cons_self ..))
    refine hk.trans (foldl_kept hf fun q hq => ?_)
    rw [hk.same.known]
    exact hl q (List.mem_cons_of_mem _ hq)

theorem kept_clearFailed (s : ChainState) (p : Ptr) : s.Kept (s.clearFailed p) :=
  kept_modifyStatus fun _ h => h

theorem kept_reconsiderEntry (p : Ptr) (n : Nat) (tip : Ptr) (h : s.Known q) :
    s.Kept (reconsiderEntry p n tip s q) := by
  have hins : ∀ t : ChainState, s.Kept t → s.Kept (t.insertCandidate q) := fun t ht =>
    ht.trans (kept_insertCandidate (by rwa [ht.same.known]))
  have hbest : ∀ (t : ChainState) (b : Option Ptr), s.Kept t →
      s.Kept { t with pindexBestInvalid := b } := fun t b ht =>
    ht.trans (kept_sets (fun _ h => h) fun _ h => h)
  unfold reconsiderEntry
  simp only
  split_ifs
  · exact hbest _ _ (hins _ (kept_clearFailed s q))
  · exact hins _ (kept_clearFailed s q)
  · exact hbest _ _ (kept_clearFailed s q)
  · exact kept_clearFailed s q
  · exact .refl s

theorem kept_clearAncestors : ∀ (fuel : Nat) (p : Option Ptr) (s : ChainState),
    s.Kept (clearAncestors fuel p s)
  | 0, _, s => .refl s
  | _ + 1, none, s => .refl s
  | fuel + 1, some p, s => by
    have h : s.Kept (if (s.node p).nStatus.failed then s.clearFailed p else s) := by
      split_ifs
      · exact kept_clearFailed s p
      · exact .refl s
    exact h.trans (kept_clearAncestors fuel _ _)

theorem Index.reconsidered (h : s.reconsiderBlock p = some s') : s.Kept s' := by
  unfold reconsiderBlock at h
  cases ht : s.tip with
  | none => rw [ht] at h; cases h
  | some tip =>
    rw [ht] at h
    cases h
    exact (foldl_kept (fun s q hq => kept_reconsiderEntry p _ tip hq) fun _ h => h).trans
      (kept_clearAncestors _ _ _)

theorem kept_pruneEntry (n : Nat) (s : ChainState) (p : Ptr) : s.Kept (pruneEntry n s p) := by
  unfold pruneEntry
  simp only
  split_ifs
  · have h : s.Kept (s.modify p fun e =>
        { e with
          nStatus := { e.nStatus with haveData := false, haveUndo := false }
          nFile := 0
          nDataPos := 0
          nUndoPos := 0 }) := kept_modify (fun _ => rfl) fun _ h => by cases h
    exact h.trans (kept_sets (fun _ h => h) fun _ h => (List.mem_filter.mp h).1)
  · exact .refl s

theorem kept_pruneOneBlockFile (s : ChainState) (n : Nat) : s.Kept (s.pruneOneBlockFile n) :=
  foldl_kept (fun s p _ => kept_pruneEntry n s p) fun _ h => h

/-! ## A new entry -/

/-- `s'` is `s` with a new entry `p`, of which nothing but the header is known. -/
structure Added (s s' : ChainState) (p : Ptr) : Prop where
  fresh : ¬ s.Known p
  index : s'.mapBlockIndex = s.mapBlockIndex ++ [p]
  node : ∀ q, s.Known q → s'.node q = s.node q
  parent : ∀ q, s'.parent p = some q → s.Known q ∧ s'.height p = s.height q + 1
  root : s'.parent p = none → s'.height p = 0
  skip : (s'.node p).pskip = (s'.parent p).bind fun q => s.getAncestor q (getSkipHeight (s'.height p))
  valid : (s'.status p).valid = BLOCK_VALID_TREE
  haveData : (s'.status p).haveData = false
  haveUndo : (s'.status p).haveUndo = false
  failed : (s'.status p).failed = false
  nTx : (s'.node p).nTx = 0
  nChainTx : (s'.node p).nChainTx = 0
  candidates : s'.setBlockIndexCandidates = s.setBlockIndexCandidates
  unlinked : s'.mapBlocksUnlinked = s.mapBlocksUnlinked
  chain : s'.vChain = s.vChain
  log : s'.tipLog = s.tipLog

theorem find_known {hash : UInt256} (h : s.find hash = some p) : s.Known p :=
  List.mem_of_find?_eq_some h

theorem find_eq_none {hash : UInt256} (h : s.find hash = none) (hp : s.Known p) :
    (s.node p).phashBlock ≠ hash := by
  have := List.find?_eq_none.mp h p hp
  exact fun heq => this (beq_iff_eq.mpr heq)

theorem added_addEntry (hash : UInt256) (block : CBlockHeader) (hp : ¬ s.Known p) :
    s.Added (s.addEntry hash block p) p := by
  have hnode : (s.addEntry hash block p).node p = s.newEntry hash block :=
    node_modify_self (s := s) fun _ => s.newEntry hash block
  have hparent : (s.addEntry hash block p).parent p = s.find block.hashPrevBlock := by
    rw [parent, hnode]; rfl
  refine
    { fresh := hp
      index := rfl
      node := fun q hq => node_modify_ne (s := s) (fun h : q = p => hp (h ▸ hq)) fun _ => s.newEntry hash block
      parent := fun q hq => ?_
      root := fun hroot => ?_
      skip := ?_
      candidates := rfl
      unlinked := rfl
      chain := rfl
      log := rfl
      valid := ?_
      haveData := ?_
      haveUndo := ?_
      failed := ?_
      nTx := ?_
      nChainTx := ?_ }
  · rw [hparent] at hq
    refine ⟨find_known hq, ?_⟩
    rw [height, hnode, newEntry, hq]
    rfl
  · rw [hparent] at hroot
    rw [height, hnode, newEntry, hroot]
  · rw [hparent, height, hnode, newEntry]
    cases s.find block.hashPrevBlock <;> rfl
  all_goals first | rw [status, hnode]; rfl | rw [hnode]; rfl

namespace Added

variable (A : s.Added s' p)

include A

theorem known : s'.Known q ↔ s.Known q ∨ q = p := by
  rw [Known, A.index, List.mem_append, List.mem_singleton]
  exact Iff.rfl

theorem parent_eq (h : s.Known q) : s'.parent q = s.parent q := by
  rw [ChainState.parent, A.node q h]; rfl

theorem height_eq (h : s.Known q) : s'.height q = s.height q := by
  rw [ChainState.height, A.node q h]; rfl

theorem status_eq (h : s.Known q) : s'.status q = s.status q := by
  rw [ChainState.status, A.node q h]; rfl

theorem graded (T : s.Tree) : Graded s'.parent s'.height s'.Known := by
  have h := T.graded.insert (fun _ hq => A.parent_eq hq) (fun _ hq => A.height_eq hq) A.fresh
    A.parent A.root
  rwa [show s'.Known = fun c => s.Known c ∨ c = p from funext fun c => propext A.known]

theorem anc (T : s.Tree) {a : Ptr} (hq : s.Known q) : s'.Anc a q ↔ s.Anc a q :=
  T.graded.anc_congr (fun _ hc => A.parent_eq hc) hq

theorem tree (T : s.Tree) : s'.Tree where
  graded := A.graded T
  nodup := by
    rw [A.index]
    exact List.nodup_append.mpr ⟨T.nodup, List.nodup_singleton p,
      fun _ ha _ hb hab => A.fresh (List.mem_singleton.mp hb ▸ hab ▸ ha)⟩
  skip q r hq hr := by
    rcases A.known.mp hq with hq | rfl
    · rw [A.parent_eq hq] at hr
      rw [A.node q hq, A.height_eq hq, T.skip q r hq hr]
      exact (T.graded.up_congr (fun _ hc => A.parent_eq hc) _ hq).symm
    · -- the skip pointer of the new entry is found from its parent
      obtain ⟨hrk, hrh⟩ := A.parent r hr
      have hlt := getSkipHeight_lt (n := s'.height q) (by omega)
      have hsum : s'.height q - getSkipHeight (s'.height q) =
          (s.height r - getSkipHeight (s'.height q)) + 1 := by omega
      rw [A.skip, hr, Option.bind_some, T.skipTree.chainAncestor hrk (by omega), hsum, up, hr,
        Option.bind_some, T.graded.up_congr (fun _ hc => A.parent_eq hc) _ hrk]
  undo q hq hu := by
    rcases A.known.mp hq with hq | rfl
    · rw [A.status_eq hq] at hu
      rw [A.parent_eq hq]
      exact T.undo q hq hu
    · rw [A.haveUndo] at hu; cases hu

theorem path_eq (P : s.Path) : s'.Path where
  known i q hi := A.known.mpr (.inl (P.known i q (A.chain ▸ hi)))
  height i q hi := by
    rw [A.chain] at hi
    rw [A.height_eq (P.known i q hi)]
    exact P.height i q hi
  link i q hi := by
    rw [A.chain] at hi ⊢
    rw [A.parent_eq (P.known _ q hi)]
    exact P.link i q hi

theorem toIndex (I : s.Index) : s'.Index where
  tree := A.tree I.tree
  path := A.path_eq I.path
  members q hq := A.known.mpr (.inl (I.members q (A.candidates ▸ hq)))
  unlinked e he := by
    obtain ⟨hk, hp⟩ := I.unlinked e (A.unlinked ▸ he)
    exact ⟨A.known.mpr (.inl hk), (A.parent_eq hk).trans hp⟩

end Added

end ChainState

end GC
