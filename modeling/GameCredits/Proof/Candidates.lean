import GameCredits.Proof.Steps

/-!
# The order of the candidates

`setBlockIndexCandidates` is sorted by the work and the sequence number of its members
(`CBlockIndex.key`). Only `AddToBlockIndex` and the loop of `ReceivedBlockTransactions` write them
(`keyWrites`). The loop writes no member, and no entry twice, exactly if the received block and the
entries that wait for it are no members and are listed once (`FreshLinks`). After pruning they may be.

* `linkRounds_rule`: the invariant rule of the loop, with the entries that are done.
* `keepsKeys_received_iff`: when the loop keeps the keys of the members.
* `candidates_runs`: runs in which every `ReceivedBlockTransactions` does.
-/

namespace GC

open Framework

/-- What `CBlockIndexWorkComparator` reads of an entry. -/
def CBlockIndex.key (e : CBlockIndex) : Nat × Nat := (e.nChainWork, e.nSequenceId)

namespace ChainState

variable {s s' : ChainState} {p q x : Ptr}

/-! ## The order -/

theorem totalLess (s : ChainState) : SortedSet.Total s.less where
  irrefl a := by simp [less, workLess]
  trans a b c hab hbc := by
    unfold less workLess at *
    grind
  tri a b hab hba := by
    unfold less workLess at *
    grind

theorem less_congr (hp : (s'.node p).key = (s.node p).key) (hq : (s'.node q).key = (s.node q).key) :
    s'.less p q = s.less p q := by
  rw [CBlockIndex.key, CBlockIndex.key, Prod.mk.injEq] at hp hq
  unfold less workLess
  rw [hp.1, hp.2, hq.1, hq.2]

/-- The members are sorted by their keys. -/
def CandidatesSorted (s : ChainState) : Prop := SortedSet.Sorted s.less s.setBlockIndexCandidates

/-- The set stays sorted when it loses members and the others keep their keys. -/
theorem CandidatesSorted.sublist (h : s.CandidatesSorted)
    (hsub : s'.setBlockIndexCandidates.Sublist s.setBlockIndexCandidates)
    (hkey : ∀ q ∈ s.setBlockIndexCandidates, (s'.node q).key = (s.node q).key) :
    s'.CandidatesSorted :=
  SortedSet.Sorted.congr (List.Pairwise.sublist hsub h) fun a ha b hb =>
    less_congr (hkey a (hsub.subset ha)) (hkey b (hsub.subset hb))

theorem CandidatesSorted.insert (h : s.CandidatesSorted) (p : Ptr) :
    (s.insertCandidate p).CandidatesSorted := SortedSet.sorted_insert (totalLess s) h

/-! ## The rounds of the loop -/

/-- The rounds of the loop of `ReceivedBlockTransactions`: the entry that is linked, and the state
in which its sequence number is written. -/
def linkRounds : (fuel : Nat) → List Ptr → ChainState → List (Ptr × ChainState)
  | 0, _, _ => []
  | _ + 1, [], _ => []
  | fuel + 1, p :: queue, s => (p, s) :: linkRounds fuel (queue ++ s.waiting p) (s.linkEntry p)

theorem length_queue_linkEntry {queue : List Ptr} {fuel : Nat}
    (hfuel : (p :: queue).length + s.mapBlocksUnlinked.length ≤ fuel + 1) :
    (queue ++ s.waiting p).length + (s.linkEntry p).mapBlocksUnlinked.length ≤ fuel := by
  have := length_waiting s p
  rw [List.length_append, linkEntry_unlinked]
  rw [List.length_cons] at hfuel
  omega

/-- The entries on the queue are linked first, in their order. -/
theorem prefix_linkRounds {fuel : Nat} {queue : List Ptr} {s : ChainState}
    (hfuel : queue.length + s.mapBlocksUnlinked.length ≤ fuel) :
    queue <+: (linkRounds fuel queue s).map Prod.fst := by
  induction fuel generalizing queue s with
  | zero =>
    obtain rfl : queue = [] := List.eq_nil_of_length_eq_zero (by omega)
    exact List.nil_prefix
  | succ fuel ih =>
    rcases queue with _ | ⟨p, queue⟩
    · exact List.nil_prefix
    · rw [linkRounds, List.map_cons, List.cons_prefix_cons]
      exact ⟨rfl, (List.prefix_append ..).trans (ih (length_queue_linkEntry hfuel))⟩

/-- What every round keeps, of the entries done, the entries on the queue and the state, holds
before every round, and at the end with all entries done. -/
theorem linkRounds_rule {I : List Ptr → List Ptr → ChainState → Prop}
    (hstep : ∀ done p queue s, I done (p :: queue) s →
      I (done ++ [p]) (queue ++ s.waiting p) (s.linkEntry p))
    {fuel : Nat} {done queue : List Ptr} {s : ChainState}
    (hfuel : queue.length + s.mapBlocksUnlinked.length ≤ fuel) (h : I done queue s) :
    I (done ++ (linkRounds fuel queue s).map Prod.fst) [] (linkQueue fuel queue s) ∧
      ∀ e ∈ linkRounds fuel queue s, ∃ before rest, I before (e.1 :: rest) e.2 ∧
        before ++ e.1 :: (rest ++ e.2.waiting e.1) <+:
          done ++ (linkRounds fuel queue s).map Prod.fst := by
  induction fuel generalizing done queue s with
  | zero =>
    obtain rfl : queue = [] := List.eq_nil_of_length_eq_zero (by omega)
    exact ⟨by rwa [linkRounds, List.map_nil, List.append_nil], fun e he => by cases he⟩
  | succ fuel ih =>
    rcases queue with _ | ⟨p, queue⟩
    · exact ⟨by rwa [linkRounds, List.map_nil, List.append_nil], fun e he => by cases he⟩
    · have hfuel' := length_queue_linkEntry hfuel
      obtain ⟨hend, hall⟩ := ih hfuel' (hstep done p queue s h)
      rw [List.append_assoc] at hend hall
      refine ⟨hend, fun e he => ?_⟩
      rcases List.mem_cons.mp he with rfl | he
      · refine ⟨done, queue, h, ?_⟩
        rw [linkRounds, List.map_cons, List.prefix_append_right_inj, List.cons_prefix_cons]
        exact ⟨rfl, prefix_linkRounds hfuel'⟩
      · exact hall e he

/-! ## One round -/

theorem node_assignLink_ne (h : x ≠ p) : (s.assignLink p).node x = s.node x := if_neg h

theorem node_linkEntry_ne (h : x ≠ p) : (s.linkEntry p).node x = s.node x := by
  have hnode : (s.linkEntry p).node = (s.assignLink p).node := node_offerCandidate
  rw [hnode, node_assignLink_ne h]

theorem candidates_linkEntry (s : ChainState) (p : Ptr) : (s.linkEntry p).setBlockIndexCandidates =
    if (s.assignLink p).belowTip p then s.setBlockIndexCandidates
    else SortedSet.insert (s.assignLink p).less p s.setBlockIndexCandidates := by
  unfold linkEntry offerCandidate
  split_ifs <;> rfl

theorem of_mem_linkEntry (h : x ∈ (s.linkEntry p).setBlockIndexCandidates) :
    x = p ∨ x ∈ s.setBlockIndexCandidates := by
  rw [candidates_linkEntry] at h
  split_ifs at h
  · exact .inr h
  · exact SortedSet.of_mem_insert h

theorem mem_linkEntry_of_mem (h : x ∈ s.setBlockIndexCandidates) :
    x ∈ (s.linkEntry p).setBlockIndexCandidates := by
  rw [candidates_linkEntry]
  split_ifs
  · exact h
  · exact SortedSet.mem_insert_of_mem h

theorem CandidatesSorted.linkEntry (h : s.CandidatesSorted) (hp : p ∉ s.setBlockIndexCandidates) :
    (s.linkEntry p).CandidatesSorted := by
  have hassign : (s.assignLink p).CandidatesSorted := by
    refine h.sublist (.refl _) fun q hq => ?_
    have hne : q ≠ p := fun hqp => hp (hqp ▸ hq)
    rw [node_assignLink_ne hne]
  have hoffer : ((s.assignLink p).offerCandidate p).CandidatesSorted := by
    unfold offerCandidate
    split_ifs
    · exact hassign
    · exact hassign.insert p
  exact hoffer

/-! ## What waits for an entry -/

/-- `q` is `p`, or waits for it, or for another entry that waits for it. -/
def Waits (s : ChainState) : Ptr → Ptr → Prop :=
  Relation.ReflTransGen fun a b => (a, b) ∈ s.mapBlocksUnlinked

/-- The entries that wait for `p`, and `p`, are no members and are listed once. -/
def FreshLinks (s : ChainState) (p : Ptr) : Prop :=
  ∀ q, s.Waits p q → q ∉ s.setBlockIndexCandidates ∧ (s.waiting q).Nodup

theorem Index.anc_waits (I : s.Index) (h : s.Waits p q) : s.Anc p q := by
  induction h with
  | refl => exact .refl
  | tail _ hmem ih => exact .step (I.unlinked _ hmem).2 ih

/-- An entry does not wait for those that wait for it. -/
theorem Index.not_waits_self (I : s.Index) (hp : s.Known p) (h : s.Waits p q) :
    (q, p) ∉ s.mapBlocksUnlinked := by
  intro hmem
  have hparent := (I.unlinked _ hmem).2
  have hle := I.tree.graded.height_le (I.anc_waits h) (I.tree.graded.closed p q hp hparent)
  have := I.tree.graded.child p q hp hparent
  omega

/-- The pairs that are left when the entries in `done` have been linked. -/
def UnlinkedAfter (s₀ : ChainState) (done : List Ptr) (s : ChainState) : Prop :=
  s.mapBlocksUnlinked = s₀.mapBlocksUnlinked.filter fun e => decide (e.1 ∉ done)

theorem UnlinkedAfter.refl (s : ChainState) : s.UnlinkedAfter [] s := by
  simp [UnlinkedAfter]

theorem UnlinkedAfter.waiting {s₀ : ChainState} {done : List Ptr} (h : s₀.UnlinkedAfter done s)
    (hp : p ∉ done) : s.waiting p = s₀.waiting p := by
  rw [ChainState.waiting, ChainState.waiting, h, List.filter_filter]
  refine congrArg (List.map Prod.snd) (List.filter_congr fun e _ => ?_)
  by_cases he : e.1 = p
  · simp [he, hp]
  · simp [he]

theorem UnlinkedAfter.linkEntry {s₀ : ChainState} {done : List Ptr} (h : s₀.UnlinkedAfter done s)
    (p : Ptr) : s₀.UnlinkedAfter (done ++ [p]) (s.linkEntry p) := by
  rw [UnlinkedAfter, linkEntry_unlinked, h, List.filter_filter]
  refine List.filter_congr fun e _ => ?_
  by_cases he : e.1 = p
  · simp [he]
  · simp [he]

/-! ## The loop with fresh links -/

/-- The loop of `ReceivedBlockTransactions` for `p₀` from the state `s₀`, with fresh links. -/
structure LinkLoop (s₀ : ChainState) (p₀ : Ptr) (done queue : List Ptr) (s : ChainState) : Prop where
  nodup : (done ++ queue).Nodup
  waits : ∀ x ∈ done ++ queue, s₀.Waits p₀ x
  parent : ∀ x ∈ done ++ queue, x = p₀ ∨ ∃ a ∈ done, s₀.parent x = some a
  unlinked : s₀.UnlinkedAfter done s
  members : ∀ x ∈ s.setBlockIndexCandidates, x ∈ s₀.setBlockIndexCandidates ∨ x ∈ done
  sorted : s.CandidatesSorted

namespace LinkLoop

variable {s₀ : ChainState} {p₀ : Ptr} {done queue : List Ptr}

theorem init (h : s₀.CandidatesSorted) : LinkLoop s₀ p₀ [] [p₀] s₀ where
  nodup := List.nodup_singleton p₀
  waits x hx := by rw [List.mem_singleton.mp hx]; exact .refl
  parent x hx := .inl (List.mem_singleton.mp hx)
  unlinked := .refl s₀
  members _ hx := .inl hx
  sorted := h

theorem head_not_done (h : LinkLoop s₀ p₀ done (p :: queue) s) : p ∉ done := fun hp =>
  List.disjoint_of_nodup_append h.nodup hp List.mem_cons_self

theorem head_not_member (h : LinkLoop s₀ p₀ done (p :: queue) s) (hfresh : s₀.FreshLinks p₀) :
    p ∉ s.setBlockIndexCandidates := fun hp =>
  (h.members p hp).elim
    (hfresh p (h.waits p (List.mem_append_right _ List.mem_cons_self))).1 h.head_not_done

/-- What is put on the queue is new: its parent is linked only now. -/
theorem waiting_new (I : s₀.Index) (hp₀ : s₀.Known p₀) (h : LinkLoop s₀ p₀ done (p :: queue) s)
    (hx : x ∈ s₀.waiting p) : x ∉ done ++ p :: queue := by
  intro hmem
  have hpx := mem_waiting.mp hx
  rcases h.parent x hmem with rfl | ⟨a, ha, hparent⟩
  · exact I.not_waits_self hp₀ (h.waits p (List.mem_append_right _ List.mem_cons_self)) hpx
  · rw [(I.unlinked _ hpx).2] at hparent
    cases hparent
    exact h.head_not_done ha

theorem step (I : s₀.Index) (hp₀ : s₀.Known p₀) (hfresh : s₀.FreshLinks p₀)
    (h : LinkLoop s₀ p₀ done (p :: queue) s) :
    LinkLoop s₀ p₀ (done ++ [p]) (queue ++ s.waiting p) (s.linkEntry p) := by
  have hwaits := h.waits p (List.mem_append_right _ List.mem_cons_self)
  rw [h.unlinked.waiting h.head_not_done]
  have hlist : (done ++ [p]) ++ (queue ++ s₀.waiting p) = (done ++ p :: queue) ++ s₀.waiting p := by
    simp
  have hsplit : ∀ x ∈ (done ++ [p]) ++ (queue ++ s₀.waiting p),
      x ∈ done ++ p :: queue ∨ x ∈ s₀.waiting p := fun x hx => by
    rw [hlist] at hx
    exact List.mem_append.mp hx
  refine ⟨?_, fun x hx => ?_, fun x hx => ?_, h.unlinked.linkEntry p, fun x hx => ?_,
    h.sorted.linkEntry (h.head_not_member hfresh)⟩
  · rw [hlist]
    exact List.nodup_append.mpr ⟨h.nodup, (hfresh p hwaits).2,
      fun a ha b hb hab => waiting_new I hp₀ h hb (hab ▸ ha)⟩
  · rcases hsplit x hx with hx | hx
    · exact h.waits x hx
    · exact hwaits.tail (mem_waiting.mp hx)
  · rcases hsplit x hx with hx | hx
    · exact (h.parent x hx).imp_right fun ⟨a, ha, hparent⟩ => ⟨a, List.mem_append_left _ ha, hparent⟩
    · exact .inr ⟨p, List.mem_append_right _ (List.mem_singleton_self p),
        (I.unlinked _ (mem_waiting.mp hx)).2⟩
  · rcases of_mem_linkEntry hx with rfl | hx
    · exact .inr (List.mem_append_right _ (List.mem_singleton_self _))
    · exact (h.members x hx).imp_right (List.mem_append_left _)

end LinkLoop

/-- With fresh links the loop writes no member, and no entry twice, and keeps the set sorted. -/
theorem linkRounds_fresh (I : s.Index) (hp : s.Known p) (hsorted : s.CandidatesSorted)
    (hfresh : s.FreshLinks p) {fuel : Nat} (hfuel : 1 + s.mapBlocksUnlinked.length ≤ fuel) :
    ((linkRounds fuel [p] s).map Prod.fst).Nodup ∧
      (∀ e ∈ linkRounds fuel [p] s, e.1 ∉ e.2.setBlockIndexCandidates) ∧
      (linkQueue fuel [p] s).CandidatesSorted := by
  obtain ⟨hend, hall⟩ := linkRounds_rule (I := LinkLoop s p)
    (fun done q queue t h => h.step I hp hfresh) hfuel (.init hsorted)
  refine ⟨?_, fun e he => ?_, hend.sorted⟩
  · have := hend.nodup
    rwa [List.append_nil] at this
  · obtain ⟨before, rest, h, -⟩ := hall e he
    exact h.head_not_member hfresh

/-- If the loop writes no member and no entry twice, then the links are fresh. -/
theorem fresh_of_linkRounds {fuel : Nat} (hfuel : 1 + s.mapBlocksUnlinked.length ≤ fuel)
    (hnodup : ((linkRounds fuel [p] s).map Prod.fst).Nodup)
    (hmem : ∀ e ∈ linkRounds fuel [p] s, e.1 ∉ e.2.setBlockIndexCandidates) : s.FreshLinks p := by
  obtain ⟨-, hall⟩ := @linkRounds_rule
    (fun done _ t => s.UnlinkedAfter done t ∧
      ∀ x ∈ s.setBlockIndexCandidates, x ∈ t.setBlockIndexCandidates)
    (fun done q queue t h => ⟨h.1.linkEntry q, fun x hx => mem_linkEntry_of_mem (h.2 x hx)⟩)
    fuel [] [p] s hfuel ⟨.refl s, fun _ h => h⟩
  rw [List.nil_append] at hall
  -- an entry is linked once, and so all that wait for it are put on the queue then
  have hround : ∀ q ∈ (linkRounds fuel [p] s).map Prod.fst,
      q ∉ s.setBlockIndexCandidates ∧ (s.waiting q).Sublist ((linkRounds fuel [p] s).map Prod.fst) := by
    intro q hq
    obtain ⟨e, he, rfl⟩ := List.mem_map.mp hq
    obtain ⟨before, rest, ⟨hunlinked, hgrow⟩, hprefix⟩ := hall e he
    have hdone : e.1 ∉ before := fun h =>
      List.disjoint_of_nodup_append (hnodup.sublist hprefix.sublist) h List.mem_cons_self
    rw [hunlinked.waiting hdone] at hprefix
    refine ⟨fun h => hmem e he (hgrow _ h), .trans ?_ hprefix.sublist⟩
    exact ((List.sublist_append_right ..).cons _).trans (List.sublist_append_right ..)
  have hreach : ∀ q, s.Waits p q → q ∈ (linkRounds fuel [p] s).map Prod.fst := by
    intro q hq
    induction hq with
    | refl => exact (prefix_linkRounds hfuel).subset (List.mem_singleton_self p)
    | tail _ hpair ih => exact (hround _ ih).2.subset (mem_waiting.mpr hpair)
  exact fun q hq => ⟨(hround q (hreach q hq)).1, hnodup.sublist (hround q (hreach q hq)).2⟩

/-! ## Updates -/

/-- No key changes, and the set stays sorted. -/
structure Steady (s s' : ChainState) : Prop where
  index : s'.mapBlockIndex = s.mapBlockIndex
  keys : Same CBlockIndex.key s s'
  sorted : s.CandidatesSorted → s'.CandidatesSorted

theorem Steady.refl (s : ChainState) : s.Steady s := ⟨rfl, .refl s, id⟩

theorem Steady.trans {s s' s'' : ChainState} (h : s.Steady s') (h' : s'.Steady s'') : s.Steady s'' :=
  ⟨h'.index.trans h.index, h.keys.trans h'.keys, h'.sorted ∘ h.sorted⟩

theorem steady_sublist (hindex : s'.mapBlockIndex = s.mapBlockIndex)
    (hkey : Same CBlockIndex.key s s')
    (hsub : s'.setBlockIndexCandidates.Sublist s.setBlockIndexCandidates) : s.Steady s' :=
  ⟨hindex, hkey, fun h => h.sublist hsub fun q _ => hkey q⟩

theorem steady_modify {f : CBlockIndex → CBlockIndex} (hf : ∀ e, (f e).key = e.key) :
    s.Steady (s.modify p f) := steady_sublist rfl (same_modify hf) (.refl _)

theorem steady_modifyStatus (f : BlockStatus → BlockStatus) : s.Steady (s.modifyStatus p f) :=
  steady_modify fun _ => rfl

theorem steady_insertCandidate (s : ChainState) (p : Ptr) : s.Steady (s.insertCandidate p) :=
  ⟨rfl, fun _ => rfl, fun h => h.insert p⟩

theorem steady_eraseCandidate (s : ChainState) (p : Ptr) : s.Steady (s.eraseCandidate p) :=
  steady_sublist rfl (fun _ => rfl) (SortedSet.erase_sublist p _)

theorem steady_requeue (s : ChainState) (p : Ptr) : s.Steady (s.requeue p) := by
  refine steady_sublist sameTree_requeue.index (same_of_node node_requeue) ?_
  unfold requeue
  split <;> exact SortedSet.erase_sublist p _

theorem steady_prune (h : s.pruneBlockIndexCandidates = some s') : s.Steady s' := by
  refine steady_sublist (kept_prune h).same.index (same_of_node (node_prune h)) ?_
  unfold pruneBlockIndexCandidates at h
  simp only at h
  split_ifs at h
  cases h
  exact List.dropWhile_sublist _

theorem steady_recordConnected (n : Nat) : s.Steady (s.recordConnected p n) := by
  unfold recordConnected
  split
  · exact .refl s
  · exact steady_modify fun _ => rfl

theorem foldl_steady {f : ChainState → Ptr → ChainState}
    (hf : ∀ (s : ChainState) (p : Ptr), s.Steady (f s p))
    (l : List Ptr) (s : ChainState) : s.Steady (l.foldl f s) := by
  induction l generalizing s with
  | nil => exact .refl s
  | cons p l ih => exact (hf s p).trans (ih _)

theorem steady_readdCandidate (s : ChainState) (p : Ptr) : s.Steady (s.readdCandidate p) := by
  unfold readdCandidate
  split_ifs
  · exact steady_insertCandidate s p
  · exact .refl s

theorem steady_reconsiderEntry (p : Ptr) (n : Nat) (tip : Ptr) (s : ChainState) (q : Ptr) :
    s.Steady (reconsiderEntry p n tip s q) := by
  have hclear : s.Steady (s.clearFailed q) := steady_modifyStatus _
  have hbest : ∀ (t : ChainState) (b : Option Ptr), t.Steady { t with pindexBestInvalid := b } :=
    fun _ _ => steady_sublist rfl (fun _ => rfl) (.refl _)
  unfold reconsiderEntry
  simp only
  split_ifs
  · exact (hclear.trans (steady_insertCandidate _ q)).trans (hbest _ _)
  · exact hclear.trans (steady_insertCandidate _ q)
  · exact hclear.trans (hbest _ _)
  · exact hclear
  · exact .refl s

theorem steady_clearAncestors : ∀ (fuel : Nat) (p : Option Ptr) (s : ChainState),
    s.Steady (clearAncestors fuel p s)
  | 0, _, s => .refl s
  | _ + 1, none, s => .refl s
  | fuel + 1, some p, s => by
    have h : s.Steady (if (s.node p).nStatus.failed then s.clearFailed p else s) := by
      split_ifs
      · exact steady_modifyStatus _
      · exact .refl s
    exact h.trans (steady_clearAncestors fuel _ _)

theorem steady_reconsiderBlock (h : s.reconsiderBlock p = some s') : s.Steady s' := by
  unfold reconsiderBlock at h
  cases ht : s.tip with
  | none => rw [ht] at h; cases h
  | some tip =>
    rw [ht] at h
    cases h
    exact (foldl_steady (steady_reconsiderEntry p _ tip) _ s).trans (steady_clearAncestors _ _ _)

theorem steady_pruneEntry (n : Nat) (s : ChainState) (p : Ptr) : s.Steady (pruneEntry n s p) := by
  unfold pruneEntry
  simp only
  split_ifs
  · have hmodify : s.Steady (s.modify p fun e =>
        { e with
          nStatus := { e.nStatus with haveData := false, haveUndo := false }
          nFile := 0
          nDataPos := 0
          nUndoPos := 0 }) := steady_modify fun _ => rfl
    exact hmodify.trans (steady_sublist rfl (fun _ => rfl) (.refl _))
  · exact .refl s

/-- Only the arrival of a header or of a body writes keys. -/
theorem update_steady {ok : Op → ChainState → Prop} (h : Update ok s s') :
    s.Steady s' ∨ (∃ p hash block, ¬ s.Known p ∧ s' = s.addEntry hash block p) ∨
      ∃ p nTx pos, ok (.body p nTx pos) s ∧ s.Known p ∧ s' = s.receivedBlockTransactions p nTx pos := by
  have hrest : ∀ t : ChainState, t.mapBlockIndex = s'.mapBlockIndex → t.node = s'.node →
      t.setBlockIndexCandidates = s'.setBlockIndexCandidates → t.Steady s' := fun t hi hn hc =>
    steady_sublist hi.symm (fun _ => by rw [hn]) (by rw [hc])
  cases h with
  | add hp => exact .inr (.inl ⟨_, _, _, hp, rfl⟩)
  | receive hok hp => exact .inr (.inr ⟨_, _, _, hok, hp, rfl⟩)
  | reject => exact .inl (steady_modifyStatus _)
  | @invalid p =>
    exact .inl ((steady_modifyStatus (p := p) fun st => { st with failedValid := true }).trans
      (steady_eraseCandidate _ p))
  | @failChild p =>
    exact .inl ((steady_modifyStatus (p := p) fun st => { st with failedChild := true }).trans
      (steady_eraseCandidate _ p))
  | requeue => exact .inl (steady_requeue s _)
  | erase => exact .inl (steady_eraseCandidate s _)
  | bestInvalid => exact .inl (hrest s rfl rfl rfl)
  | prune h => exact .inl (steady_prune h)
  | pop => exact .inl (hrest s rfl rfl rfl)
  | push n => exact .inl ((steady_recordConnected n).trans (hrest _ rfl rfl rfl))
  | readd => exact .inl ((foldl_steady steady_readdCandidate _ s).trans (hrest _ rfl rfl rfl))
  | reconsider _ _ h => exact .inl (steady_reconsiderBlock h)
  | pruneFile => exact .inl (foldl_steady (steady_pruneEntry _) _ s)

theorem CandidatesSorted.added (h : s.CandidatesSorted) (I : s.Index) (A : s.Added s' p) :
    s'.CandidatesSorted := by
  refine h.sublist (by rw [A.candidates]) fun q hq => ?_
  rw [A.node q (I.members q hq)]

/-! ## The arrival of a body -/

theorem parentLinked_markReceived (I : s.Index) (hp : s.Known p) (nTx : Nat) (pos : DiskBlockPos) :
    (s.markReceived p nTx pos).parentLinked p = s.parentLinked p := by
  have hpprev : ((s.markReceived p nTx pos).node p).pprev = (s.node p).pprev :=
    congrFun (sameTree_markReceived nTx pos).parent p
  unfold parentLinked
  rw [hpprev]
  cases hq : (s.node p).pprev with
  | none => rfl
  | some q =>
    have hne : q ≠ p := by
      rintro rfl
      have := I.tree.graded.child q q hp hq
      omega
    show (((s.modify p _).node q).nChainTx != 0) = _
    rw [node_modify_ne hne]

theorem steady_markReceived (s : ChainState) (p : Ptr) (nTx : Nat) (pos : DiskBlockPos) :
    s.Steady (s.markReceived p nTx pos) := steady_modify fun _ => rfl

theorem steady_waitForParent (s : ChainState) (p : Ptr) : s.Steady (s.waitForParent p) := by
  unfold waitForParent
  split
  · exact .refl s
  · split_ifs
    · exact steady_sublist rfl (fun _ => rfl) (.refl _)
    · exact .refl s

/-- Where an operation writes `nChainWork` or `nSequenceId`: the entry, and the state before. -/
def keyWrites : Op → ChainState → List (Ptr × ChainState)
  | .header hash _ pindexNew, s => if (s.find hash).isNone then [(pindexNew, s)] else []
  | .body p nTx pos, s =>
    let s := s.markReceived p nTx pos
    if s.parentLinked p then linkRounds (s.mapBlocksUnlinked.length + 1) [p] s else []
  | _, _ => []

/-- No entry is written twice, and none while it is a member. -/
def KeepsKeys (op : Op) (s : ChainState) : Prop :=
  ((keyWrites op s).map Prod.fst).Nodup ∧ ∀ e ∈ keyWrites op s, e.1 ∉ e.2.setBlockIndexCandidates

/-- What is asked of the arriving bodies: a block that is linked has fresh links. -/
def CandidatesFresh : Op → ChainState → Prop
  | .body p _ _, s => s.parentLinked p = true → s.FreshLinks p
  | _, _ => True

theorem keepsKeys_received_iff (I : s.Index) (hp : s.Known p) (hsorted : s.CandidatesSorted)
    {nTx : Nat} {pos : DiskBlockPos} :
    KeepsKeys (.body p nTx pos) s ↔ CandidatesFresh (.body p nTx pos) s := by
  have hmark := kept_markReceived s p nTx pos
  have hlinked := parentLinked_markReceived I hp nTx pos
  have hfuel : 1 + (s.markReceived p nTx pos).mapBlocksUnlinked.length ≤
      (s.markReceived p nTx pos).mapBlocksUnlinked.length + 1 := by omega
  simp only [KeepsKeys, keyWrites, CandidatesFresh, hlinked]
  split_ifs with h
  · refine ⟨fun hkeeps _ => ?_, fun hfresh => ?_⟩
    · exact fresh_of_linkRounds (s := s.markReceived p nTx pos) hfuel hkeeps.1 hkeeps.2
    · obtain ⟨hnodup, hmem, -⟩ := linkRounds_fresh (I.kept hmark) (by rwa [hmark.same.known])
        ((steady_markReceived s p nTx pos).sorted hsorted) (hfresh h) hfuel
      exact ⟨hnodup, hmem⟩
  · simp [h]

theorem CandidatesSorted.received (hsorted : s.CandidatesSorted) (I : s.Index) (hp : s.Known p)
    {nTx : Nat} {pos : DiskBlockPos} (hfresh : CandidatesFresh (.body p nTx pos) s) :
    (s.receivedBlockTransactions p nTx pos).CandidatesSorted := by
  have hmark := kept_markReceived s p nTx pos
  have hmarked := (steady_markReceived s p nTx pos).sorted hsorted
  unfold receivedBlockTransactions
  simp only [parentLinked_markReceived I hp]
  split_ifs with h
  · exact (linkRounds_fresh (I.kept hmark) (by rwa [hmark.same.known]) hmarked (hfresh h)
      (by omega)).2.2
  · exact (steady_waitForParent _ p).sorted hmarked

/-- The entries that the loop does not link keep their keys. -/
theorem key_received {nTx : Nat} {pos : DiskBlockPos}
    (hq : q ∉ (keyWrites (.body p nTx pos) s).map Prod.fst) :
    ((s.receivedBlockTransactions p nTx pos).node q).key = (s.node q).key := by
  refine Eq.trans ?_ ((steady_markReceived s p nTx pos).keys q)
  rw [keyWrites] at hq
  unfold receivedBlockTransactions
  simp only at hq ⊢
  split_ifs at hq ⊢ with h
  · refine (@linkRounds_rule
      (fun done _ t => q ∉ done → (t.node q).key = ((s.markReceived p nTx pos).node q).key)
      (fun done x queue t h hq => ?_) _ [] _ _ (by rw [List.length_singleton]; omega) fun _ => rfl).1 hq
    rw [List.mem_append, List.mem_singleton, not_or] at hq
    rw [node_linkEntry_ne hq.2]
    exact h hq.1
  · exact (steady_waitForParent _ p).keys q

/-! ## Runs -/

theorem candidatesSorted_runs (h : Runs CandidatesFresh s) : s.CandidatesSorted := by
  refine h.invariant (J := CandidatesSorted) List.Pairwise.nil fun s s' I hsorted hup => ?_
  rcases update_steady hup with hsteady | ⟨p, hash, block, hp, rfl⟩ | ⟨p, nTx, pos, hok, hp, rfl⟩
  · exact hsteady.sorted hsorted
  · exact hsorted.added I (added_addEntry hash block hp)
  · exact hsorted.received I hp hok

/-- A step that receives no body changes no key of an entry that it finds. -/
theorem key_updates {ok : Op → ChainState → Prop} (hbody : ∀ p nTx pos t, ¬ ok (.body p nTx pos) t)
    (h : Updates ok s s') (hq : s.Known q) : s'.Known q ∧ (s'.node q).key = (s.node q).key := by
  induction h with
  | refl => exact ⟨hq, rfl⟩
  | tail _ hup ih =>
    obtain ⟨hk, hkey⟩ := ih
    rcases update_steady hup with h | ⟨p, hash, block, hp, rfl⟩ | ⟨p, nTx, pos, hok, -⟩
    · refine ⟨?_, (h.keys q).trans hkey⟩
      rw [Known, h.index]
      exact hk
    · have A := added_addEntry hash block hp
      exact ⟨A.known.mpr (.inl hk), by rw [A.node q hk, hkey]⟩
    · exact (hbody p nTx pos _ hok).elim

theorem keepsKeys_iff (I : s.Index) (hsorted : s.CandidatesSorted) {op : Op}
    (h : step op s = some s') : KeepsKeys op s ↔ CandidatesFresh op s := by
  have hnil : ∀ {op}, keyWrites op s = [] → KeepsKeys op s := fun h => by
    rw [KeepsKeys, h]
    exact ⟨List.nodup_nil, fun e he => by cases he⟩
  cases op with
  | header hash block pindexNew =>
    refine iff_of_true ?_ trivial
    simp only [step] at h
    split_ifs at h with hnew
    simp only [KeepsKeys, keyWrites]
    split_ifs
    · refine ⟨List.nodup_singleton _, fun e he => ?_⟩
      rw [List.mem_singleton.mp he]
      exact fun hmem => hnew (I.members _ hmem)
    · exact ⟨List.nodup_nil, fun e he => by cases he⟩
  | body p nTx pos =>
    simp only [step] at h
    split_ifs at h with hwants
    obtain ⟨hwants, -⟩ := hwants
    simp only [wantsBody, Bool.and_eq_true, decide_eq_true_eq] at hwants
    exact keepsKeys_received_iff I hwants.1.1 hsorted
  | _ => exact iff_of_true (hnil rfl) trivial

theorem key_step (I : s.Index) {op : Op} (h : step op s = some s') (hq : s.Known q)
    (hnot : q ∉ (keyWrites op s).map Prod.fst) : (s'.node q).key = (s.node q).key := by
  by_cases hbody : ∃ p nTx pos, op = .body p nTx pos
  · obtain ⟨p, nTx, pos, rfl⟩ := hbody
    simp only [step] at h
    split_ifs at h
    cases h
    exact key_received hnot
  · have hups : Updates (fun op' _ => ∀ p nTx pos, op' ≠ .body p nTx pos) s s' :=
      step_updates I (fun p nTx pos hop => hbody ⟨p, nTx, pos, hop⟩) h
    exact (key_updates (fun p nTx pos _ hok => hok p nTx pos rfl) hups hq).2

/-- When every body that is linked has fresh links, the members are strictly sorted, and no entry is
one twice. The next step writes no key of a member, and no entry twice, exactly if it meets this
condition too. -/
theorem candidates_runs (h : Runs CandidatesFresh s) :
    s.CandidatesSorted ∧ s.setBlockIndexCandidates.Nodup ∧
      ∀ op s', step op s = some s' → (KeepsKeys op s ↔ CandidatesFresh op s) ∧
        ∀ q, s.Known q → q ∉ (keyWrites op s).map Prod.fst → (s'.node q).key = (s.node q).key := by
  have hsorted := candidatesSorted_runs h
  exact ⟨hsorted, SortedSet.nodup (totalLess s) hsorted, fun op s' hstep =>
    ⟨keepsKeys_iff h.index hsorted hstep, fun q hq hnot => key_step h.index hstep hq hnot⟩⟩

/-- The runs whose steps keep the keys of the members are those that meet the condition. -/
theorem runs_keepsKeys (h : Runs KeepsKeys s) : Runs CandidatesFresh s := by
  induction h with
  | init h => exact .init h
  | step _ hop hstep ih =>
    exact .step ih ((keepsKeys_iff ih.index (candidatesSorted_runs ih) hstep).mp hop) hstep

instance (op : Op) (s : ChainState) : Decidable (KeepsKeys op s) :=
  inferInstanceAs (Decidable (_ ∧ _))

/-- Blocks 2 and 3 are pruned and leave the candidates. When they have been received again, block 3
waits for block 2 and is linked with it. -/
def refetchRun : List Op :=
  sampleArrival 1 0 1 ++ [.activate fun _ => .connects 5] ++ sampleArrival 2 1 1 ++
    sampleArrival 3 2 1 ++
    [.prune 0, .findMostWork, .body 3 1 ⟨0, 9⟩, .findMostWork, .body 2 1 ⟨0, 10⟩]

theorem candidates_runs_refetch : ∃ s, Runs CandidatesFresh s ∧
    (s.setBlockIndexCandidates = [1, 2, 3] ∧ (s.node 2).nSequenceId = 5) ∧
    s.CandidatesSorted ∧ s.setBlockIndexCandidates.Nodup ∧
      ∀ op s', step op s = some s' → (KeepsKeys op s ↔ CandidatesFresh op s) ∧
        ∀ q, s.Known q → q ∉ (keyWrites op s).map Prod.fst → (s'.node q).key = (s.node q).key := by
  have hrun : (run (guarded ChainState.step KeepsKeys) refetchRun empty).any (fun s =>
    decide (s.setBlockIndexCandidates = [1, 2, 3] ∧ (s.node 2).nSequenceId = 5)) = true := by
    decide +kernel
  cases hs : run (guarded ChainState.step KeepsKeys) refetchRun empty with
  | none => rw [hs] at hrun; cases hrun
  | some s =>
    rw [hs] at hrun
    have hreach : Runs CandidatesFresh s :=
      runs_keepsKeys ((show Runs KeepsKeys empty from .init rfl).guarded hs)
    exact ⟨s, hreach, of_decide_eq_true hrun, candidates_runs hreach⟩

/-- Blocks 2 and 3 on top of block 1 are candidates when their file is pruned, and block 2 is
received again. -/
def prunedRun : List Op :=
  sampleArrival 1 0 1 ++ [.activate fun _ => .connects 5] ++ sampleArrival 2 1 1 ++
    sampleArrival 3 1 1 ++ [.prune 0, .body 2 1 ⟨0, 9⟩]

/-- The sequence number of block 2 is written while it is a member, and it is inserted again. -/
theorem prunedRun_candidates : ¬ ∀ s, Runs (fun _ _ => True) s →
    s.CandidatesSorted ∧ s.setBlockIndexCandidates.Nodup ∧
      ∀ op s', step op s = some s' → KeepsKeys op s := by
  intro hall
  have hruns : Runs (fun _ _ => True) (sampleState prunedRun) :=
    Reachable.run (.init rfl) (fun _ _ _ _ _ _ => trivial) (sampleState_run _ (by decide +kernel))
  have hlist : (sampleState prunedRun).setBlockIndexCandidates = [1, 2, 3, 2] := by decide +kernel
  have hnodup := (hall _ hruns).2.1
  rw [hlist] at hnodup
  exact absurd hnodup (by decide)

end ChainState

end GC
