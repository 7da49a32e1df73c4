import Mathlib.Logic.Relation
import GameCredits.Framework.Run
import GameCredits.Proof.Route

/-!
# Operations as sequences of updates

Every operation is a sequence of updates (`ChainState.Update`), each with what is known where it is
made, so that an invariant is proved update by update.

* `step_updates`: what a step of the node is made of.
* `Index.updates`: updates keep the tree, the active chain, and that the sets hold known entries.
* `reachable_invariant`: what holds of the empty state and is kept by updates holds in every state
  reached.
-/

namespace GC

open Framework

namespace ChainState

/-- One change of the chain state. `ok` is what is asked of the requests and the arriving blocks in
the state before. -/
inductive Update (ok : Op → ChainState → Prop) (s : ChainState) : ChainState → Prop
  | add {p hash block} (hp : ¬ s.Known p) : Update ok s (s.addEntry hash block p)
  | receive {p nTx pos} (hok : ok (.body p nTx pos) s) (hp : s.Known p)
    (hfailed : (s.status p).failed = false) (hdata : (s.status p).haveData = false)
    (hpos : 0 < nTx) (hlt : nTx < 2 ^ 32) : Update ok s (s.receivedBlockTransactions p nTx pos)
  | reject {p} (hp : s.Known p) (hfailed : (s.status p).failed = false)
    (hdata : (s.status p).haveData = false) : Update ok s (s.rejectBlock p)
  | invalid {p} (hp : s.Known p) : Update ok s (s.markInvalid p)
  | failChild {p a} (hp : s.Known p) (ha : s.Anc a p) (hfailed : (s.status a).failed = true) :
    Update ok s (s.markFailedChild p)
  | requeue {p a} (hp : s.Known p) (htx : (s.node p).nChainTx ≠ 0) (ha : s.Anc a p)
    (hdata : (s.status a).haveData = false) : Update ok s (s.requeue p)
  | erase {p} (hp : s.Known p) (hbad : (s.status p).failed = true ∨ (s.status p).haveData = false) :
    Update ok s (s.eraseCandidate p)
  | bestInvalid (p) : Update ok s (s.invalidChainFound p)
  | prune {s'} (h : s.pruneBlockIndexCandidates = some s') : Update ok s s'
  | pop {p q} (ht : s.tip = some p) (hq : s.parent p = some q) : Update ok s (s.updateTip (some q))
  | push {p} (n) (hp : s.Usable p) (ht : s.parent p = s.tip) :
    Update ok s ((s.recordConnected p n).updateTip (some p))
  | readd {t} (ht : s.tip = some t) :
    Update ok s { s.mapBlockIndex.foldl readdCandidate s with tipLog := [t] }
  | reconsider {p s'} (hok : ok (.reconsider p) s) (hp : s.Known p)
    (h : s.reconsiderBlock p = some s') : Update ok s s'
  | pruneFile {n} (hok : ok (.prune n) s) : Update ok s (s.pruneOneBlockFile n)

/-- A sequence of updates. -/
abbrev Updates (ok : Op → ChainState → Prop) : ChainState → ChainState → Prop :=
  Relation.ReflTransGen (Update ok)

variable {ok : Op → ChainState → Prop} {s s' : ChainState} {p q m : Ptr}

/-- All updates but new entries and moves of the tip keep the tree and the active chain. -/
theorem Index.update (I : s.Index) (h : Update ok s s') : s'.Index := by
  cases h with
  | add hp => exact (added_addEntry _ _ hp).toIndex I
  | receive _ hp => exact I.kept (I.received hp _ _)
  | reject => exact I.kept (kept_rejectBlock s _)
  | invalid => exact I.kept (kept_markInvalid s _)
  | failChild => exact I.kept (kept_markFailedChild s _)
  | requeue hp => exact I.kept (kept_requeue hp)
  | erase => exact I.kept (kept_eraseCandidate s _)
  | bestInvalid => exact I.kept (kept_invalidChainFound s _)
  | prune h => exact I.kept (kept_prune h)
  | pop ht hq => exact I.pop ht hq
  | push n hp ht => exact I.connected hp.known ht n
  | readd ht =>
    exact I.kept ((foldl_kept (fun _ _ => kept_readdCandidate) fun _ h => h).trans
      (kept_sets (fun _ h => h) fun _ h => h))
  | reconsider _ _ h => exact I.kept (Index.reconsidered h)
  | pruneFile => exact I.kept (kept_pruneOneBlockFile s _)

theorem Index.updates (I : s.Index) (h : Updates ok s s') : s'.Index := by
  induction h with
  | refl => exact I
  | tail _ h ih => exact ih.update h

/-! ## The candidate with the most work -/

theorem node_markFailedChild : (s.markFailedChild p).node =
    (s.modifyStatus p fun st => { st with failedChild := true }).node := rfl

theorem status_markFailedChild_ne (h : q ≠ p) : (s.markFailedChild p).status q = s.status q := by
  rw [status, node_markFailedChild, modifyStatus, node_modify_ne h]
  rfl

theorem nChainTx_markFailedChild : ((s.markFailedChild p).node q).nChainTx = (s.node q).nChainTx := by
  rw [node_markFailedChild, modifyStatus, node_modify]
  split_ifs with h
  · rw [h]
  · rfl

theorem node_requeue : (s.requeue p).node = s.node := by
  unfold requeue
  split <;> rfl

/-- The loop that takes a chain out of the candidates: the entries above `b` become failed, or wait
for the data of `b`. -/
theorem updates_removeChain (ok : Op → ChainState → Prop) (I : s.Index) {b : Ptr} {fFailedChain : Bool} (fuel : Nat)
    (hp : s.Known p) (hanc : s.Anc b p)
    (hb : if fFailedChain then (s.status b).failed = true else (s.status b).haveData = false)
    (htx : ∀ a, s.Anc a p → s.Anc b a → a ≠ b → (s.node a).nChainTx ≠ 0) :
    Updates ok s (removeChain b fFailedChain fuel (some p) s) ∧
      s.Kept (removeChain b fFailedChain fuel (some p) s) ∧
      (removeChain b fFailedChain fuel (some p) s).status b = s.status b := by
  induction fuel generalizing s p with
  | zero => exact ⟨.refl, .refl s, rfl⟩
  | succ fuel ih =>
    rw [removeChain]
    by_cases hpb : p = b
    · rw [if_pos hpb]
      exact ⟨.refl, .refl s, rfl⟩
    rw [if_neg hpb]
    simp only
    obtain hbp | ⟨q, hq, hbq⟩ := hanc.eq_or_parent
    · exact (hpb hbp.symm).elim
    -- one entry is done, and `s₁` is the state for the next
    obtain ⟨s₁, hs₁, hup, hkept, hstatus, hchain⟩ : ∃ s₁,
        s₁ = (if fFailedChain then s.markFailedChild p else s.requeue p) ∧ Update ok s s₁ ∧
        s.Kept s₁ ∧ s₁.status b = s.status b ∧
        ∀ a, (s₁.node a).nChainTx = (s.node a).nChainTx := by
      cases fFailedChain with
      | true =>
        refine ⟨_, rfl, .failChild hp hanc hb, kept_markFailedChild s p, ?_,
          fun _ => nChainTx_markFailedChild⟩
        exact status_markFailedChild_ne (Ne.symm hpb)
      | false =>
        refine ⟨_, rfl, .requeue hp (htx p .refl hanc hpb) hanc hb, kept_requeue hp, ?_,
          fun a => ?_⟩
        · exact congrArg (fun f => (f b).nStatus) node_requeue
        · exact congrArg (fun f => (f a).nChainTx) node_requeue
    rw [← hs₁, show (s₁.node p).pprev = some q from (congrFun hkept.same.parent p).trans hq]
    have hqk := I.tree.graded.closed p q hp hq
    obtain ⟨hups, hk, hst⟩ := ih (p := q) (I.kept hkept) (by rwa [hkept.same.known])
      (by rwa [hkept.same.anc]) (by rwa [hstatus]) fun a haq hba hne => by
        rw [hkept.same.anc] at haq hba
        rw [hchain]
        exact htx a (.step hq haq) hba hne
    exact ⟨.head hup hups, hkept.trans hk, hst.trans hstatus⟩

theorem updates_discard (ok : Op → ChainState → Prop) (I : s.Index) {b : Ptr} (hp : s.Known p) {fuel : Nat}
    (h : s.findBad fuel (some p) = some (some b)) :
    Updates ok s (s.discard p b) ∧ s.Kept (s.discard p b) := by
  obtain ⟨hanc, -, hbad, htx⟩ := findBad_some I.tree hp h
  have hbk := I.tree.graded.anc_mem hanc hp
  unfold discard
  simp only
  generalize hf : (s.node b).nStatus.failed = fFailedChain
  -- the note of the best invalid block changes nothing that matters here
  obtain ⟨s₁, hs₁, hup, hkept, hnode⟩ : ∃ s₁,
      s₁ = (if fFailedChain then s.invalidChainFound p else s) ∧ Updates ok s s₁ ∧ s.Kept s₁ ∧
      s₁.node = s.node := by
    cases fFailedChain with
    | true => exact ⟨_, rfl, .single (.bestInvalid p), kept_invalidChainFound s p, rfl⟩
    | false => exact ⟨_, rfl, .refl, .refl s, rfl⟩
  rw [← hs₁]
  have hb : if fFailedChain then (s₁.status b).failed = true else (s₁.status b).haveData = false := by
    rw [status, hnode]
    cases fFailedChain with
    | true => exact hf
    | false => exact hbad.resolve_left (by rw [status, hf]; decide)
  obtain ⟨hups, hk, hst⟩ := updates_removeChain ok
    (I.kept hkept) ((s₁.node p).nHeight + 1) (p := p) (by rwa [hkept.same.known]) (by rwa [hkept.same.anc]) hb
    fun a hap hba hne => by
      rw [hkept.same.anc] at hap hba
      rw [hnode]
      exact htx a hap hba hne
  have hall := hkept.trans hk
  refine ⟨(hup.trans hups).tail (.erase (by rwa [hall.same.known]) ?_),
    hall.trans (kept_eraseCandidate _ b)⟩
  rw [hst, status, hnode]
  exact hbad

/-- `FindMostWorkChain` keeps the tree and the active chain; the candidate it finds is the greatest
one, and all its ancestors down to the active chain are usable. -/
theorem updates_findMostWorkChain (ok : Op → ChainState → Prop) (I : s.Index) {r : Option Ptr}
    (h : s.findMostWorkChain = some (r, s')) :
    Updates ok s s' ∧ s.Kept s' ∧ s'.setBlockIndexCandidates.getLast? = r ∧
      ∀ m, r = some m → s'.Known m ∧ ∀ a, s'.Anc a m → s'.contains a = true ∨ s'.Usable a := by
  unfold findMostWorkChain at h
  generalize s.setBlockIndexCandidates.length + 1 = fuel at h
  induction fuel generalizing s with
  | zero => cases h
  | succ fuel ih =>
    rw [findMostWorkFrom] at h
    cases hl : s.setBlockIndexCandidates.getLast? with
    | none =>
      rw [hl] at h
      cases h
      exact ⟨.refl, .refl _, hl, fun m hm => by cases hm⟩
    | some p =>
      rw [hl] at h
      have hp := I.members p (List.mem_of_getLast? hl)
      cases hb : s.findBad ((s.node p).nHeight + 1) (some p) with
      | none => simp only [hb] at h; cases h
      | some ob =>
        cases ob with
        | none =>
          simp only [hb] at h
          cases h
          refine ⟨.refl, .refl _, hl, fun m hm => ?_⟩
          cases hm
          exact ⟨hp, fun a ha => findBad_none I.tree I.path hp (Nat.lt_succ_self _) hb ha⟩
        | some b =>
          simp only [hb] at h
          obtain ⟨hup, hk⟩ := updates_discard ok I hp hb
          obtain ⟨hups, hk', hlast, hall⟩ := ih (I.kept hk) h
          exact ⟨hup.trans hups, hk.trans hk', hlast, hall⟩

/-! ## Towards the candidate -/

/-- What a block that connects changes is not looked at on the way to the candidate. -/
theorem recordConnected_fields (n : Nat) (q : Ptr) :
    ((s.recordConnected p n).node q).nChainTx = (s.node q).nChainTx ∧
    ((s.recordConnected p n).node q).nTx = (s.node q).nTx ∧
    ((s.recordConnected p n).node q).nSequenceId = (s.node q).nSequenceId ∧
    ((s.recordConnected p n).status q).haveData = (s.status q).haveData ∧
    ((s.recordConnected p n).status q).failedValid = (s.status q).failedValid ∧
    ((s.recordConnected p n).status q).failedChild = (s.status q).failedChild := by
  unfold recordConnected
  split
  · exact ⟨rfl, rfl, rfl, rfl, rfl, rfl⟩
  · by_cases h : q = p
    · subst h
      simp [status]
    · simp only [status, node_modify_ne h, and_self]

theorem Usable.congr (h : s.Usable p) (hs : s.SameTree s')
    (hdata : (s'.status p).haveData = (s.status p).haveData)
    (hfailed : (s'.status p).failed = (s.status p).failed)
    (htx : (s'.node p).nChainTx = (s.node p).nChainTx) : s'.Usable p where
  known := by rw [hs.known]; exact h.known
  haveData := hdata.trans h.haveData
  failed := hfailed.trans h.failed
  linked := by rw [htx, hs.height]; exact h.linked

theorem Usable.connected (h : s.Usable q) {n : Nat}
    (hpr : ((s.recordConnected p n).updateTip (some p)).pruneBlockIndexCandidates = some s') :
    s'.Usable q := by
  obtain ⟨htx, -, -, hdata, hv, hc⟩ := recordConnected_fields (s := s) (p := p) n q
  have h₁ : (s.recordConnected p n).Usable q := by
    refine h.congr (sameTree_recordConnected n) hdata ?_ htx
    rw [BlockStatus.failed, BlockStatus.failed, hv, hc]
  unfold pruneBlockIndexCandidates at hpr
  simp only at hpr
  split_ifs at hpr
  cases hpr
  exact h₁.congr (sameTree_of_node rfl rfl) rfl rfl rfl

theorem updates_disconnectTo (ok : Op → ChainState → Prop) (I : s.Index) (fork : Option Ptr) (fuel : Nat) :
    Updates ok s (disconnectTo fork fuel s).2 ∧ (disconnectTo fork fuel s).2.node = s.node ∧
      (disconnectTo fork fuel s).2.mapBlockIndex = s.mapBlockIndex := by
  refine disconnectTo_rule
    (J := fun t => Updates ok s t ∧ t.node = s.node ∧ t.mapBlockIndex = s.mapBlockIndex)
    (fun t ht => I.updates ht.1) ?_ fork fuel ⟨.refl, rfl, rfl⟩
  rintro t p q ⟨hup, hnode, hindex⟩ ht hq
  exact ⟨hup.tail (.pop ht hq), hnode, hindex⟩

/-- `ActivateBestChainStep` on a candidate whose ancestors are usable. -/
theorem updates_activateBestChainStep (I : s.Index) (hm : s.Known m)
    (hall : ∀ a, s.Anc a m → s.contains a = true ∨ s.Usable a) {connectBlock : Ptr → Verdict}
    {r : Bool × ChainState} (h : s.activateBestChainStep connectBlock m = some r) :
    Updates ok s r.2 := by
  obtain ⟨fork, lowest, hfork, heq⟩ :=
    activateBestChainStep_eq connectBlock I.tree I.path hm
  rw [heq] at h
  obtain ⟨hup, hnode, hindex⟩ := updates_disconnectTo ok I fork s.vChain.length
  rcases hd : disconnectTo fork s.vChain.length s with ⟨_ | _, t⟩
  · rw [hd] at h hup
    cases h
    exact hup
  · rw [hd] at h hup hnode hindex
    obtain ⟨r', hr', rfl⟩ := Option.map_eq_some_iff.mp h
    have hst : s.SameTree t := sameTree_of_node hnode hindex
    refine (connectRoute_rule (J := fun ps t => Updates ok s t ∧ ∀ p ∈ ps, t.Usable p)
      ?_ ?_ ?_ ⟨hup, ?_⟩ hr').1
    · rintro p ps t c ⟨hup, hus⟩ - -
      have hp := hus p (List.mem_cons_self ..)
      exact ⟨((hup.tail (.invalid hp.known)).tail (.bestInvalid p)).tail (.bestInvalid _),
        fun q hq => by cases hq⟩
    · exact fun ps t ht => ⟨ht.1, fun q hq => by cases hq⟩
    · rintro p ps t t' n ⟨hup, hus⟩ ht - hpr
      have hp := hus p (List.mem_cons_self ..)
      exact ⟨(hup.tail (.push n hp ht)).tail (.prune hpr),
        fun q hq => (hus q (List.mem_cons_of_mem _ hq)).connected hpr⟩
    · -- the blocks to connect are not on the active chain, and so are usable
      intro p hp
      obtain ⟨hanc, hcont⟩ := mem_route I.tree hm hfork hp
      have hp := (hall p hanc).resolve_left (by rw [hcont]; decide)
      exact hp.congr hst (by rw [status, status, hnode]) (by rw [status, status, hnode])
        (by rw [hnode])

/-! ## Invalidating a block -/

theorem failed_markInvalid : ((s.markInvalid p).status p).failed = true := by
  have hnode : (s.markInvalid p).node =
    (s.modifyStatus p fun st => { st with failedValid := true }).node := rfl
  rw [status, hnode, modifyStatus, node_modify_self]
  rfl

theorem failed_markFailedChild (h : (s.status p).failed = true) :
    ((s.markFailedChild q).status p).failed = true := by
  by_cases hpq : p = q
  · subst hpq
    rw [status, node_markFailedChild, modifyStatus, node_modify_self]
    exact Bool.or_true _
  · rwa [status_markFailedChild_ne hpq]

theorem updates_disconnectInvalid (ok : Op → ChainState → Prop) (I : s.Index) (hp : (s.status p).failed = true) (fuel : Nat) :
    Updates ok s (disconnectInvalid p fuel s).2 := by
  induction fuel generalizing s with
  | zero => exact .refl
  | succ fuel ih =>
    rw [disconnectInvalid]
    cases hc : s.contains p with
    | false => exact .refl
    | true =>
      cases ht : s.tip with
      | none => exact .refl
      | some t =>
        obtain ⟨t', ht', hpt⟩ := (contains_iff I.tree I.path).mp hc
        rw [ht] at ht'
        cases ht'
        have hfail : Update ok s (s.markFailedChild t) := .failChild (tip_known I.path ht) hpt hp
        have I' := I.update hfail
        simp only
        rcases disconnectTip_cases I' with ⟨p', q, ht', hq, -, -, heq⟩ | heq
        · rw [heq]
          have hpop : Update ok (s.markFailedChild t) _ := .pop ht' hq
          exact .head hfail (.head hpop (ih (I'.update hpop) (failed_markFailedChild hp)))
        · rw [heq]
          exact .single hfail

theorem updates_invalidateBlock (I : s.Index) (hp : s.Known p) {r : Bool × ChainState}
    (h : s.invalidateBlock p = some r) : Updates ok s r.2 := by
  have hinv : Update ok s (s.markInvalid p) := .invalid hp
  have hup := updates_disconnectInvalid ok (I.update hinv) failed_markInvalid s.vChain.length
  unfold invalidateBlock at h
  rcases hd : disconnectInvalid p s.vChain.length (s.markInvalid p) with ⟨_ | _, t⟩
  · rw [hd] at h hup
    cases h
    exact .head hinv hup
  · rw [hd] at h hup
    simp only at h
    cases ht : t.tip with
    | none => rw [ht] at h; cases h
    | some tip =>
      rw [ht] at h
      cases h
      exact .head hinv ((hup.tail (.readd ht)).tail (.bestInvalid p))

/-! ## Runs -/

/-- A step of the node is a sequence of updates. -/
theorem step_updates (I : s.Index) {op : Op} (hok : ok op s) (h : step op s = some s') :
    Updates ok s s' := by
  cases op with
  | header hash block pnew =>
    simp only [step] at h
    split_ifs at h with hnew
    cases h
    unfold addToBlockIndex
    split
    · exact .refl
    · exact .single (.add hnew)
  | body p nTx pos =>
    simp only [step] at h
    split_ifs at h with hcond
    cases h
    obtain ⟨hw, h0, hlt⟩ := hcond
    simp only [wantsBody, Bool.and_eq_true, decide_eq_true_eq, Bool.not_eq_true'] at hw
    exact .single (.receive hok hw.1.1 hw.1.2 hw.2 h0 hlt)
  | reject p =>
    simp only [step] at h
    split_ifs at h with hw
    cases h
    simp only [wantsBody, Bool.and_eq_true, decide_eq_true_eq, Bool.not_eq_true'] at hw
    exact .single (.reject hw.1.1 hw.1.2 hw.2)
  | findMostWork =>
    obtain ⟨⟨r, t⟩, ht, rfl⟩ := Option.map_eq_some_iff.mp h
    exact (updates_findMostWorkChain ok I ht).1
  | activate connectBlock =>
    simp only [step] at h
    cases hf : s.findMostWorkChain with
    | none => rw [hf] at h; cases h
    | some r =>
      obtain ⟨r, t⟩ := r
      rw [hf] at h
      obtain ⟨hup, hk, -, hall⟩ := updates_findMostWorkChain ok I hf
      cases r with
      | none => cases h; exact hup
      | some m =>
        simp only at h
        split_ifs at h
        · cases h; exact hup
        · obtain ⟨r', hr', rfl⟩ := Option.map_eq_some_iff.mp h
          obtain ⟨hm, hus⟩ := hall m rfl
          exact hup.trans (updates_activateBestChainStep (I.kept hk) hm hus hr')
  | invalidate p =>
    simp only [step] at h
    split_ifs at h with hp
    obtain ⟨r, hr, rfl⟩ := Option.map_eq_some_iff.mp h
    exact updates_invalidateBlock I hp hr
  | reconsider p =>
    simp only [step] at h
    split_ifs at h with hp
    exact .single (.reconsider hok hp h)
  | prune n =>
    cases h
    exact .single (.pruneFile hok)

theorem index_empty : empty.Index where
  tree :=
    { graded := ⟨fun _ _ h => (by cases h), fun _ _ h => (by cases h), fun _ h => (by cases h)⟩
      nodup := List.nodup_nil
      skip := fun _ _ h => (by cases h)
      undo := fun _ h => (by cases h) }
  path := ⟨fun _ _ h => (by cases h), fun _ _ h => (by cases h), fun _ _ h => (by cases h)⟩
  members _ h := by cases h
  unlinked _ h := by cases h

/-- The states of the node in runs whose steps satisfy `ok`, from the empty index. -/
abbrev Runs (ok : Op → ChainState → Prop) : ChainState → Prop :=
  Reachable (fun s => s = empty) step ok

theorem Runs.index (h : Runs ok s) : s.Index := by
  refine h.invariant (I := Index) (fun s hs => ?_) fun op s s' I hok hstep => ?_
  · rw [hs]; exact index_empty
  · exact I.updates (step_updates I hok hstep)

/-- What holds of the empty state and is kept by updates holds of every state reached. -/
theorem Runs.invariant {J : ChainState → Prop} (hempty : J empty)
    (hupdate : ∀ s s', s.Index → J s → Update ok s s' → J s') (h : Runs ok s) : J s := by
  suffices hJ : s.Index ∧ J s from hJ.2
  refine Reachable.invariant (I := fun s => s.Index ∧ J s) (fun s hs => ?_)
    (fun op s s' hs hok hstep => ?_) h
  · rw [hs]; exact ⟨index_empty, hempty⟩
  · have hups := step_updates hs.1 hok hstep
    clear hstep
    induction hups with
    | refl => exact hs
    | tail _ hup ih => exact ⟨ih.1.update hup, hupdate _ _ ih.1 ih.2 hup⟩

theorem acceptBlockHeader_run (hashGenesisBlock hash : UInt256) (checks : Option Ptr → Bool)
    (block : CBlockHeader) {pnew : Ptr} (hnew : ¬ s.Known pnew) :
    ∃ ops, run step ops s = some (s.acceptBlockHeader hashGenesisBlock checks hash block pnew).2 ∧
      ∀ p, (s.acceptBlockHeader hashGenesisBlock checks hash block pnew).1 = some p →
        (s.acceptBlockHeader hashGenesisBlock checks hash block pnew).2.Known p ∧
        ((s.acceptBlockHeader hashGenesisBlock checks hash block pnew).2.status p).failed = false := by
  unfold acceptBlockHeader
  cases hf : s.find hash with
  | some p =>
    refine ⟨[], rfl, fun q hq => ?_⟩
    simp only at hq
    split_ifs at hq with hfailed
    cases hq
    exact ⟨find_known hf, by simpa [status] using hfailed⟩
  | none =>
    simp only
    generalize (if hash = hashGenesisBlock then none else s.find block.hashPrevBlock) = pindexPrev
    split_ifs
    · exact ⟨[], rfl, fun q hq => by cases hq⟩
    · exact ⟨[], rfl, fun q hq => by cases hq⟩
    · have A := added_addEntry hash block hnew
      have hadd : s.addToBlockIndex hash block pnew = (pnew, s.addEntry hash block pnew) := by
        rw [addToBlockIndex, hf]
      refine ⟨[.header hash block pnew], ?_, fun q hq => ?_⟩
      · rw [run, step, if_neg (show pnew ∉ s.mapBlockIndex from hnew)]
        rfl
      · rw [hadd] at hq ⊢
        cases hq
        exact ⟨A.known.mpr (.inr rfl), A.failed⟩
    · exact ⟨[], rfl, fun q hq => by cases hq⟩

/-- `AcceptBlock` is at most two operations: the header, and the body or its rejection. -/
theorem acceptBlock_run {hashGenesisBlock hash : UInt256} {checks : Option Ptr → Bool}
    {block : CBlockHeader} {pnew : Ptr} {fRequested : Bool} {nTx : Nat} {body : Ptr → BodyVerdict}
    (hnew : ¬ s.Known pnew) (hpos : 0 < nTx) (hlt : nTx < 2 ^ 32) :
    ∃ ops, run step ops s = some
      (s.acceptBlock hashGenesisBlock checks hash block pnew fRequested nTx body).2 := by
  obtain ⟨ops, hops, hentry⟩ := acceptBlockHeader_run hashGenesisBlock hash checks block hnew
  unfold acceptBlock
  rcases hr : s.acceptBlockHeader hashGenesisBlock checks hash block pnew with ⟨_ | p, t⟩
  · rw [hr] at hops
    exact ⟨ops, hops⟩
  · rw [hr] at hops hentry
    obtain ⟨hk, hf⟩ := hentry p rfl
    simp only
    split_ifs with hdata hskip
    · exact ⟨ops, hops⟩
    · exact ⟨ops, hops⟩
    · have hwants : t.wantsBody p = true := by
        rw [wantsBody, Bool.and_eq_true, Bool.and_eq_true, decide_eq_true_eq, Bool.not_eq_true',
          Bool.not_eq_true']
        exact ⟨⟨hk, hf⟩, by simpa using hdata⟩
      cases body p with
      | invalid c =>
        cases c with
        | true => exact ⟨ops, hops⟩
        | false =>
          refine ⟨ops ++ [.reject p], ?_⟩
          rw [run_append hops, run, step, if_pos hwants]
          rfl
      | stored pos =>
        refine ⟨ops ++ [.body p nTx pos], ?_⟩
        rw [run_append hops, run, step, if_pos ⟨hwants, hpos, hlt⟩]
        rfl

/-! ## Sample runs -/

/-- A block `p` on top of block `prev` arrives, header and body. -/
def sampleArrival (p prev nTx : Nat) : List Op :=
  [.header (Fin.ofNat _ p) ⟨1, Fin.ofNat _ prev, 0, 0, 0x207fffff, UInt32.ofNat p⟩ p,
    .body p nTx ⟨0, p⟩]

/-- The state at the end of a run. -/
def sampleState (ops : List Op) : ChainState := (run step ops empty).getD empty

theorem sampleState_run (ops : List Op) (h : (run step ops empty).isSome = true) :
    run step ops empty = some (sampleState ops) := by
  obtain ⟨s, hs⟩ := Option.isSome_iff_exists.mp h
  rw [sampleState, hs]
  rfl

end ChainState

end GC
