import GameCredits.Proof.Steps

/-!
# Failure flags and their causes

A block is flagged as failed only if it or an ancestor of it is invalid by itself (`Flags`). All
operations keep this, except that `ReconsiderBlock` clears the flags of the ancestors and of the
descendants of a block, but not those of other descendants of these ancestors.

* `status_reconsider`: whose flags `ReconsiderBlock` clears.
* `flags_reconsider_iff`: when it keeps `Flags`.
* `flags_runs`: runs in which every `ReconsiderBlock` does.
-/

namespace GC

open Framework

/-- The status with the failure flags cleared. -/
def BlockStatus.cleared (st : BlockStatus) : BlockStatus :=
  { st with failedValid := false, failedChild := false }

theorem BlockStatus.cleared_of_not_failed {st : BlockStatus} (h : st.failed = false) :
    st.cleared = st := by
  rcases st with ⟨v, d, u, fv, fc⟩
  rw [BlockStatus.failed, Bool.or_eq_false_iff] at h
  rw [BlockStatus.cleared]
  exact congrArg₂ (BlockStatus.mk v d u) h.1.symm h.2.symm

/-- The failure flags of an entry. -/
def CBlockIndex.flags (e : CBlockIndex) : Bool × Bool :=
  (e.nStatus.failedValid, e.nStatus.failedChild)

namespace ChainState

variable {s s' : ChainState} {p q a : Ptr}

/-! ## `ReconsiderBlock` -/

/-- The flags of the entries in `C`, and nothing else of a status, are cleared. -/
structure Cleared (s s' : ChainState) (C : Ptr → Prop) : Prop where
  same : s.SameTree s'
  pos : ∀ q, C q → s'.status q = (s.status q).cleared
  neg : ∀ q, ¬ C q → s'.status q = s.status q

theorem Cleared.refl (s : ChainState) : s.Cleared s fun _ => False :=
  ⟨.refl s, fun _ h => h.elim, fun _ _ => rfl⟩

theorem Cleared.trans {s s' s'' : ChainState} {C D : Ptr → Prop} (h : s.Cleared s' C)
    (h' : s'.Cleared s'' D) : s.Cleared s'' fun q => C q ∨ D q where
  same := h.same.trans h'.same
  pos q hq := by
    by_cases hD : D q
    · rw [h'.pos q hD]
      by_cases hC : C q
      · rw [h.pos q hC]; rfl
      · rw [h.neg q hC]
    · rw [h'.neg q hD, h.pos q (hq.resolve_right hD)]
  neg q hq := by
    rw [not_or] at hq
    rw [h'.neg q hq.2, h.neg q hq.1]

theorem Cleared.congr {C D : Ptr → Prop} (h : s.Cleared s' C) (hCD : ∀ q, C q ↔ D q) :
    s.Cleared s' D :=
  ⟨h.same, fun q hq => h.pos q ((hCD q).mpr hq), fun q hq => h.neg q (mt (hCD q).mp hq)⟩

theorem Cleared.tree {C : Ptr → Prop} (h : s.Cleared s' C) (T : s.Tree) : s'.Tree := by
  refine T.same h.same fun q _ hu => .inl ?_
  by_cases hq : C q
  · rw [h.pos q hq] at hu; exact hu
  · rw [h.neg q hq] at hu; exact hu

theorem cleared_clearFailed (s : ChainState) (p : Ptr) : s.Cleared (s.clearFailed p) fun q => q = p where
  same := (kept_clearFailed s p).same
  pos q hq := by
    subst hq
    rw [status, clearFailed, modifyStatus, node_modify_self]
    rfl
  neg q hq := by
    rw [status, clearFailed, modifyStatus, node_modify_ne hq]
    rfl

/-- Clearing an entry that is not flagged changes no status. -/
theorem cleared_of_not_failed (hp : (s.status p).failed = false) : s.Cleared s fun q => q = p :=
  ⟨.refl s, fun q hq => by rw [hq, BlockStatus.cleared_of_not_failed hp], fun _ _ => rfl⟩

theorem cleared_reconsiderEntry (T : s.Tree) (hq : s.Known q) (tip : Ptr) :
    s.Cleared (reconsiderEntry p (s.height p) tip s q) fun a => a = q ∧ s.Anc p q := by
  have hnode := node_reconsiderEntry (s := s) (q := q) p (s.height p) tip
  have hs := (kept_reconsiderEntry p (s.height p) tip hq).same
  have hanc : (s.getAncestor q (s.height p) == some p) = true ↔ s.Anc p q := by
    rw [beq_iff_eq, getAncestor_iff T hq]
  split_ifs at hnode with h
  · rw [Bool.and_eq_true, hanc] at h
    have hc := cleared_clearFailed s q
    have hstatus := fun a => congrArg (fun f => (f a).nStatus) hnode
    exact ⟨hs, fun a ha => (hstatus a).trans (hc.pos a ha.1),
      fun a ha => (hstatus a).trans (hc.neg a fun haq => ha ⟨haq, h.2⟩)⟩
  · have hstatus := fun a => congrArg (fun f => (f a).nStatus) hnode
    refine ⟨hs, fun a ⟨haq, hpq⟩ => ?_, fun a _ => hstatus a⟩
    -- an entry that is left alone is valid, and so not flagged
    rw [Bool.and_eq_true, hanc, not_and_or, Bool.not_eq_true', Bool.not_eq_false] at h
    have hvalid := h.resolve_right (not_not.mpr hpq)
    rw [BlockStatus.isValid, Bool.and_eq_true, Bool.not_eq_true'] at hvalid
    subst haq
    exact (hstatus a).trans (BlockStatus.cleared_of_not_failed hvalid.1).symm

theorem cleared_foldl_reconsider (T : s.Tree) (tip : Ptr) {n : Nat} (hn : n = s.height p) :
    ∀ {l : List Ptr}, (∀ q ∈ l, s.Known q) →
      s.Cleared (l.foldl (reconsiderEntry p n tip) s) fun a => a ∈ l ∧ s.Anc p a := by
  intro l hl
  induction l generalizing s with
  | nil => exact (Cleared.refl s).congr fun q => ⟨False.elim, fun h => by cases h.1⟩
  | cons x l ih =>
    subst hn
    have hx := cleared_reconsiderEntry (p := p) T (hl x (List.mem_cons_self ..)) tip
    have hrest := ih (hx.tree T) (by rw [hx.same.height]) fun q hq => by
      rw [hx.same.known]; exact hl q (List.mem_cons_of_mem _ hq)
    refine (hx.trans hrest).congr fun a => ?_
    rw [hx.same.anc, List.mem_cons]
    constructor
    · rintro (⟨rfl, h⟩ | ⟨h, h'⟩)
      · exact ⟨.inl rfl, h⟩
      · exact ⟨.inr h, h'⟩
    · rintro ⟨rfl | h, h'⟩
      · exact .inl ⟨rfl, h'⟩
      · exact .inr ⟨h, h'⟩

theorem cleared_clearAncestors (T : s.Tree) (hp : s.Known p) (fuel : Nat)
    (hfuel : s.height p < fuel) :
    s.Cleared (clearAncestors fuel (some p) s) fun a => s.Anc a p := by
  induction fuel generalizing s p with
  | zero => omega
  | succ fuel ih =>
    have hfirst : s.Cleared (if (s.node p).nStatus.failed then s.clearFailed p else s)
        fun a => a = p := by
      split_ifs with h
      · exact cleared_clearFailed s p
      · exact cleared_of_not_failed (by simpa [status] using h)
    rw [clearAncestors]
    generalize (if (s.node p).nStatus.failed then s.clearFailed p else s) = t at hfirst ⊢
    show s.Cleared (clearAncestors fuel (t.parent p) t) fun a => s.Anc a p
    rw [hfirst.same.parent]
    cases hq : s.parent p with
    | none =>
      have hnone : clearAncestors fuel none t = t := by cases fuel <;> rfl
      rw [hnone]
      exact hfirst.congr fun a => ⟨fun h => h ▸ .refl, fun h => h.of_root hq⟩
    | some q =>
      have := T.graded.child p q hp hq
      have hrest := ih (p := q) (hfirst.tree T)
        (by rw [hfirst.same.known]; exact T.graded.closed p q hp hq)
        (by rw [hfirst.same.height]; omega)
      refine (hfirst.trans hrest).congr fun a => ?_
      rw [hfirst.same.anc]
      constructor
      · rintro (rfl | h)
        · exact .refl
        · exact .step hq h
      · intro h
        rcases h.eq_or_parent with rfl | ⟨r, hr, har⟩
        · exact .inl rfl
        · rw [hq] at hr; cases hr
          exact .inr har

/-- `ReconsiderBlock` clears the flags of the block, its ancestors and its descendants. -/
theorem cleared_reconsiderBlock (I : s.Index) (hp : s.Known p) (h : s.reconsiderBlock p = some s') :
    s.Cleared s' fun q => s.Known q ∧ (s.Anc p q ∨ s.Anc q p) := by
  unfold reconsiderBlock at h
  cases ht : s.tip with
  | none => rw [ht] at h; cases h
  | some tip =>
    rw [ht] at h
    cases h
    have hdown := cleared_foldl_reconsider (p := p) I.tree tip (n := (s.node p).nHeight) rfl
      (l := s.mapBlockIndex) fun q hq => hq
    have hup := cleared_clearAncestors (p := p) (hdown.tree I.tree)
      (by rw [hdown.same.known]; exact hp) ((s.node p).nHeight + 1)
      (by rw [hdown.same.height]; exact Nat.lt_succ_self _)
    refine (hdown.trans hup).congr fun q => ?_
    rw [hdown.same.anc]
    constructor
    · rintro (⟨hk, hq⟩ | hq)
      · exact ⟨hk, .inl hq⟩
      · exact ⟨I.tree.graded.anc_mem hq hp, .inr hq⟩
    · rintro ⟨hk, hq | hq⟩
      · exact .inl ⟨hk, hq⟩
      · exact .inr hq

/-! ## The invariant -/

/-- A flagged entry, or an ancestor of it, is invalid by itself. -/
def Flags (s : ChainState) : Prop :=
  ∀ q, s.Known q → (s.status q).failed = true → ∃ a, s.Anc a q ∧ (s.status a).failedValid = true

/-- A flagged entry outside the blocks that `ReconsiderBlock` clears is invalid by itself, or an
ancestor outside them is. -/
def Covered (s : ChainState) (p : Ptr) : Prop :=
  ∀ q, s.Known q → (s.status q).failed = true → ¬ s.Anc q p → ¬ s.Anc p q →
    ∃ a, s.Anc a q ∧ ¬ s.Anc a p ∧ (s.status a).failedValid = true

/-- `ReconsiderBlock` keeps the invariant exactly if the flags that it leaves have a cause that it
leaves. -/
theorem flags_reconsider_iff (I : s.Index) (hp : s.Known p) (h : s.reconsiderBlock p = some s') :
    s'.Flags ↔ s.Covered p := by
  have hc := cleared_reconsiderBlock I hp h
  have hout : ∀ a, ¬ s.Anc p a → ¬ s.Anc a p → s'.status a = s.status a := fun a h₁ h₂ =>
    hc.neg a fun h => h.2.elim h₁ h₂
  constructor
  · intro F q hq hf hqp hpq
    obtain ⟨a, ha, hv⟩ := F q (by rwa [hc.same.known]) (by rwa [hout q hpq hqp])
    rw [hc.same.anc] at ha
    have hpa : ¬ s.Anc p a := fun h => hpq (h.trans ha)
    have hap : ¬ s.Anc a p := fun hap => by
      rw [hc.pos a ⟨I.tree.graded.anc_mem ha hq, .inr hap⟩] at hv
      cases hv
    rw [hout a hpa hap] at hv
    exact ⟨a, ha, hap, hv⟩
  · intro hcov q hq hf
    rw [hc.same.known] at hq
    have hnot : ¬ (s.Anc p q ∨ s.Anc q p) := fun h => by
      rw [hc.pos q ⟨hq, h⟩] at hf
      cases hf
    rw [not_or] at hnot
    rw [hout q hnot.1 hnot.2] at hf
    obtain ⟨a, ha, hap, hv⟩ := hcov q hq hf hnot.2 hnot.1
    refine ⟨a, by rwa [hc.same.anc], ?_⟩
    rwa [hout a (fun h => hnot.1 (h.trans ha)) hap]

/-! ## Runs -/

/-- Causes stay, and a new flag has a cause. -/
theorem Flags.grow (F : s.Flags) (hs : s.SameTree s')
    (hcause : ∀ a, (s.status a).failedValid = true → (s'.status a).failedValid = true)
    (hnew : ∀ q, s.Known q → (s'.status q).failed = true → (s.status q).failed = true ∨
      ∃ a, s.Anc a q ∧ (s'.status a).failedValid = true) : s'.Flags := by
  intro q hq hf
  rw [hs.known] at hq
  simp only [hs.anc]
  rcases hnew q hq hf with hf | h
  · obtain ⟨a, ha, hv⟩ := F q hq hf
    exact ⟨a, ha, hcause a hv⟩
  · exact h

theorem Flags.same (F : s.Flags) (hs : s.SameTree s') (h : Same CBlockIndex.flags s s') :
    s'.Flags := by
  have hv : ∀ a, (s'.status a).failedValid = (s.status a).failedValid := fun a =>
    congrArg Prod.fst (h a)
  have hc : ∀ a, (s'.status a).failedChild = (s.status a).failedChild := fun a =>
    congrArg Prod.snd (h a)
  refine F.grow hs (fun a ha => (hv a).trans ha) fun q _ hf => .inl ?_
  rwa [BlockStatus.failed, hv, hc] at hf

theorem Flags.invalid (F : s.Flags) (p : Ptr) : (s.rejectBlock p).Flags := by
  have hother : ∀ q, q ≠ p → (s.rejectBlock p).status q = s.status q := fun q hq => by
    rw [status, rejectBlock, modifyStatus, node_modify_ne hq]; rfl
  have hself : ((s.rejectBlock p).status p).failedValid = true := by
    rw [status, rejectBlock, modifyStatus, node_modify_self]
  refine F.grow (kept_rejectBlock s p).same (fun a ha => ?_) fun q _ hf => ?_
  · by_cases hap : a = p
    · rw [hap]; exact hself
    · rwa [hother a hap]
  · by_cases hqp : q = p
    · subst hqp; exact .inr ⟨q, .refl, hself⟩
    · rw [hother q hqp] at hf; exact .inl hf

theorem Flags.failChild (F : s.Flags) (ha : s.Anc a p) (hk : s.Known a)
    (hfailed : (s.status a).failed = true) : (s.markFailedChild p).Flags := by
  have hv : ∀ q, ((s.markFailedChild p).status q).failedValid = (s.status q).failedValid := by
    intro q
    by_cases hqp : q = p
    · subst hqp
      rw [status, node_markFailedChild, modifyStatus, node_modify_self]; rfl
    · rw [status_markFailedChild_ne hqp]
  refine F.grow (kept_markFailedChild s p).same (fun a ha => (hv a).trans ha) fun q _ hf => ?_
  by_cases hqp : q = p
  · subst hqp
    obtain ⟨b, hb, hbv⟩ := F a hk hfailed
    exact .inr ⟨b, hb.trans ha, (hv b).trans hbv⟩
  · rw [status_markFailedChild_ne hqp] at hf; exact .inl hf

theorem Flags.added (F : s.Flags) (I : s.Index) (A : s.Added s' p) : s'.Flags := by
  intro q hq hf
  rcases A.known.mp hq with hq | rfl
  · rw [A.status_eq hq] at hf
    obtain ⟨a, ha, hv⟩ := F q hq hf
    refine ⟨a, (A.anc I.tree hq).mpr ha, ?_⟩
    rwa [A.status_eq (I.tree.graded.anc_mem ha hq)]
  · rw [A.failed] at hf; cases hf

/-- What is asked of the requests: `ReconsiderBlock` leaves no flag without a cause. -/
def ReconsidersCovered : Op → ChainState → Prop
  | .reconsider p, s => s.Covered p
  | _, _ => True

theorem flags_update (I : s.Index) (F : s.Flags) (h : Update ReconsidersCovered s s') :
    s'.Flags := by
  cases h with
  | add hp => exact F.added I (added_addEntry _ _ hp)
  | receive _ hp =>
    refine F.same (I.received hp _ _).same (same_received (same_modify fun e => ?_) fun t q => ?_)
    · exact Prod.ext (BlockStatus.raiseValidity_failedValid ..)
        (BlockStatus.raiseValidity_failedChild ..)
    · exact same_assignLink fun _ _ _ => rfl
  | reject => exact F.invalid _
  | invalid =>
    exact (F.invalid _).same (kept_eraseCandidate _ _).same fun _ => rfl
  | failChild hp ha hf => exact F.failChild ha (I.tree.graded.anc_mem ha hp) hf
  | requeue hp => exact F.same (kept_requeue hp).same (same_of_node node_requeue)
  | erase => exact F.same (kept_eraseCandidate s _).same fun _ => rfl
  | bestInvalid => exact F.same (kept_invalidChainFound s _).same fun _ => rfl
  | prune h => exact F.same (kept_prune h).same (same_of_node (node_prune h))
  | pop => exact F.same (sameTree_of_node rfl rfl) fun _ => rfl
  | push n =>
    refine F.same ((sameTree_recordConnected n).trans (sameTree_of_node rfl rfl)) fun q => ?_
    obtain ⟨-, -, -, -, hv, hc⟩ := recordConnected_fields (s := s) n q
    exact Prod.ext hv hc
  | readd =>
    refine F.same ((foldl_kept (fun _ _ => kept_readdCandidate) fun _ h => h).trans
      (kept_sets (fun _ h => h) fun _ h => h)).same (same_of_node (node_foldl_readd _ _))
  | reconsider hok hp h => exact (flags_reconsider_iff I hp h).mpr hok
  | pruneFile =>
    exact F.same (kept_pruneOneBlockFile s _).same (same_pruneOneBlockFile _ fun _ => rfl)

theorem flags_runs (h : Runs ReconsidersCovered s) {q : Ptr} (hq : s.Known q)
    (hf : (s.status q).failed = true) : ∃ a, s.Anc a q ∧ (s.status a).failedValid = true :=
  h.invariant (J := Flags) (fun _ hq => (by cases hq)) (fun _ _ I F hup => flags_update I F hup) q
    hq hf

/-- Blocks 2 and 5 are on top of block 1, and blocks 3 and 4 on top of block 2; block 2 is
invalidated, and the flags reach 3 and 4. -/
def flaggedRun : List Op :=
  sampleArrival 1 0 1 ++ [.activate fun _ => .connects 5] ++ sampleArrival 2 1 1 ++
    sampleArrival 3 2 1 ++ sampleArrival 4 2 1 ++ sampleArrival 5 1 1 ++
    [.invalidate 2, .findMostWork]

theorem flaggedRun_runs {ok : Op → ChainState → Prop}
    (h : ∀ op s, (∀ p, op ≠ .reconsider p) → ok op s) : Runs ok (sampleState flaggedRun) := by
  refine Reachable.run (.init rfl) (fun ops₁ op ops₂ t heq _ => h op t fun p hop => ?_)
    (sampleState_run _ (by decide +kernel))
  have hmem : Op.reconsider p ∈ flaggedRun := by
    rw [heq, hop]
    exact List.mem_append_right _ (List.mem_cons_self ..)
  simp [flaggedRun, sampleArrival] at hmem

/-- After block 5 is reconsidered, block 4 is still flagged because of block 2. -/
theorem flaggedRun_flags :
    ((sampleState (flaggedRun ++ [.reconsider 5])).status 4).failed = true ∧
      ∃ a, (sampleState (flaggedRun ++ [.reconsider 5])).Anc a 4 ∧
        ((sampleState (flaggedRun ++ [.reconsider 5])).status a).failedValid = true := by
  have hstep : step (.reconsider 5) (sampleState flaggedRun) =
      some (sampleState (flaggedRun ++ [.reconsider 5])) := by
    have h := sampleState_run (flaggedRun ++ [.reconsider 5]) (by decide +kernel)
    rw [run_append (sampleState_run flaggedRun (by decide +kernel)), run] at h
    obtain ⟨t, ht, hrun⟩ := Option.bind_eq_some_iff.mp h
    cases hrun
    exact ht
  have hruns : Runs ReconsidersCovered (sampleState flaggedRun) :=
    flaggedRun_runs fun op s hop => by cases op <;> first | trivial | exact (hop _ rfl).elim
  have hcovered : (sampleState flaggedRun).Covered 5 := by
    have T := hruns.index.tree
    have hanc : ∀ q ∈ (sampleState flaggedRun).mapBlockIndex,
        ((sampleState flaggedRun).status q).failed = true →
          (sampleState flaggedRun).getAncestor q ((sampleState flaggedRun).height 2) = some 2 := by
      decide +kernel
    have hout : (sampleState flaggedRun).getAncestor 5 ((sampleState flaggedRun).height 2) ≠
        some 2 := by decide +kernel
    exact fun q hq hf _ _ => ⟨2, (getAncestor_iff T hq).mp (hanc q hq hf),
      mt (getAncestor_iff T (by decide +kernel)).mpr hout, by decide +kernel⟩
  have hok : ReconsidersCovered (.reconsider 5) (sampleState flaggedRun) := hcovered
  have hruns' := Reachable.step hruns hok hstep
  exact ⟨by decide +kernel, flags_runs hruns' (by decide +kernel) (by decide +kernel)⟩

/-- Block 4 stays flagged when block 3 next to it is reconsidered, but block 2 below them does
not. -/
theorem flaggedRun_reconsider :
    ¬ ∀ s, Runs (fun _ _ => True) s → ∀ q, s.Known q → (s.status q).failed = true →
      ∃ a, s.Anc a q ∧ (s.status a).failedValid = true := by
  intro hall
  have hrun := sampleState_run (flaggedRun ++ [.reconsider 3]) (by decide +kernel)
  have hruns : Runs (fun _ _ => True) (sampleState (flaggedRun ++ [.reconsider 3])) :=
    Reachable.run (.init rfl) (fun _ _ _ _ _ _ => trivial) hrun
  obtain ⟨a, ha, hv⟩ := hall _ hruns 4 (by decide +kernel) (by decide +kernel)
  have hak := hruns.index.tree.graded.anc_mem ha (by decide +kernel)
  have hnone : ∀ a ∈ (sampleState (flaggedRun ++ [.reconsider 3])).mapBlockIndex,
      ((sampleState (flaggedRun ++ [.reconsider 3])).status a).failedValid = false := by
    decide +kernel
  rw [hnone a hak] at hv
  cases hv

end ChainState

end GC
