import GameCredits.Proof.Node

/-!
# `CheckBlockIndex` never fails

* `checkBlockIndex_iff`: the walk visits every entry once, with the oldest ancestors that have the
  properties at hand, so that `CheckBlockIndex` passes exactly if every entry passes.
* `checkBlockIndex_runs`: it passes in every state that a node reaches that is left alone.
-/

namespace GC

open Framework

namespace ChainState

variable {s : ChainState} {p q x : Ptr} {g : UInt256} {connectBlock : Ptr → Verdict} {fHavePruned : Bool}

/-- The oldest of an entry and its ancestors that has a property. -/
def firstOf (s : ChainState) (p : Ptr) (f : First) : Option Ptr :=
  oldest s.parent s.height (f.has s) p

/-- The same for the ancestors of the children of an entry, or of a root. -/
def firstAbove (s : ChainState) : Option Ptr → First → Option Ptr
  | none => fun _ => none
  | some p => s.firstOf p

/-- The heights grow by one from parent to child, from 0 at the entries without a parent. -/
abbrev Grows (s : ChainState) : Prop := Graded s.parent s.height s.Known

theorem children_forward (N : s.mapBlockIndex.Nodup) : Children s.parent s.forward s.Known where
  mem p a := by
    rw [forward, List.mem_filter, beq_iff_eq]
    exact Iff.rfl
  nodup p := N.filter _

theorem setFirst_eq (G : s.Grows) (hp : s.Known p) :
    s.setFirst p (s.firstAbove (s.parent p)) = s.firstOf p := by
  funext f
  unfold setFirst
  cases hq : s.parent p with
  | none =>
    rw [firstOf, oldest_root hq]
    rfl
  | some q =>
    rw [firstOf, oldest_child G hp hq]
    rfl

theorem unsetFirst_eq (G : s.Grows) (hp : s.Known p) :
    unsetFirst p (s.firstOf p) = s.firstAbove (s.parent p) := by
  funext f
  unfold unsetFirst
  cases hq : s.parent p with
  | none =>
    rw [firstOf, oldest_root hq]
    cases f.has s p <;> simp [firstAbove]
  | some q =>
    rw [firstOf, oldest_child G hp hq, show oldest s.parent s.height (f.has s) q = s.firstOf q f from rfl,
      show s.firstAbove (some q) f = s.firstOf q f from rfl]
    cases ho : s.firstOf q f with
    | none => cases f.has s p <;> simp
    | some c =>
      have hne : p ≠ c := fun hpc => by
        obtain ⟨hanc, -⟩ := oldest_anc G (G.closed p q hp hq) ho
        have := G.height_le hanc (G.closed p q hp hq)
        have := G.child p q hp hq
        rw [hpc] at this
        omega
      simp [hne]

/-- Whether an entry passes. -/
def passes (s : ChainState) (g : UInt256) (fHavePruned : Bool) (p : Ptr) : Bool :=
  s.checkEntry p (s.firstOf p) g fHavePruned (s.height p)

/-- Where the walk is determines its variables. -/
theorem local_checkVisitor (g : UInt256) (fHavePruned : Bool) (G : s.Grows) :
    (checkVisitor g fHavePruned s).Local s.parent s.Known (s.passes g fHavePruned)
      (fun p k => ⟨k, p.elim 0 fun p => s.height p + 1, s.firstAbove p⟩)
      (fun p k => ⟨k, s.height p, s.firstOf p⟩) where
  enter p k hp := by
    have hheight : ((s.parent p).elim 0 fun p => (s.height p : Int) + 1) = s.height p := by
      cases hq : s.parent p with
      | none => rw [G.root p hp hq]; rfl
      | some q => rw [G.child p q hp hq]; rfl
    simp only [checkVisitor]
    rw [setFirst_eq G hp, hheight]
    rfl
  down p k _ := rfl
  leave p k hp := by
    have hheight : ((s.parent p).elim 0 fun p => (s.height p : Int) + 1) = s.height p := by
      cases hq : s.parent p with
      | none => rw [G.root p hp hq]; rfl
      | some q => rw [G.child p q hp hq]; rfl
    simp only [checkVisitor]
    rw [unsetFirst_eq G hp, hheight]
  up p k _ := by simp [checkVisitor, firstAbove]

/-- Every entry has a root among its ancestors. -/
theorem exists_root (G : s.Grows) (N : s.mapBlockIndex.Nodup) (hp : s.Known p) : ∃ a ∈ s.forward none, s.Anc a p := by
  refine G.induct (P := fun p => ∃ a ∈ s.forward none, s.Anc a p) (fun p hp ih => ?_) hp
  cases hq : s.parent p with
  | none => exact ⟨p, ((children_forward N).mem none p).mpr ⟨hp, hq⟩, .refl⟩
  | some q =>
    obtain ⟨a, ha, hanc⟩ := ih q hq
    exact ⟨a, ha, .step hq hanc⟩

/-- The walk from the only root visits every entry once. -/
theorem perm_subtree (G : s.Grows) (N : s.mapBlockIndex.Nodup) (hroot : s.forward none = [p]) {n : Nat}
    (hn : ∀ c, s.Known c → s.Anc p c → s.height c < s.height p + n) :
    (subtree s.forward n p).Perm s.mapBlockIndex := by
  have C := children_forward N
  have hp : s.Known p := ((C.mem none p).mp (by rw [hroot]; exact List.mem_singleton_self p)).1
  refine (List.perm_ext_iff_of_nodup (nodup_subtree G C hp hn) N).mpr fun x => ?_
  rw [mem_subtree G C hp hn]
  refine ⟨fun h => h.1, fun hx => ⟨hx, ?_⟩⟩
  obtain ⟨a, ha, hanc⟩ := exists_root G N hx
  rw [hroot, List.mem_singleton] at ha
  rwa [← ha]

theorem exists_bound (f : Ptr → Nat) (l : List Ptr) : ∃ n, ∀ c ∈ l, f c < n := by
  induction l with
  | nil => exact ⟨0, fun _ h => by cases h⟩
  | cons a l ih =>
    obtain ⟨n, hn⟩ := ih
    refine ⟨max n (f a + 1), fun c hc => ?_⟩
    rcases List.mem_cons.mp hc with rfl | hc
    · omega
    · have := hn c hc
      omega

/-- The walk passes exactly if there is one entry without a parent, and every entry passes. -/
theorem checkBlockIndex_all (G : s.Grows) (N : s.mapBlockIndex.Nodup) (ht : s.tip ≠ none) :
    s.checkBlockIndex g fHavePruned = true ↔ (∃ r, s.forward none = [r]) ∧
      ∀ p, s.Known p → s.checkEntry p (s.firstOf p) g fHavePruned (s.height p) = true := by
  have hchain : s.vChain.isEmpty = false := by
    rw [List.isEmpty_eq_false_iff]
    exact fun h => ht (tip_eq_none.mpr h)
  unfold checkBlockIndex
  rw [hchain, if_neg Bool.false_ne_true]
  split
  case h_1 r hroot =>
    have C := children_forward N
    have hr : s.Known r := ((C.mem none r).mp (by rw [hroot]; exact List.mem_singleton_self r)).1
    obtain ⟨n, hbound⟩ := exists_bound s.height s.mapBlockIndex
    have hn : ∀ c, s.Known c → s.Anc r c → s.height c < s.height r + n := fun c hc _ => by
      have := hbound c hc
      omega
    have hperm := perm_subtree G N hroot hn
    have hwalk := walk_root (local_checkVisitor g fHavePruned G) G C hr hroot
      hn (Nat.le_of_eq hperm.length_eq)
    have hall : (subtree s.forward n r).all (s.passes g fHavePruned) = true ↔
        ∀ p, s.Known p → s.checkEntry p (s.firstOf p) g fHavePruned (s.height p) = true := by
      rw [hperm.all_eq, List.all_eq_true]
      exact Iff.rfl
    show (Option.any _ (walk _ s.parent s.forward s.height _ _ _)) = true ↔ _
    rw [show (⟨0, 0, fun _ => none⟩ : CheckState) =
      (fun p k => ⟨k, Option.elim p 0 fun p => s.height p + 1, s.firstAbove p⟩) none 0 from rfl, hwalk,
      ← hall]
    refine ⟨fun h => ?_, fun h => ?_⟩
    · split_ifs at h with hok
      · exact ⟨⟨r, hroot⟩, hok⟩
      · cases h
    · rw [if_pos h.2, Option.any_some]
      simp [checkVisitor, hperm.length_eq]
  case h_2 hne => exact ⟨fun h => (by cases h), fun ⟨⟨r, hr⟩, _⟩ => absurd hr (hne r)⟩

/-- With an active chain and an index without duplicates whose heights are right, `CheckBlockIndex` passes
exactly if there is one entry without a parent, and every entry passes its checks, made with its own height
and with the oldest of its ancestors that have the properties. -/
theorem checkBlockIndex_iff (G : s.Grows) (N : s.mapBlockIndex.Nodup) (ht : s.tip ≠ none) :
    s.checkBlockIndex g fHavePruned = true ↔ (∃ r, s.forward none = [r]) ∧
      ∀ p, s.Known p → s.checkEntry p (s.firstOf p) g fHavePruned (s.height p) = true :=
  checkBlockIndex_all G N ht

/-! ## The checks of one entry -/

theorem firstOf_isNone (T : s.Tree) (hp : s.Known p) (f : First) :
    (s.firstOf p f).isNone = true ↔ ∀ a, s.Anc a p → f.has s a = false := by
  rw [Option.isNone_iff_eq_none, firstOf, oldest_eq_none T.graded hp]

theorem foundInUnlinked_iff : s.foundInUnlinked p = true ↔
    ∃ q, s.parent p = some q ∧ (q, p) ∈ s.mapBlocksUnlinked := by
  simp only [foundInUnlinked, List.any_eq_true, Bool.and_eq_true, beq_iff_eq]
  constructor
  · rintro ⟨⟨q, x⟩, he, hq, rfl⟩
    exact ⟨q, hq.symm, he⟩
  · rintro ⟨q, hq, he⟩
    exact ⟨(q, p), he, hq.symm, rfl⟩

theorem isCandidate_iff : s.isCandidate p = true ↔ p ∈ s.setBlockIndexCandidates :=
  SortedSet.contains_iff (totalLess s)

theorem isSome_eq {o : Option Ptr} {n : Nat} (h : o.isNone = true ↔ n ≠ 0) : o.isSome = (n == 0) := by
  cases o with
  | none => simpa using h
  | some _ => simpa using h

section

variable (h : s.Settled g connectBlock) {t : Ptr} (ht : s.tip = some t) (hp : s.Known p)

include h hp

theorem Settled.received_iff : s.Received p ↔ (s.node p).nChainTx ≠ 0 :=
  ⟨h.node.filed.linked_of_received h.node.index.tree hp,
    h.node.filed.received_of_linked h.node.index.tree hp⟩

theorem Settled.neverProcessed : (s.firstOf p .neverProcessed).isNone = true ↔
    (s.node p).nChainTx ≠ 0 := by
  rw [firstOf_isNone h.node.index.tree hp, ← h.received_iff hp]
  exact forall₂_congr fun a _ => by simp [First.has]

/-- Without pruning, the data that is missing has never been there. -/
theorem Settled.missing : s.firstOf p .missing = s.firstOf p .neverProcessed := by
  have T := h.node.index.tree
  refine oldest_congr T.graded hp fun a ha => ?_
  have hdata := h.node.data a (T.graded.anc_mem ha hp)
  show (!(s.status a).haveData) = ((s.node a).nTx == 0)
  cases hd : (s.status a).haveData with
  | true => simpa using hdata.mp hd
  | false => simpa [hd] using hdata

theorem Settled.clean (hinv : (s.firstOf p .invalid).isNone = true) : s.Clean p := fun a ha => by
  have T := h.node.index.tree
  rw [firstOf_isNone T hp] at hinv
  by_contra hf
  obtain ⟨c, hc, hfv⟩ := h.node.flags a (T.graded.anc_mem ha hp) (Bool.eq_true_of_not_eq_false hf)
  have hnot : (s.status c).failedValid = false := hinv c (hc.trans ha)
  rw [hfv] at hnot
  cases hnot

theorem Settled.haveData_iff : (s.node p).nStatus.haveData = true ↔ (s.node p).nTx ≠ 0 := h.node.data p hp

theorem Settled.checkPlace : s.checkPlace p (s.height p) = true := by
  have T := h.node.index.tree
  unfold ChainState.checkPlace
  simp only [Bool.and_eq_true, Bool.or_eq_true, beq_iff_eq, decide_eq_true_eq]
  refine ⟨⟨rfl, ?_⟩, ?_⟩
  · cases hq : s.parent p with
    | none => rw [show (s.node p).pprev = none from hq]; rfl
    | some q =>
      rw [show (s.node p).pprev = some q from hq]
      exact decide_eq_true (Nat.le_of_lt (h.node.work p q hp hq))
  · by_cases hlt : s.height p < 2
    · exact .inl (by omega)
    · obtain ⟨q, hq⟩ := T.graded.parent_of_pos hp (by omega)
      have hskip := getSkipHeight_lt (n := s.height p) (by omega)
      obtain ⟨a, ha, -, hheight⟩ :=
        T.graded.up_spec (s.height p - getSkipHeight (s.height p)) hp (Nat.sub_le ..)
      refine .inr ?_
      rw [T.skip p q hp hq, ha]
      refine decide_eq_true ?_
      show ((s.height a : Nat) : Int) < s.height p
      omega

/-- What is above the genesis block, up to a block that has been connected, has been connected. -/
theorem Settled.scripts (hv : BLOCK_VALID_TRANSACTIONS < (s.status p).valid) {a : Ptr} (ha : s.Anc a p)
    (hroot : s.parent a ≠ none) : BLOCK_VALID_SCRIPTS ≤ (s.status a).valid := by
  have T := h.node.index.tree
  have hall : s.Known a ∧ (s.parent a ≠ none → BLOCK_VALID_SCRIPTS ≤ (s.status a).valid) := by
    refine ha.closed (P := fun x => s.Known x ∧ (s.parent x ≠ none →
      BLOCK_VALID_SCRIPTS ≤ (s.status x).valid)) (fun b c hc hb => ?_) ⟨hp, fun hn => ?_⟩
    · have hcv := hc.2 (by rw [hb]; exact Option.some_ne_none b)
      exact ⟨T.graded.closed c b hc.1 hb, (h.node.levels.scripts c b hc.1 hb
        (Nat.lt_of_lt_of_le (by decide) hcv)).2⟩
    · obtain ⟨q, hq⟩ := Option.ne_none_iff_exists'.mp hn
      exact (h.node.levels.scripts p q hp hq hv).1
  exact hall.2 hroot

theorem Settled.checkValid : s.checkValid p (s.firstOf p) = true := by
  have T := h.node.index.tree
  have htree : (s.firstOf p .notTreeValid).isNone = true := by
    refine (firstOf_isNone T hp _).mpr fun a ha => ?_
    have := h.node.filed.tree a (T.graded.anc_mem ha hp)
    show (_ && decide ((s.status a).valid < BLOCK_VALID_TREE)) = false
    rw [decide_eq_false (by omega), Bool.and_false]
  have hlevel : ∀ n, n ≤ BLOCK_VALID_SCRIPTS → BLOCK_VALID_TRANSACTIONS < n → n ≤ (s.status p).valid →
      ∀ a, s.Anc a p → s.lacksValid n a = false := fun n hn hlow hv a ha => by
    unfold lacksValid
    cases hq : s.parent a with
    | none => rw [show (s.node a).pprev = none from hq]; rfl
    | some q =>
      have hscripts := h.scripts hp (by omega) ha (by rw [hq]; exact Option.some_ne_none q)
      rw [Bool.and_eq_false_iff]
      refine .inr (decide_eq_false ?_)
      show ¬ (s.status a).valid < n
      omega
  unfold ChainState.checkValid
  simp only [Bool.and_eq_true, Bool.or_eq_true, Bool.not_eq_true', decide_eq_false_iff_not]
  refine ⟨⟨⟨⟨htree, .inr htree⟩, ?_⟩, ?_⟩, ?_⟩
  · refine or_iff_not_imp_left.mpr fun hv => (firstOf_isNone T hp _).mpr ?_
    exact hlevel BLOCK_VALID_CHAIN (by decide) (by decide) (not_not.mp hv)
  · refine or_iff_not_imp_left.mpr fun hv => (firstOf_isNone T hp _).mpr ?_
    exact hlevel BLOCK_VALID_SCRIPTS (Nat.le_refl _) (by decide) (not_not.mp hv)
  · cases hinv : s.firstOf p .invalid with
    | some a => exact .inl rfl
    | none => exact .inr (h.clean hp (by rw [hinv]; rfl) p .refl)

theorem Settled.checkCandidate : s.checkCandidate p (s.firstOf p) = true := by
  have hnever := h.neverProcessed hp
  unfold ChainState.checkCandidate
  split_ifs with hc
  · rw [Bool.and_eq_true, Bool.not_eq_true'] at hc
    rw [Bool.or_eq_true, Bool.not_eq_true', or_iff_not_imp_left, Bool.not_eq_false, Bool.and_eq_true,
      isCandidate_iff]
    rintro ⟨hinv, -⟩
    exact h.listed.complete p hp (hnever.mp hc.2) (h.clean hp hinv) hc.1
  · rw [Bool.not_eq_true', Bool.eq_false_iff, Ne, isCandidate_iff]
    intro hmem
    apply hc
    rw [Bool.and_eq_true, Bool.not_eq_true']
    exact ⟨h.raised p hmem, hnever.mpr (h.listed.members p hmem)⟩

theorem Settled.checkUnlinked : s.checkUnlinked p (s.firstOf p) fHavePruned = true := by
  have I := h.node.index
  have F := h.node.filed
  have hdata := h.haveData_iff hp
  have hnever := h.neverProcessed hp
  have hfound : s.foundInUnlinked p = true → (s.node p).nTx ≠ 0 ∧ (s.node p).nChainTx = 0 := fun hf => by
    obtain ⟨q, hq, he⟩ := foundInUnlinked_iff.mp hf
    refine ⟨F.linking.arrived _ he, ?_⟩
    by_contra hc
    exact (F.chain p hp hc).2.1 q hq (F.linking.unlinked _ he (F.small hp))
  unfold ChainState.checkUnlinked
  rw [h.missing hp]
  simp only [Bool.and_eq_true, Bool.or_eq_true, Bool.not_eq_true']
  refine ⟨⟨⟨?_, ?_⟩, ?_⟩, .inl ?_⟩
  · -- the parent is not linked, and not failed
    rw [or_iff_not_imp_left, Bool.not_eq_false, foundInUnlinked_iff]
    intro hcond
    simp only [Bool.and_eq_true] at hcond
    obtain ⟨⟨⟨hpar, hd⟩, hsome⟩, hinv⟩ := hcond
    obtain ⟨q, hq⟩ := Option.isSome_iff_exists.mp hpar
    have hpq : s.parent p = some q := hq
    have hc : (s.node p).nChainTx = 0 := by
      by_contra hne
      rw [Option.isNone_iff_eq_none.mp (hnever.mpr hne)] at hsome
      cases hsome
    have hqc : (s.node q).nChainTx = 0 := by
      by_contra hne
      refine (F.linking.linked p (F.small hp) (hdata.mp hd) fun q' hq' => ?_).elim (fun hne => hne hc) List.not_mem_nil
      obtain rfl := Option.some.inj (hpq.symm.trans hq')
      exact hne
    exact ⟨q, hpq, F.linking.waits p q (F.small hp) (hdata.mp hd) hpq hqc (h.clean hp hinv q (.parent_self hpq))⟩
  · by_cases hf : s.foundInUnlinked p = true
    · exact .inl (hdata.mpr (hfound hf).1)
    · exact .inr (Bool.eq_false_of_not_eq_true hf)
  · by_cases hf : s.foundInUnlinked p = true
    · refine .inl ?_
      rw [isSome_eq hnever, (hfound hf).2]
      rfl
    · exact .inr (Bool.eq_false_of_not_eq_true hf)
  · cases s.firstOf p .neverProcessed <;> simp

include ht

/-- A block that has no parent is the first of the active chain. -/
theorem Settled.root (hroot : s.parent p = none) :
    (s.node p).phashBlock = g ∧ s.contains p = true ∧ s.vChain.head? = some p := by
  have I := h.node.index
  have htk := tip_known I.path ht
  obtain ⟨a, hat, hap⟩ := h.node.root_anc htk hp
  obtain rfl := hap.of_root hroot
  have hc : s.contains a = true := (contains_iff I.tree I.path).mpr ⟨t, ht, hat⟩
  refine ⟨h.node.root a hp hroot, hc, ?_⟩
  have hget := contains_getElem.mp hc
  rwa [I.tree.graded.root a hp hroot, ← List.head?_eq_getElem?] at hget

theorem Settled.checkGenesis : s.checkGenesis p g = true := by
  unfold ChainState.checkGenesis
  cases hq : s.parent p with
  | none =>
    obtain ⟨hhash, -, hhead⟩ := h.root ht hp hq
    simp [hhash, hhead]
  | some q => simp [show (s.node p).pprev = some q from hq]

/-- Transactions have been checked where they have been received, but for the genesis block. -/
theorem Settled.notTransactionsValid : (s.firstOf p .notTransactionsValid).isNone = true ↔
    (s.node p).nChainTx ≠ 0 := by
  have T := h.node.index.tree
  rw [firstOf_isNone T hp, ← h.received_iff hp]
  refine forall₂_congr fun a ha => ?_
  have hak := T.graded.anc_mem ha hp
  have htxs := h.node.levels.txs a hak
  show (s.lacksValid BLOCK_VALID_TRANSACTIONS a) = false ↔ _
  unfold lacksValid
  cases hq : s.parent a with
  | none =>
    obtain ⟨-, hc, -⟩ := h.root ht hak hq
    have htx := (h.node.filed.chain a hak (h.node.active a hc).1).1
    simpa [show (s.node a).pprev = none from hq] using htx
  | some q =>
    rw [show (s.node a).pprev = some q from hq, ← htxs]
    simp [status]

theorem Settled.checkData : s.checkData p (s.firstOf p) fHavePruned = true := by
  have hdata := h.haveData_iff hp
  have htxs := h.node.levels.txs p hp
  have hseq := h.node.levels.sequence p hp
  have hundo := h.node.levels.undo p hp
  have hnever := h.neverProcessed hp
  have hnot := h.notTransactionsValid ht hp
  have hmissing := h.missing hp
  unfold ChainState.checkData
  rw [hmissing]
  simp only [Bool.and_eq_true, Bool.or_eq_true, bne_iff_ne, beq_iff_eq, Bool.not_eq_true']
  refine ⟨⟨⟨⟨⟨?_, ?_⟩, ?_⟩, ?_⟩, ?_⟩, ?_⟩
  · by_cases h0 : (s.node p).nChainTx = 0
    · exact .inr (hseq h0)
    · exact .inl h0
  · cases hd : (s.node p).nStatus.haveData with
    | true =>
      have htx := hdata.mp hd
      cases fHavePruned <;> simp [htx]
      omega
    | false =>
      have htx : (s.node p).nTx = 0 := by simpa [hd] using hdata
      cases fHavePruned <;> simp [htx]
  · cases hu : (s.node p).nStatus.haveUndo with
    | true => exact .inr (hdata.mpr (hundo hu))
    | false => exact .inl rfl
  · refine decide_eq_decide.mpr (htxs.trans ?_)
    omega
  · exact isSome_eq hnever
  · exact isSome_eq hnot

theorem Settled.checkEntry : s.checkEntry p (s.firstOf p) g fHavePruned (s.height p) = true := by
  simp only [ChainState.checkEntry, h.checkGenesis ht hp, h.checkData ht hp, h.checkPlace hp,
    h.checkValid hp, h.checkCandidate hp, h.checkUnlinked hp, Bool.and_self]

end

theorem Settled.checkBlockIndex (h : s.Settled g connectBlock) (ht : s.tip ≠ none) (fHavePruned : Bool) :
    s.checkBlockIndex g fHavePruned = true := by
  have T := h.node.index.tree
  obtain ⟨t, ht'⟩ := Option.ne_none_iff_exists'.mp ht
  refine (checkBlockIndex_all T.graded T.nodup ht).mpr ⟨?_, fun p hp => h.checkEntry ht' hp⟩
  have C := children_forward T.nodup
  obtain ⟨a, ha, -⟩ := exists_root T.graded T.nodup (tip_known h.node.index.path ht')
  have hak := (C.mem none a).mp ha
  have hone : ∀ b ∈ s.forward none, b = a := fun b hb => by
    obtain ⟨hbk, hbn⟩ := (C.mem none b).mp hb
    exact h.node.distinct b a hbk hak.1
      ((h.node.root b hbk hbn).trans (h.node.root a hak.1 hak.2).symm)
  refine ⟨a, List.perm_singleton.mp ?_⟩
  exact (List.perm_ext_iff_of_nodup (C.nodup none) (List.nodup_singleton a)).mpr fun b =>
    ⟨fun hb => List.mem_singleton.mpr (hone b hb), fun hb => List.mem_singleton.mp hb ▸ ha⟩

/-- In every state that a node reaches that is left alone, `CheckBlockIndex` passes, whether or not the
block files count as pruned. -/
theorem checkBlockIndex_runs (h : NodeRuns g connectBlock s) (ht : s.tip ≠ none) (fHavePruned : Bool) :
    s.checkBlockIndex g fHavePruned = true := (settled_runs h).checkBlockIndex ht fHavePruned

theorem forkRun_checkBlockIndex : ∃ s, NodeRuns 1 forkVerdict s ∧ s.tip = some 3 ∧
    s.checkBlockIndex 1 false = true := by
  have hrun : (run (guarded (nodeStep 1 forkVerdict) (FitsAfter 1 forkVerdict)) forkRun empty).any
    (fun s => decide (s.tip = some 3)) = true := by decide +kernel
  cases hs : run (guarded (nodeStep 1 forkVerdict) (FitsAfter 1 forkVerdict)) forkRun empty with
  | none => rw [hs] at hrun; cases hrun
  | some s =>
    rw [hs] at hrun
    have htip := of_decide_eq_true hrun
    have hreach : NodeRuns 1 forkVerdict s :=
      (show NodeRuns 1 forkVerdict empty from .init rfl).guarded hs
    exact ⟨s, hreach, htip, checkBlockIndex_runs hreach (by rw [htip]; decide) false⟩

theorem forkRun_passes : ∃ s, NodeRuns 1 forkVerdict s ∧ (s.checkBlockIndex 1 true = true ↔
    (∃ r, s.forward none = [r]) ∧
      ∀ p, s.Known p → s.checkEntry p (s.firstOf p) 1 true (s.height p) = true) := by
  have hrun : (run (guarded (nodeStep 1 forkVerdict) (FitsAfter 1 forkVerdict)) forkRun empty).any
    (fun s => decide (s.tip = some 3)) = true := by decide +kernel
  cases hs : run (guarded (nodeStep 1 forkVerdict) (FitsAfter 1 forkVerdict)) forkRun empty with
  | none => rw [hs] at hrun; cases hrun
  | some s =>
    rw [hs] at hrun
    have htip := of_decide_eq_true hrun
    have hreach : NodeRuns 1 forkVerdict s :=
      (show NodeRuns 1 forkVerdict empty from .init rfl).guarded hs
    have T := (settled_runs hreach).node.index.tree
    exact ⟨s, hreach, checkBlockIndex_iff T.graded T.nodup (by rw [htip]; decide)⟩

end ChainState

end GC
