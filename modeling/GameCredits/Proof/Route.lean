import GameCredits.Proof.Updates

/-!
# The way to a new tip

What the walks of `FindMostWorkChain` and `ActivateBestChainStep` visit: the ancestors of a candidate
down to the active chain, the blocks above the fork, and the blocks to connect, which are those from
the fork to the candidate, in lists of up to 32 blocks (`connectChunks_eq`).
-/

namespace GC

open Framework

namespace ChainState

variable {s s' : ChainState} {p q m : Ptr}

/-! ## Moving the tip -/

/-- The tip moves to a block on top of it. -/
theorem updateTip_push (I : s.Index) (hp : s.Known p) (h : s.parent p = s.tip) :
    s.updateTip (some p) = { s with vChain := s.vChain ++ [p], tipLog := p :: s.tipLog } := by
  rw [updateTip, setTip_push I.tree I.path hp h]
  rfl

/-- The tip moves to its parent. -/
theorem updateTip_pop (I : s.Index) (h : s.tip = some p) (hq : s.parent p = some q) :
    s.updateTip (some q) = { s with vChain := s.vChain.dropLast, tipLog := q :: s.tipLog } := by
  rw [updateTip, setTip_pop I.tree I.path h hq]
  rfl

theorem Index.push (I : s.Index) (hp : s.Known p) (h : s.parent p = s.tip) :
    (s.updateTip (some p)).Index := by
  have hs : s.SameTree (s.updateTip (some p)) := sameTree_of_node rfl rfl
  refine ⟨I.tree.same hs fun _ _ hu => .inl hu, ?_, I.members, I.unlinked⟩
  exact Path.push I.tree I.path hp h hs (congrArg vChain (updateTip_push I hp h))

theorem Index.pop (I : s.Index) (h : s.tip = some p) (hq : s.parent p = some q) :
    (s.updateTip (some q)).Index := by
  have hs : s.SameTree (s.updateTip (some q)) := sameTree_of_node rfl rfl
  refine ⟨I.tree.same hs fun _ _ hu => .inl hu, ?_, I.members, I.unlinked⟩
  exact I.path.pop hs (congrArg vChain (updateTip_pop I h hq))

theorem tip_push (I : s.Index) (hp : s.Known p) (h : s.parent p = s.tip) :
    (s.updateTip (some p)).tip = some p := by
  rw [updateTip_push I hp h, tip]
  exact List.getLast?_concat

theorem tip_pop (I : s.Index) (h : s.tip = some p) (hq : s.parent p = some q) :
    (s.updateTip (some q)).tip = some q := by
  have hlen := tip_length I.path h
  have hh := I.tree.graded.child p q (tip_known I.path h) hq
  have hcont := contains_parent I.tree I.path (contains_getElem.mpr (tip_getElem I.path h)) hq
  rw [updateTip_pop I h hq, tip, List.getLast?_eq_getElem?, List.getElem?_dropLast,
    List.length_dropLast, if_pos (by omega), ← contains_getElem.mp hcont]
  congr 1
  omega

/-- What a block that connects changes in the index: nothing of the tree, and undo data only for a
block with a parent. -/
theorem Index.recordConnected (I : s.Index) (n : Nat) : (s.recordConnected p n).Index := by
  have hs := sameTree_recordConnected (s := s) (p := p) n
  have hrest : (s.recordConnected p n).setBlockIndexCandidates = s.setBlockIndexCandidates ∧
      (s.recordConnected p n).mapBlocksUnlinked = s.mapBlocksUnlinked ∧
      (s.recordConnected p n).vChain = s.vChain := by
    unfold ChainState.recordConnected
    split <;> exact ⟨rfl, rfl, rfl⟩
  obtain ⟨hc, hu, hv⟩ := hrest
  refine ⟨I.tree.same hs fun q hq hundo => ?_, I.path.same hs hv, ?_, ?_⟩
  · by_cases hqp : q = p
    · subst hqp
      cases hpar : s.parent q with
      | none =>
        have : (s.node q).pprev = none := hpar
        rw [ChainState.recordConnected, this] at hundo
        exact .inl hundo
      | some r => exact .inr (Option.some_ne_none r)
    · unfold ChainState.recordConnected at hundo
      split at hundo
      · exact .inl hundo
      · rw [status, node_modify_ne hqp] at hundo
        exact .inl hundo
  · rw [hc, hs.known]; exact I.members
  · rw [hu, hs.known, hs.parent]; exact I.unlinked

theorem recordConnected_tip (n : Nat) : (s.recordConnected p n).tip = s.tip := by
  unfold recordConnected
  split <;> rfl

/-- `ConnectTip` moves the tip to the block on top of it. -/
theorem Index.connected (I : s.Index) (hp : s.Known p) (h : s.parent p = s.tip) (n : Nat) :
    ((s.recordConnected p n).updateTip (some p)).Index := by
  have hs := sameTree_recordConnected (s := s) (p := p) n
  refine (I.recordConnected n).push (by rwa [hs.known]) ?_
  rw [hs.parent, recordConnected_tip]
  exact h

/-! ## From a candidate to the active chain -/

theorem findBad_some (T : s.Tree) {fuel : Nat} {b : Ptr} (hp : s.Known p)
    (h : s.findBad fuel (some p) = some (some b)) :
    s.Anc b p ∧ s.contains b = false ∧ ((s.status b).failed = true ∨ (s.status b).haveData = false) ∧
      ∀ a, s.Anc a p → s.Anc b a → a ≠ b → (s.node a).nChainTx ≠ 0 := by
  induction fuel generalizing p with
  | zero => cases h
  | succ fuel ih =>
    rw [findBad] at h
    split_ifs at h with hc htx hbad
    · cases h
    · cases h
      refine ⟨.refl, by simpa using hc, ?_, fun a hap hpa hne => ?_⟩
      · rw [Bool.or_eq_true, Bool.not_eq_true'] at hbad
        exact hbad
      · exact (hne (T.graded.antisymm hap hpa hp)).elim
    · have hq : ∃ q, s.parent p = some q := by
        cases hq : (s.node p).pprev with
        | none => rw [hq] at h; cases fuel <;> cases h
        | some q => exact ⟨q, hq⟩
      obtain ⟨q, hq⟩ := hq
      have hq' : (s.node p).pprev = some q := hq
      rw [hq'] at h
      obtain ⟨hanc, hcont, hb, hall⟩ := ih (T.graded.closed p q hp hq) h
      refine ⟨.step hq hanc, hcont, hb, fun a hap hba hne => ?_⟩
      rcases hap.eq_or_parent with rfl | ⟨r, hr, har⟩
      · have := T.graded.child a q hp hq
        intro h0
        have : s.height a ≠ 0 := by omega
        exact htx ⟨h0, this⟩
      · rw [hq] at hr
        cases hr
        exact hall a har hba hne

/-- An entry on the way from a usable candidate to the active chain. -/
structure Usable (s : ChainState) (p : Ptr) : Prop where
  known : s.Known p
  haveData : (s.status p).haveData = true
  failed : (s.status p).failed = false
  linked : (s.node p).nChainTx ≠ 0 ∨ s.height p = 0

theorem findBad_none (T : s.Tree) (P : s.Path) {fuel : Nat} (hp : s.Known p)
    (hfuel : s.height p < fuel) (h : s.findBad fuel (some p) = some none) {a : Ptr}
    (ha : s.Anc a p) : s.contains a = true ∨ s.Usable a := by
  induction fuel generalizing p with
  | zero => omega
  | succ fuel ih =>
    rw [findBad] at h
    split_ifs at h with hc htx hbad
    · exact .inl (ha.closed (P := fun a => s.contains a = true)
        (fun _ _ hb hp => contains_parent T P hb hp) hc)
    · cases h
    · rcases ha.eq_or_parent with rfl | ⟨q, hq, haq⟩
      · rw [Bool.or_eq_true, Bool.not_eq_true', not_or] at hbad
        refine .inr ⟨hp, by simpa [status] using hbad.2, by simpa [status] using hbad.1, ?_⟩
        rw [not_and_or, not_not] at htx
        exact htx
      · have hq' : (s.node p).pprev = some q := hq
        rw [hq'] at h
        have := T.graded.child p q hp hq
        exact ih (T.graded.closed p q hp hq) (by omega) h haq

/-! ## Disconnecting -/

/-- `DisconnectTip` succeeds for a block that has its data and undo data, and so a parent. -/
theorem disconnectTip_cases (I : s.Index) :
    (∃ p q, s.tip = some p ∧ s.parent p = some q ∧ (s.status p).haveData = true ∧
      (s.status p).haveUndo = true ∧ s.disconnectTip = (true, s.updateTip (some q))) ∨
    s.disconnectTip = (false, s) := by
  unfold disconnectTip
  cases ht : s.tip with
  | none => exact .inr rfl
  | some p =>
    simp only
    split_ifs with h
    · rw [Bool.and_eq_true] at h
      cases hq : s.parent p with
      | none => exact (I.tree.undo p (tip_known I.path ht) h.2 hq).elim
      | some q => exact .inl ⟨p, q, rfl, hq, h.1, h.2, by rw [show (s.node p).pprev = some q from hq]⟩
    · exact .inr rfl

/-- The invariant rule of the loop that disconnects blocks. -/
theorem disconnectTo_rule {J : ChainState → Prop} (hI : ∀ s, J s → s.Index)
    (hpop : ∀ s p q, J s → s.tip = some p → s.parent p = some q → J (s.updateTip (some q)))
    (fork : Option Ptr) (fuel : Nat) (h : J s) : J (disconnectTo fork fuel s).2 := by
  induction fuel generalizing s with
  | zero => exact h
  | succ fuel ih =>
    rw [disconnectTo]
    split_ifs
    · exact h
    · rcases disconnectTip_cases (hI s h) with ⟨p, q, ht, hq, -, -, heq⟩ | heq
      · rw [heq]; exact ih (hpop s p q h ht hq)
      · rw [heq]; exact h

/-- A block below the tip stays on the active chain when the tip is disconnected. -/
theorem contains_pop (I : s.Index) (ht : s.tip = some p) (hq : s.parent p = some q) {f : Ptr} :
    (s.updateTip (some q)).contains f = true ↔ s.contains f = true ∧ f ≠ p := by
  have I' := I.pop ht hq
  have hs : s.SameTree (s.updateTip (some q)) := sameTree_of_node rfl rfl
  have hk := tip_known I.path ht
  simp only [contains_iff I'.tree I'.path, contains_iff I.tree I.path, tip_pop I ht hq, ht, hs.anc]
  constructor
  · rintro ⟨t, ht, hanc⟩
    cases ht
    refine ⟨⟨p, rfl, .step hq hanc⟩, fun h => ?_⟩
    subst h
    have := I.tree.graded.height_le hanc (I.tree.graded.closed f q hk hq)
    have := I.tree.graded.child f q hk hq
    omega
  · rintro ⟨⟨t, ht, hanc⟩, hne⟩
    cases ht
    rcases hanc.eq_or_parent with rfl | ⟨r, hr, hfr⟩
    · exact (hne rfl).elim
    · rw [hq] at hr; cases hr
      exact ⟨q, rfl, hfr⟩

theorem length_pop (I : s.Index) (ht : s.tip = some p) (hq : s.parent p = some q) :
    (s.updateTip (some q)).vChain.length + 1 = s.vChain.length := by
  have := tip_length I.path ht
  rw [updateTip_pop I ht hq, List.length_dropLast]
  omega

theorem sameTree_disconnectTo (fork : Option Ptr) (fuel : Nat) :
    s.SameTree (disconnectTo fork fuel s).2 := by
  induction fuel generalizing s with
  | zero => exact .refl s
  | succ fuel ih =>
    have htip : s.SameTree s.disconnectTip.2 := by
      unfold disconnectTip
      split
      · exact .refl s
      · split_ifs
        · exact sameTree_of_node rfl rfl
        · exact .refl s
    rw [disconnectTo]
    split_ifs
    · exact .refl s
    · rcases hd : s.disconnectTip with ⟨_ | _, t⟩
      · rw [hd] at htip; exact htip
      · rw [hd] at htip; exact htip.trans ih

/-- The loop ends at the fork, if all blocks can be disconnected. -/
theorem disconnectTo_tip (I : s.Index) {fork : Option Ptr} {fuel : Nat}
    (hfuel : s.vChain.length ≤ fuel) (hfork : ∀ f, fork = some f → s.contains f = true)
    (h : (disconnectTo fork fuel s).1 = true) : (disconnectTo fork fuel s).2.tip = fork := by
  have hnone : s.tip = none → fork = none := fun ht => by
    cases hf : fork with
    | none => rfl
    | some f =>
      obtain ⟨t, ht', -⟩ := (contains_iff I.tree I.path).mp (hfork f hf)
      rw [ht] at ht'; cases ht'
  induction fuel generalizing s with
  | zero =>
    have ht : s.tip = none := tip_eq_none.mpr (List.eq_nil_of_length_eq_zero (by omega))
    rw [hnone ht]
    exact ht
  | succ fuel ih =>
    rw [disconnectTo] at h ⊢
    split_ifs at h ⊢ with hstop
    · rw [Bool.or_eq_true, Option.isNone_iff_eq_none, beq_iff_eq] at hstop
      rcases hstop with ht | ht
      · rw [hnone ht]; exact ht
      · exact ht
    · rw [Bool.or_eq_true, Option.isNone_iff_eq_none, beq_iff_eq, not_or] at hstop
      rcases disconnectTip_cases I with ⟨p, q, ht, hq, -, -, heq⟩ | heq
      · rw [heq] at h ⊢
        have hlen := length_pop I ht hq
        refine ih (I.pop ht hq) (by omega) (fun f hf => ?_) h (fun ht' => ?_)
        · refine (contains_pop I ht hq).mpr ⟨hfork f hf, fun hfp => hstop.2 ?_⟩
          rw [ht, hf, hfp]
        · rw [tip_pop I ht hq] at ht'; cases ht'
      · rw [heq] at h; cases h

theorem disconnectTo_total (I : s.Index) {f : Ptr} {fuel : Nat} (hfork : s.contains f = true)
    (hdata : ∀ p, s.contains p = true → s.height f < s.height p →
      (s.status p).haveData = true ∧ (s.status p).haveUndo = true) :
    (disconnectTo (some f) fuel s).1 = true := by
  induction fuel generalizing s with
  | zero => rfl
  | succ fuel ih =>
    rw [disconnectTo]
    split_ifs with hstop
    · rfl
    · rw [Bool.or_eq_true, Option.isNone_iff_eq_none, beq_iff_eq, not_or] at hstop
      obtain ⟨p, ht, hfp⟩ := (contains_iff I.tree I.path).mp hfork
      have hne : f ≠ p := fun h => hstop.2 (by rw [ht, h])
      have hp := hdata p (contains_getElem.mpr (tip_getElem I.path ht))
        (I.tree.graded.height_lt hfp (tip_known I.path ht) hne)
      have heq : s.disconnectTip = (true, s.updateTip (s.node p).pprev) := by
        unfold disconnectTip
        rw [ht]
        simp only
        rw [if_pos (by rw [Bool.and_eq_true]; exact hp)]
      rw [heq]
      cases hq : s.parent p with
      | none => exact (I.tree.undo p (tip_known I.path ht) hp.2 hq).elim
      | some q =>
        rw [show (s.node p).pprev = some q from hq]
        refine ih (I.pop ht hq) ((contains_pop I ht hq).mpr ⟨hfork, hne⟩) fun a ha => ?_
        exact hdata a ((contains_pop I ht hq).mp ha).1

/-! ## Connecting -/

theorem pathAbove_none (node : Ptr → CBlockIndex) (n : Int) (fuel : Nat) :
    pathAbove node n fuel none = [] := by cases fuel <;> rfl

/-- The blocks above a height, on the way down from a block. -/
theorem pathAbove_eq (T : s.Tree) {fuel : Nat} {n : Int} (hp : s.Known p)
    (hle : n ≤ s.height p) (hfuel : (s.height p - n).toNat ≤ fuel) :
    pathAbove s.node n fuel (some p) = lineage s.parent (s.height p - n).toNat p := by
  induction fuel generalizing p with
  | zero =>
    rw [show (s.height p - n).toNat = 0 by omega]
    rfl
  | succ fuel ih =>
    rw [pathAbove]
    show (if (s.height p : Int) = n then [] else _) = _
    split_ifs with h
    · rw [show (s.height p - n).toNat = 0 by omega]
      rfl
    · rw [show (s.height p - n).toNat = (s.height p - n - 1).toNat + 1 by omega, lineage]
      show p :: pathAbove s.node n fuel (s.parent p) = _
      cases hq : s.parent p with
      | none => rw [pathAbove_none]; rfl
      | some q =>
        have := T.graded.child p q hp hq
        rw [ih (T.graded.closed p q hp hq) (by omega) (by omega),
          show s.height p - n - 1 = s.height q - n by omega]
        rfl

section

variable (connectBlock : Ptr → Verdict) (old : Option Ptr)

/-- The blocks to connect as one list; `lowest p` is the first block of the list of up to 32 blocks
that `p` is on. -/
def connectRoute (lowest : Ptr → Ptr) : List Ptr → ChainState → Option (Bool × ChainState)
  | [], s => some (true, s)
  | p :: ps, s =>
    match s.connectTip connectBlock p with
    | none => none
    | some (.invalid corruptionPossible, s) =>
      some (false, if corruptionPossible then s else s.invalidChainFound (lowest p))
    | some (.connects _, s) =>
      match s.pruneBlockIndexCandidates with
      | none => none
      | some s => if s.improved old then some (false, s) else connectRoute lowest ps s

variable {connectBlock old}

theorem connectBlocks_eq (low : Ptr) (lowest : Ptr → Ptr) {ps : List Ptr}
    (hlow : ∀ p ∈ ps, lowest p = low) :
    connectBlocks connectBlock old low ps s = connectRoute connectBlock old lowest ps s := by
  induction ps generalizing s with
  | nil => rfl
  | cons p ps ih =>
    have hrest : connectBlocks connectBlock old low ps = connectRoute connectBlock old lowest ps :=
      funext fun s => @ih s fun q hq => hlow q (List.mem_cons_of_mem _ hq)
    unfold connectBlocks connectRoute
    rcases s.connectTip connectBlock p with _ | ⟨nUndoPos | corruptionPossible, t⟩
    · rfl
    · dsimp only
      rcases t.pruneBlockIndexCandidates with _ | u
      · rfl
      · show (if u.improved old then some (false, u) else connectBlocks connectBlock old low ps u) =
          if u.improved old then some (false, u) else connectRoute connectBlock old lowest ps u
        rw [hrest]
    · show some (false, if corruptionPossible then t else t.invalidChainFound low) =
        some (false, if corruptionPossible then t else t.invalidChainFound (lowest p))
      rw [hlow p (List.mem_cons_self ..)]

theorem connectRoute_congr {lowest lowest' : Ptr → Ptr} {ps : List Ptr}
    (hlow : ∀ p ∈ ps, lowest p = lowest' p) :
    connectRoute connectBlock old lowest ps s = connectRoute connectBlock old lowest' ps s := by
  induction ps generalizing s with
  | nil => rfl
  | cons p ps ih =>
    rw [connectRoute, connectRoute, hlow p (List.mem_cons_self ..)]
    have ih' := fun s => @ih s fun q hq => hlow q (List.mem_cons_of_mem _ hq)
    simp only [ih']

theorem connectRoute_append (lowest : Ptr → Ptr) (ps qs : List Ptr) :
    connectRoute connectBlock old lowest (ps ++ qs) s =
      match connectRoute connectBlock old lowest ps s with
      | none => none
      | some (false, s) => some (false, s)
      | some (true, s) => connectRoute connectBlock old lowest qs s := by
  induction ps generalizing s with
  | nil => rfl
  | cons p ps ih =>
    rw [List.cons_append, connectRoute, connectRoute]
    cases s.connectTip connectBlock p with
    | none => rfl
    | some r =>
      rcases r with ⟨v, s₁⟩
      cases v with
      | invalid c => rfl
      | connects n =>
        simp only
        cases s₁.pruneBlockIndexCandidates with
        | none => rfl
        | some s₂ =>
          simp only
          split_ifs
          · rfl
          · exact ih

/-- The invariant rule of the loop that connects blocks, for what holds while the blocks `ps` are
left. -/
theorem connectRoute_rule {J : List Ptr → ChainState → Prop} {lowest : Ptr → Ptr} {ps : List Ptr}
    (hend : ∀ p ps s c, J (p :: ps) s → connectBlock p = .invalid c → c = false →
      J [] (((s.markInvalid p).invalidChainFound p).invalidChainFound (lowest p)))
    (hstop : ∀ ps s, J ps s → J [] s)
    (hpush : ∀ p ps s s' n, J (p :: ps) s → s.parent p = s.tip → connectBlock p = .connects n →
      ((s.recordConnected p n).updateTip (some p)).pruneBlockIndexCandidates = some s' → J ps s')
    (hJ : J ps s) {r : Bool × ChainState}
    (h : connectRoute connectBlock old lowest ps s = some r) : J [] r.2 := by
  induction ps generalizing s with
  | nil => cases h; exact hJ
  | cons p ps ih =>
    rw [connectRoute, connectTip] at h
    by_cases htip : (s.node p).pprev ≠ s.tip
    · rw [if_pos htip] at h; cases h
    · rw [if_neg htip] at h
      rw [ne_eq, not_not] at htip
      cases hv : connectBlock p with
      | invalid c =>
        rw [hv] at h
        cases c with
        | true => cases h; exact hstop _ _ hJ
        | false => cases h; exact hend p ps s false hJ hv rfl
      | connects n =>
        rw [hv] at h
        simp only at h
        cases hpr : ((s.recordConnected p n).updateTip (some p)).pruneBlockIndexCandidates with
        | none => rw [hpr] at h; cases h
        | some s₂ =>
          rw [hpr] at h
          have hJ' := hpush p ps s s₂ n hJ htip hv hpr
          simp only at h
          split_ifs at h
          · cases h; exact hstop _ _ hJ'
          · exact ih hJ' h

theorem sameTree_connectRoute {lowest : Ptr → Ptr} {ps : List Ptr} {r : Bool × ChainState}
    (h : connectRoute connectBlock old lowest ps s = some r) : s.SameTree r.2 := by
  refine connectRoute_rule (J := fun _ t => s.SameTree t) (fun p _ t c ht _ _ => ?_)
    (fun _ _ ht => ht) (fun p _ t t' n ht _ _ hpr => ?_) (.refl s) h
  · exact ht.trans ((sameTree_markInvalid (s := t) (p := p)).trans (sameTree_of_node rfl rfl))
  · have hup : (t.recordConnected p n).SameTree ((t.recordConnected p n).updateTip (some p)) :=
      sameTree_of_node rfl rfl
    exact (ht.trans (sameTree_recordConnected n)).trans (hup.trans (kept_prune hpr).same)

theorem pathAbove_same (h : s.SameTree s') (n : Int) (fuel : Nat) (p : Option Ptr) :
    pathAbove s'.node n fuel p = pathAbove s.node n fuel p := by
  induction fuel generalizing p with
  | zero => cases p <;> rfl
  | succ fuel ih =>
    cases p with
    | none => rfl
    | some p =>
      rw [pathAbove, pathAbove, ih, show (s'.node p).pprev = (s.node p).pprev from congrFun h.parent p,
        show (s'.node p).nHeight = (s.node p).nHeight from congrFun h.height p]

/-- The rounds of up to 32 blocks connect the blocks from the fork, at height `n`, to the candidate
`m` one after another. -/
theorem connectChunks_eq (connectBlock : Ptr → Verdict) (old : Option Ptr) (T : s.Tree)
    (hm : s.Known m) (fuel : Nat) {n : Int} (hn : -1 ≤ n)
    (hle : n ≤ s.height m) (hfuel : (s.height m - n).toNat ≤ fuel) (hs : s.SameTree s') :
    ∃ lowest, connectChunks connectBlock old m fuel n s' =
      (connectRoute connectBlock old lowest
        (lineage s.parent (s.height m - n).toNat m).reverse s').map Prod.snd := by
  have hheight : ((s'.node m).nHeight : Int) = s.height m :=
    congrArg Int.ofNat (congrFun hs.height m)
  induction fuel generalizing n s' with
  | zero =>
    rw [show (s.height m - n).toNat = 0 by omega]
    exact ⟨id, rfl⟩
  | succ fuel ih =>
    rw [connectChunks, hheight]
    by_cases hnm : n = s.height m
    · rw [if_pos hnm, show (s.height m - n).toNat = 0 by omega]
      exact ⟨id, rfl⟩
    rw [if_neg hnm]
    simp only
    -- the blocks of this round end at `a`
    generalize htgt : min (n + 32) (s.height m : Int) = target
    obtain ⟨a, ha, ham, hah⟩ := T.graded.up_spec (s.height m - target.toNat) hm (by omega)
    have hat : (s.height a : Int) = target := by omega
    have hanc : s'.getAncestor m target = some a := by
      have hanc := (hs.skipTree T).chainAncestor (h := target.toNat) hm
        (by rw [congrFun hs.height m]; omega)
      rw [hs.parent, congrFun hs.height m, ha, show ((target.toNat : Nat) : Int) = target by omega] at hanc
      exact hanc
    have hak := T.graded.anc_mem ham hm
    rw [hanc, pathAbove_same hs, pathAbove_eq T hak (by omega) (by omega), hat,
      show (s.height m - n).toNat = (s.height m - target.toNat) + (target - n).toNat by omega,
      lineage_add, ha, Option.elim_some, List.reverse_append]
    generalize hlow : (lineage s.parent (target - n).toNat a).getLastD 0 = low
    rw [connectBlocks_eq low (fun _ => low) fun _ _ => rfl]
    have happend : ∀ (low' : Ptr → Ptr),
        connectRoute connectBlock old (fun p => if (s.height p : Int) ≤ target then low else low' p)
          ((lineage s.parent (target - n).toNat a).reverse ++
            (lineage s.parent (s.height m - target.toNat) m).reverse) s' =
        match connectRoute connectBlock old (fun _ => low)
            (lineage s.parent (target - n).toNat a).reverse s' with
        | none => none
        | some (false, t) => some (false, t)
        | some (true, t) =>
          connectRoute connectBlock old low' (lineage s.parent (s.height m - target.toNat) m).reverse t
        := by
      intro low'
      rw [connectRoute_append, connectRoute_congr]
      · congr 1
        funext t
        refine connectRoute_congr fun p hp => if_neg ?_
        have := (T.graded.mem_lineage hm (List.mem_reverse.mp hp)).2
        omega
      · intro p hp
        have := T.graded.height_le (T.graded.mem_lineage hak (List.mem_reverse.mp hp)).1 hak
        exact if_pos (by omega)
    cases hr : connectRoute connectBlock old (fun _ => low)
        (lineage s.parent (target - n).toNat a).reverse s' with
    | none =>
      have h := congrArg (Option.map Prod.snd) (happend id)
      rw [hr] at h
      exact ⟨_, h.symm⟩
    | some r =>
      have hst := hs.trans (sameTree_connectRoute hr)
      rcases r with ⟨_ | _, t⟩
      · have h := congrArg (Option.map Prod.snd) (happend id)
        rw [hr] at h
        exact ⟨_, h.symm⟩
      · obtain ⟨low', hlow'⟩ := ih (n := target) (by omega) (by omega) (by omega) hst
          (congrArg Int.ofNat (congrFun hst.height m))
        have h := congrArg (Option.map Prod.snd) (happend low')
        rw [hr] at h
        rw [show (s.height m - target).toNat = s.height m - target.toNat by omega] at hlow'
        exact ⟨_, hlow'.trans h.symm⟩

/-- The fork as `FindFork` finds it. -/
abbrev Fork (s : ChainState) (m : Ptr) (fork : Option Ptr) : Prop := CChain.Fork s.node s.cchain m fork

/-- The blocks from the fork, or from the root, to `m`. -/
def route (s : ChainState) (fork : Option Ptr) (m : Ptr) : List Ptr :=
  (lineage s.parent (fork.elim (s.height m + 1) fun f => s.height m - s.height f) m).reverse

theorem climbs_route (T : s.Tree) (hm : s.Known m) {fork : Option Ptr} (hf : s.Fork m fork) :
    Climbs s.parent fork (s.route fork m) := by
  cases fork with
  | none =>
    have h := T.graded.climbs_lineage (n := s.height m + 1) hm (le_refl _)
    obtain ⟨r, hr, hrm, hrh⟩ := T.graded.up_spec (s.height m) hm (le_refl _)
    have hroot : s.parent r = none := by
      cases hq : s.parent r with
      | none => rfl
      | some q =>
        have := T.graded.child r q (T.graded.anc_mem hrm hm) hq
        omega
    rw [up_succ, hr, Option.bind_some, hroot] at h
    exact h
  | some f =>
    have hfm := (hf.contains f rfl).2
    have h := T.graded.climbs_lineage (n := s.height m - s.height f) hm (by omega)
    rw [(T.graded.anc_iff_up hm).mp hfm] at h
    exact h

/-- The blocks to connect are ancestors of `m` that the active chain does not contain. -/
theorem mem_route (T : s.Tree) (hm : s.Known m) {fork : Option Ptr} (hf : s.Fork m fork)
    (hp : p ∈ s.route fork m) : s.Anc p m ∧ s.contains p = false := by
  obtain ⟨hanc, hh⟩ := T.graded.mem_lineage hm (List.mem_reverse.mp hp)
  refine ⟨hanc, Bool.eq_false_iff.mpr fun hc => ?_⟩
  obtain ⟨f, rfl, hpf⟩ := hf.last p hanc hc
  have hfm := (hf.contains f rfl).2
  have := T.graded.height_le hpf (T.graded.anc_mem hfm hm)
  have := T.graded.height_le hfm hm
  rw [Option.elim_some] at hh
  omega

/-- `ActivateBestChainStep` disconnects blocks down to the fork, and connects the blocks from there
to the candidate until one fails or the tip has more work than before. -/
theorem activateBestChainStep_eq (connectBlock : Ptr → Verdict) (T : s.Tree) (P : s.Path)
    (hm : s.Known m) : ∃ fork lowest, s.Fork m fork ∧
    s.activateBestChainStep connectBlock m =
      match disconnectTo fork s.vChain.length s with
      | (false, s') => some (false, s')
      | (true, s') =>
        (connectRoute connectBlock s.tip lowest (s.route fork m) s').map fun r => (true, r.2) := by
  have hf := fork_findFork T P hm
  have hs := sameTree_disconnectTo (s := s) (s.findFork m) s.vChain.length
  unfold activateBestChainStep
  simp only
  rcases hd : disconnectTo (s.findFork m) s.vChain.length s with ⟨_ | _, t⟩
  · exact ⟨_, id, hf, by rw [hd]⟩
  · rw [hd] at hs
    cases hfork : s.findFork m with
    | none =>
      obtain ⟨lowest, h⟩ := connectChunks_eq connectBlock s.tip T hm (s.height m + 1)
        (n := -1) (by omega) (by omega) (by omega) hs
      rw [show ((s.height m : Int) - -1).toNat = s.height m + 1 by omega] at h
      rw [hfork] at hf hd
      refine ⟨none, lowest, hf, ?_⟩
      rw [hd]
      exact (congrArg (Option.map _) h).trans (Option.map_map ..)
    | some f =>
      have hle := T.graded.height_le (hf.contains f hfork).2 hm
      obtain ⟨lowest, h⟩ := connectChunks_eq connectBlock s.tip T hm (s.height m + 1)
        (n := s.height f) (by omega) (by omega) (by omega) hs
      rw [show ((s.height m : Int) - s.height f).toNat = s.height m - s.height f by omega] at h
      rw [hfork] at hf hd
      refine ⟨some f, lowest, hf, ?_⟩
      rw [hd]
      exact (congrArg (Option.map _) h).trans (Option.map_map ..)

end

end ChainState

end GC
