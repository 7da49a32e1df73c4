import GameCredits.Model.Node
import GameCredits.Proof.Filed
import GameCredits.Proof.Flags

/-!
# The best chain

`ActivateBestChain` in a node that is left alone: which verdict a block gets does not depend on when it
is tried, no verdict is one of corruption, and the work of the entries grows towards the tips.

* `NodeOk`: what holds of the block index and the active chain between any two steps.
* `Round`: the same within the loop, with the best tip that there was as the reference below which
  candidates may be missing.
* `activateBestChain_rounds`: the loop ends, since each round flags an entry or raises the tip, and no
  assertion fails; the tip then has the most work of all blocks that could be connected.
-/

namespace GC

open Framework

namespace ChainState

variable {s s' : ChainState} {p q x m b : Ptr} {g : UInt256} {connectBlock : Ptr → Verdict} {r : Option Ptr}

/-- The verdict on a block that connects. -/
def Connects (connectBlock : Ptr → Verdict) (p : Ptr) : Prop := ∃ n, connectBlock p = .connects n

/-- What the other fields of an entry say of one another, and what has been written for the blocks of
the active chain. -/
structure Levels (s : ChainState) : Prop where
  sequence : ∀ p, s.Known p → (s.node p).nChainTx = 0 → (s.node p).nSequenceId = 0
  undo : ∀ p, s.Known p → (s.status p).haveUndo = true → (s.node p).nTx ≠ 0
  txs : ∀ p, s.Known p → (BLOCK_VALID_TRANSACTIONS ≤ (s.status p).valid ↔ (s.node p).nTx ≠ 0)
  scripts : ∀ p q, s.Known p → s.parent p = some q → BLOCK_VALID_TRANSACTIONS < (s.status p).valid →
    BLOCK_VALID_SCRIPTS ≤ (s.status p).valid ∧
      (s.parent q ≠ none → BLOCK_VALID_SCRIPTS ≤ (s.status q).valid)
  active : ∀ p, s.contains p = true → s.parent p ≠ none → BLOCK_VALID_SCRIPTS ≤ (s.status p).valid

theorem Levels.same (h : s.Levels) (hs : s.SameTree s')
    (hcont : ∀ x, s'.contains x = true → s.contains x = true)
    (hseq : Same CBlockIndex.nSequenceId s s') (hchain : Same CBlockIndex.nChainTx s s')
    (htx : Same CBlockIndex.nTx s s') (hundo : ∀ x, (s'.status x).haveUndo = (s.status x).haveUndo)
    (hvalid : ∀ x, (s'.status x).valid = (s.status x).valid) : s'.Levels where
  sequence p hp hc := by
    rw [hs.known] at hp
    rw [hchain p] at hc
    rw [hseq p]
    exact h.sequence p hp hc
  undo p hp hu := by
    rw [hs.known] at hp
    rw [hundo] at hu
    rw [htx p]
    exact h.undo p hp hu
  txs p hp := by
    rw [hs.known] at hp
    rw [hvalid, htx p]
    exact h.txs p hp
  scripts p q hp hq hv := by
    rw [hs.known] at hp
    rw [hs.parent] at hq ⊢
    rw [hvalid] at hv ⊢
    rw [hvalid]
    exact h.scripts p q hp hq hv
  active p hp hn := by
    rw [hs.parent] at hn
    rw [hvalid]
    exact h.active p (hcont p hp) hn

/-- The invariant of the block index and of the active chain. -/
structure NodeOk (g : UInt256) (connectBlock : Ptr → Verdict) (s : ChainState) : Prop where
  index : s.Index
  /-- Only the genesis block has no parent. -/
  root : ∀ p, s.Known p → s.parent p = none → (s.node p).phashBlock = g
  distinct : ∀ p q, s.Known p → s.Known q → (s.node p).phashBlock = (s.node q).phashBlock → p = q
  work : ∀ p q, s.Known p → s.parent p = some q → (s.node q).nChainWork < (s.node p).nChainWork
  filed : s.Filed []
  data : ∀ p, s.Known p → ((s.status p).haveData = true ↔ (s.node p).nTx ≠ 0)
  verdict : ∀ p, s.Known p → (s.status p).failedValid = true →
    (s.node p).nTx = 0 ∨ ¬ Connects connectBlock p
  flags : s.Flags
  levels : s.Levels
  /-- A block of the active chain has been connected. -/
  active : ∀ p, s.contains p = true → (s.node p).nChainTx ≠ 0 ∧ (s.status p).failed = false ∧
    Connects connectBlock p ∧ (s.parent p ≠ none → (s.status p).haveUndo = true)

/-! ## Work and the order of the candidates -/

theorem less_of_work (h : (s.node p).nChainWork < (s.node q).nChainWork) : s.less p q = true := by
  unfold less workLess
  rw [if_neg (by omega), if_pos h]

theorem work_le_of_not_less (h : s.less p q = false) :
    (s.node q).nChainWork ≤ (s.node p).nChainWork := by
  by_contra hlt
  rw [less_of_work (by omega)] at h
  cases h

/-- The work of an ancestor is less. -/
theorem NodeOk.work_anc (h : s.NodeOk g connectBlock) (hp : s.Known p) {a : Ptr} (ha : s.Anc a p) :
    a = p ∨ (s.node a).nChainWork < (s.node p).nChainWork := by
  induction ha with
  | refl => exact .inl rfl
  | step hq haq ih =>
    have hlt := h.work _ _ hp hq
    rcases ih (h.index.tree.graded.closed _ _ hp hq) with rfl | hlt'
    · exact .inr hlt
    · exact .inr (by omega)

/-- An ancestor sorts below, or is the entry itself. -/
theorem NodeOk.not_less_anc (h : s.NodeOk g connectBlock) (hp : s.Known p) {a : Ptr}
    (ha : s.Anc a p) : s.less p a = false := by
  rcases h.work_anc hp ha with rfl | hlt
  · exact (totalLess s).irrefl a
  · by_contra hf
    have hless := less_of_work hlt
    have := (totalLess s).trans _ _ _ hless (Bool.eq_true_of_not_eq_false hf)
    rw [(totalLess s).irrefl a] at this
    cases this

/-- All entries have the genesis block as an ancestor. -/
theorem NodeOk.root_anc (h : s.NodeOk g connectBlock) (hp : s.Known p) (hq : s.Known q) :
    ∃ a, s.Anc a p ∧ s.Anc a q := by
  have hroot : ∀ x, s.Known x → ∃ a, s.Anc a x ∧ s.parent a = none := fun x hx =>
    h.index.tree.graded.induct (P := fun x => ∃ a, s.Anc a x ∧ s.parent a = none) (fun x _ ih => by
      cases hy : s.parent x with
      | none => exact ⟨x, .refl, hy⟩
      | some y =>
        obtain ⟨a, ha, hn⟩ := ih y hy
        exact ⟨a, .step hy ha, hn⟩) hx
  obtain ⟨a, ha, han⟩ := hroot p hp
  obtain ⟨c, hc, hcn⟩ := hroot q hq
  have hak := h.index.tree.graded.anc_mem ha hp
  have hck := h.index.tree.graded.anc_mem hc hq
  obtain rfl := h.distinct a c hak hck ((h.root a hak han).trans (h.root c hck hcn).symm)
  exact ⟨a, ha, hc⟩

/-- A block that is linked, all of whose ancestors connect, has no failed ancestor. -/
theorem NodeOk.clean (h : s.NodeOk g connectBlock) (hp : s.Known p) (hc : (s.node p).nChainTx ≠ 0)
    (hv : ∀ a, s.Anc a p → Connects connectBlock a) : s.Clean p := fun a ha => by
  by_contra hf
  have hak := h.index.tree.graded.anc_mem ha hp
  obtain ⟨c, hca, hfv⟩ := h.flags a hak (Bool.eq_true_of_not_eq_false hf)
  have hcp := hca.trans ha
  rcases h.verdict c (h.index.tree.graded.anc_mem hca hak) hfv with h0 | hn
  · exact h.filed.received_of_linked h.index.tree hp hc c hcp h0
  · exact hn (hv c hcp)

/-! ## Changes that keep the tip -/

theorem SameTree.contains (hs : s.SameTree s') (hc : s'.vChain = s.vChain) (x : Ptr) :
    s'.contains x = s.contains x := by
  rw [ChainState.contains, ChainState.contains, CChain.contains, CChain.contains, cchain, cchain, hc,
    show (s'.node x).nHeight = (s.node x).nHeight from congrFun hs.height x]

/-- Entries outside of the active chain may become failed, if they are linked or have no
transactions; undo data may be written. -/
theorem NodeOk.flag (h : s.NodeOk g connectBlock) (I : s'.Index) (hs : s.SameTree s')
    (hvc : s'.vChain = s.vChain)
    (htx : Same CBlockIndex.nTx s s') (hchain : Same CBlockIndex.nChainTx s s')
    (hdata : Same (fun e => e.nStatus.haveData) s s')
    (hundo : ∀ x, (s.status x).haveUndo = true → (s'.status x).haveUndo = true)
    (hvalid : ∀ x, (s.status x).valid ≤ (s'.status x).valid)
    (hU : s'.mapBlocksUnlinked = s.mapBlocksUnlinked)
    (hmono : ∀ x, (s.status x).failed = true → (s'.status x).failed = true)
    (hnew : ∀ x, s.Known x → (s'.status x).failed = true → (s.status x).failed = true ∨
      s.contains x = false ∧ ((s.node x).nChainTx ≠ 0 ∨ (s.node x).nTx = 0))
    (hv : ∀ x, s.Known x → (s'.status x).failedValid = true → (s.status x).failedValid = true ∨
      (s.node x).nTx = 0 ∨ ¬ Connects connectBlock x)
    (F : s'.Flags) (L : s'.Levels) : s'.NodeOk g connectBlock := by
  have hhash : ∀ x, (s'.node x).phashBlock = (s.node x).phashBlock := fun x =>
    congrArg Prod.fst (hs.place x)
  have hwork : ∀ x, (s'.node x).nChainWork = (s.node x).nChainWork := fun x =>
    congrArg (fun e => e.2.2.2.2) (hs.place x)
  constructor
  case index => exact I
  case root =>
    intro x hx hn
    rw [hs.known] at hx
    rw [hs.parent] at hn
    rw [hhash]
    exact h.root x hx hn
  case distinct =>
    intro x y hx hy hxy
    rw [hs.known] at hx hy
    rw [hhash, hhash] at hxy
    exact h.distinct x y hx hy hxy
  case work =>
    intro x y hx hy
    rw [hs.known] at hx
    rw [hs.parent] at hy
    rw [hwork, hwork]
    exact h.work x y hx hy
  case filed =>
    refine h.filed.flag h.index.tree hs htx hchain hU hvalid hmono fun x hx hf => ?_
    rcases hnew x hx hf with hf | ⟨-, hlt⟩
    · exact h.filed.linking.failed x (h.filed.small hx) hf
    · exact hlt
  case data =>
    intro x hx
    rw [hs.known] at hx
    rw [status, show (s'.node x).nStatus.haveData = _ from hdata x, htx x]
    exact h.data x hx
  case verdict =>
    intro x hx hf
    rw [hs.known] at hx
    rw [htx x]
    rcases hv x hx hf with hf | hf
    · exact h.verdict x hx hf
    · exact hf
  case flags => exact F
  case levels => exact L
  case active =>
    intro x hx
    rw [hs.contains hvc] at hx
    obtain ⟨hc, hf, hv, hu⟩ := h.active x hx
    have hk : s.Known x := h.index.path.known _ _ (contains_getElem.mp hx)
    rw [hchain x, hs.parent]
    refine ⟨hc, ?_, hv, fun hn => hundo x (hu hn)⟩
    by_contra hf'
    rcases hnew x hk (Bool.eq_true_of_not_eq_false hf') with hf' | ⟨hx', -⟩
    · rw [hf] at hf'
      cases hf'
    · rw [hx] at hx'
      cases hx'

/-- The set of candidates and what is noted of the best blocks do not matter. -/
theorem NodeOk.of_node (h : s.NodeOk g connectBlock) (k : s.Kept s') (hn : s'.node = s.node)
    (hU : s'.mapBlocksUnlinked = s.mapBlocksUnlinked) : s'.NodeOk g connectBlock := by
  have hst : ∀ x, s'.status x = s.status x := fun x => by rw [status, hn]; rfl
  refine h.flag (h.index.kept k) k.same k.chain (same_of_node hn) (same_of_node hn) (same_of_node hn)
    (fun x hx => by rwa [hst]) (fun x => by rw [hst]) hU (fun x hx => by rwa [hst]) (fun x _ hx => ?_)
    (fun x _ hx => ?_) (h.flags.same k.same (same_of_node hn)) (h.levels.same k.same (fun x hx => by
      rwa [← k.same.contains k.chain]) (same_of_node hn) (same_of_node hn) (same_of_node hn)
      (fun x => by rw [hst]) fun x => by rw [hst])
  · rw [status, hn] at hx
    exact .inl hx
  · rw [status, hn] at hx
    exact .inl hx

/-! ## A block connects -/

theorem haveUndo_recordConnected (n : Nat) (x : Ptr) :
    ((s.status x).haveUndo = true → ((s.recordConnected p n).status x).haveUndo = true) ∧
      (x = p → s.parent p ≠ none → ((s.recordConnected p n).status x).haveUndo = true) := by
  unfold recordConnected
  split
  case h_1 hn => exact ⟨id, fun _ hne => absurd hn hne⟩
  case h_2 =>
    by_cases hx : x = p
    · subst hx
      simp [status]
    · simp [status, node_modify_ne hx, hx]

theorem valid_recordConnected (n : Nat) (x : Ptr) :
    (s.status x).valid ≤ ((s.recordConnected p n).status x).valid := by
  unfold recordConnected
  split
  · exact Nat.le_refl _
  · by_cases hx : x = p
    · subst hx
      rw [status, status, node_modify_self]
      exact BlockStatus.le_raiseValidity { (s.node x).nStatus with haveUndo := true } _
    · rw [status, status, node_modify_ne hx]

theorem chain_recordConnected (n : Nat) : (s.recordConnected p n).vChain = s.vChain := by
  unfold recordConnected
  split <;> rfl

theorem valid_recordConnected_self (hp : s.Usable p) (hq : s.parent p ≠ none) (n : Nat) :
    BLOCK_VALID_SCRIPTS ≤ ((s.recordConnected p n).status p).valid := by
  unfold recordConnected
  split
  case h_1 hn => exact absurd hn hq
  case h_2 =>
    rw [status, node_modify_self]
    have hf : ({ (s.node p).nStatus with haveUndo := true } : BlockStatus).failed = false := hp.failed
    simp only [BlockStatus.raiseValidity, hf, Bool.false_eq_true, if_false]
    exact Nat.le_max_right _ _

theorem recordConnected_ne (n : Nat) (h : x ≠ p) : (s.recordConnected p n).status x = s.status x := by
  unfold recordConnected
  split
  · rfl
  · rw [status, node_modify_ne h]
    rfl

theorem Levels.recordConnected (h : s.Levels) (I : s.Index) (hp : s.Usable p)
    (htx : (s.node p).nTx ≠ 0) (ht : s.parent p = s.tip) (n : Nat) :
    (s.recordConnected p n).Levels := by
  have hf := recordConnected_fields (s := s) (p := p) n
  have hs : s.SameTree (s.recordConnected p n) := sameTree_recordConnected n
  have hne := fun {x : Ptr} (hx : x ≠ p) => recordConnected_ne (s := s) n hx
  have hroot : s.parent p = none → (s.recordConnected p n).status = s.status := fun hn => by
    unfold ChainState.recordConnected
    rw [show (s.node p).pprev = none from hn]
  constructor
  case sequence =>
    intro x hx hc
    rw [hs.known] at hx
    rw [(hf x).1] at hc
    rw [(hf x).2.2.1]
    exact h.sequence x hx hc
  case undo =>
    intro x hx hu
    rw [hs.known] at hx
    rw [(hf x).2.1]
    by_cases hxp : x = p
    · rwa [hxp]
    · rw [hne hxp] at hu
      exact h.undo x hx hu
  case txs =>
    intro x hx
    rw [hs.known] at hx
    rw [(hf x).2.1]
    by_cases hxp : x = p
    · rw [hxp]
      have := (h.txs p hp.known).mpr htx
      exact ⟨fun _ => htx, fun _ => Nat.le_trans this (valid_recordConnected n p)⟩
    · rw [hne hxp]
      exact h.txs x hx
  case scripts =>
    intro x q hx hq hv
    rw [hs.known] at hx
    rw [hs.parent] at hq ⊢
    have hall : BLOCK_VALID_SCRIPTS ≤ ((s.recordConnected p n).status x).valid ∧
        (s.parent q ≠ none → BLOCK_VALID_SCRIPTS ≤ (s.status q).valid) := by
      by_cases hxp : x = p
      · subst hxp
        refine ⟨valid_recordConnected_self hp (by rw [hq]; exact Option.some_ne_none q) n, fun hqn => ?_⟩
        exact h.active q ((contains_iff I.tree I.path).mpr ⟨q, ht.symm.trans hq, .refl⟩) hqn
      · rw [hne hxp] at hv ⊢
        exact h.scripts x q hx hq hv
    exact hall.imp_right fun hq hqn => Nat.le_trans (hq hqn) (valid_recordConnected n q)
  case active =>
    intro x hx hn
    rw [hs.contains (chain_recordConnected n)] at hx
    rw [hs.parent] at hn
    exact Nat.le_trans (h.active x hx hn) (valid_recordConnected n x)

theorem NodeOk.recordConnected (h : s.NodeOk g connectBlock) (hp : s.Usable p)
    (ht : s.parent p = s.tip) (n : Nat) : (s.recordConnected p n).NodeOk g connectBlock := by
  have hf := recordConnected_fields (s := s) (p := p) n
  have hfailed : ∀ x, ((s.recordConnected p n).status x).failed = (s.status x).failed := fun x => by
    rw [BlockStatus.failed, BlockStatus.failed, (hf x).2.2.2.2.1, (hf x).2.2.2.2.2]
  have hs : s.SameTree (s.recordConnected p n) := sameTree_recordConnected n
  refine h.flag (h.index.recordConnected n) hs (chain_recordConnected n) (fun x => (hf x).2.1)
    (fun x => (hf x).1) (fun x => (hf x).2.2.2.1) (fun x => (haveUndo_recordConnected n x).1)
    (valid_recordConnected n) ?_ (fun x hx => by rwa [hfailed]) (fun x _ hx => ?_) (fun x _ hx => ?_)
    (h.flags.same hs fun x => Prod.ext (hf x).2.2.2.2.1 (hf x).2.2.2.2.2)
    (h.levels.recordConnected h.index hp ((h.data p hp.known).mp hp.haveData) ht n)
  · unfold ChainState.recordConnected
    split <;> rfl
  · exact .inl (by rwa [← hfailed])
  · exact .inl (by rwa [← (hf x).2.2.2.2.1])

/-- A block on top of the tip becomes the tip. -/
theorem NodeOk.push (h : s.NodeOk g connectBlock) (hp : s.Usable p) (hc : (s.node p).nChainTx ≠ 0)
    (ht : s.parent p = s.tip) {n : Nat} (hv : connectBlock p = .connects n) :
    ((s.recordConnected p n).updateTip (some p)).NodeOk g connectBlock := by
  have h₁ := h.recordConnected hp ht n
  have hs : s.SameTree (s.recordConnected p n) := sameTree_recordConnected n
  have ht₁ : (s.recordConnected p n).parent p = (s.recordConnected p n).tip := by
    rw [hs.parent, recordConnected_tip, ht]
  have hp₁ : (s.recordConnected p n).Known p := by
    rw [hs.known]
    exact hp.known
  have I := h₁.index.push hp₁ ht₁
  have hcont : ∀ x, ((s.recordConnected p n).updateTip (some p)).contains x = true →
      (s.recordConnected p n).Anc x p := fun x hx => by
    obtain ⟨t, htip, hanc⟩ := (contains_iff I.tree I.path).mp hx
    rw [tip_push h₁.index hp₁ ht₁] at htip
    cases htip
    exact hanc
  have hbelow : ∀ x q, (s.recordConnected p n).parent p = some q → (s.recordConnected p n).Anc x q →
      (s.recordConnected p n).contains x = true := fun x q hq hxq =>
    (contains_iff h₁.index.tree h₁.index.path).mpr ⟨q, ht₁.symm.trans hq, hxq⟩
  refine { h₁ with
    index := I
    filed := { h₁.filed with linking := { h₁.filed.linking with } }
    levels := { h₁.levels with active := fun x hx hn => ?_ }
    active := fun x hx => ?_ }
  · obtain hxp | ⟨q, hq, hxq⟩ := (hcont x hx).eq_or_parent
    · subst hxp
      refine valid_recordConnected_self hp ?_ n
      rwa [← hs.parent]
    · exact h₁.levels.active x (hbelow x q hq hxq) hn
  obtain hxp | ⟨q, hq, hxq⟩ := (hcont x hx).eq_or_parent
  · subst hxp
    obtain ⟨htx, -, -, -, hfv, hfc⟩ := recordConnected_fields (s := s) (p := x) n x
    refine ⟨?_, ?_, ⟨n, hv⟩, fun hn => (haveUndo_recordConnected n x).2 rfl ?_⟩
    · show ((s.recordConnected x n).node x).nChainTx ≠ 0
      rwa [htx]
    · show ((s.recordConnected x n).status x).failed = false
      rw [BlockStatus.failed, hfv, hfc]
      exact hp.failed
    · rwa [← hs.parent]
  · exact h₁.active x (hbelow x q hq hxq)

/-! ## Flags -/

/-- A change of the status that flags an entry. -/
structure Fails (f : BlockStatus → BlockStatus) : Prop where
  failed : ∀ st, (f st).failed = true
  haveData : ∀ st, (f st).haveData = st.haveData
  haveUndo : ∀ st, (f st).haveUndo = st.haveUndo
  valid : ∀ st, (f st).valid = st.valid

theorem fails_child : Fails fun st => { st with failedChild := true } :=
  ⟨fun _ => Bool.or_true _, fun _ => rfl, fun _ => rfl, fun _ => rfl⟩

theorem fails_valid : Fails fun st => { st with failedValid := true } :=
  ⟨fun _ => rfl, fun _ => rfl, fun _ => rfl, fun _ => rfl⟩

/-- Entries become failed or leave the candidates, and no more. -/
structure Flagging (s s' : ChainState) : Prop where
  kept : s.Kept s'
  key : Same CBlockIndex.key s s'
  chain : Same CBlockIndex.nChainTx s s'
  mono : ∀ x, (s.status x).failed = true → (s'.status x).failed = true
  sub : s'.setBlockIndexCandidates.Sublist s.setBlockIndexCandidates

theorem Flagging.refl (s : ChainState) : s.Flagging s :=
  ⟨.refl s, .refl s, .refl s, fun _ hx => hx, .refl _⟩

theorem Flagging.trans {s s' s'' : ChainState} (h : s.Flagging s') (h' : s'.Flagging s'') :
    s.Flagging s'' :=
  ⟨h.kept.trans h'.kept, h.key.trans h'.key, h.chain.trans h'.chain,
    fun x hx => h'.mono x (h.mono x hx), h'.sub.trans h.sub⟩

theorem flagging_bestInvalid (s : ChainState) (p : Ptr) : s.Flagging (s.invalidChainFound p) :=
  ⟨kept_invalidChainFound s p, same_of_node rfl, same_of_node rfl, fun _ hx => hx, .refl _⟩

theorem flagging_erase (s : ChainState) (p : Ptr) : s.Flagging (s.eraseCandidate p) :=
  ⟨kept_eraseCandidate s p, same_of_node rfl, same_of_node rfl, fun _ hx => hx,
    SortedSet.erase_sublist _ _⟩

theorem status_fail (s : ChainState) (x : Ptr) (f : BlockStatus → BlockStatus) (y : Ptr) :
    ((s.modifyStatus x f).eraseCandidate x).status y = if y = x then f (s.status x) else s.status y := by
  show (if y = x then _ else s.node y : CBlockIndex).nStatus = _
  split_ifs <;> rfl

theorem flagging_fail (s : ChainState) (x : Ptr) {f : BlockStatus → BlockStatus} (hf : Fails f) :
    s.Flagging ((s.modifyStatus x f).eraseCandidate x) := by
  refine ⟨(kept_modifyStatus fun st hst => (hf.haveUndo st).symm.trans hst).trans
    (kept_eraseCandidate _ x), ?_, ?_, fun y hy => ?_, SortedSet.erase_sublist _ _⟩
  · exact (same_modify fun _ => rfl : Same CBlockIndex.key s (s.modifyStatus x f))
  · exact (same_modify fun _ => rfl : Same CBlockIndex.nChainTx s (s.modifyStatus x f))
  · rw [status_fail]
    split_ifs
    · exact hf.failed _
    · exact hy

theorem countP_lt {l : List Ptr} {P Q : Ptr → Bool} (h : ∀ y ∈ l, P y = true → Q y = true) (hx : x ∈ l)
    (hQ : Q x = true) (hP : ¬ P x = true) : l.countP P < l.countP Q := by
  obtain ⟨l₁, l₂, rfl⟩ := List.append_of_mem hx
  have h₁ : l₁.countP P ≤ l₁.countP Q :=
    List.countP_mono_left fun y hy => h y (List.mem_append_left _ hy)
  have h₂ : l₂.countP P ≤ l₂.countP Q := List.countP_mono_left fun y hy =>
    h y (List.mem_append_right _ (List.mem_cons_of_mem _ hy))
  rw [List.countP_append, List.countP_append, List.countP_cons_of_neg hP, List.countP_cons_of_pos hQ]
  omega

/-- The entries that are not failed. -/
def unfailed (s : ChainState) : Nat := s.mapBlockIndex.countP fun p => !(s.status p).failed

theorem Flagging.unfailed_le (h : s.Flagging s') : s'.unfailed ≤ s.unfailed := by
  unfold unfailed
  rw [h.kept.same.index]
  refine List.countP_mono_left fun x _ hx => ?_
  rw [Bool.not_eq_true'] at hx ⊢
  by_contra hf
  rw [h.mono x (Bool.eq_true_of_not_eq_false hf)] at hx
  cases hx

theorem Flagging.unfailed_lt (h : s.Flagging s') (hx : s.Known x) (hf : (s.status x).failed = false)
    (hf' : (s'.status x).failed = true) : s'.unfailed < s.unfailed := by
  unfold unfailed
  rw [h.kept.same.index]
  refine countP_lt (fun y _ hy => ?_) hx (by rw [hf]; rfl) (by rw [hf']; decide)
  rw [Bool.not_eq_true'] at hy ⊢
  by_contra hfy
  rw [h.mono y (Bool.eq_true_of_not_eq_false hfy)] at hy
  cases hy

/-- The entries have the same places, and sort the same. -/
structure SameOrder (s s' : ChainState) : Prop where
  tree : s.SameTree s'
  key : Same CBlockIndex.key s s'
  chain : Same CBlockIndex.nChainTx s s'

theorem SameOrder.refl (s : ChainState) : s.SameOrder s := ⟨.refl s, .refl s, .refl s⟩

theorem SameOrder.trans {s s' s'' : ChainState} (h : s.SameOrder s') (h' : s'.SameOrder s'') :
    s.SameOrder s'' := ⟨h.tree.trans h'.tree, h.key.trans h'.key, h.chain.trans h'.chain⟩

theorem Flagging.order (h : s.Flagging s') : s.SameOrder s' := ⟨h.kept.same, h.key, h.chain⟩

/-- The tip moves; the order of the candidates and the flags stay the same. -/
structure Moving (s s' : ChainState) : Prop extends s.SameOrder s' where
  failed : ∀ x, (s'.status x).failed = (s.status x).failed

theorem Moving.trans {s s' s'' : ChainState} (h : s.Moving s') (h' : s'.Moving s'') : s.Moving s'' :=
  ⟨h.toSameOrder.trans h'.toSameOrder, fun x => (h'.failed x).trans (h.failed x)⟩

theorem Moving.refl (s : ChainState) : s.Moving s := ⟨.refl s, fun _ => rfl⟩

theorem Moving.unfailed_eq (h : s.Moving s') : s'.unfailed = s.unfailed := by
  unfold unfailed
  rw [h.tree.index]
  exact congrArg (List.countP · _) (funext fun x => by rw [h.failed x])

theorem moving_connected (n : Nat) : s.Moving ((s.recordConnected p n).updateTip (some p)) := by
  have hf := recordConnected_fields (s := s) (p := p) n
  have hs : s.SameTree (s.recordConnected p n) := sameTree_recordConnected n
  refine ⟨⟨⟨hs.index, hs.place⟩, fun x => ?_, fun x => (hf x).1⟩, fun x => ?_⟩
  · show ((s.recordConnected p n).node x).key = _
    rw [CBlockIndex.key, CBlockIndex.key, (hf x).2.2.1]
    exact congrArg (·, _) (congrArg (fun e => e.2.2.2.2) (hs.place x))
  · show ((s.recordConnected p n).status x).failed = _
    rw [BlockStatus.failed, BlockStatus.failed, (hf x).2.2.2.2.1, (hf x).2.2.2.2.2]

/-- What a step towards the candidate `m` comes to: the tip moves until it is there, has more work than
`old`, or a block on the way is perhaps corrupt; or a block on the way is invalid, and is failed then. -/
inductive Progress (connectBlock : Ptr → Verdict) (old : Option Ptr) (m : Ptr) (s s' : ChainState) : Prop
  | moved (k : s.Moving s') (hm : m ∈ s'.setBlockIndexCandidates)
    (hsub : s'.setBlockIndexCandidates.Sublist s.setBlockIndexCandidates)
    (htip : s'.tip = some m ∨ s'.tip ≠ none ∧ s'.improved old = true ∨
      s'.tip ≠ some m ∧ ∃ c, s.Anc c m ∧ connectBlock c = .invalid true)
  | invalid (k : s.SameOrder s') (hlt : s'.unfailed < s.unfailed) (htip : s'.tip ≠ some m)
    (hc : ∃ c, s.Anc c m ∧ connectBlock c = .invalid false)

theorem Progress.order {old : Option Ptr} (h : s.Progress connectBlock old m s') : s.SameOrder s' := by
  cases h with
  | moved k => exact k.toSameOrder
  | invalid k => exact k

theorem Progress.head {old : Option Ptr} {s'' : ChainState} (h : s'.Progress connectBlock old m s'')
    (k : s.Moving s') (hsub : s'.setBlockIndexCandidates.Sublist s.setBlockIndexCandidates) :
    s.Progress connectBlock old m s'' := by
  cases h with
  | moved k' hm hsub' htip =>
    refine .moved (k.trans k') hm (hsub'.trans hsub) (htip.imp_right (Or.imp_right ?_))
    rintro ⟨hne, c, hc, hv⟩
    exact ⟨hne, c, by rwa [← k.tree.anc], hv⟩
  | invalid k' hlt hne hc =>
    obtain ⟨c, hc, hv⟩ := hc
    exact .invalid (k.toSameOrder.trans k') (by rwa [← k.unfailed_eq]) hne ⟨c, by rwa [← k.tree.anc], hv⟩

/-! ## Within the loop -/

/-- The invariant within `ActivateBestChain`; no tip has been above `r`. -/
structure Round (g : UInt256) (connectBlock : Ptr → Verdict) (s : ChainState) (r : Option Ptr) :
    Prop where
  node : s.NodeOk g connectBlock
  listed : s.Listed r
  ref : ∀ t, r = some t → s.Known t ∧ (s.node t).nChainTx ≠ 0 ∧
    ∀ a, s.Anc a t → Connects connectBlock a
  tip : ∀ x, s.tip = some x → ∃ t, r = some t ∧ s.less t x = false
  raised : s.Raised

namespace Round

/-- The reference is a candidate. -/
theorem ref_mem (h : s.Round g connectBlock (some p)) : p ∈ s.setBlockIndexCandidates := by
  obtain ⟨hk, hc, hv⟩ := h.ref p rfl
  exact h.listed.complete p hk hc (h.node.clean hk hc hv) ((totalLess s).irrefl p)

/-- A block of the active chain is not above the reference. -/
theorem not_above (h : s.Round g connectBlock r) (hp : s.contains p = true) :
    ∃ t, r = some t ∧ s.less t p = false := by
  have I := h.node.index
  obtain ⟨x, hx, ha⟩ := (contains_iff I.tree I.path).mp hp
  obtain ⟨t, ht, hless⟩ := h.tip x hx
  refine ⟨t, ht, ?_⟩
  have hnot := h.node.not_less_anc (tip_known I.path hx) ha
  by_contra hf
  have := (totalLess s).lt_of_not_lt (Bool.eq_true_of_not_eq_false hf) hnot
  rw [hless] at this
  cases this

/-- Entries that are become failed leave the candidates. -/
theorem shrink (h : s.Round g connectBlock r) (h' : s'.NodeOk g connectBlock) (k : s.Flagging s')
    (hkeep : ∀ p ∈ s.setBlockIndexCandidates, s'.Clean p → p ∈ s'.setBlockIndexCandidates) :
    s'.Round g connectBlock r where
  node := h'
  listed := h.listed.shrink k.kept.same k.key k.chain k.mono k.sub fun p hp hc _ => hkeep p hp hc
  ref t ht := by
    obtain ⟨hk, hc, hv⟩ := h.ref t ht
    rw [k.kept.same.known, k.chain t]
    exact ⟨hk, hc, fun a ha => hv a (by rwa [k.kept.same.anc] at ha)⟩
  tip x hx := by
    obtain ⟨t, ht, hless⟩ := h.tip x (by rwa [ChainState.tip, k.kept.chain] at hx)
    exact ⟨t, ht, (less_congr (k.key t) (k.key x)).trans hless⟩
  raised x hx := by
    rw [belowTip, ChainState.tip, k.kept.chain]
    exact (below_congr (k.key x) fun t _ => k.key t).trans (h.raised x (k.sub.subset hx))

theorem bestInvalid (h : s.Round g connectBlock r) (p : Ptr) :
    (s.invalidChainFound p).Round g connectBlock r :=
  h.shrink (h.node.of_node (kept_invalidChainFound s p) rfl rfl) (flagging_bestInvalid s p)
    fun _ hp _ => hp

/-- A failed entry leaves the candidates. -/
theorem erase (h : s.Round g connectBlock r) (hp : (s.status p).failed = true) :
    (s.eraseCandidate p).Round g connectBlock r := by
  refine h.shrink (h.node.of_node (kept_eraseCandidate s p) rfl rfl) (flagging_erase s p)
    fun q hq hc => ?_
  refine (SortedSet.mem_erase (totalLess s) h.listed.sorted).mpr ⟨hq, fun hqp => ?_⟩
  have := hc q .refl
  rw [hqp] at this
  exact absurd (hp.symm.trans this) (by decide)

/-- An entry outside of the active chain becomes failed, and leaves the candidates. -/
theorem fail (h : s.Round g connectBlock r) {f : BlockStatus → BlockStatus}
    (hc : (s.node x).nChainTx ≠ 0) (hcont : s.contains x = false) (hf : Fails f)
    (hv : ∀ st, (f st).failedValid = true → st.failedValid = true ∨ ¬ Connects connectBlock x)
    (F : ((s.modifyStatus x f).eraseCandidate x).Flags) :
    ((s.modifyStatus x f).eraseCandidate x).Round g connectBlock r := by
  have k := flagging_fail s x hf
  have hsame : ∀ {β : Type} {v : CBlockIndex → β}, (∀ e, v { e with nStatus := f e.nStatus } = v e) →
      Same v s ((s.modifyStatus x f).eraseCandidate x) := fun hv => same_modify hv
  have hundo : ∀ y, (((s.modifyStatus x f).eraseCandidate x).status y).haveUndo = (s.status y).haveUndo :=
    hsame (v := fun e => e.nStatus.haveUndo) fun e => hf.haveUndo e.nStatus
  have hvalid : ∀ y, (((s.modifyStatus x f).eraseCandidate x).status y).valid = (s.status y).valid :=
    hsame (v := fun e => e.nStatus.valid) fun e => hf.valid e.nStatus
  refine h.shrink (h.node.flag (h.node.index.kept k.kept) k.kept.same k.kept.chain
    (hsame fun _ => rfl) (hsame fun _ => rfl) (hsame fun e => hf.haveData e.nStatus) (fun y hy => ?_)
    (fun y => ?_) rfl k.mono (fun y hy hfy => ?_) (fun y hy hfy => ?_) F ?_) k fun q hq hclean => ?_
  · exact (hundo y).trans hy
  · exact Nat.le_of_eq (hvalid y).symm
  · rw [status_fail] at hfy
    split_ifs at hfy with hyx
    · exact .inr (by rw [hyx]; exact ⟨hcont, .inl hc⟩)
    · exact .inl hfy
  · rw [status_fail] at hfy
    split_ifs at hfy with hyx
    · rw [hyx]
      exact (hv _ hfy).imp_right .inr
    · exact .inl hfy
  · refine h.node.levels.same k.kept.same (fun y hy => ?_) (hsame fun _ => rfl) (hsame fun _ => rfl)
      (hsame fun _ => rfl) hundo hvalid
    rwa [← k.kept.same.contains k.kept.chain]
  · have hsorted : (s.modifyStatus x f).CandidatesSorted :=
      h.listed.sorted.sublist (.refl _) fun q _ => hsame (v := CBlockIndex.key) (fun _ => rfl) q
    refine (SortedSet.mem_erase (totalLess _) hsorted).mpr ⟨hq, fun hqx => ?_⟩
    have := hclean q .refl
    rw [status_fail, if_pos hqx, hf.failed] at this
    cases this

theorem failChild (h : s.Round g connectBlock r) (hx : s.Known x) (hc : (s.node x).nChainTx ≠ 0)
    (hcont : s.contains x = false) (hb : s.Anc b x) (hf : (s.status b).failed = true) :
    (s.markFailedChild x).Round g connectBlock r :=
  h.fail hc hcont fails_child (fun _ hst => .inl hst)
    (h.node.flags.failChild hb (h.node.index.tree.graded.anc_mem hb hx) hf)

theorem invalid (h : s.Round g connectBlock r) (hx : s.Known x) (hc : (s.node x).nChainTx ≠ 0)
    (hcont : s.contains x = false) (hv : ¬ Connects connectBlock x) :
    (s.markInvalid x).Round g connectBlock r :=
  h.fail hc hcont fails_valid (fun _ _ => .inr hv)
    (flags_update h.node.index h.node.flags (.invalid hx))

/-! ## The candidate with the most work -/

/-- The entries on the way from a linked entry to the active chain are linked: no assertion fails. -/
theorem findBad_linked (h : s.Round g connectBlock r) (fuel : Nat) (hp : s.Known p)
    (hc : (s.node p).nChainTx ≠ 0) : s.findBad fuel (some p) ≠ none := by
  induction fuel generalizing p with
  | zero => exact Option.some_ne_none _
  | succ fuel ih =>
    rw [findBad]
    split_ifs with hcont h0
    · exact Option.some_ne_none _
    · exact absurd h0.1 hc
    · exact Option.some_ne_none _
    · cases hq : s.parent p with
      | none =>
        rw [show (s.node p).pprev = none from hq]
        cases fuel <;> exact Option.some_ne_none _
      | some q =>
        rw [show (s.node p).pprev = some q from hq]
        exact ih (h.node.index.tree.graded.closed p q hp hq) ((h.node.filed.chain p hp hc).2.1 q hq)

/-- No data is missing on the way, so that an entry that stops the walk is failed. -/
theorem findBad_failed (h : s.Round g connectBlock r) {fuel : Nat} (hp : s.Known p)
    (hc : (s.node p).nChainTx ≠ 0) (hb : s.findBad fuel (some p) = some (some b)) :
    (s.status b).failed = true := by
  obtain ⟨hanc, -, hbad, -⟩ := findBad_some h.node.index.tree hp hb
  refine hbad.resolve_right fun hdata => ?_
  have hbk := h.node.index.tree.graded.anc_mem hanc hp
  have := (h.node.data b hbk).mpr (h.node.filed.received_of_linked h.node.index.tree hp hc b hanc)
  rw [hdata] at this
  cases this

/-- The loop that takes the chain above a failed entry out of the candidates. -/
theorem removeChain (h : s.Round g connectBlock r) (fuel : Nat) (hp : s.Known p)
    (hc : (s.node p).nChainTx ≠ 0) (hb : s.Anc b p) (hf : (s.status b).failed = true)
    (hcont : s.contains b = false) :
    (ChainState.removeChain b true fuel (some p) s).Round g connectBlock r ∧
      s.Flagging (ChainState.removeChain b true fuel (some p) s) ∧
      (0 < fuel → p ≠ b →
        p ∉ (ChainState.removeChain b true fuel (some p) s).setBlockIndexCandidates) := by
  induction fuel generalizing s p with
  | zero => exact ⟨h, .refl s, fun hfuel => absurd hfuel (by decide)⟩
  | succ fuel ih =>
    rw [ChainState.removeChain]
    by_cases hpb : p = b
    · rw [if_pos hpb]
      exact ⟨h, .refl s, fun _ hne => absurd hpb hne⟩
    · rw [if_neg hpb]
      simp only [if_true]
      have I := h.node.index
      have hpc : s.contains p = false := by
        by_contra hpc
        obtain ⟨t, ht, hpt⟩ := (contains_iff I.tree I.path).mp (Bool.eq_true_of_not_eq_false hpc)
        rw [(contains_iff I.tree I.path).mpr ⟨t, ht, hb.trans hpt⟩] at hcont
        cases hcont
      obtain hbp | ⟨q, hq, hbq⟩ := hb.eq_or_parent
      · exact absurd hbp.symm hpb
      have hqk := I.tree.graded.closed p q hp hq
      have hqc := (h.node.filed.chain p hp hc).2.1 q hq
      have h₁ := h.failChild hp hc hpc hb hf
      have k : s.Flagging (s.markFailedChild p) := flagging_fail s p fails_child
      have hs := k.kept.same
      have hout : p ∉ (s.markFailedChild p).setBlockIndexCandidates := fun hmem => by
        have hsorted : (s.modifyStatus p fun st => { st with failedChild := true }).CandidatesSorted :=
          h.listed.sorted.sublist (.refl _) fun q _ => k.key q
        exact ((SortedSet.mem_erase (totalLess _) hsorted).mp hmem).2 rfl
      rw [show ((s.markFailedChild p).node p).pprev = some q from (congrFun hs.parent p).trans hq]
      obtain ⟨h₂, k₂, -⟩ := ih h₁ (by rwa [hs.known]) (by rwa [k.chain q]) (by rwa [hs.anc])
        (k.mono b hf) (by rwa [hs.contains k.kept.chain])
      exact ⟨h₂, k.trans k₂, fun _ _ hmem => hout (k₂.sub.subset hmem)⟩

/-- A candidate whose chain has a failed entry leaves the candidates. -/
theorem discard (h : s.Round g connectBlock r) {fuel : Nat} (hp : p ∈ s.setBlockIndexCandidates)
    (hb : s.findBad fuel (some p) = some (some b)) :
    (s.discard p b).Round g connectBlock r ∧ s.Flagging (s.discard p b) ∧
      (s.discard p b).setBlockIndexCandidates.length < s.setBlockIndexCandidates.length := by
  have I := h.node.index
  have hk := I.members p hp
  have hc := h.listed.members p hp
  obtain ⟨hanc, hcont, -, -⟩ := findBad_some I.tree hk hb
  have hf := h.findBad_failed hk hc hb
  unfold ChainState.discard
  simp only [show (s.node b).nStatus.failed = true from hf, if_true]
  have k₁ := flagging_bestInvalid s p
  obtain ⟨h₂, k₂, hout⟩ := (h.bestInvalid p).removeChain (((s.invalidChainFound p).node p).nHeight + 1)
    hk hc hanc hf hcont
  have hbad := k₂.mono b hf
  have k₃ := (k₁.trans k₂).trans (flagging_erase _ b)
  refine ⟨h₂.erase hbad, k₃, ?_⟩
  refine Nat.lt_of_le_of_ne k₃.sub.length_le fun hlen => ?_
  rw [← k₃.sub.eq_of_length hlen] at hp
  have hmem := (SortedSet.mem_erase (totalLess _) h₂.listed.sorted).mp hp
  exact hout (Nat.succ_pos _) hmem.2 hmem.1

/-- `FindMostWorkChain` ends, and no assertion fails. -/
theorem findMostWorkChain (h : s.Round g connectBlock r) :
    ∃ m s', s.findMostWorkChain = some (m, s') ∧ s'.Round g connectBlock r ∧ s.Flagging s' := by
  unfold ChainState.findMostWorkChain
  obtain ⟨fuel, hfuel⟩ : ∃ fuel, fuel = s.setBlockIndexCandidates.length + 1 := ⟨_, rfl⟩
  have hle : s.setBlockIndexCandidates.length < fuel := by omega
  rw [← hfuel]
  clear hfuel
  induction fuel generalizing s with
  | zero => omega
  | succ fuel ih =>
    rw [findMostWorkFrom]
    cases hl : s.setBlockIndexCandidates.getLast? with
    | none => exact ⟨none, s, rfl, h, .refl s⟩
    | some p =>
      have hp := List.mem_of_getLast? hl
      simp only
      cases hb : s.findBad ((s.node p).nHeight + 1) (some p) with
      | none =>
        exact absurd hb (h.findBad_linked _ (h.node.index.members p hp) (h.listed.members p hp))
      | some ob =>
        cases ob with
        | none => exact ⟨some p, s, rfl, h, .refl s⟩
        | some b =>
          obtain ⟨h₁, k₁, hlt⟩ := h.discard hp hb
          obtain ⟨m, s', heq, h', k'⟩ := ih h₁ (by omega)
          exact ⟨m, s', heq, h', k₁.trans k'⟩

/-! ## Moving the tip -/

/-- The tip is disconnected. -/
theorem pop (h : s.Round g connectBlock r) (ht : s.tip = some p) (hq : s.parent p = some q) :
    (s.updateTip (some q)).Round g connectBlock r := by
  have I := h.node.index
  have hcont : ∀ x, (s.updateTip (some q)).contains x = true → s.contains x = true := fun x hx =>
    ((contains_pop I ht hq).mp hx).1
  have htip := tip_pop I ht hq
  have hqc : s.contains q = true := by
    apply hcont
    exact (contains_iff (I.pop ht hq).tree (I.pop ht hq).path).mpr ⟨q, htip, .refl⟩
  refine
    { node := { h.node with
        index := I.pop ht hq
        filed := { h.node.filed with linking := { h.node.filed.linking with } }
        levels := { h.node.levels with active := fun x hx => h.node.levels.active x (hcont x hx) }
        active := fun x hx => h.node.active x (hcont x hx) }
      listed := ⟨h.listed.sorted, h.listed.members, h.listed.complete⟩
      ref := h.ref
      tip := fun x hx => ?_
      raised := fun x hx => ?_ }
  · rw [htip] at hx
    cases hx
    exact h.not_above hqc
  · have hqp := less_of_work (h.node.work p q (tip_known I.path ht) hq)
    have hxp : s.less x p = false := by
      have := h.raised x hx
      rwa [belowTip, ht] at this
    rw [belowTip, htip]
    by_contra hxq
    rw [(totalLess s).trans x q p (Bool.eq_true_of_not_eq_false hxq) hqp] at hxp
    cases hxp

/-- The loop that disconnects blocks. -/
theorem disconnectTo (h : s.Round g connectBlock r) (fork : Option Ptr) (fuel : Nat) :
    (ChainState.disconnectTo fork fuel s).2.Round g connectBlock r ∧
      (ChainState.disconnectTo fork fuel s).2.node = s.node ∧
      (ChainState.disconnectTo fork fuel s).2.mapBlockIndex = s.mapBlockIndex ∧
      (ChainState.disconnectTo fork fuel s).2.setBlockIndexCandidates = s.setBlockIndexCandidates := by
  refine disconnectTo_rule (J := fun t => t.Round g connectBlock r ∧ t.node = s.node ∧
    t.mapBlockIndex = s.mapBlockIndex ∧ t.setBlockIndexCandidates = s.setBlockIndexCandidates)
    (fun t ht => ht.1.node.index) ?_ fork fuel ⟨h, rfl, rfl, rfl⟩
  rintro t p q ⟨ht, hnode, hindex, hcands⟩ htip hq
  exact ⟨ht.pop htip hq, hnode, hindex, hcands⟩

/-- All blocks above the fork have their data and their undo data. -/
theorem disconnects (h : s.Round g connectBlock r) (hm : s.Known m) {fork : Option Ptr}
    (hf : s.Fork m fork) :
    (ChainState.disconnectTo fork s.vChain.length s).1 = true ∧
      (ChainState.disconnectTo fork s.vChain.length s).2.tip = fork := by
  have I := h.node.index
  have hfork : ∀ f, fork = some f → s.contains f = true := fun f hf' => (hf.contains f hf').1
  have htrue : (ChainState.disconnectTo fork s.vChain.length s).1 = true := by
    cases ht : s.tip with
    | none =>
      rw [tip_eq_none] at ht
      rw [ht]
      rfl
    | some t =>
      have htk := tip_known I.path ht
      obtain ⟨a, hat, ham⟩ := h.node.root_anc htk hm
      obtain ⟨f, rfl, -⟩ := hf.last a ham ((contains_iff I.tree I.path).mpr ⟨t, ht, hat⟩)
      refine disconnectTo_total I (hfork f rfl) fun x hx hlt => ?_
      obtain ⟨hc, -, -, hu⟩ := h.node.active x hx
      have hk : s.Known x := I.path.known _ _ (contains_getElem.mp hx)
      refine ⟨(h.node.data x hk).mpr (h.node.filed.chain x hk hc).1, hu fun hn => ?_⟩
      have := I.tree.graded.root x hk hn
      omega
  exact ⟨htrue, disconnectTo_tip I (Nat.le_refl _) hfork htrue⟩

/-- The reference after the tip has become `p`: the better one of the two. -/
theorem exists_ref (s : ChainState) (r : Option Ptr) (p : Ptr) :
    ∃ t, (t = p ∨ r = some t) ∧ s.less t p = false ∧
      ∀ x, s.less x t = false → s.less x p = false ∧ s.below r x = false := by
  have T := totalLess s
  cases r with
  | none => exact ⟨p, .inl rfl, T.irrefl p, fun x hx => ⟨hx, rfl⟩⟩
  | some u =>
    by_cases hup : s.less u p = true
    · refine ⟨p, .inl rfl, T.irrefl p, fun x hx => ⟨hx, ?_⟩⟩
      by_contra hxu
      rw [T.trans x u p (Bool.eq_true_of_not_eq_false hxu) hup] at hx
      cases hx
    · have hup' := Bool.eq_false_of_not_eq_true hup
      refine ⟨u, .inr rfl, hup', fun x hx => ⟨?_, hx⟩⟩
      by_contra hxp
      rw [T.lt_of_not_lt (Bool.eq_true_of_not_eq_false hxp) hup'] at hx
      cases hx

/-- The tip becomes `p`, and the candidates below it are dropped; the candidate `m` is not. -/
theorem prune (h : s.Round g connectBlock r) (h₁ : s'.NodeOk g connectBlock) (k : s.Moving s')
    (hcands : s'.setBlockIndexCandidates = s.setBlockIndexCandidates) (ht : s'.tip = some p)
    (hp : s.Known p) (hc : (s.node p).nChainTx ≠ 0) (hm : m ∈ s.setBlockIndexCandidates)
    (hpm : s.Anc p m) :
    ∃ r' s'', s'.pruneBlockIndexCandidates = some s'' ∧ s''.Round g connectBlock r' ∧
      s''.tip = some p ∧ m ∈ s''.setBlockIndexCandidates ∧
      s''.setBlockIndexCandidates.Sublist s.setBlockIndexCandidates ∧ s'.Moving s'' := by
  have I := h.node.index
  have hless : ∀ x y, s'.less x y = s.less x y := fun x y => less_congr (k.key x) (k.key y)
  have hsorted : SortedSet.Sorted s'.less s'.setBlockIndexCandidates := by
    rw [hcands]
    exact h.listed.sorted.congr fun x _ y _ => hless x y
  have hbelow : s'.belowTip = fun x => s'.less x p := by
    funext x
    rw [belowTip, ht]
    rfl
  obtain ⟨s'', hs''⟩ : ∃ s'', s'' = { s' with
      setBlockIndexCandidates := SortedSet.eraseWhile s'.belowTip s'.setBlockIndexCandidates } :=
    ⟨_, rfl⟩
  have hmem : ∀ x, x ∈ s''.setBlockIndexCandidates ↔
      x ∈ s.setBlockIndexCandidates ∧ s.less x p = false := fun x => by
    subst hs''
    show x ∈ SortedSet.eraseWhile s'.belowTip s'.setBlockIndexCandidates ↔ _
    rw [hbelow, SortedSet.mem_eraseWhile (totalLess s') hsorted, hcands, hless]
  have hmp : m ∈ s''.setBlockIndexCandidates :=
    (hmem m).mpr ⟨hm, h.node.not_less_anc (I.members m hm) hpm⟩
  have hprune : s'.pruneBlockIndexCandidates = some s'' := by
    subst hs''
    unfold pruneBlockIndexCandidates
    apply if_neg
    simpa using List.ne_nil_of_mem hmp
  have k' : s'.Moving s'' := by
    subst hs''
    exact ⟨⟨⟨rfl, fun _ => rfl⟩, fun _ => rfl, fun _ => rfl⟩, fun _ => rfl⟩
  have k₂ := k.trans k'
  have hnode'' : s''.NodeOk g connectBlock := by
    refine h₁.of_node (kept_prune hprune) ?_ ?_ <;> rw [hs'']
  have hless'' : ∀ x y, s''.less x y = s.less x y := fun x y => less_congr (k₂.key x) (k₂.key y)
  have htip'' : s''.tip = some p := by rw [hs'']; exact ht
  have hpc : s''.contains p = true :=
    (contains_iff hnode''.index.tree hnode''.index.path).mpr ⟨p, htip'', .refl⟩
  -- the reference is the best of the tips
  obtain ⟨t, hor, htp, hall⟩ := exists_ref s r p
  refine ⟨some t, s'', hprune, ⟨hnode'', ⟨?_, fun x hx => ?_, fun x hx hxc hclean hbt => ?_⟩,
    fun u hu => ?_, fun x hx => ?_, fun x hx => ?_⟩, htip'', hmp, ?_, k'⟩
  · subst hs''
    exact SortedSet.sorted_eraseWhile _ hsorted
  · rw [k₂.chain x]
    exact h.listed.members x ((hmem x).mp hx).1
  · obtain ⟨hxp, hxr⟩ := hall x ((hless'' x t).symm.trans hbt)
    rw [k₂.tree.known] at hx
    rw [k₂.chain x] at hxc
    refine (hmem x).mpr ⟨h.listed.complete x hx hxc (fun a ha => ?_) hxr, hxp⟩
    rw [← k₂.failed]
    exact hclean a (by rwa [k₂.tree.anc])
  · cases hu
    rcases hor with rfl | hr
    · rw [k₂.tree.known, k₂.chain]
      refine ⟨hp, hc, fun a ha => ?_⟩
      exact (hnode''.active a ((contains_iff hnode''.index.tree hnode''.index.path).mpr
        ⟨t, htip'', ha⟩)).2.2.1
    · obtain ⟨htk, htc, htv⟩ := h.ref t hr
      rw [k₂.tree.known, k₂.chain]
      exact ⟨htk, htc, fun a ha => htv a (by rwa [k₂.tree.anc] at ha)⟩
  · rw [htip''] at hx
    cases hx
    exact ⟨t, rfl, (hless'' t p).trans htp⟩
  · rw [belowTip, htip'']
    exact (hless'' x p).trans ((hmem x).mp hx).2
  · subst hs''
    rw [← hcands]
    exact List.dropWhile_sublist _

/-- A block on the way to the candidate `m` connects. -/
theorem push (h : s.Round g connectBlock r) (hp : s.Usable p) (ht : s.parent p = s.tip) {n : Nat}
    (hv : connectBlock p = .connects n) (hm : m ∈ s.setBlockIndexCandidates) (hpm : s.Anc p m) :
    ∃ r' s', ((s.recordConnected p n).updateTip (some p)).pruneBlockIndexCandidates = some s' ∧
      s'.Round g connectBlock r' ∧ s'.tip = some p ∧ m ∈ s'.setBlockIndexCandidates ∧
      s'.setBlockIndexCandidates.Sublist s.setBlockIndexCandidates ∧ s.Moving s' := by
  have I := h.node.index
  have hc := h.node.filed.linked_anc I.tree (I.members m hm) (h.listed.members m hm) hpm
  have k := moving_connected (s := s) (p := p) n
  have hs : s.SameTree (s.recordConnected p n) := sameTree_recordConnected n
  have htip : ((s.recordConnected p n).updateTip (some p)).tip = some p := by
    apply tip_push (I.recordConnected n)
    · rw [hs.known]
      exact hp.known
    · rw [hs.parent, recordConnected_tip, ht]
  have hcands : (s.recordConnected p n).setBlockIndexCandidates = s.setBlockIndexCandidates := by
    unfold ChainState.recordConnected
    split <;> rfl
  obtain ⟨r', s', hpr, h', ht', hm', hsub, k'⟩ :=
    h.prune (h.node.push hp hc ht hv) k hcands htip hp.known hc hm hpm
  exact ⟨r', s', hpr, h', ht', hm', hsub, k.trans k'⟩

/-- A block on top of the tip is not on the active chain. -/
theorem not_contains_next (h : s.Round g connectBlock r) (hp : s.Known p) (ht : s.parent p = s.tip) :
    s.contains p = false := by
  have I := h.node.index
  by_contra hc
  have hget := contains_getElem.mp (Bool.eq_true_of_not_eq_false hc)
  rw [height_next I.tree I.path hp ht, List.getElem?_eq_none (Nat.le_refl _)] at hget
  cases hget

/-- The loop that connects the blocks up to the candidate `m`. No assertion fails. -/
theorem connect (old : Option Ptr) (lowest : Ptr → Ptr) {ps : List Ptr} (h : s.Round g connectBlock r)
    (hm : m ∈ s.setBlockIndexCandidates) (hclimb : Climbs s.parent s.tip ps)
    (hps : ∀ p ∈ ps, s.Usable p ∧ s.Anc p m) (hlast : ps.getLast?.or s.tip = some m) :
    ∃ c s' r', connectRoute connectBlock old lowest ps s = some (c, s') ∧
      s'.Round g connectBlock r' ∧ s.Progress connectBlock old m s' := by
  induction ps generalizing s r with
  | nil => exact ⟨true, s, r, rfl, h, .moved (.refl s) hm (.refl _) (.inl hlast)⟩
  | cons p ps ih =>
    obtain ⟨hparent, hclimb⟩ := hclimb
    obtain ⟨hp, hpm⟩ := hps p (List.mem_cons_self ..)
    have I := h.node.index
    have hmk := I.members m hm
    have hcont := h.not_contains_next hp.known hparent
    have htip : s.tip ≠ some m := fun htip => by
      rw [(contains_iff I.tree I.path).mpr ⟨m, htip, hpm⟩] at hcont
      cases hcont
    rw [connectRoute, connectTip, if_neg (fun hne => hne hparent)]
    cases hvp : connectBlock p with
    | connects n =>
      obtain ⟨r₁, s₁, hpr, h₁, ht₁, hm₁, hsub₁, k₁⟩ := h.push hp hparent hvp hm hpm
      simp only [hpr]
      split_ifs with himp
      · refine ⟨false, s₁, r₁, rfl, h₁, .moved k₁ hm₁ hsub₁ (.inr (.inl ⟨?_, himp⟩))⟩
        rw [ht₁]
        exact Option.some_ne_none p
      · have hclimb₁ : Climbs s₁.parent s₁.tip ps := by rwa [k₁.tree.parent, ht₁]
        have hps₁ : ∀ q ∈ ps, s₁.Usable q ∧ s₁.Anc q m := fun q hq => by
          obtain ⟨hq, hqm⟩ := hps q (List.mem_cons_of_mem _ hq)
          exact ⟨hq.connected hpr, by rwa [k₁.tree.anc]⟩
        have hlast₁ : ps.getLast?.or s₁.tip = some m := by
          rw [List.getLast?_cons] at hlast
          rw [ht₁]
          cases hl : ps.getLast? <;> simpa [hl] using hlast
        obtain ⟨c, s', r', heq, h', hprog⟩ := ih h₁ hm₁ hclimb₁ hps₁ hlast₁
        exact ⟨c, s', r', heq, h', hprog.head k₁ hsub₁⟩
    | invalid c =>
      cases c with
      | true => exact ⟨false, s, r, rfl, h, .moved (.refl s) hm (.refl _) (.inr (.inr ⟨htip, p, hpm, hvp⟩))⟩
      | false =>
        have hc := h.node.filed.linked_anc I.tree hmk (h.listed.members m hm) hpm
        have hnot : ¬ Connects connectBlock p := by
          rintro ⟨n, hn⟩
          rw [hvp] at hn
          cases hn
        have k : s.Flagging (((s.markInvalid p).invalidChainFound p).invalidChainFound (lowest p)) :=
          ((flagging_fail s p fails_valid).trans (flagging_bestInvalid _ p)).trans
            (flagging_bestInvalid _ _)
        refine ⟨false, ((s.markInvalid p).invalidChainFound p).invalidChainFound (lowest p), r, rfl,
          ((h.invalid hp.known hc hcont hnot).bestInvalid p).bestInvalid (lowest p), .invalid k.order
          (k.unfailed_lt hp.known hp.failed failed_markInvalid) (fun ht => htip ?_) ⟨p, hpm, hvp⟩⟩
        rwa [ChainState.tip, k.kept.chain] at ht

/-- The way to `m` ends there. -/
theorem last_route (T : s.Tree) (hm : s.Known m) {fork : Option Ptr} (hf : s.Fork m fork) :
    (s.route fork m).getLast?.or fork = some m := by
  have hhead : ∀ n, 0 < n → (lineage s.parent n m).reverse.getLast? = some m := fun n hn => by
    rw [List.getLast?_reverse]
    cases n with
    | zero => omega
    | succ n => rfl
  cases fork with
  | none =>
    show (lineage s.parent (s.height m + 1) m).reverse.getLast?.or none = some m
    rw [hhead _ (by omega)]
    rfl
  | some f =>
    show (lineage s.parent (s.height m - s.height f) m).reverse.getLast?.or (some f) = some m
    by_cases hlt : s.height f < s.height m
    · rw [hhead _ (by omega)]
      rfl
    · rw [T.graded.eq_of_height (hf.contains f rfl).2 hm (by omega), Nat.sub_self]
      rfl

/-- `ActivateBestChainStep`. -/
theorem step (h : s.Round g connectBlock r) (hm : m ∈ s.setBlockIndexCandidates)
    (hall : ∀ a, s.Anc a m → s.contains a = true ∨ s.Usable a) :
    ∃ s' r', s.activateBestChainStep connectBlock m = some (true, s') ∧
      s'.Round g connectBlock r' ∧ s.Progress connectBlock s.tip m s' := by
  have I := h.node.index
  have hmk := I.members m hm
  obtain ⟨fork, lowest, hf, heq⟩ := activateBestChainStep_eq connectBlock I.tree I.path hmk
  obtain ⟨htrue, htip⟩ := h.disconnects hmk hf
  obtain ⟨ht, hnode, hindex, hcands⟩ := h.disconnectTo fork s.vChain.length
  obtain ⟨t, hd⟩ : ∃ t, ChainState.disconnectTo fork s.vChain.length s = (true, t) :=
    ⟨_, Prod.ext htrue rfl⟩
  rw [hd] at htip ht hnode hindex hcands
  rw [heq, hd]
  have hst : s.SameTree t := sameTree_of_node hnode hindex
  have hstatus : ∀ x, t.status x = s.status x := fun x => congrArg CBlockIndex.nStatus (congrFun hnode x)
  have hclimb : Climbs t.parent t.tip (s.route fork m) := by
    rw [hst.parent, htip]
    exact climbs_route I.tree hmk hf
  have hps : ∀ p ∈ s.route fork m, t.Usable p ∧ t.Anc p m := fun p hp => by
    obtain ⟨hanc, hcont⟩ := mem_route I.tree hmk hf hp
    have hu := (hall p hanc).resolve_left (by rw [hcont]; decide)
    exact ⟨hu.congr hst (by rw [hstatus]) (by rw [hstatus]) (by rw [hnode]), by rwa [hst.anc]⟩
  obtain ⟨c, s', r', hroute, h', hprog⟩ := ht.connect s.tip lowest (by rwa [hcands]) hclimb hps
    (by rw [htip]; exact last_route I.tree hmk hf)
  have k : s.Moving t := ⟨⟨hst, same_of_node hnode, same_of_node hnode⟩, fun x => by rw [hstatus]⟩
  refine ⟨s', r', ?_, h', hprog.head k (by rw [hcands])⟩
  show (connectRoute connectBlock s.tip lowest (s.route fork m) t).map _ = _
  rw [hroute]
  rfl

end Round

/-! ## The loop of `ActivateBestChain` -/

/-- No block that could be connected sorts above `m`. -/
def Best (connectBlock : Ptr → Verdict) (s : ChainState) (m : Ptr) : Prop :=
  ∀ x, s.Known x → (s.node x).nChainTx ≠ 0 → (∀ a, s.Anc a x → Connects connectBlock a) →
    s.less m x = false

theorem Best.order (h : s.Best connectBlock m) (k : s.SameOrder s') : s'.Best connectBlock m :=
    fun x hx hc hv => by
  rw [k.tree.known] at hx
  rw [k.chain x] at hc
  rw [less_congr (k.key m) (k.key x)]
  exact h x hx hc fun a ha => hv a (by rwa [k.tree.anc])

/-- The last candidate is the best one. -/
theorem Round.best (h : s.Round g connectBlock r) (hm : s.setBlockIndexCandidates.getLast? = some m) :
    s.Best connectBlock m := fun x hx hc hv => by
  have T := totalLess s
  have hle : ∀ y ∈ s.setBlockIndexCandidates, s.less m y = false := fun y hy =>
    SortedSet.le_getLast T h.listed.sorted hm hy
  cases hb : s.below r x with
  | false => exact hle x (h.listed.complete x hx hc (h.node.clean hx hc hv) hb)
  | true =>
    -- what is below the reference is below the last candidate
    cases r with
    | none => cases hb
    | some t =>
      have hxm := T.lt_of_not_lt hb (hle t h.ref_mem)
      by_contra hmx
      have := T.trans m x m (Bool.eq_true_of_not_eq_false hmx) hxm
      rw [T.irrefl] at this
      cases this

/-- When the tip is the best block, no candidate is missing that is not below it. -/
theorem Round.listed_tip (h : s.Round g connectBlock r) (ht : s.tip = some m)
    (hb : s.Best connectBlock m) : s.Listed s.tip := by
  have T := totalLess s
  refine ⟨h.listed.sorted, h.listed.members, fun x hx hc hclean hxm => ?_⟩
  refine h.listed.complete x hx hc hclean ?_
  rw [ht] at hxm
  cases r with
  | none => rfl
  | some t =>
    obtain ⟨htk, htc, htv⟩ := h.ref t rfl
    by_contra hxt
    have hlt := T.lt_of_not_lt (Bool.eq_true_of_not_eq_false hxt) (hb t htk htc htv)
    exact absurd (hlt.symm.trans hxm) (by decide)

/-- The entries with more work than the tip. -/
def above (s : ChainState) : Nat := s.mapBlockIndex.countP fun p => match s.tip with
  | none => true
  | some t => decide ((s.node t).nChainWork < (s.node p).nChainWork)

theorem above_le (s : ChainState) : s.above ≤ s.mapBlockIndex.length := List.countP_le_length

theorem SameOrder.work (k : s.SameOrder s') (p : Ptr) :
    (s'.node p).nChainWork = (s.node p).nChainWork := congrArg Prod.fst (k.key p)

theorem above_eq (k : s.SameOrder s') (ht : s'.tip = s.tip) : s'.above = s.above := by
  unfold above
  rw [k.tree.index, ht]
  refine congrArg (List.countP · _) (funext fun p => ?_)
  cases s.tip with
  | none => rfl
  | some t => simp only [k.work]

theorem above_lt (k : s.SameOrder s') (I : s'.Index) (ht : s'.tip = some m)
    (himp : s'.improved s.tip = true) : s'.above < s.above := by
  have hm := tip_known I.path ht
  rw [k.tree.known] at hm
  have hwork : ∀ t, s.tip = some t → (s.node t).nChainWork < (s.node m).nChainWork := fun t hs => by
    unfold improved at himp
    rw [hs, ht] at himp
    simpa only [k.work, decide_eq_true_eq] using himp
  unfold above
  rw [k.tree.index, ht]
  refine countP_lt (fun p _ hp => ?_) hm ?_ (by simp)
  · cases hs : s.tip with
    | none => rfl
    | some t =>
      have hlt := hwork t hs
      simp only [k.work, decide_eq_true_eq] at hp ⊢
      omega
  · cases hs : s.tip with
    | none => rfl
    | some t => simpa using hwork t hs

/-- What holds when `ActivateBestChain` returns. -/
structure Finished (g : UInt256) (connectBlock : Ptr → Verdict) (s s' : ChainState) : Prop where
  node : s'.NodeOk g connectBlock
  listed : s'.Listed s'.tip
  raised : s'.Raised
  order : s.SameOrder s'
  best : ∀ x, s'.Known x → (s'.node x).nChainTx ≠ 0 → (∀ a, s'.Anc a x → Connects connectBlock a) →
    ∃ t, s'.tip = some t ∧ s'.less t x = false

theorem Finished.of_order {s₁ : ChainState} (h : Finished g connectBlock s₁ s') (k : s.SameOrder s₁) :
    Finished g connectBlock s s' := { h with order := k.trans h.order }

/-- One round of the loop: it ends, or the tip has moved towards the last candidate `m`. -/
theorem Round.round (h : s.Round g connectBlock r) (fuel : Nat) :
    (∃ s' s₁, s.activateBestChain connectBlock (fuel + 1) = .returns (true, s') ∧
      Finished g connectBlock s s' ∧ s.findMostWorkChain = some (s'.tip, s₁)) ∨
    ∃ m s₁ s₂ r₂, s.findMostWorkChain = some (some m, s₁) ∧ s.Flagging s₁ ∧
      s₁.setBlockIndexCandidates.getLast? = some m ∧ s₁.Progress connectBlock s₁.tip m s₂ ∧
      s₂.tip ≠ some m ∧ s₂.Round g connectBlock r₂ ∧
      s.activateBestChain connectBlock (fuel + 1) = s₂.activateBestChain connectBlock fuel := by
  obtain ⟨m, s₁, hfind, h₁, k₁⟩ := h.findMostWorkChain
  obtain ⟨-, -, hlast, hall⟩ := updates_findMostWorkChain (fun _ _ => True) h.node.index hfind
  rw [activateBestChain, hfind]
  cases m with
  | none =>
    -- without candidates there is no tip, nor a block that could be connected
    have hempty := List.getLast?_eq_none_iff.mp hlast
    have hnil : ∀ x, x ∉ s₁.setBlockIndexCandidates := fun x => by simp [hempty]
    obtain rfl : r = none := by
      cases r with
      | none => rfl
      | some t => exact absurd h₁.ref_mem (hnil t)
    have hnone : s₁.tip = none := by
      cases ht : s₁.tip with
      | none => rfl
      | some x =>
        obtain ⟨t, ht', -⟩ := h₁.tip x ht
        cases ht'
    refine .inl ⟨s₁, s₁, rfl, ⟨h₁.node, by rw [hnone]; exact h₁.listed, h₁.raised, k₁.order,
      fun x hx hc hv => ?_⟩, by rw [hnone]⟩
    exact absurd (h₁.listed.complete x hx hc (h₁.node.clean hx hc hv) rfl) (hnil x)
  | some m =>
    have hbest := h₁.best hlast
    have hdone : ∀ {s' r'}, s'.Round g connectBlock r' → s₁.SameOrder s' → s'.tip = some m →
        Finished g connectBlock s s' := fun h' k' ht' =>
      ⟨h'.node, h'.listed_tip ht' (hbest.order k'), h'.raised, k₁.order.trans k',
        fun x hx hc hv => ⟨m, ht', hbest.order k' x hx hc hv⟩⟩
    by_cases hm : s₁.tip = some m
    · simp only [if_pos hm]
      exact .inl ⟨s₁, s₁, rfl, hdone h₁ (.refl s₁) hm, by rw [hm]⟩
    · simp only [if_neg hm]
      obtain ⟨s₂, r₂, hstep, h₂, hprog⟩ := h₁.step (List.mem_of_getLast? hlast) (hall m rfl).2
      rw [hstep]
      simp only
      by_cases hm₂ : s₂.tip = some m
      · rw [if_pos hm₂]
        exact .inl ⟨s₂, s₁, rfl, hdone h₂ hprog.order hm₂, by rw [hm₂]⟩
      · rw [if_neg hm₂]
        exact .inr ⟨m, s₁, s₂, r₂, rfl, k₁, hlast, hprog, hm₂, h₂, rfl⟩

/-- If `ActivateBestChain` returns, it returns true, and the tip is the best block. -/
theorem Round.returned {fuel : Nat} (h : s.Round g connectBlock r) {b : Bool}
    (hret : s.activateBestChain connectBlock fuel = .returns (b, s')) :
    b = true ∧ Finished g connectBlock s s' := by
  induction fuel generalizing s r with
  | zero => cases hret
  | succ fuel ih =>
    rcases h.round fuel with ⟨t, -, heq, ht, -⟩ | ⟨m, s₁, s₂, r₂, -, k₁, -, hprog, -, h₂, heq⟩
    · rw [heq] at hret
      cases hret
      exact ⟨rfl, ht⟩
    · rw [heq] at hret
      obtain ⟨hb, hF⟩ := ih h₂ hret
      exact ⟨hb, hF.of_order (k₁.order.trans hprog.order)⟩

/-- With enough rounds the loop ends, and no assertion fails, if no block is perhaps corrupt. -/
theorem Round.activate (hv : ∀ p, connectBlock p ≠ .invalid true) {fuel : Nat}
    (h : s.Round g connectBlock r)
    (hfuel : s.unfailed * (s.mapBlockIndex.length + 1) + s.above < fuel) :
    ∃ s', s.activateBestChain connectBlock fuel = .returns (true, s') ∧ Finished g connectBlock s s' := by
  induction fuel generalizing s r with
  | zero => omega
  | succ fuel ih =>
    rcases h.round fuel with ⟨t, -, heq, ht, -⟩ | ⟨m, s₁, s₂, r₂, -, k₁, -, hprog, hm₂, h₂, heq⟩
    · exact ⟨t, heq, ht⟩
    -- an entry more is failed, or the tip has more work
    have habove := above_eq k₁.order (congrArg List.getLast? k₁.kept.chain)
    have hunf := k₁.unfailed_le
    have hlen := congrArg List.length k₁.kept.same.index
    have hlen₂ := congrArg List.length hprog.order.tree.index
    have hle := above_le s₂
    have hlt : s₂.unfailed * (s₂.mapBlockIndex.length + 1) + s₂.above < fuel := by
      rw [hlen₂, hlen]
      rw [hlen₂, hlen] at hle
      have hmul := Nat.mul_le_mul_right (s.mapBlockIndex.length + 1) hunf
      cases hprog with
      | moved k₂ _ _ htip =>
        rcases htip with htip | ⟨hsome, himp⟩ | ⟨-, c, -, hc⟩
        · exact absurd htip hm₂
        · obtain ⟨t, ht⟩ := Option.ne_none_iff_exists'.mp hsome
          have := above_lt k₂.toSameOrder h₂.node.index ht himp
          rw [k₂.unfailed_eq]
          omega
        · exact absurd hc (hv c)
      | invalid _ hless =>
        have := Nat.mul_le_mul_right (s.mapBlockIndex.length + 1) (Nat.succ_le_of_lt hless)
        rw [Nat.succ_mul] at this
        omega
    obtain ⟨s', heq', hF⟩ := ih h₂ hlt
    exact ⟨s', heq.trans heq', hF.of_order (k₁.order.trans hprog.order)⟩

/-! ## Blocks that are perhaps corrupt -/

/-- A last candidate without failed ancestors is found at once. -/
theorem Round.findMostWork_clean (h : s.Round g connectBlock r)
    (hlast : s.setBlockIndexCandidates.getLast? = some m) (hclean : s.Clean m) :
    s.findMostWorkChain = some (some m, s) := by
  have hm := List.mem_of_getLast? hlast
  have hmk := h.node.index.members m hm
  have hmc := h.listed.members m hm
  rw [ChainState.findMostWorkChain, findMostWorkFrom, hlast]
  simp only
  cases hb : s.findBad ((s.node m).nHeight + 1) (some m) with
  | none => exact absurd hb (h.findBad_linked _ hmk hmc)
  | some ob =>
    cases ob with
    | none => rfl
    | some b =>
      have hf := h.findBad_failed hmk hmc hb
      rw [hclean b (findBad_some h.node.index.tree hmk hb).1] at hf
      cases hf

/-- The last candidate stays the last one while it is a member. -/
theorem Round.getLast_sublist {r' : Option Ptr} (h : s.Round g connectBlock r)
    (h' : s'.Round g connectBlock r') (hlast : s.setBlockIndexCandidates.getLast? = some m)
    (hm : m ∈ s'.setBlockIndexCandidates)
    (hsub : s'.setBlockIndexCandidates.Sublist s.setBlockIndexCandidates) (k : s.SameOrder s') :
    s'.setBlockIndexCandidates.getLast? = some m := by
  cases hl : s'.setBlockIndexCandidates.getLast? with
  | none =>
    rw [List.getLast?_eq_none_iff] at hl
    rw [hl] at hm
    cases hm
  | some y =>
    have hmy := SortedSet.le_getLast (totalLess s) h.listed.sorted hlast
      (hsub.subset (List.mem_of_getLast? hl))
    have hym := SortedSet.le_getLast (totalLess s') h'.listed.sorted hl hm
    rw [less_congr (k.key y) (k.key m)] at hym
    rw [(totalLess s).tri y m hym hmy]

/-- While a block on the way to the last candidate is reported as perhaps corrupt, and none as invalid,
the loop tries again and again. -/
theorem Round.never (h : s.Round g connectBlock r)
    (hlast : s.setBlockIndexCandidates.getLast? = some m) (hclean : s.Clean m)
    (hcorrupt : ∃ c, s.Anc c m ∧ connectBlock c = .invalid true)
    (hall : ∀ a, s.Anc a m → connectBlock a ≠ .invalid false) (fuel : Nat) :
    s.activateBestChain connectBlock fuel = .goesOn := by
  induction fuel generalizing s r with
  | zero => rfl
  | succ fuel ih =>
    have hfind := h.findMostWork_clean hlast hclean
    rcases h.round fuel with ⟨t, s₁, -, ht, hfound⟩ |
      ⟨m', s₁, s₂, r₂, hfound, -, -, hprog, -, h₂, heq⟩
    · -- the block that is perhaps corrupt would be on the active chain
      obtain ⟨htip, -⟩ := Prod.mk.inj (Option.some.inj (hfind.symm.trans hfound))
      obtain ⟨c, hc, hv⟩ := hcorrupt
      have I := ht.node.index
      have hcont := (contains_iff I.tree I.path).mpr ⟨m, htip.symm, by rwa [ht.order.tree.anc]⟩
      obtain ⟨n, hn⟩ := (ht.node.active c hcont).2.2.1
      rw [hv] at hn
      cases hn
    · obtain ⟨hmm, hs⟩ := Prod.mk.inj (Option.some.inj (hfind.symm.trans hfound))
      obtain rfl := Option.some.inj hmm
      subst hs
      rw [heq]
      cases hprog with
      | moved k hm hsub =>
        obtain ⟨c, hc, hv⟩ := hcorrupt
        refine ih h₂ (h.getLast_sublist h₂ hlast hm hsub k.toSameOrder) (fun a ha => ?_)
          ⟨c, by rwa [k.tree.anc], hv⟩ fun a ha => hall a (by rwa [← k.tree.anc])
        rw [k.failed]
        exact hclean a (by rwa [← k.tree.anc])
      | invalid _ _ _ hc =>
        obtain ⟨c, hc, hv⟩ := hc
        exact absurd hv (hall c hc)

end ChainState

end GC
