import GameCredits.Model.Pow
import GameCredits.Proof.Compact
import GameCredits.Proof.Links

/-!
# The work of chains

`GetBlockProof` is the expected number of hashes for a target, although `2 ^ 256` itself has no
`arith_uint256` (`getBlockProofWords_eq`). In every run `nChainWork` is the sum along the path
(`Worked`, `nChainWork_eq`), and `LoadBlockIndexDB`, which has the entries in the order of their
heights, calculates the same (`loadBlockIndexWork_eq`).
-/

namespace GC

open Framework

/-! ## The proof of one block -/

/-- The compact form stands for a target: `SetCompact` raises no flag, and the number is not zero. -/
def ValidTarget (nBits : UInt32) : Prop :=
  setCompactNegative nBits = false ∧ setCompactOverflow nBits = false ∧ setCompact nBits ≠ 0

instance (nBits : UInt32) : Decidable (ValidTarget nBits) :=
  inferInstanceAs (Decidable (_ ∧ _ ∧ _))

/-- The expected number of hashes for a target. -/
def expectedWork (bnTarget : Nat) : Nat := 2 ^ 256 / (bnTarget + 1)

theorem setCompact_lt (nBits : UInt32) : setCompact nBits + 1 < 2 ^ 256 := by
  have hm := compactMantissa_lt nBits
  have hdef : setCompact nBits = (if compactExponent nBits ≤ 3 then
      compactMantissa nBits >>> (8 * (3 - compactExponent nBits)) else
        compactMantissa nBits <<< (8 * (compactExponent nBits - 3))) % 2 ^ 256 := rfl
  rw [hdef]
  split_ifs with h3
  · -- a short mantissa is small
    have hle : compactMantissa nBits >>> (8 * (3 - compactExponent nBits)) ≤ compactMantissa nBits := by
      rw [Nat.shiftRight_eq_div_pow]
      exact Nat.div_le_self _ _
    have hmod := Nat.mod_le (compactMantissa nBits >>> (8 * (3 - compactExponent nBits))) (2 ^ 256)
    have hbig : 2 ^ 23 < 2 ^ 256 := by decide
    omega
  · -- a shifted one is even
    obtain ⟨k, hk⟩ : ∃ k, compactExponent nBits = k + 4 := ⟨compactExponent nBits - 4, by omega⟩
    rw [Nat.shiftLeft_eq, hk, show 8 * (k + 4 - 3) = 8 * k + 7 + 1 by omega, pow_succ,
      ← Nat.mul_assoc, show (2 : Nat) ^ 256 = 2 ^ 255 * 2 by rw [← pow_succ], Nat.mul_mod_mul_right]
    have hlt := Nat.mod_lt (compactMantissa nBits * 2 ^ (8 * k + 7)) (Nat.two_pow_pos 255)
    omega

theorem compactTarget_eq (nBits : UInt32) : compactTarget nBits =
    if setCompactNegative nBits || setCompactOverflow nBits then 0 else setCompact nBits := by
  unfold compactTarget setCompactNegative setCompactOverflow setCompact
  generalize nBits.toNat &&& 0x007FFFFF = nWord
  generalize nBits.toNat >>> 24 = nSize
  generalize nBits.toNat &&& 0x00800000 = sign
  simp only
  by_cases h3 : nSize ≤ 3
  · have hshift : nWord >>> (8 * (3 - nSize)) ≠ 0 → nWord ≠ 0 := fun h h0 => h (by
      rw [h0, Nat.zero_shiftRight])
    have hsmall : ¬ 32 < nSize ∧ ¬ 33 < nSize ∧ ¬ 34 < nSize := by omega
    simp only [if_pos h3, hsmall, decide_false, Bool.and_false, Bool.or_false, Bool.and_eq_true,
      bne_iff_ne, gt_iff_lt, and_false, or_false]
    by_cases h0 : nWord >>> (8 * (3 - nSize)) = 0
    · simp only [h0, Nat.zero_mod, ite_self]
    · have hw := hshift h0
      simp only [h0, hw, ne_eq, not_false_eq_true, true_and]
  · simp only [if_neg h3, Bool.or_eq_true, Bool.and_eq_true, bne_iff_ne, decide_eq_true_eq, gt_iff_lt,
      ← and_or_left, or_assoc]

theorem validTarget_iff (nBits : UInt32) : ValidTarget nBits ↔ compactTarget nBits ≠ 0 := by
  rw [compactTarget_eq, ValidTarget]
  cases setCompactNegative nBits <;> cases setCompactOverflow nBits <;> simp

theorem ValidTarget.target {nBits : UInt32} (h : ValidTarget nBits) :
    compactTarget nBits = setCompact nBits := by
  rw [compactTarget_eq, h.1, h.2.1]
  rfl

/-- `2 ^ 256 / (bnTarget + 1)`, without `2 ^ 256`. -/
theorem expectedWork_eq {bnTarget : Nat} (h : bnTarget + 1 < 2 ^ 256) :
    (2 ^ 256 - 1 - bnTarget) / (bnTarget + 1) + 1 = expectedWork bnTarget := by
  rw [expectedWork, ← Nat.add_div_right _ (Nat.succ_pos bnTarget)]
  congr 1
  omega

theorem expectedWork_lt {bnTarget : Nat} (h : bnTarget ≠ 0) : expectedWork bnTarget < 2 ^ 256 :=
  Nat.div_lt_self (Nat.two_pow_pos 256) (by omega)

theorem getBlockProof_valid {nBits : UInt32} (h : ValidTarget nBits) :
    getBlockProof nBits = expectedWork (setCompact nBits) := by
  rw [getBlockProof, h.target, if_neg h.2.2, expectedWork_eq (setCompact_lt nBits),
    Nat.mod_eq_of_lt (expectedWork_lt h.2.2)]

/-- The headers with proof of work have valid targets. -/
theorem ValidTarget.of_checkProofOfWork {params : PowParams} {hash : UInt256} {nBits : UInt32}
    (h : params.checkProofOfWork hash nBits = true) : ValidTarget nBits := by
  simp only [PowParams.checkProofOfWork, Bool.and_eq_true, decide_eq_true_eq] at h
  exact (validTarget_iff nBits).mpr h.1.1

theorem getBlockProof_invalid {nBits : UInt32} (h : ¬ ValidTarget nBits) : getBlockProof nBits = 0 := by
  rw [validTarget_iff, not_not] at h
  rw [getBlockProof, h]
  rfl

theorem getBlockProof_eq (nBits : UInt32) : getBlockProof nBits =
    if setCompactNegative nBits || setCompactOverflow nBits || setCompact nBits == 0 then 0
    else 2 ^ 256 / (setCompact nBits + 1) := by
  by_cases h : ValidTarget nBits
  · rw [getBlockProof_valid h, h.1, h.2.1, beq_eq_false_iff_ne.mpr h.2.2]
    rfl
  · rw [getBlockProof_invalid h, if_pos]
    by_contra hc
    rw [Bool.not_eq_true, Bool.or_eq_false_iff, Bool.or_eq_false_iff, beq_eq_false_iff_ne] at hc
    exact h ⟨hc.1.1, hc.1.2, hc.2⟩

/-- There is no division by zero, and nothing overflows. -/
theorem getBlockProofWords_eq (nBits : UInt32) :
    (getBlockProofWords nBits).map BitVec.toNat = some (getBlockProof nBits) := by
  have hlt := setCompact_lt nBits
  have htarget : (BitVec.ofNat 256 (setCompact nBits)).toNat = setCompact nBits := by
    rw [BitVec.toNat_ofNat, Nat.mod_eq_of_lt (Nat.lt_of_succ_lt hlt)]
  have hzero : (BitVec.ofNat 256 (setCompact nBits) == 0) = decide (setCompact nBits = 0) := by
    rw [Bool.eq_iff_iff, beq_iff_eq, decide_eq_true_eq, ← BitVec.toNat_inj, htarget]
    rfl
  unfold getBlockProofWords
  simp only [hzero]
  by_cases h : ValidTarget nBits
  · obtain ⟨hneg, hover, hne⟩ := h
    have hsucc : (BitVec.ofNat 256 (setCompact nBits) + 1).toNat = setCompact nBits + 1 := by
      rw [BitVec.toNat_add, htarget]
      exact Nat.mod_eq_of_lt hlt
    have hdiv : BitVec.ofNat 256 (setCompact nBits) + 1 ≠ 0 := fun h0 => by
      rw [h0] at hsucc
      cases hsucc
    rw [hneg, hover, decide_eq_false hne, divUint256, if_neg hdiv, getBlockProof_valid ⟨hneg, hover, hne⟩]
    show some (BitVec.toNat (_ / _ + 1)) = _
    rw [BitVec.toNat_add, BitVec.toNat_udiv, BitVec.toNat_not, htarget, hsucc]
    show some (((2 ^ 256 - 1 - setCompact nBits) / (setCompact nBits + 1) + 1) % 2 ^ 256) = _
    rw [expectedWork_eq hlt]
    exact congrArg some (Nat.mod_eq_of_lt (expectedWork_lt hne))
  · rw [getBlockProof_invalid h]
    have hcond : (setCompactNegative nBits || setCompactOverflow nBits ||
        decide (setCompact nBits = 0)) = true := by
      by_contra hc
      rw [Bool.not_eq_true, Bool.or_eq_false_iff, Bool.or_eq_false_iff,
        decide_eq_false_iff_not] at hc
      exact h ⟨hc.1.1, hc.1.2, hc.2⟩
    rw [hcond]
    rfl

theorem getBlockProof_pos {nBits : UInt32} (h : ValidTarget nBits) : 1 ≤ getBlockProof nBits := by
  rw [getBlockProof_valid h, ← expectedWork_eq (setCompact_lt nBits)]
  exact Nat.le_add_left _ _

/-- A larger target takes less work. -/
theorem getBlockProof_antitone {a b : UInt32} (ha : ValidTarget a) (hb : ValidTarget b)
    (h : setCompact a ≤ setCompact b) : getBlockProof b ≤ getBlockProof a := by
  rw [getBlockProof_valid ha, getBlockProof_valid hb]
  exact Nat.div_le_div_left (Nat.add_le_add_right h 1) (Nat.succ_pos _)

namespace ChainState

variable {s s' : ChainState} {p q a : Ptr}

/-! ## Along a path -/

/-- The work of the parent. -/
def prevWork (s : ChainState) (p : Ptr) : Nat :=
  (s.parent p).elim 0 fun q => (s.node q).nChainWork

/-- The exact work from the genesis block to an entry. -/
def pathWork (s : ChainState) (p : Ptr) : Nat :=
  ((lineage s.parent (s.height p + 1) p).map fun a => getBlockProof (s.node a).nBits).sum

theorem pathWork_root (h : s.parent p = none) : s.pathWork p = getBlockProof (s.node p).nBits :=
  sum_lineage_root h _

theorem pathWork_child (T : s.Tree) (hp : s.Known p) (hq : s.parent p = some q) :
    s.pathWork p = s.pathWork q + getBlockProof (s.node p).nBits := by
  rw [pathWork, sum_lineage_child hq, T.graded.child p q hp hq]
  rfl

/-- The work of all entries is that of the parent and their own. -/
def Worked (s : ChainState) : Prop := ∀ p, s.Known p →
  (s.node p).nChainWork = (s.prevWork p + getBlockProof (s.node p).nBits) % 2 ^ 256

/-- `nChainWork` is the sum along the path, in 256 bits. -/
theorem nChainWork_eq (W : s.Worked) (T : s.Tree) (hp : s.Known p) :
    (s.node p).nChainWork = s.pathWork p % 2 ^ 256 := by
  refine T.graded.induct (P := fun p => (s.node p).nChainWork = s.pathWork p % 2 ^ 256)
    (fun p hp ih => ?_) hp
  rw [W p hp, prevWork]
  cases hq : s.parent p with
  | none => rw [Option.elim_none, Nat.zero_add, pathWork_root hq]
  | some q => rw [Option.elim_some, ih q hq, pathWork_child T hp hq, Nat.mod_add_mod]

theorem pathWork_le (T : s.Tree) (hp : s.Known p) (ha : s.Anc a p) : s.pathWork a ≤ s.pathWork p := by
  induction ha with
  | refl => exact le_rfl
  | step h _ ih =>
    rw [pathWork_child T hp h]
    exact (ih (T.graded.closed _ _ hp h)).trans (Nat.le_add_right _ _)

/-- More work on top of less. -/
theorem nChainWork_lt (W : s.Worked) (T : s.Tree) (hp : s.Known p) (hfit : s.pathWork p < 2 ^ 256)
    (hvalid : ValidTarget (s.node p).nBits) (ha : s.Anc a p) (hne : a ≠ p) :
    (s.node a).nChainWork < (s.node p).nChainWork := by
  obtain ⟨q, hq, haq⟩ := ha.eq_or_parent.resolve_left hne
  have hkq := T.graded.closed p q hp hq
  have hka : s.Known a := haq.closed (fun b c hc hb => T.graded.closed c b hc hb) hkq
  have hle := pathWork_le T hkq haq
  have hchild := pathWork_child T hp hq
  have hpos := getBlockProof_pos hvalid
  rw [nChainWork_eq W T hka, nChainWork_eq W T hp, Nat.mod_eq_of_lt (by omega), Nat.mod_eq_of_lt hfit]
  omega

/-! ## Updates -/

/-- The fields that the work is calculated from, and the work. -/
def CBlockIndex.worked (e : CBlockIndex) : Option Ptr × UInt32 × Nat := (e.pprev, e.nBits, e.nChainWork)

theorem Worked.same (W : s.Worked) (h : Same CBlockIndex.worked s s')
    (hindex : s'.mapBlockIndex = s.mapBlockIndex) : s'.Worked := by
  intro p hp
  have hfields : ∀ q, (s'.node q).pprev = (s.node q).pprev ∧ (s'.node q).nBits = (s.node q).nBits ∧
      (s'.node q).nChainWork = (s.node q).nChainWork := fun q => by
    simpa only [CBlockIndex.worked, Prod.mk.injEq] using h q
  have hprev : s'.prevWork p = s.prevWork p := by
    rw [prevWork, prevWork, parent, parent, (hfields p).1]
    exact congrArg (Option.elim _ 0) (funext fun q => (hfields q).2.2)
  rw [(hfields p).2.2, (hfields p).2.1, hprev]
  rw [Known, hindex] at hp
  exact W p hp

theorem Worked.added (W : s.Worked) (T : s.Tree) {hash : UInt256} {block : CBlockHeader}
    (hp : ¬ s.Known p) : (s.addEntry hash block p).Worked := by
  have A := added_addEntry hash block hp
  have hnew : (s.addEntry hash block p).node p = s.newEntry hash block :=
    node_modify_self (s := s) fun _ => s.newEntry hash block
  have hprev : ∀ q, (∀ r, (s.addEntry hash block p).parent q = some r → s.Known r) →
      (s.addEntry hash block p).prevWork q =
        ((s.addEntry hash block p).parent q).elim 0 fun r => (s.node r).nChainWork := fun q hq => by
    rw [prevWork]
    cases hr : (s.addEntry hash block p).parent q with
    | none => rfl
    | some r => rw [Option.elim_some, Option.elim_some, A.node r (hq r hr)]
  intro q hq
  rcases A.known.mp hq with hq | rfl
  · rw [hprev q fun r hr => T.graded.closed q r hq (A.parent_eq hq ▸ hr), A.node q hq, A.parent_eq hq]
    exact W q hq
  · rw [hprev q fun r hr => (A.parent r hr).1, parent, hnew]
    show (s.newEntry hash block).nChainWork = _
    unfold newEntry
    simp only
    cases s.find block.hashPrevBlock with
    | none => rfl
    | some r => rfl

theorem same_recordConnected (n : Nat) : Same CBlockIndex.worked s (s.recordConnected p n) := by
  unfold recordConnected
  split
  · exact .refl s
  · exact same_modify fun _ => rfl

theorem Worked.update {ok : Op → ChainState → Prop} (W : s.Worked) (I : s.Index)
    (h : Update ok s s') : s'.Worked := by
  have hstatus : ∀ (p : Ptr) (f : BlockStatus → BlockStatus),
      Same CBlockIndex.worked s (s.modifyStatus p f) := fun _ _ => same_modify fun _ => rfl
  cases h with
  | add hp => exact W.added I.tree hp
  | receive _ hp =>
    have hmark := fun t q => same_assignLink (v := CBlockIndex.worked) (s := t) (p := q) fun _ _ _ => rfl
    exact W.same (same_received (same_modify fun _ => rfl) hmark) (I.received hp _ _).same.index
  | @reject p => exact W.same (hstatus p _) rfl
  | @invalid p =>
    have hsame : Same CBlockIndex.worked s (s.markInvalid p) :=
      fun q => hstatus p (fun st => { st with failedValid := true }) q
    exact W.same hsame rfl
  | @failChild p =>
    have hsame : Same CBlockIndex.worked s (s.markFailedChild p) :=
      fun q => hstatus p (fun st => { st with failedChild := true }) q
    exact W.same hsame rfl
  | requeue hp => exact W.same (same_of_node node_requeue) (kept_requeue hp).same.index
  | erase => exact W.same (same_of_node rfl) rfl
  | bestInvalid => exact W.same (same_of_node rfl) rfl
  | prune h => exact W.same (same_of_node (node_prune h)) (kept_prune h).same.index
  | pop ht hq => exact W.same (same_of_node rfl) rfl
  | push n hp ht => exact W.same (same_recordConnected n) (sameTree_recordConnected n).index
  | readd ht =>
    exact W.same (same_of_node (node_foldl_readd _ _))
      (foldl_kept (fun _ _ => kept_readdCandidate) fun _ h => h).same.index
  | reconsider _ _ h =>
    have hclear : ∀ t q, Same CBlockIndex.worked t (t.clearFailed q) := fun t q => by
      rw [clearFailed, modifyStatus]
      exact same_modify fun _ => rfl
    exact W.same (same_reconsiderBlock hclear h) (Index.reconsidered h).same.index
  | pruneFile =>
    exact W.same (same_pruneOneBlockFile _ fun _ => rfl) (kept_pruneOneBlockFile s _).same.index

theorem Runs.worked {ok : Op → ChainState → Prop} (h : Runs ok s) : s.Worked :=
  h.invariant (fun _ h => by cases h) fun _ _ I W hup => W.update I hup

/-! ## From the disk -/

/-- The fields that `LoadBlockIndexGuts` reads from the disk are those of the entry. -/
def Stored (s : ChainState) (node : Ptr → CBlockIndex) (p : Ptr) : Prop :=
  (node p).pprev = s.parent p ∧ (node p).nHeight = s.height p ∧ (node p).nBits = (s.node p).nBits

theorem loadChainWork_self (node : Ptr → CBlockIndex) (p : Ptr) :
    (loadChainWork node p p).nChainWork =
      (((node p).pprev.elim 0 fun q => (node q).nChainWork) + getBlockProof (node p).nBits) % 2 ^ 256 := by
  rw [loadChainWork]
  simp only [if_pos]
  cases (node p).pprev <;> rfl

theorem loadChainWork_ne {node : Ptr → CBlockIndex} (h : q ≠ p) : loadChainWork node p q = node q := by
  rw [loadChainWork]
  exact if_neg h

theorem Stored.load {node : Ptr → CBlockIndex} (h : s.Stored node q) (p : Ptr) :
    s.Stored (loadChainWork node p) q := by
  by_cases hq : q = p
  · subst hq
    unfold Stored loadChainWork
    simp only [if_pos]
    exact h
  · rw [Stored, loadChainWork_ne hq]
    exact h

theorem Stored.foldl {node : Ptr → CBlockIndex} (h : s.Stored node q) (l : List Ptr) :
    s.Stored (l.foldl loadChainWork node) q := by
  induction l generalizing node with
  | nil => exact h
  | cons p l ih => exact ih (h.load p)

/-- The work of an entry is right as soon as the loop has passed it: its parent came before. -/
theorem foldl_loadChainWork (W : s.Worked) (T : s.Tree) {node : Ptr → CBlockIndex} {l : List Ptr}
    (hstored : ∀ p ∈ l, s.Known p ∧ s.Stored node p)
    (hclosed : ∀ p ∈ l, ∀ q, s.parent p = some q → q ∈ l)
    (hsorted : l.Pairwise fun p q => s.height p ≤ s.height q) :
    ∀ p ∈ l, (l.foldl loadChainWork node p).nChainWork = (s.node p).nChainWork := by
  induction l using List.reverseRecOn with
  | nil => intro p hp; cases hp
  | append_singleton l p ih =>
    have hlast : p ∈ l ++ [p] := List.mem_append_right l (List.mem_singleton_self p)
    have hle : ∀ q ∈ l, s.height q ≤ s.height p := fun q hq =>
      (List.pairwise_append.mp hsorted).2.2 q hq p (List.mem_singleton_self p)
    have hbelow : ∀ q ∈ l ++ [p], s.height q < s.height p → q ∈ l := fun q hq hlt =>
      (List.mem_append.mp hq).resolve_right fun h => by
        rw [List.mem_singleton.mp h] at hlt
        exact lt_irrefl _ hlt
    have hchild : ∀ a ∈ l ++ [p], ∀ q, s.parent a = some q → s.height a = s.height q + 1 :=
      fun a ha q => T.graded.child a q (hstored a ha).1
    have ih := ih (fun a ha => hstored a (List.mem_append_left _ ha))
      (fun a ha q hq => hbelow q (hclosed a (List.mem_append_left _ ha) q hq) (by
        have := hchild a (List.mem_append_left _ ha) q hq
        have := hle a ha
        omega))
      (List.pairwise_append.mp hsorted).1
    rw [List.foldl_append, List.foldl_cons, List.foldl_nil]
    obtain ⟨hkp, hp⟩ := hstored p hlast
    obtain ⟨hparent, -, hbits⟩ := hp.foldl l
    intro a ha
    by_cases hap : a = p
    · rw [hap, loadChainWork_self, W p hkp, hparent, hbits, prevWork]
      cases hq : s.parent p with
      | none => rfl
      | some q =>
        have hql := hbelow q (hclosed p hlast q hq) (by have := hchild p hlast q hq; omega)
        rw [Option.elim_some, Option.elim_some, ih q hql]
    · rw [loadChainWork_ne hap]
      exact ih a ((List.mem_append.mp ha).resolve_right fun h => hap (List.mem_singleton.mp h))

theorem sortedByHeight_perm (node : Ptr → CBlockIndex) (l : List Ptr) :
    (sortedByHeight node l).Perm l := List.mergeSort_perm l _

theorem sortedByHeight_pairwise (node : Ptr → CBlockIndex) (l : List Ptr) :
    (sortedByHeight node l).Pairwise fun p q => (node p).nHeight ≤ (node q).nHeight := by
  refine (List.pairwise_mergeSort (fun a b c hab hbc => ?_) (fun a b => ?_) l).imp fun {a b} h => ?_
  · exact decide_eq_true ((of_decide_eq_true hab).trans (of_decide_eq_true hbc))
  · rw [Bool.or_eq_true, decide_eq_true_eq, decide_eq_true_eq]
    exact le_total _ _
  · rcases Prod.Lex.toLex_le_toLex.mp (of_decide_eq_true h) with h | ⟨h, -⟩
    · exact h.le
    · exact h.le

theorem loadBlockIndexWork_eq (W : s.Worked) (T : s.Tree) {node : Ptr → CBlockIndex} {l : List Ptr}
    (hstored : ∀ p ∈ l, s.Known p ∧ s.Stored node p)
    (hclosed : ∀ p ∈ l, ∀ q, s.parent p = some q → q ∈ l) (hp : p ∈ l) :
    (loadBlockIndexWork node l p).nChainWork = (s.node p).nChainWork := by
  have hmem : ∀ {q}, q ∈ sortedByHeight node l ↔ q ∈ l := (sortedByHeight_perm node l).mem_iff
  have hheight : ∀ q ∈ sortedByHeight node l, (node q).nHeight = s.height q :=
    fun q hq => (hstored q (hmem.mp hq)).2.2.1
  refine foldl_loadChainWork W T (fun q hq => hstored q (hmem.mp hq))
    (fun q hq r hr => hmem.mpr (hclosed q (hmem.mp hq) r hr)) ?_ p (hmem.mpr hp)
  refine (sortedByHeight_pairwise node l).imp_of_mem fun {a b} ha hb h => ?_
  rwa [hheight a ha, hheight b hb] at h

/-! ## In every run -/

/-- The proof of a block is exact, and no smaller for a smaller target. In every run the work of an
entry whose sum fits in 256 bits is that sum, it exceeds the work below, and `LoadBlockIndexDB` gets
it back from the stored entries. -/
theorem chainWork_exact :
    (∀ nBits, (getBlockProofWords nBits).map BitVec.toNat = some (getBlockProof nBits) ∧
      getBlockProof nBits =
        if setCompactNegative nBits || setCompactOverflow nBits || setCompact nBits == 0 then 0
        else 2 ^ 256 / (setCompact nBits + 1)) ∧
    (∀ a b, ValidTarget a → ValidTarget b → setCompact a ≤ setCompact b →
      getBlockProof b ≤ getBlockProof a ∧ 1 ≤ getBlockProof b) ∧
    ∀ ok s, Runs ok s →
      (∀ p, s.Known p → s.pathWork p < 2 ^ 256 → (s.node p).nChainWork = s.pathWork p ∧
        (ValidTarget (s.node p).nBits → ∀ a, s.Anc a p → a ≠ p →
          (s.node a).nChainWork < (s.node p).nChainWork)) ∧
      ∀ node mapBlockIndex, (∀ p ∈ mapBlockIndex, s.Known p ∧ s.Stored node p) →
        (∀ p ∈ mapBlockIndex, ∀ q, s.parent p = some q → q ∈ mapBlockIndex) →
        ∀ p ∈ mapBlockIndex,
          (loadBlockIndexWork node mapBlockIndex p).nChainWork = (s.node p).nChainWork := by
  refine ⟨fun nBits => ⟨getBlockProofWords_eq nBits, getBlockProof_eq nBits⟩,
    fun a b ha hb h => ⟨getBlockProof_antitone ha hb h, getBlockProof_pos hb⟩, fun ok s hs => ?_⟩
  have W := hs.worked
  have T := hs.index.tree
  refine ⟨fun p hp hfit => ⟨?_, fun hvalid a ha hne => nChainWork_lt W T hp hfit hvalid ha hne⟩,
    fun node l hstored hclosed p hp => loadBlockIndexWork_eq W T hstored hclosed hp⟩
  rw [nChainWork_eq W T hp, Nat.mod_eq_of_lt hfit]

/-- Three blocks in a row: the work of the last exceeds that of the first, also from the disk. -/
theorem chainWork_exact_waiting : ∃ s, Runs Arrives s ∧
    (s.node 1).nChainWork < (s.node 3).nChainWork ∧
    (loadBlockIndexWork (fun p => { s.node p with nChainWork := 0 }) [3, 2, 1] 3).nChainWork =
      (s.node 3).nChainWork := by
  have hrun : (run (guarded ChainState.step Arrives) waitingRun empty).any (fun s =>
    decide (s.mapBlockIndex = [1, 2, 3] ∧ s.parent 1 = none ∧ s.parent 2 = some 1 ∧
      s.parent 3 = some 2 ∧ s.pathWork 3 < 2 ^ 256 ∧ ValidTarget (s.node 3).nBits)) = true := by
    decide +kernel
  cases hs : run (guarded ChainState.step Arrives) waitingRun empty with
  | none => rw [hs] at hrun; cases hrun
  | some s =>
    rw [hs] at hrun
    obtain ⟨hindex, h1, h2, h3, hfit, hvalid⟩ := of_decide_eq_true hrun
    have hreach : Runs Arrives s := (show Runs Arrives empty from .init rfl).guarded hs
    have hk : ∀ p ∈ [3, 2, 1], s.Known p := by
      intro p hp
      rw [Known, hindex]
      exact List.mem_reverse.mp hp
    obtain ⟨hwork, hload⟩ := chainWork_exact.2.2 Arrives s hreach
    have hanc : s.Anc 1 3 := .step h3 (.step h2 .refl)
    refine ⟨s, hreach, (hwork 3 (hk 3 (by decide)) hfit).2 hvalid 1 hanc (by decide),
      hload (fun p => { s.node p with nChainWork := 0 }) [3, 2, 1]
        (fun p hp => ⟨hk p hp, rfl, rfl, rfl⟩) ?_ 3 (by decide)⟩
    intro p hp q hq
    rcases List.mem_cons.mp hp with rfl | hp
    · rw [h3] at hq
      cases hq
      decide
    · rcases List.mem_pair.mp hp with rfl | rfl
      · rw [h2] at hq
        cases hq
        decide
      · rw [h1] at hq
        cases hq

end ChainState

end GC
