import GameCredits.Proof.MerkleBlock

/-!
# Branches of a block

What `GetMerkleBranch` takes from the array that `BuildMerkleTree` fills is the branch of the general
theory (`branchFrom_eq`), which leads to the root, and `CalcHash` gives the same root
(`merkleBranch_verifies`). The number of transactions may be a negative `int` (`merkleBranch_wrapped`).
-/

namespace GC

open Framework Framework.MerkleTree

variable {hash : Bytes → UInt256}

/-! ## Branches -/

theorem xorOne_eq {l : List UInt256} (hl : 0 < l.length) (i : Nat) :
    min (xorOne i) ((l.length : Int) - 1) = (sibling l i : Nat) := by
  unfold xorOne sibling
  split_ifs <;> omega

/-- What `GetMerkleBranch` takes from the levels. -/
theorem branchFrom_eq {k fuel i : Nat} {P L : List UInt256} (hfuel : L.length ≤ fuel)
    (hL : L.length ≤ 2 ^ k) (hint : P.length + 2 ^ (k + 1) ≤ 2 ^ 31) :
    branchFrom (P ++ L ++ above (pairHash hash) fuel L) P.length L.length i =
      some (branch (pairHash hash) fuel L i) := by
  induction fuel generalizing k P L i with
  | zero => rw [branchFrom, if_neg (by omega), branch]
  | succ fuel ih =>
    rw [branchFrom, above, branch]
    by_cases hlen : L.length ≤ 1
    · rw [if_neg (by omega), if_pos hlen]
    · obtain ⟨hsize, hj, hone, k', hup, hint'⟩ := level_ints hash hlen hL hint
      have hhalf := length_up (h := pairHash hash) L
      have hnext : ((L.length : Int) + 1) / 2 = (MerkleTree.up (pairHash hash) L).length := by omega
      have hsib := List.getElem?_eq_getElem (sibling_lt (Nat.lt_of_not_le hlen) i)
      have hnode := nodeAt_append (P := P) (U := MerkleTree.up (pairHash hash) L ++
        above (pairHash hash) fuel (MerkleTree.up (pairHash hash) L)) hsib (by omega)
      have hrest := ih (i := i / 2) (by omega) hup hint'
      rw [List.append_assoc (P ++ L)] at hrest
      rw [if_pos (by omega), if_neg hlen, if_neg hlen, hsib, xorOne_eq (by omega)]
      simp only [hnode, Option.bind_eq_bind, Option.bind_some, hj, hone, hnext]
      rw [show ((i : Int) / 2) = ((i / 2 : Nat) : Int) from rfl, hrest]
      rfl

theorem hashBranch_eq (a : UInt256) (bs : List UInt256) (i : Nat) :
    hashBranch hash a bs i = climb (pairHash hash) a bs i := by
  induction bs generalizing a i with
  | nil => rfl
  | cons b bs ih =>
    rw [hashBranch, climb, show ((i : Int) / 2) = ((i / 2 : Nat) : Int) from rfl, ih]
    congr 1
    by_cases hodd : i % 2 = 1
    · rw [if_pos hodd, if_pos (by omega)]
      rfl
    · rw [if_neg hodd, if_neg (by omega)]
      rfl

section

variable {block : CBlock}

theorem getMerkleBranch_eq (hvtx : block.vtx ≠ []) (hn : block.vtx.length ≤ 2 ^ 30) (i : Nat) :
    block.getMerkleBranch hash (merkleTree hash (block.txids hash)) i =
      some (branch (pairHash hash) (block.txids hash).length (block.txids hash) i) := by
  have hlen : (block.txids hash).length = block.vtx.length := length_txids block
  have hbranch := @branchFrom_eq hash 30 _ i [] (block.txids hash) le_rfl (hlen ▸ hn) le_rfl
  have hempty : (merkleTree hash (block.txids hash)).isEmpty = false := by
    rw [List.isEmpty_eq_false_iff]
    refine List.append_ne_nil_of_left_ne_nil (List.ne_nil_of_length_pos ?_) _
    exact hlen ▸ List.length_pos_iff.mpr hvtx
  rw [CBlock.getMerkleBranch, hempty, intSize_eq (by omega), if_neg Bool.false_ne_true, ← hlen]
  exact hbranch

theorem checkMerkleBranch_root {i : Nat} {txid : UInt256} (htxid : (block.txids hash)[i]? = some txid) :
    checkMerkleBranch hash txid
        (branch (pairHash hash) (block.txids hash).length (block.txids hash) i) i =
      merkleRoot (merkleTree hash (block.txids hash)) := by
  rw [checkMerkleBranch, if_neg (by omega), hashBranch_eq, merkleRoot_tree,
    climb_branch le_rfl htxid]
  rfl

theorem calcHash_root (hvtx : block.vtx ≠ []) (hn : block.vtx.length ≤ 2 ^ 31) :
    ∃ nHeight, calcHeight (UInt32.ofNat block.vtx.length) = some nHeight ∧
      calcHash hash (UInt32.ofNat block.vtx.length) (block.txids hash) nHeight 0 =
        some (merkleRoot (merkleTree hash (block.txids hash))) := by
  have hlen : (block.txids hash).length = block.vtx.length := length_txids block
  have hof : (UInt32.ofNat block.vtx.length).toNat = block.vtx.length :=
    UInt32.toNat_ofNat_of_lt' (by rw [show UInt32.size = 2 ^ 32 from rfl]; omega)
  have hids := hlen.trans hof.symm
  obtain ⟨k, hk, hle, hone, hlt⟩ := calcHeight_level hash hids (by omega)
  have hne : block.txids hash ≠ [] :=
    List.ne_nil_of_length_pos (hlen ▸ List.length_pos_iff.mpr hvtx)
  obtain ⟨r, hr⟩ := exists_root (h := pairHash hash) hne le_rfl
  refine ⟨k, hk, ?_⟩
  rw [calcHash_eq hids (by omega) hle, merkleRoot_tree, hr, Option.getD_some,
    ← List.head?_eq_getElem?, ← root_eq_level le_rfl hone hlt, hr]

end

/-- The branches of a block lead to the root that `BuildMerkleTree` returns, which is the one that
`CalcHash` gives. -/
theorem merkleBranch_verifies {block : CBlock} (hvtx : block.vtx ≠ [])
    (hn : block.vtx.length ≤ 2 ^ 30) : ∃ vMerkleTree mutated,
      block.buildMerkleTree hash = some (vMerkleTree, mutated) ∧
      (∀ (i : Nat) txid, (block.txids hash)[i]? = some txid → ∃ vMerkleBranch,
        block.getMerkleBranch hash vMerkleTree i = some vMerkleBranch ∧
          checkMerkleBranch hash txid vMerkleBranch i = merkleRoot vMerkleTree) ∧
      ∃ nHeight, calcHeight (UInt32.ofNat block.vtx.length) = some nHeight ∧
        calcHash hash (UInt32.ofNat block.vtx.length) (block.txids hash) nHeight 0 =
          some (merkleRoot vMerkleTree) :=
  ⟨_, _, buildVMerkleTree_eq (by rwa [List.length_map]),
    fun i _ htxid => ⟨_, getMerkleBranch_eq hvtx hn i, checkMerkleBranch_root htxid⟩,
    calcHash_root hvtx (hn.trans (by decide))⟩

/-- A block with three transactions, the last of which is its own sibling. -/
theorem merkleBranch_verifies_payments : ∃ vMerkleTree mutated,
    (payments [1, 2, 3]).buildMerkleTree foldHash = some (vMerkleTree, mutated) ∧
    (∀ (i : Nat) txid, ((payments [1, 2, 3]).txids foldHash)[i]? = some txid → ∃ vMerkleBranch,
      (payments [1, 2, 3]).getMerkleBranch foldHash vMerkleTree i = some vMerkleBranch ∧
        checkMerkleBranch foldHash txid vMerkleBranch i = merkleRoot vMerkleTree) ∧
    ∃ nHeight, calcHeight 3 = some nHeight ∧
      calcHash foldHash 3 ((payments [1, 2, 3]).txids foldHash) nHeight 0 =
        some (merkleRoot vMerkleTree) :=
  merkleBranch_verifies (List.cons_ne_nil _ _) (by decide)

/-! ## Too many transactions -/

/-- A hash that tells a pair of hashes from anything else. -/
def pairsHash (s : Bytes) : UInt256 := if s.length = 64 then 1 else 0

/-- A block of `2 ^ 31` transactions without inputs and outputs. -/
def longBlock : CBlock where
  nVersion := 2
  hashPrevBlock := 0
  hashMerkleRoot := 0
  nTime := 0
  nBits := 0
  nNonce := 0
  vtx := List.replicate (2 ^ 31) ⟨1, [], [], 0⟩

theorem longBlock_txids : ∀ txid ∈ longBlock.txids pairsHash, txid = 0 := by
  intro txid htxid
  obtain ⟨tx, htx, rfl⟩ := List.mem_map.mp htxid
  rw [List.eq_of_mem_replicate htx]
  decide

/-- Above the leaves, all hashes are those of pairs. -/
theorem level_pairsHash {l : List UInt256} {height pos : Nat} {r : UInt256}
    (h : (level (pairHash pairsHash) (height + 1) l)[pos]? = some r) : r = 1 := by
  rw [level, getElem?_up] at h
  obtain ⟨left, -, rfl⟩ := Option.map_eq_some_iff.mp h
  rw [pairHash, pairsHash, List.length_append, uint256Bytes, uint256Bytes, length_leBytes,
    length_leBytes]
  rfl

/-- The size of this block is a negative `int`: no level is built, and the last transaction is taken
for the root, but the root is a hash of hashes. -/
theorem merkleBranch_wrapped : longBlock.vtx ≠ [] ∧ ∃ vMerkleTree,
    longBlock.buildMerkleTree pairsHash = some (vMerkleTree, false) ∧
    merkleRoot vMerkleTree = 0 ∧ ∃ nHeight,
      calcHeight (UInt32.ofNat longBlock.vtx.length) = some nHeight ∧
      calcHash pairsHash (UInt32.ofNat longBlock.vtx.length) (longBlock.txids pairsHash) nHeight 0 =
        some 1 := by
  have hlen : longBlock.vtx.length = 2 ^ 31 := List.length_replicate
  have hvtx : longBlock.vtx ≠ [] := List.ne_nil_of_length_pos (by rw [hlen]; exact Nat.two_pow_pos 31)
  have hids := longBlock_txids
  refine ⟨hvtx, longBlock.txids pairsHash, ?_, ?_, ?_⟩
  · have hsize : intSize (2 ^ 31) = -2 ^ 31 := by decide
    show buildVMerkleTree pairsHash (longBlock.txids pairsHash) = _
    rw [buildVMerkleTree, length_txids, hlen, hsize, pushLevels, if_neg (by decide)]
  · rw [merkleRoot, List.getLastD_eq_getLast?]
    cases hlast : (longBlock.txids pairsHash).getLast? with
    | none => rfl
    | some txid => exact hids txid (List.mem_of_getLast? hlast)
  · obtain ⟨k, hk, hcalc⟩ := @calcHash_root pairsHash _ hvtx hlen.le
    obtain ⟨k', hk', hle, hwidth, -⟩ := calcHeight_spec (UInt32.ofNat longBlock.vtx.length)
    rw [hk] at hk'
    cases hk'
    refine ⟨k, hk, ?_⟩
    have hof : (UInt32.ofNat longBlock.vtx.length).toNat = longBlock.vtx.length := by
      rw [hlen]
      rfl
    rw [hcalc]
    rw [calcHash_eq ((length_txids longBlock).trans hof.symm) (by omega) hle] at hcalc
    cases k with
    | zero =>
      rw [hlen] at hwidth
      exact absurd hwidth (by decide)
    | succ k => rw [level_pairsHash hcalc]

end GC
