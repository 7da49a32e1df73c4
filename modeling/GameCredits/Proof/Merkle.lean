import GameCredits.Framework.MerkleTree
import GameCredits.Model.Merkle

/-!
# The merkle tree of a block

The array that `BuildMerkleTree` fills holds the levels of the tree of the general theory, and its flag
is the one there (`buildVMerkleTree_eq`), as long as an `int` holds its size (`buildVMerkleTree_eq_none`).
Two blocks with different transactions and the same root do not both pass the check, and a block without
repeated transactions does (`buildMerkleTree_detects`). The number of transactions itself may be a
negative `int`: then the last of them is taken for the root, and nothing is flagged
(`buildMerkleTree_wrapped`).
-/

namespace GC

open Framework MerkleTree

variable {hash : Bytes → UInt256}

/-- The hash of two nodes. -/
def pairHash (hash : Bytes → UInt256) (left right : UInt256) : UInt256 :=
  hash (uint256Bytes left ++ uint256Bytes right)

/-- The ids of a block's transactions. -/
def CBlock.txids (hash : Bytes → UInt256) (block : CBlock) : List UInt256 :=
  block.vtx.map (CTransaction.getHash hash)

/-- All pairs that `BuildMerkleTree` hashes. -/
def CBlock.merklePairs (hash : Bytes → UInt256) (block : CBlock) : List (UInt256 × UInt256) :=
  allPairs (pairHash hash) (block.txids hash).length (block.txids hash)

theorem length_txids (block : CBlock) : (block.txids hash).length = block.vtx.length :=
  List.length_map ..

/-- The levels of the tree of a list of ids, one after the other. -/
def merkleTree (hash : Bytes → UInt256) (txids : List UInt256) : List UInt256 :=
  txids ++ above (pairHash hash) txids.length txids

theorem merkleRoot_tree (txids : List UInt256) : merkleRoot (merkleTree hash txids) =
    (root (pairHash hash) txids.length txids).getD 0 := by
  rw [← getLast?_above le_rfl, ← List.getLastD_eq_getLast?]
  rfl

/-! ## Integers -/

theorem int_eq_some {n : Int} (h₀ : 0 ≤ n) (h : n < 2 ^ 31) : int n = some n := by
  have hboth : -2 ^ 31 ≤ n ∧ n < 2 ^ 31 := ⟨by omega, h⟩
  unfold int
  exact if_pos hboth

theorem intSize_eq {n : Nat} (h : n < 2 ^ 31) : intSize n = n := by
  unfold intSize
  exact Int.bmod_eq_of_le (by omega) (by omega)

theorem nodeAt_append {P L U : List UInt256} {i : Nat} {a : UInt256} (ha : L[i]? = some a)
    (hint : P.length + L.length < 2 ^ 31) :
    nodeAt (P ++ L ++ U) ((P.length : Int) + i) = some a := by
  obtain ⟨hi, -⟩ := List.getElem?_eq_some_iff.mp ha
  have hk : int ((P.length : Int) + i) = some ((P.length : Int) + i) :=
    int_eq_some (by omega) (by omega)
  rw [nodeAt, hk, Option.bind_eq_bind, Option.bind_some, if_pos (by omega),
    show ((P.length : Int) + i).toNat = P.length + i by omega, List.append_assoc,
    List.getElem?_append_right (by omega), Nat.add_sub_cancel_left, List.getElem?_append_left hi, ha]

/-! ## Building -/

/-- One iteration of the inner loop. -/
theorem pushLevel_step {vMerkleTree : List UInt256} {j nSize i : Int} {left right : UInt256}
    {mutated : Bool} (h₀ : 0 ≤ i) (hi : i < nSize) (hint : nSize + 1 < 2 ^ 31)
    (hleft : nodeAt vMerkleTree (j + i) = some left)
    (hright : nodeAt vMerkleTree (j + min (i + 1) (nSize - 1)) = some right) :
    pushLevel hash j nSize i vMerkleTree mutated =
      pushLevel hash j nSize (i + 2) (vMerkleTree ++ [pairHash hash left right])
        (mutated || (min (i + 1) (nSize - 1) == i + 1 && min (i + 1) (nSize - 1) + 1 == nSize &&
          left == right)) := by
  have h₁ : int (i + 1) = some (i + 1) := int_eq_some (by omega) (by omega)
  have h₂ : int (i + 2) = some (i + 2) := int_eq_some (by omega) (by omega)
  rw [pushLevel, if_pos hi, h₁, h₂, hleft]
  simp only [Option.bind_eq_bind, Option.bind_some, hright]
  rfl

/-- The inner loop appends the level above. -/
theorem pushLevel_eq {P front rest acc : List UInt256} {mutated : Bool}
    (heven : front.length = 2 * acc.length) (hint : P.length + (front ++ rest).length + 1 < 2 ^ 31) :
    pushLevel hash P.length (front ++ rest).length front.length (P ++ (front ++ rest) ++ acc) mutated =
      some (P ++ (front ++ rest) ++ (acc ++ MerkleTree.up (pairHash hash) rest),
        mutated || lastPair rest) := by
  induction rest using pairs.induct generalizing front acc mutated with
  | case1 =>
    rw [pushLevel, List.append_nil, if_neg (lt_irrefl _), MerkleTree.up, pairs, lastPair,
      List.map_nil, List.append_nil, Bool.or_false]
  | case2 a =>
    have hlen : (front ++ [a]).length = front.length + 1 := List.length_append
    have hleft : nodeAt (P ++ (front ++ [a]) ++ acc) ((P.length : Int) + front.length) = some a :=
      nodeAt_append List.getElem?_concat_length (by omega)
    have hmin : min ((front.length : Int) + 1) (((front ++ [a]).length : Int) - 1) = front.length := by
      omega
    rw [pushLevel_step (by omega) (by omega) (by omega) hleft (hmin ▸ hleft), hmin, pushLevel,
      if_neg (by omega), lastPair, beq_eq_false_iff_ne.mpr (by omega), Bool.false_and, Bool.false_and,
      List.append_assoc]
    rfl
  | case3 a b rest ih =>
    have hlen : (front ++ a :: b :: rest).length = front.length + rest.length + 2 := by
      rw [List.length_append, List.length_cons, List.length_cons]
      omega
    have hmin : min ((front.length : Int) + 1) (((front ++ a :: b :: rest).length : Int) - 1) =
        (front.length + 1 : Nat) := by omega
    have hleft : nodeAt (P ++ (front ++ a :: b :: rest) ++ acc) ((P.length : Int) + front.length) =
        some a := nodeAt_append (by rw [List.getElem?_append_right le_rfl, Nat.sub_self]; rfl) (by omega)
    have hright : nodeAt (P ++ (front ++ a :: b :: rest) ++ acc)
        ((P.length : Int) + (front.length + 1 : Nat)) = some b :=
      nodeAt_append (by
        rw [List.getElem?_append_right (Nat.le_succ _), Nat.succ_eq_add_one, Nat.add_sub_cancel_left]
        rfl) (by omega)
    have hfront : front ++ a :: b :: rest = (front ++ [a, b]) ++ rest := by
      rw [List.append_assoc]
      rfl
    have hlen' : (front ++ [a, b]).length = front.length + 2 := List.length_append
    have hacc : (acc ++ [pairHash hash a b]).length = acc.length + 1 := List.length_append
    rw [pushLevel_step (by omega) (by omega) (by omega) hleft (hmin ▸ hright), hmin]
    have hflag : (((front.length + 1 : Nat) : Int) == front.length + 1 &&
        ((front.length + 1 : Nat) : Int) + 1 == (front ++ a :: b :: rest).length && a == b ||
          lastPair rest) = lastPair (a :: b :: rest) := by
      rw [beq_iff_eq.mpr (by omega), Bool.true_and]
      cases rest with
      | nil =>
        rw [beq_iff_eq.mpr (by rw [hlen]; rfl), Bool.true_and, lastPair, lastPair, Bool.or_false]
      | cons c rest =>
        rw [beq_eq_false_iff_ne.mpr (by rw [hlen, List.length_cons]; omega), Bool.false_and,
          Bool.false_or]
        rfl
    have hih := @ih (front ++ [a, b]) (acc ++ [pairHash hash a b])
      (mutated || (((front.length + 1 : Nat) : Int) == front.length + 1 &&
        ((front.length + 1 : Nat) : Int) + 1 == (front ++ a :: b :: rest).length && a == b))
      (by omega) (by rw [← hfront]; exact hint)
    rw [← hfront, hlen', Bool.or_assoc, hflag, List.append_assoc acc, ← List.append_assoc _ acc] at hih
    exact hih

theorem pushLevel_up {P L : List UInt256} (hint : P.length + L.length + 1 < 2 ^ 31)
    (mutated : Bool) : pushLevel hash P.length L.length 0 (P ++ L) mutated =
      some (P ++ L ++ MerkleTree.up (pairHash hash) L, mutated || lastPair L) := by
  have h := @pushLevel_eq hash P [] L [] mutated rfl hint
  rwa [List.nil_append, List.append_nil, List.nil_append] at h

/-! ## The levels -/

variable (hash) in
/-- The sums of an iteration of the outer loop, and the bounds for the next one: the level has at most
`2 ^ k` nodes, and there is room for twice as many. -/
theorem level_ints {k : Nat} {P L : List UInt256} (hlen : ¬ L.length ≤ 1) (hL : L.length ≤ 2 ^ k)
    (hint : P.length + 2 ^ (k + 1) ≤ 2 ^ 31) :
    P.length + L.length + 1 < 2 ^ 31 ∧
    int ((P.length : Int) + L.length) = some ((P ++ L).length : Int) ∧
    int ((L.length : Int) + 1) = some ((L.length : Int) + 1) ∧
    ∃ k', (MerkleTree.up (pairHash hash) L).length ≤ 2 ^ k' ∧
      (P ++ L).length + 2 ^ (k' + 1) ≤ 2 ^ 31 := by
  cases k with
  | zero => exact absurd hL hlen
  | succ k =>
    have hpow : 2 ^ (k + 1 + 1) = 2 ^ (k + 1) + 2 ^ (k + 1) := by rw [Nat.pow_succ _ (k + 1)]; omega
    have hpow' : 2 ^ (k + 1) = 2 * 2 ^ k := Nat.pow_succ'
    have hup := length_up (h := pairHash hash) L
    have happ : (P ++ L).length = P.length + L.length := List.length_append
    refine ⟨by omega, ?_, int_eq_some (by omega) (by omega), k, by omega, by omega⟩
    rw [int_eq_some (by omega) (by omega), happ]
    rfl

/-- The outer loop appends the levels above. -/
theorem pushLevels_eq {k fuel : Nat} {P L : List UInt256} {mutated : Bool} (hfuel : L.length ≤ fuel)
    (hL : L.length ≤ 2 ^ k) (hint : P.length + 2 ^ (k + 1) ≤ 2 ^ 31) :
    pushLevels hash P.length L.length (P ++ L) mutated =
      some (P ++ L ++ above (pairHash hash) fuel L, mutated || MerkleTree.mutated (pairHash hash) fuel L) := by
  induction fuel generalizing k P L mutated with
  | zero =>
    rw [pushLevels, if_neg (by omega), above, MerkleTree.mutated, List.append_nil, Bool.or_false]
  | succ fuel ih =>
    rw [pushLevels, above, MerkleTree.mutated]
    by_cases hlen : L.length ≤ 1
    · rw [if_neg (by omega), if_pos hlen, if_pos hlen, List.append_nil, Bool.or_false]
    · obtain ⟨hsize, hj, hone, k', hup, hint'⟩ := level_ints hash hlen hL hint
      have hhalf := length_up (h := pairHash hash) L
      have hnext : ((L.length : Int) + 1) / 2 = (MerkleTree.up (pairHash hash) L).length := by omega
      rw [if_pos (by omega), if_neg hlen, if_neg hlen, pushLevel_up hsize]
      simp only [Option.bind_eq_bind, Option.bind_some, hj, hone, hnext]
      rw [ih (by omega) hup hint', List.append_assoc (P ++ L), Bool.or_assoc]

/-- The array holds the levels of the tree. -/
theorem buildVMerkleTree_eq {txids : List UInt256} (hn : txids.length ≤ 2 ^ 30) :
    buildVMerkleTree hash txids =
      some (merkleTree hash txids, MerkleTree.mutated (pairHash hash) txids.length txids) := by
  have h := @pushLevels_eq hash 30 _ [] txids false le_rfl hn le_rfl
  rw [List.length_nil, List.nil_append, Bool.false_or] at h
  rw [buildVMerkleTree, intSize_eq (by omega)]
  exact h

/-- An array that is larger than an `int`, whatever is in it. -/
theorem pushLevels_eq_none {k : Nat} {j nSize : Int} {vMerkleTree : List UInt256} {mutated : Bool}
    (h₀ : 0 ≤ j) (hj : 2 ^ 31 ≤ j + 2 ^ (k + 1)) (hn : 2 ^ k < nSize) :
    pushLevels hash j nSize vMerkleTree mutated = none := by
  have hnone : ∀ {n : Int}, 2 ^ 31 ≤ n → int n = none := fun h => if_neg fun hc => by omega
  have hpos : (1 : Int) ≤ 2 ^ k := Int.add_one_le_of_lt (Int.pow_pos (by decide))
  induction k generalizing j nSize vMerkleTree mutated with
  | zero =>
    rw [pushLevels, if_pos (by omega), hnone (by omega)]
    cases pushLevel hash j nSize 0 vMerkleTree mutated with
    | none => rfl
    | some s => rfl
  | succ k ih =>
    have hpow : (2 : Int) ^ (k + 1) = 2 * 2 ^ k := pow_succ' 2 k
    have hpow' : (2 : Int) ^ (k + 1 + 1) = 2 * 2 ^ (k + 1) := pow_succ' 2 (k + 1)
    have hk : (1 : Int) ≤ 2 ^ k := Int.add_one_le_of_lt (Int.pow_pos (by decide))
    rw [pushLevels, if_pos (by omega)]
    cases pushLevel hash j nSize 0 vMerkleTree mutated with
    | none => rfl
    | some s =>
      rw [Option.bind_eq_bind, Option.bind_some]
      by_cases hsum : 2 ^ 31 ≤ j + nSize
      · rw [hnone hsum]
        rfl
      by_cases hone : 2 ^ 31 ≤ nSize + 1
      · rw [int_eq_some (by omega) (by omega), hnone hone]
        rfl
      rw [int_eq_some (by omega) (by omega), int_eq_some (by omega) (by omega)]
      exact ih (by omega) (by omega) (by omega) hk

theorem buildVMerkleTree_eq_none {txids : List UInt256} (hn : 2 ^ 30 < txids.length)
    (hint : txids.length < 2 ^ 31) : buildVMerkleTree hash txids = none := by
  rw [buildVMerkleTree, intSize_eq hint]
  exact @pushLevels_eq_none _ 30 _ _ _ _ le_rfl le_rfl (by omega)

/-! ## Mutation -/

/-- Blocks with the same root and different transactions are not both free of the flag, and the flag
is not set for transactions that all differ. -/
theorem buildMerkleTree_detects (block block' : CBlock)
    (hinj : NoCollision (pairHash hash) (block.merklePairs hash ++ block'.merklePairs hash))
    (hid : ∀ id ∈ block.txids hash ++ block'.txids hash,
      ∀ p ∈ block.merklePairs hash ++ block'.merklePairs hash, id ≠ pairHash hash p.1 p.2)
    (hvtx : block.vtx ≠ []) (hvtx' : block'.vtx ≠ []) (hn : block.vtx.length ≤ 2 ^ 30)
    (hn' : block'.vtx.length ≤ 2 ^ 30) :
    ∃ vMerkleTree fMutated vMerkleTree' fMutated',
      block.buildMerkleTree hash = some (vMerkleTree, fMutated) ∧
      block'.buildMerkleTree hash = some (vMerkleTree', fMutated') ∧
      (block.txids hash ≠ block'.txids hash → merkleRoot vMerkleTree = merkleRoot vMerkleTree' →
        fMutated = true ∨ fMutated' = true) ∧
      ((block.txids hash).Nodup → fMutated = false) := by
  have hne : block.txids hash ≠ [] := fun h => hvtx (List.map_eq_nil_iff.mp h)
  have hne' : block'.txids hash ≠ [] := fun h => hvtx' (List.map_eq_nil_iff.mp h)
  refine ⟨_, _, _, _, buildVMerkleTree_eq (by rwa [List.length_map]),
    buildVMerkleTree_eq (by rwa [List.length_map]), ?_, ?_⟩
  · intro hids hroot
    obtain ⟨r, hr⟩ := exists_root (h := pairHash hash) hne le_rfl
    obtain ⟨r', hr'⟩ := exists_root (h := pairHash hash) hne' le_rfl
    have hroot : merkleRoot (merkleTree hash (block.txids hash)) =
        merkleRoot (merkleTree hash (block'.txids hash)) := hroot
    rw [merkleRoot_tree, merkleRoot_tree, hr, hr', Option.getD_some, Option.getD_some] at hroot
    exact mutated_of_root_eq hinj hid hne hne' le_rfl le_rfl (hr.trans (hroot ▸ hr'.symm)) hids
  · intro hnodup
    refine mutated_of_nodup (fun p hp q hq => ?_) hnodup
    exact hinj p (List.mem_append_left _ hp) q (List.mem_append_left _ hq)

/-- The number that the bytes encode modulo a prime. -/
def foldHash (s : Bytes) : UInt256 :=
  Fin.ofNat _ (leNat s % (2 ^ 255 - 19))

/-- A block whose transactions pay the given amounts. -/
def payments (values : List Int) : CBlock where
  nVersion := 2
  hashPrevBlock := 0
  hashMerkleRoot := 0
  nTime := 0
  nBits := 0
  nNonce := 0
  vtx := values.map fun nValue => ⟨1, [], [⟨nValue, []⟩], 0⟩

/-- Three transactions, and the same with the last one repeated. -/
theorem payments_detects : ∃ vMerkleTree fMutated vMerkleTree' fMutated',
    (payments [1, 2, 3]).buildMerkleTree foldHash = some (vMerkleTree, fMutated) ∧
    (payments [1, 2, 3, 3]).buildMerkleTree foldHash = some (vMerkleTree', fMutated') ∧
    ((payments [1, 2, 3]).txids foldHash ≠ (payments [1, 2, 3, 3]).txids foldHash →
      merkleRoot vMerkleTree = merkleRoot vMerkleTree' → fMutated = true ∨ fMutated' = true) ∧
    (((payments [1, 2, 3]).txids foldHash).Nodup → fMutated = false) := by
  have hid : (((payments [1, 2, 3]).txids foldHash ++
      (payments [1, 2, 3, 3]).txids foldHash).all fun id =>
        ((payments [1, 2, 3]).merklePairs foldHash ++
          (payments [1, 2, 3, 3]).merklePairs foldHash).all fun p =>
            id != pairHash foldHash p.1 p.2) = true := by decide +kernel
  simp only [List.all_eq_true, bne_iff_ne] at hid
  exact buildMerkleTree_detects (payments [1, 2, 3]) (payments [1, 2, 3, 3])
    (by decide +kernel) hid (by decide +kernel) (by decide +kernel) (by decide) (by decide)

example : ((payments [1, 2, 3]).buildMerkleTree foldHash).map (merkleRoot ·.1) =
    ((payments [1, 2, 3, 3]).buildMerkleTree foldHash).map (merkleRoot ·.1) := by decide +kernel

/-! ## Too many transactions -/

/-- A hash that counts: that of a pair is two more than its left element, that of anything else says
whether it begins with 2. -/
def countHash (s : Bytes) : UInt256 :=
  if s.length = 64 then Fin.ofNat _ (leNat (s.take 32) + 2) else if s.head? = some 2 then 1 else 0

theorem pairHash_count (left right : UInt256) :
    pairHash countHash left right = Fin.ofNat _ (left.val + 2) := by
  have hlen (a : UInt256) : (uint256Bytes a).length = 32 := length_leBytes 32 a.val
  have hleft : leNat (uint256Bytes left) = left.val :=
    (leNat_leBytes 32 left.val).trans (Nat.mod_eq_of_lt left.isLt)
  rw [pairHash, countHash, if_pos (by rw [List.length_append, hlen, hlen]),
    List.take_left' (hlen left), hleft]

/-- A level `k` steps above the leaves: all are `2 * k`, except perhaps the first. -/
def CountLevel (k : Nat) (l : List UInt256) : Prop :=
  (∀ a ∈ l, a.val / 2 = k) ∧ ∀ a ∈ l.tail, a.val % 2 = 0

/-- A pair that the hash tells from the others. -/
def CountPair (p : UInt256 × UInt256) : Prop := p.2.val = p.1.val / 2 * 2 ∧ p.1.val + 2 < 2 ^ 256

theorem CountLevel.up {k : Nat} {l : List UInt256} (h : CountLevel k l) (hlen : ¬ l.length ≤ 1)
    (hk : k + 1 < 2 ^ 255) :
    (∀ p ∈ pairs l, CountPair p) ∧ CountLevel (k + 1) (MerkleTree.up (pairHash countHash) l) := by
  obtain ⟨hall, htail⟩ := h
  rcases l with _ | ⟨a, _ | ⟨b, l⟩⟩
  · exact absurd (Nat.zero_le _) hlen
  · exact absurd le_rfl hlen
  have hmem {p : UInt256 × UInt256} (hp : p ∈ pairs l) : p.1.val = 2 * k ∧ p.2.val = 2 * k := by
    obtain ⟨h₁, h₂⟩ := mem_of_mem_pairs hp
    have e₁ := htail _ (List.mem_cons_of_mem _ h₁)
    have e₂ := htail _ (List.mem_cons_of_mem _ h₂)
    have d₁ := hall _ (List.mem_cons_of_mem _ (List.mem_cons_of_mem _ h₁))
    have d₂ := hall _ (List.mem_cons_of_mem _ (List.mem_cons_of_mem _ h₂))
    omega
  have ha := hall a List.mem_cons_self
  have hb := hall b (List.mem_cons_of_mem _ List.mem_cons_self)
  have hb' := htail b List.mem_cons_self
  have hval {c d : UInt256} (hc : c.val / 2 = k) : (pairHash countHash c d).val = c.val + 2 := by
    rw [pairHash_count, Fin.val_ofNat, Nat.mod_eq_of_lt (by omega)]
  refine ⟨fun p hp => ?_, fun c hc => ?_, fun c hc => ?_⟩
  · rcases List.mem_cons.mp hp with rfl | hp
    · exact ⟨by show b.val = a.val / 2 * 2; omega, by show a.val + 2 < _; omega⟩
    · have := hmem hp
      exact ⟨by omega, by omega⟩
  · obtain ⟨p, hp, rfl⟩ := List.mem_map.mp hc
    have hleft : p.1.val / 2 = k := by
      rcases List.mem_cons.mp hp with rfl | hp
      · exact ha
      · have := hmem hp
        omega
    rw [hval hleft]
    omega
  · obtain ⟨p, hp, rfl⟩ := List.mem_map.mp hc
    have := hmem hp
    rw [hval (by omega)]
    omega

theorem CountLevel.allPairs {fuel k : Nat} {l : List UInt256} (h : CountLevel k l)
    (hk : k + fuel < 2 ^ 255) : ∀ p ∈ allPairs (pairHash countHash) fuel l, CountPair p := by
  induction fuel generalizing k l with
  | zero => exact fun p hp => by cases hp
  | succ fuel ih =>
    intro p hp
    rw [MerkleTree.allPairs] at hp
    split_ifs at hp with hlen
    · cases hp
    · obtain ⟨hpairs, hup⟩ := h.up hlen (by omega)
      rcases List.mem_append.mp hp with hp | hp
      · exact hpairs p hp
      · exact ih hup (by omega) p hp

/-- A block of `2 ^ 31` transactions, all but the first the same. -/
def repeatedBlock (nVersion : Int) : CBlock where
  nVersion := 2
  hashPrevBlock := 0
  hashMerkleRoot := 0
  nTime := 0
  nBits := 0
  nNonce := 0
  vtx := ⟨nVersion, [], [], 0⟩ :: List.replicate (2 ^ 31 - 1) ⟨1, [], [], 0⟩

theorem repeatedBlock_txids (nVersion : Int) : (repeatedBlock nVersion).txids countHash =
    countHash (CTransaction.bytes ⟨nVersion, [], [], 0⟩) :: List.replicate (2 ^ 31 - 1) 0 := by
  rw [CBlock.txids, repeatedBlock, List.map_cons, List.map_replicate]
  rfl

theorem length_repeatedBlock (nVersion : Int) :
    ((repeatedBlock nVersion).txids countHash).length = 2 ^ 31 := by
  rw [repeatedBlock_txids, List.length_cons, List.length_replicate, Nat.sub_add_cancel (Nat.two_pow_pos 31)]

theorem repeatedBlock_level {nVersion : Int}
    (h : (countHash (CTransaction.bytes ⟨nVersion, [], [], 0⟩)).val < 2) :
    CountLevel 0 ((repeatedBlock nVersion).txids countHash) := by
  rw [repeatedBlock_txids]
  refine ⟨fun a ha => ?_, fun a ha => ?_⟩
  · rcases List.mem_cons.mp ha with rfl | ha
    · omega
    · rw [List.eq_of_mem_replicate ha]
      rfl
  · rw [List.tail_cons] at ha
    rw [List.eq_of_mem_replicate ha]
    rfl

/-- The size of this block is a negative `int`: no level is built, and nothing is flagged. -/
theorem repeatedBlock_built (nVersion : Int) : ∃ vMerkleTree,
    (repeatedBlock nVersion).buildMerkleTree countHash = some (vMerkleTree, false) ∧
      merkleRoot vMerkleTree = 0 := by
  refine ⟨(repeatedBlock nVersion).txids countHash, ?_, ?_⟩
  · have hsize : intSize (2 ^ 31) = -2 ^ 31 := by decide
    show buildVMerkleTree countHash ((repeatedBlock nVersion).txids countHash) = _
    rw [buildVMerkleTree, length_repeatedBlock, hsize, pushLevels, if_neg (by decide)]
  · rw [merkleRoot, List.getLastD_eq_getLast?, repeatedBlock_txids, List.getLast?_cons,
      List.getLast?_replicate, if_neg (by decide)]
    rfl

/-- Two lists of `2 ^ 31` transactions have the last one for their root, and neither is flagged. -/
theorem buildMerkleTree_wrapped : ∃ (hash : Bytes → UInt256) (block block' : CBlock),
    NoCollision (pairHash hash) (block.merklePairs hash ++ block'.merklePairs hash) ∧
    (∀ id ∈ block.txids hash ++ block'.txids hash,
      ∀ p ∈ block.merklePairs hash ++ block'.merklePairs hash, id ≠ pairHash hash p.1 p.2) ∧
    block.vtx ≠ [] ∧ block'.vtx ≠ [] ∧ block.txids hash ≠ block'.txids hash ∧
    ∃ vMerkleTree vMerkleTree', block.buildMerkleTree hash = some (vMerkleTree, false) ∧
      block'.buildMerkleTree hash = some (vMerkleTree', false) ∧
      merkleRoot vMerkleTree = merkleRoot vMerkleTree' := by
  have hlevel₁ : CountLevel 0 ((repeatedBlock 1).txids countHash) := repeatedBlock_level (by decide)
  have hlevel₂ : CountLevel 0 ((repeatedBlock 2).txids countHash) := repeatedBlock_level (by decide)
  have hpairs : ∀ p ∈ (repeatedBlock 1).merklePairs countHash ++
      (repeatedBlock 2).merklePairs countHash, CountPair p := fun p hp => by
    rcases List.mem_append.mp hp with hp | hp
    · exact hlevel₁.allPairs (by rw [length_repeatedBlock]; decide) p hp
    · exact hlevel₂.allPairs (by rw [length_repeatedBlock]; decide) p hp
  have hval : ∀ p, CountPair p → (pairHash countHash p.1 p.2).val = p.1.val + 2 := fun p hp => by
    rw [pairHash_count, Fin.val_ofNat, Nat.mod_eq_of_lt hp.2]
  obtain ⟨v₁, h₁, hroot₁⟩ := repeatedBlock_built 1
  obtain ⟨v₂, h₂, hroot₂⟩ := repeatedBlock_built 2
  refine ⟨countHash, repeatedBlock 1, repeatedBlock 2, fun p hp q hq heq => ?_,
    fun id hid p hp heq => ?_, List.cons_ne_nil _ _, List.cons_ne_nil _ _, fun h => ?_,
    v₁, v₂, h₁, h₂, hroot₁.trans hroot₂.symm⟩
  · have hfirst := congrArg Fin.val heq
    rw [hval p (hpairs p hp), hval q (hpairs q hq)] at hfirst
    have hp2 := (hpairs p hp).1
    have hq2 := (hpairs q hq).1
    exact Prod.ext (Fin.ext (by omega)) (Fin.ext (by omega))
  · have hid : id.val / 2 = 0 := by
      rcases List.mem_append.mp hid with hid | hid
      · exact hlevel₁.1 id hid
      · exact hlevel₂.1 id hid
    have hbig := hval p (hpairs p hp)
    rw [← heq] at hbig
    omega
  · rw [repeatedBlock_txids, repeatedBlock_txids] at h
    exact absurd (List.cons.inj h).1 (by decide)

end GC
