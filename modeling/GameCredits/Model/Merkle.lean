import GameCredits.Model.Transaction

/-!
# Merkle trees in an array (primitives/block.cpp)

`BuildMerkleTree`, `GetMerkleBranch` and `CheckMerkleBranch` with the `int`s that they count with. The
levels of the tree are in `vMerkleTree` one after the other, that from `j` on has `nSize` nodes.
Overflow of an `int` and an index outside of the array are undefined: the result is `none`.
-/

namespace GC

open Framework (Bytes)

/-- The value of an `int` expression. -/
def int (n : Int) : Option Int := if -2 ^ 31 ≤ n ∧ n < 2 ^ 31 then some n else none

/-- `int nSize = vtx.size()`. -/
def intSize (n : Nat) : Int := (n : Int).bmod (2 ^ 32)

/-- `n ^ 1`. -/
def xorOne (n : Int) : Int := if n % 2 = 0 then n + 1 else n - 1

/-- `vMerkleTree[k]`. -/
def nodeAt (vMerkleTree : List UInt256) (k : Int) : Option UInt256 := do
  let k ← int k
  if 0 ≤ k then vMerkleTree[k.toNat]? else none

/-- The root that `BuildMerkleTree` returns. -/
def merkleRoot (vMerkleTree : List UInt256) : UInt256 := vMerkleTree.getLastD 0

section Hash

variable (hash : Bytes → UInt256)

/-- The inner loop of `BuildMerkleTree`, on `vMerkleTree` and `mutated`. -/
def pushLevel (j nSize i : Int) (vMerkleTree : List UInt256) (mutated : Bool) :
    Option (List UInt256 × Bool) :=
  if i < nSize then do
    let i1 ← int (i + 1)
    let i2 := min i1 (nSize - 1)
    let left ← nodeAt vMerkleTree (j + i)
    let right ← nodeAt vMerkleTree (j + i2)
    let _ ← int (i + 2)
    pushLevel j nSize (i + 2) (vMerkleTree ++ [hash (uint256Bytes left ++ uint256Bytes right)])
      (mutated || (i2 == i + 1 && i2 + 1 == nSize && left == right))
  else some (vMerkleTree, mutated)
termination_by (nSize - i).toNat

/-- The outer loop of `BuildMerkleTree`. -/
def pushLevels (j nSize : Int) (vMerkleTree : List UInt256) (mutated : Bool) :
    Option (List UInt256 × Bool) :=
  if 1 < nSize then do
    let (vMerkleTree, mutated) ← pushLevel hash j nSize 0 vMerkleTree mutated
    let j ← int (j + nSize)
    let _ ← int (nSize + 1)
    pushLevels j ((nSize + 1) / 2) vMerkleTree mutated
  else some (vMerkleTree, mutated)
termination_by nSize.toNat

/-- `BuildMerkleTree` on the ids of the transactions: `vMerkleTree` and `mutated`. -/
def buildVMerkleTree (txids : List UInt256) : Option (List UInt256 × Bool) :=
  pushLevels hash 0 (intSize txids.length) txids false

/-- `CBlock::BuildMerkleTree`. -/
def CBlock.buildMerkleTree (block : CBlock) : Option (List UInt256 × Bool) :=
  buildVMerkleTree hash (block.vtx.map (CTransaction.getHash hash))

/-- The loop of `GetMerkleBranch`. -/
def branchFrom (vMerkleTree : List UInt256) (j nSize nIndex : Int) : Option (List UInt256) :=
  if 1 < nSize then do
    let i := min (xorOne nIndex) (nSize - 1)
    let node ← nodeAt vMerkleTree (j + i)
    let j ← int (j + nSize)
    let _ ← int (nSize + 1)
    let vMerkleBranch ← branchFrom vMerkleTree j ((nSize + 1) / 2) (nIndex / 2)
    return node :: vMerkleBranch
  else some []
termination_by nSize.toNat

/-- `CBlock::GetMerkleBranch`. -/
def CBlock.getMerkleBranch (block : CBlock) (vMerkleTree : List UInt256) (nIndex : Int) :
    Option (List UInt256) := do
  let vMerkleTree ←
    if vMerkleTree.isEmpty then (block.buildMerkleTree hash).map Prod.fst else some vMerkleTree
  branchFrom vMerkleTree 0 (intSize block.vtx.length) nIndex

/-- The loop of `CheckMerkleBranch`. -/
def hashBranch (node : UInt256) : (vMerkleBranch : List UInt256) → (nIndex : Int) → UInt256
  | [], _ => node
  | it :: vMerkleBranch, nIndex =>
    hashBranch
      (if nIndex % 2 = 1 then hash (uint256Bytes it ++ uint256Bytes node)
        else hash (uint256Bytes node ++ uint256Bytes it))
      vMerkleBranch (nIndex / 2)

/-- `CBlock::CheckMerkleBranch`. -/
def checkMerkleBranch (node : UInt256) (vMerkleBranch : List UInt256) (nIndex : Int) : UInt256 :=
  if nIndex = -1 then 0 else hashBranch hash node vMerkleBranch nIndex

end Hash

end GC
