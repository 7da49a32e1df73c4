import GameCredits.Model.Validation

/-!
# Partial merkle trees (merkleblock.h, merkleblock.cpp)

`CPartialMerkleTree`: its construction from the ids of a block and a mask, `ExtractMatches`, and its
encoding, in which eight flag bits share a byte. A read outside of a vector is `none`.
-/

namespace GC

open Framework

structure CPartialMerkleTree where
  nTransactions : UInt32
  vBits : List Bool
  vHash : List UInt256
  fBad : Bool
  deriving DecidableEq, Repr

/-- `CalcTreeWidth`: the number of nodes at a height. -/
def calcTreeWidth (nTransactions : UInt32) (height : Nat) : Nat :=
  ((nTransactions.toNat + 2 ^ height - 1) % 2 ^ 32) >>> height

/-- The loop that calculates the height of the tree; it must end before the shift by the height is
undefined. -/
def calcHeightFrom (nTransactions : UInt32) : (steps nHeight : Nat) → Option Nat
  | 0, _ => none
  | steps + 1, nHeight =>
    if 1 < calcTreeWidth nTransactions nHeight then
      calcHeightFrom nTransactions steps (nHeight + 1)
    else some nHeight

def calcHeight (nTransactions : UInt32) : Option Nat := calcHeightFrom nTransactions 32 0

section Hash

variable (hash : Bytes → UInt256)

/-- `CalcHash`. -/
def calcHash (nTransactions : UInt32) (vTxid : List UInt256) : (height pos : Nat) → Option UInt256
  | 0, pos => vTxid[pos]?
  | height + 1, pos => do
    let left ← calcHash nTransactions vTxid height (pos * 2)
    let right ←
      if pos * 2 + 1 < calcTreeWidth nTransactions height then
        calcHash nTransactions vTxid height (pos * 2 + 1)
      else pure left
    return hash (uint256Bytes left ++ uint256Bytes right)

/-- The loop of `TraverseAndBuild`: whether a transaction below the node is matched. -/
def parentOfMatch (nTransactions : UInt32) (vMatch : List Bool) (height pos : Nat) : Option Bool :=
  let last := min ((pos + 1) <<< height) nTransactions.toNat
  (List.range' (pos <<< height) (last - pos <<< height)).foldlM
    (fun fParentOfMatch p => vMatch[p]?.map (fParentOfMatch || ·)) false

/-- `TraverseAndBuild`: the bits and the hashes that it appends. -/
def traverseAndBuild (nTransactions : UInt32) (vTxid : List UInt256) (vMatch : List Bool) :
    (height pos : Nat) → Option (List Bool × List UInt256)
  | 0, pos => do
    let fParentOfMatch ← parentOfMatch nTransactions vMatch 0 pos
    let h ← calcHash hash nTransactions vTxid 0 pos
    return ([fParentOfMatch], [h])
  | height + 1, pos => do
    let fParentOfMatch ← parentOfMatch nTransactions vMatch (height + 1) pos
    if !fParentOfMatch then
      let h ← calcHash hash nTransactions vTxid (height + 1) pos
      return ([fParentOfMatch], [h])
    else
      let left ← traverseAndBuild nTransactions vTxid vMatch height (pos * 2)
      let right ←
        if pos * 2 + 1 < calcTreeWidth nTransactions height then
          traverseAndBuild nTransactions vTxid vMatch height (pos * 2 + 1)
        else pure ([], [])
      return (fParentOfMatch :: (left.1 ++ right.1), left.2 ++ right.2)

/-- `CPartialMerkleTree::CPartialMerkleTree`. -/
def CPartialMerkleTree.ofMatches (vTxid : List UInt256) (vMatch : List Bool) :
    Option CPartialMerkleTree := do
  let nTransactions := UInt32.ofNat vTxid.length
  let nHeight ← calcHeight nTransactions
  let (vBits, vHash) ← traverseAndBuild hash nTransactions vTxid vMatch nHeight 0
  return ⟨nTransactions, vBits, vHash, false⟩

/-- What the references of `TraverseAndExtract` and `fBad` hold. -/
structure Extraction where
  nBitsUsed : Nat
  nHashUsed : Nat
  vMatch : List UInt256
  fBad : Bool
  deriving DecidableEq, Repr

namespace CPartialMerkleTree

variable (t : CPartialMerkleTree)

/-- The next flag bit, unless they are overflowed. -/
def nextBit (s : Extraction) : Option (Option Bool × Extraction) :=
  if t.vBits.length ≤ s.nBitsUsed then some (none, { s with fBad := true })
  else do
    let fParentOfMatch ← t.vBits[s.nBitsUsed]?
    return (some fParentOfMatch, { s with nBitsUsed := s.nBitsUsed + 1 })

/-- A node that is not descended into: its hash is stored. -/
def storedHash (isMatch : Bool) (s : Extraction) : Option (UInt256 × Extraction) :=
  if t.vHash.length ≤ s.nHashUsed then some (0, { s with fBad := true })
  else do
    let h ← t.vHash[s.nHashUsed]?
    let s := { s with nHashUsed := s.nHashUsed + 1 }
    return (h, if isMatch then { s with vMatch := s.vMatch ++ [h] } else s)

/-- `TraverseAndExtract`. -/
def traverseAndExtract : (height pos : Nat) → Extraction → Option (UInt256 × Extraction)
  | 0, _, s => do
    match ← t.nextBit s with
    | (none, s) => return (0, s)
    | (some fParentOfMatch, s) => t.storedHash fParentOfMatch s
  | height + 1, pos, s => do
    match ← t.nextBit s with
    | (none, s) => return (0, s)
    | (some false, s) => t.storedHash false s
    | (some true, s) =>
      let (left, s) ← traverseAndExtract height (pos * 2) s
      if pos * 2 + 1 < calcTreeWidth t.nTransactions height then
        let (right, s) ← traverseAndExtract height (pos * 2 + 1) s
        return (hash (uint256Bytes left ++ uint256Bytes right),
          if right = left then { s with fBad := true } else s)
      else
        return (hash (uint256Bytes left ++ uint256Bytes left), s)

/-- `ExtractMatches` once the fields have been checked; the tree keeps `fBad`. -/
def traverse : Option (UInt256 × Extraction) := do
  let nHeight ← calcHeight t.nTransactions
  let (hashMerkleRoot, s) ← traverseAndExtract hash t nHeight 0 ⟨0, 0, [], t.fBad⟩
  if s.fBad then return (0, s)
  if (s.nBitsUsed + 7) / 8 ≠ (t.vBits.length + 7) / 8 then return (0, s)
  if s.nHashUsed ≠ t.vHash.length then return (0, s)
  return (hashMerkleRoot, s)

/-- `ExtractMatches`: the merkle root, or 0 in case of failure, and what the traversal left. -/
def extractMatches : Option (UInt256 × Extraction) :=
  if t.nTransactions = 0 then some (0, ⟨0, 0, [], t.fBad⟩)
  else if MAX_BLOCK_SIZE / 60 < t.nTransactions.toNat then some (0, ⟨0, 0, [], t.fBad⟩)
  else if t.nTransactions.toNat < t.vHash.length then some (0, ⟨0, 0, [], t.fBad⟩)
  else if t.vBits.length < t.vHash.length then some (0, ⟨0, 0, [], t.fBad⟩)
  else traverse hash t

end CPartialMerkleTree

end Hash

/-! ## Encoding -/

/-- `vBytes[p / 8] |= bit << (p % 8)`. -/
def orBit (vBytes : Bytes) (p : Nat) (bit : Bool) : Bytes :=
  vBytes.modify (p / 8) (· ||| UInt8.ofNat (bit.toNat <<< (p % 8)))

/-- The loop that stores the bits from position `p` on. -/
def packFrom (vBytes : Bytes) (p : Nat) : List Bool → Bytes
  | [] => vBytes
  | bit :: vBits => packFrom (orBit vBytes p bit) (p + 1) vBits

/-- The bytes that hold the flag bits. -/
def packBits (vBits : List Bool) : Bytes :=
  packFrom (List.replicate ((vBits.length + 7) / 8) 0) 0 vBits

/-- `(vBytes[p / 8] & (1 << (p % 8))) != 0`. -/
def testBit (vBytes : Bytes) (p : Nat) : Bool :=
  vBytes.getD (p / 8) 0 &&& UInt8.ofNat (1 <<< (p % 8)) != 0

/-- The flag bits that the bytes hold. -/
def unpackBits (vBytes : Bytes) : List Bool :=
  (List.range (vBytes.length * 8)).map (testBit vBytes)

def readUInt256 : Get UInt256 := do
  let n ← getLE 32
  return Fin.ofNat _ n

/-- `CPartialMerkleTree::SerializationOp` for writing. -/
def CPartialMerkleTree.bytes (t : CPartialMerkleTree) : Bytes :=
  uint32Bytes t.nTransactions ++ vectorBytes uint256Bytes t.vHash ++
    vectorBytes (fun b => [b]) (packBits t.vBits)

/-- `CPartialMerkleTree::SerializationOp` for reading. -/
def readPartialMerkleTree : Get CPartialMerkleTree := do
  let nTransactions ← getLE 4
  let vHash ← readVector readUInt256
  let vBytes ← readVector getByte
  return ⟨UInt32.ofNat nTransactions, unpackBits vBytes, vHash, false⟩

end GC
