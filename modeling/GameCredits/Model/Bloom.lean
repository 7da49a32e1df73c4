import GameCredits.Model.Sign

/-!
# Bloom filters (bloom.h, bloom.cpp)

`CBloomFilter` with the outputs that `IsRelevantAndUpdate` adds, and `CRollingBloomFilter` over two
filters. A function returns `none` where the source would divide by zero or leave `vData`. The hash
functions are parameters, and so are the sizes that the constructors compute with floating-point
numbers.
-/

namespace GC

open Framework

def BLOOM_UPDATE_ALL : UInt8 := 1
def BLOOM_UPDATE_P2PUBKEY_ONLY : UInt8 := 2
def BLOOM_UPDATE_MASK : UInt8 := 3

structure CBloomFilter where
  vData : Bytes
  isFull : Bool
  isEmpty : Bool
  nHashFuncs : UInt32
  nTweak : UInt32
  nFlags : UInt8
deriving DecidableEq

namespace CBloomFilter

/-- The constructor that `CRollingBloomFilter` uses, for a size and a number of hash functions. -/
def forRolling (size : Nat) (nHashFuncs nTweak : UInt32) : CBloomFilter where
  vData := List.replicate size 0
  isFull := false
  isEmpty := true
  nHashFuncs := nHashFuncs
  nTweak := nTweak
  nFlags := 0

/-- `clear`. -/
def clear (f : CBloomFilter) : CBloomFilter :=
  { f with vData := List.replicate f.vData.length 0, isFull := false, isEmpty := true }

/-- `UpdateEmptyFull`. -/
def updateEmptyFull (f : CBloomFilter) : CBloomFilter :=
  { f with isFull := f.vData.all (· == 0xFF), isEmpty := f.vData.all (· == 0) }

section Hash

variable (murmurHash3 : UInt32 → Bytes → UInt32)

/-- `Hash`; `none` for the modulus zero. -/
def hashOf (f : CBloomFilter) (nHashNum : UInt32) (vDataToHash : Bytes) : Option Nat :=
  if f.vData.length * 8 = 0 then none
  else some ((murmurHash3 (nHashNum * 0xFBA4C795 + f.nTweak) vDataToHash).toNat %
    (f.vData.length * 8))

/-- `1 << (7 & nIndex)`. -/
def bitOf (nIndex : Nat) : UInt8 := 1 <<< UInt8.ofNat (7 &&& nIndex)

/-- The loop of `insert` over the hash functions from `i` on, `left` of them. -/
def insertLoop (vKey : Bytes) : (left : Nat) → (i : UInt32) → CBloomFilter → Option CBloomFilter
  | 0, _, f => some f
  | left + 1, i, f => do
    let nIndex ← f.hashOf murmurHash3 i vKey
    let byte ← f.vData[nIndex >>> 3]?
    insertLoop vKey left (i + 1) { f with vData := f.vData.set (nIndex >>> 3) (byte ||| bitOf nIndex) }

/-- `insert`. -/
def insert (f : CBloomFilter) (vKey : Bytes) : Option CBloomFilter :=
  if f.isFull then some f
  else do
    let f ← insertLoop murmurHash3 vKey f.nHashFuncs.toNat 0 f
    return { f with isEmpty := false }

/-- The loop of `contains` over the hash functions from `i` on, `left` of them. -/
def containsLoop (f : CBloomFilter) (vKey : Bytes) : (left : Nat) → (i : UInt32) → Option Bool
  | 0, _ => some true
  | left + 1, i => do
    let nIndex ← f.hashOf murmurHash3 i vKey
    let byte ← f.vData[nIndex >>> 3]?
    if byte &&& bitOf nIndex = 0 then return false
    else containsLoop f vKey left (i + 1)

/-- `contains`. -/
def contains (f : CBloomFilter) (vKey : Bytes) : Option Bool :=
  if f.isFull then some true
  else if f.isEmpty then some false
  else f.containsLoop murmurHash3 vKey f.nHashFuncs.toNat 0

/-- Whether a script has a data element that the filter contains: the loop over its opcodes, which
ends at one that is not well formed. `len` bounds the number of opcodes; `none` where it does not
suffice. -/
def containsPush (f : CBloomFilter) : (len : Nat) → (pc : Bytes) → Option Bool
  | _, [] => some false
  | 0, _ :: _ => none
  | len + 1, c :: pc =>
    match getOp (c :: pc) with
    | none => some false
    | some (_, data, pc') => do
      if data.length ≠ 0 && (← f.contains murmurHash3 data) then return true
      else containsPush f len pc'

variable (hash : Bytes → UInt256) (options : SolverOptions)

/-- Whether the output that was matched is added to the filter. -/
def addsOutput (f : CBloomFilter) (scriptPubKey : CScript) : Bool :=
  if f.nFlags &&& BLOOM_UPDATE_MASK = BLOOM_UPDATE_ALL then true
  else if f.nFlags &&& BLOOM_UPDATE_MASK = BLOOM_UPDATE_P2PUBKEY_ONLY then
    match solver options scriptPubKey with
    | some (type, _) => type = .PUBKEY || type = .MULTISIG
    | none => false
  else false

/-- One round of the loop over the outputs: `fFound`, and the filter. -/
def matchOutput (txid : UInt256) (i : Nat) (txout : CTxOut) (fFound : Bool) (f : CBloomFilter) :
    Option (Bool × CBloomFilter) := do
  if ← f.containsPush murmurHash3 txout.scriptPubKey.length txout.scriptPubKey then
    let f ← if f.addsOutput options txout.scriptPubKey then
        f.insert murmurHash3 (COutPoint.bytes ⟨txid, UInt32.ofNat i⟩)
      else some f
    return (true, f)
  else return (fFound, f)

/-- The loop over the outputs from the `i`th on. -/
def matchOutputs (txid : UInt256) : (i : Nat) → List CTxOut → (fFound : Bool) → CBloomFilter →
    Option (Bool × CBloomFilter)
  | _, [], fFound, f => some (fFound, f)
  | i, txout :: vout, fFound, f => do
    let (fFound, f) ← f.matchOutput murmurHash3 options txid i txout fFound
    matchOutputs txid (i + 1) vout fFound f

/-- The loop over the inputs. -/
def matchInputs (f : CBloomFilter) : List CTxIn → Option Bool
  | [] => some false
  | txin :: vin => do
    if ← f.contains murmurHash3 txin.prevout.bytes then return true
    else if ← f.containsPush murmurHash3 txin.scriptSig.length txin.scriptSig then return true
    else matchInputs f vin

/-- `IsRelevantAndUpdate`: its result, and the filter after it. -/
def isRelevantAndUpdate (f : CBloomFilter) (tx : CTransaction) : Option (Bool × CBloomFilter) :=
  if f.isFull then some (true, f)
  else if f.isEmpty then some (false, f)
  else do
    let txid := tx.getHash hash
    let fFound ← f.contains murmurHash3 (uint256Bytes txid)
    let (fFound, f) ← f.matchOutputs murmurHash3 options txid 0 tx.vout fFound
    if fFound then return (true, f)
    else return (← f.matchInputs murmurHash3 tx.vin, f)

end Hash

end CBloomFilter

/-! ## The rolling filter -/

structure CRollingBloomFilter where
  nBloomSize : UInt32
  nInsertions : UInt32
  b1 : CBloomFilter
  b2 : CBloomFilter
deriving DecidableEq

namespace CRollingBloomFilter

/-- The constructor, for the size and the number of hash functions of its two filters. -/
def new (nElements : UInt32) (size : Nat) (nHashFuncs nTweak : UInt32) : CRollingBloomFilter where
  nBloomSize := nElements * 2
  nInsertions := 0
  b1 := .forRolling size nHashFuncs nTweak
  b2 := .forRolling size nHashFuncs nTweak

variable (murmurHash3 : UInt32 → Bytes → UInt32)

/-- `insert`. -/
def insert (r : CRollingBloomFilter) (vKey : Bytes) : Option CRollingBloomFilter := do
  let b1 := if r.nInsertions = 0 then r.b1.clear else r.b1
  let b2 := if r.nInsertions ≠ 0 ∧ r.nInsertions = r.nBloomSize / 2 then r.b2.clear else r.b2
  let b1 ← b1.insert murmurHash3 vKey
  let b2 ← b2.insert murmurHash3 vKey
  let nInsertions := if r.nInsertions + 1 = r.nBloomSize then 0 else r.nInsertions + 1
  return { r with nInsertions, b1, b2 }

/-- `contains`. -/
def contains (r : CRollingBloomFilter) (vKey : Bytes) : Option Bool :=
  if r.nInsertions < r.nBloomSize / 2 then r.b2.contains murmurHash3 vKey
  else r.b1.contains murmurHash3 vKey

/-- `clear`. -/
def clear (r : CRollingBloomFilter) : CRollingBloomFilter :=
  { r with b1 := r.b1.clear, b2 := r.b2.clear, nInsertions := 0 }

end CRollingBloomFilter

end GC
