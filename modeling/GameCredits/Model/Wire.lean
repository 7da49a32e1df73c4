import GameCredits.Model.Transaction

/-!
# Transactions and blocks on streams (serialize.h, primitives/transaction.h, primitives/block.h)

`Serialize` writes to any stream; `GetSerializeSize` is `Serialize` to a `CSizeComputer`.
`Unserialize` reads vectors in parts, so that a size that is not true does not allocate much; how
many elements a part has depends on the size of an element in memory.
-/

namespace GC

open Framework

/-! ## Serialize -/

section Serialize

variable {σ : Type} (write : σ → Bytes → σ)

/-- `ser_writedata8`, `ser_writedata16`, `ser_writedata32` and `ser_writedata64`. -/
def serWriteData (n : Nat) (s : σ) (obj : Nat) : σ := write s (leBytes n obj)

/-- `WriteCompactSize`. -/
def serializeCompactSize (os : σ) (nSize : Nat) : σ :=
  if nSize < 253 then serWriteData write 1 os nSize
  else if nSize ≤ 0xFFFF then serWriteData write 2 (serWriteData write 1 os 253) nSize
  else if nSize ≤ 0xFFFFFFFF then serWriteData write 4 (serWriteData write 1 os 254) nSize
  else serWriteData write 8 (serWriteData write 1 os 255) nSize

/-- `Serialize_impl` of a vector of bytes. -/
def serializeScript (os : σ) (v : CScript) : σ :=
  let os := serializeCompactSize write os v.length
  if v.isEmpty then os else write os v

/-- `Serialize_impl` of a vector of other elements. -/
def serializeVector {α : Type} (serialize : σ → α → σ) (os : σ) (v : List α) : σ :=
  v.foldl serialize (serializeCompactSize write os v.length)

/-- `Serialize` of an `int32_t`. -/
def serializeInt32 (os : σ) (x : Int) : σ := serWriteData write 4 os (x % 2 ^ 32).toNat

/-- `Serialize` of an `int64_t`. -/
def serializeInt64 (os : σ) (x : Int) : σ := serWriteData write 8 os (x % 2 ^ 64).toNat

/-- `Serialize` of a `uint32_t`. -/
def serializeUInt32 (os : σ) (x : UInt32) : σ := serWriteData write 4 os x.toNat

/-- `uint256::Serialize`. -/
def serializeUInt256 (os : σ) (x : UInt256) : σ := write os (uint256Bytes x)

/-- `COutPoint::SerializationOp`, as the ones below, for writing. -/
def COutPoint.serialize (s : σ) (o : COutPoint) : σ :=
  let s := serializeUInt256 write s o.hash
  serializeUInt32 write s o.n

def CTxIn.serialize (s : σ) (txin : CTxIn) : σ :=
  let s := txin.prevout.serialize write s
  let s := serializeScript write s txin.scriptSig
  serializeUInt32 write s txin.nSequence

def CTxOut.serialize (s : σ) (out : CTxOut) : σ :=
  let s := serializeInt64 write s out.nValue
  serializeScript write s out.scriptPubKey

def CTransaction.serialize (s : σ) (tx : CTransaction) : σ :=
  let s := serializeInt32 write s tx.nVersion
  let s := serializeVector write (CTxIn.serialize write) s tx.vin
  let s := serializeVector write (CTxOut.serialize write) s tx.vout
  serializeUInt32 write s tx.nLockTime

def CBlockHeader.serialize (s : σ) (block : CBlockHeader) : σ :=
  let s := serializeInt32 write s block.nVersion
  let s := serializeUInt256 write s block.hashPrevBlock
  let s := serializeUInt256 write s block.hashMerkleRoot
  let s := serializeUInt32 write s block.nTime
  let s := serializeUInt32 write s block.nBits
  serializeUInt32 write s block.nNonce

def CBlock.serialize (s : σ) (block : CBlock) : σ :=
  let s := block.toCBlockHeader.serialize write s
  serializeVector write (CTransaction.serialize write) s block.vtx

end Serialize

/-- `CDataStream::write`. -/
def streamWrite (s bytes : Bytes) : Bytes := s ++ bytes

/-- `CSizeComputer::write`. -/
def sizeWrite (nSize : Nat) (bytes : Bytes) : Nat := nSize + bytes.length

/-- `::GetSerializeSize` of a transaction: what `CTransaction::GetSerializeSize` returns, as an
`unsigned int`. -/
def CTransaction.getSerializeSize (tx : CTransaction) : Nat := tx.serialize sizeWrite 0 % 2 ^ 32

/-- `::GetSerializeSize` of a block. -/
def CBlock.getSerializeSize (block : CBlock) : Nat := block.serialize sizeWrite 0 % 2 ^ 32

/-! ## Unserialize -/

/-- The size in memory of an element of a vector. -/
structure SizeOf where
  bytes : Nat
  pos : 0 < bytes
  le : bytes ≤ 5000000

/-- How many elements are read before the vector is resized again. -/
def SizeOf.part (size : SizeOf) : Nat := 5000000 / size.bytes

theorem SizeOf.part_pos (size : SizeOf) : 0 < size.part := Nat.div_pos size.le size.pos

/-- The loop of `Unserialize_impl` for a vector of bytes, with `nSize - i` bytes left to read. -/
def unserializeBytes (left : Nat) (v : Bytes) : Get Bytes :=
  if left = 0 then pure v
  else do
    let blk := min left 5000000
    let more ← getBytes blk
    unserializeBytes (left - blk) (v ++ more)
termination_by left

/-- `Unserialize_impl` of a vector of bytes. -/
def unserializeScript : Get CScript := do
  let nSize ← readCompactSize
  unserializeBytes nSize []

section

variable {α : Type} (size : SizeOf) (unserialize : Get α)

/-- The loop of `Unserialize_impl` for a vector of other elements, from `nMid`. -/
def unserializeElements (nSize nMid : Nat) (v : List α) : Get (List α) :=
  if nMid < nSize then do
    let next := if nSize < nMid + size.part then nSize else nMid + size.part
    let more ← getMany unserialize (next - nMid)
    unserializeElements nSize next (v ++ more)
  else pure v
termination_by nSize - nMid
decreasing_by
  have := size.part_pos
  split_ifs <;> omega

/-- `Unserialize_impl` of a vector of other elements. -/
def unserializeVector : Get (List α) := do
  let nSize ← readCompactSize
  unserializeElements size unserialize nSize 0 []

end

/-- `Unserialize` of an `int32_t`. -/
def unserializeInt32 : Get Int := do
  let obj ← getLE 4
  return Int.bmod obj (2 ^ 32)

/-- `Unserialize` of an `int64_t`. -/
def unserializeInt64 : Get Int := do
  let obj ← getLE 8
  return Int.bmod obj (2 ^ 64)

/-- `Unserialize` of a `uint32_t`. -/
def unserializeUInt32 : Get UInt32 := do
  let obj ← getLE 4
  return UInt32.ofNat obj

/-- `uint256::Unserialize`. -/
def unserializeUInt256 : Get UInt256 := do
  let data ← getLE 32
  return Fin.ofNat (2 ^ 256) data

/-- `COutPoint::SerializationOp`, as the ones below, for reading. -/
def COutPoint.unserialize : Get COutPoint := do
  let hash ← unserializeUInt256
  let n ← unserializeUInt32
  return ⟨hash, n⟩

def CTxIn.unserialize : Get CTxIn := do
  let prevout ← COutPoint.unserialize
  let scriptSig ← unserializeScript
  let nSequence ← unserializeUInt32
  return ⟨prevout, scriptSig, nSequence⟩

def CTxOut.unserialize : Get CTxOut := do
  let nValue ← unserializeInt64
  let scriptPubKey ← unserializeScript
  return ⟨nValue, scriptPubKey⟩

/-- A `CTransaction` with its cached `hash`. -/
structure CachedTransaction extends CTransaction where
  hash : UInt256

/-- A `CBlock` of such transactions. -/
structure CachedBlock extends CBlockHeader where
  vtx : List CachedTransaction

/-- The block without the cached hashes. -/
def CachedBlock.block (block : CachedBlock) : CBlock :=
  { block.toCBlockHeader with vtx := block.vtx.map CachedTransaction.toCTransaction }

/-- The sizes in memory of the elements of the vectors. -/
structure SizeOfs where
  txIn : SizeOf
  txOut : SizeOf
  transaction : SizeOf

section

variable (hash : Bytes → UInt256) (sizes : SizeOfs)

/-- `SerializeHash` of a transaction. -/
def CTransaction.serializeHash (tx : CTransaction) : UInt256 := hash (tx.serialize streamWrite [])

/-- `CTransaction::UpdateHash`. -/
def CTransaction.updateHash (tx : CTransaction) : CachedTransaction :=
  { tx with hash := tx.serializeHash hash }

def CTransaction.unserialize : Get CachedTransaction := do
  let nVersion ← unserializeInt32
  let vin ← unserializeVector sizes.txIn CTxIn.unserialize
  let vout ← unserializeVector sizes.txOut CTxOut.unserialize
  let nLockTime ← unserializeUInt32
  return CTransaction.updateHash hash ⟨nVersion, vin, vout, nLockTime⟩

def CBlockHeader.unserialize : Get CBlockHeader := do
  let nVersion ← unserializeInt32
  let hashPrevBlock ← unserializeUInt256
  let hashMerkleRoot ← unserializeUInt256
  let nTime ← unserializeUInt32
  let nBits ← unserializeUInt32
  let nNonce ← unserializeUInt32
  return ⟨nVersion, hashPrevBlock, hashMerkleRoot, nTime, nBits, nNonce⟩

def CBlock.unserialize : Get CachedBlock := do
  let header ← CBlockHeader.unserialize
  let vtx ← unserializeVector sizes.transaction (CTransaction.unserialize hash sizes)
  return { header with vtx }

end

end GC
