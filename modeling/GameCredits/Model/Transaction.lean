import GameCredits.Model.Serialize
import Mathlib.Data.Fintype.Basic
import Mathlib.Algebra.NeZero

/-!
# Transactions and blocks (amount.h, primitives/transaction.h, primitives/block.h)

The data of transactions and blocks with their wire encoding. The double SHA-256 behind `GetHash`
is a parameter `hash` on byte strings; a transaction's or header's hash is the hash of its encoding.
Signed fixed-width fields (`nValue`, `nVersion`) are integers, written in two's complement.
-/

namespace GC

open Framework (Bytes leBytes)

/-- `uint256`; its bytes are those of the number, least significant first. -/
abbrev UInt256 := Fin (2 ^ 256)

theorem uint256_pos : 0 < 2 ^ 256 := by decide

instance uint256_neZero : NeZero (2 ^ 256) := ⟨Nat.ne_of_gt uint256_pos⟩

instance uint256_lawfulBEq : LawfulBEq UInt256 := inferInstance

abbrev CScript := Bytes

/-! ## Amounts -/

/-- One coin; a `CAmount`, like every amount below, is an `int64_t`. -/
def COIN : Int := 100000000

def CENT : Int := 1000000

def MAX_MONEY : Int := 84000000 * COIN

theorem MAX_MONEY_eq : MAX_MONEY = 8400000000000000 := rfl

/-- `MoneyRange`. -/
def moneyRange (nValue : Int) : Bool := decide (0 ≤ nValue ∧ nValue ≤ MAX_MONEY)

theorem moneyRange_iff {n : Int} : moneyRange n = true ↔ 0 ≤ n ∧ n ≤ MAX_MONEY := by
  simp [moneyRange]

/-- The value of an `int64_t` after the arithmetic result `x` has wrapped. -/
def int64 (x : Int) : Int := Int.bmod x (2 ^ 64)

theorem int64_eq {x : Int} (h₁ : -2 ^ 63 ≤ x) (h₂ : x < 2 ^ 63) : int64 x = x :=
  Int.bmod_eq_of_le (by omega) (by omega)

/-! ## Transactions -/

/-- `COutPoint`: output `n` of the transaction `hash`. -/
structure COutPoint where
  hash : UInt256
  n : UInt32
  deriving DecidableEq, Repr

/-- `COutPoint::IsNull`. -/
def COutPoint.isNull (o : COutPoint) : Bool := o.hash == 0 && o.n == 0xFFFFFFFF

structure CTxIn where
  prevout : COutPoint
  scriptSig : CScript
  nSequence : UInt32
  deriving DecidableEq, Repr

structure CTxOut where
  nValue : Int
  scriptPubKey : CScript
  deriving DecidableEq, Repr

namespace CTxOut

/-- What `CTxOut::SetNull` and the default constructor leave. -/
def null : CTxOut := ⟨-1, []⟩

/-- `CTxOut::IsNull`. -/
def isNull (out : CTxOut) : Bool := out.nValue == -1

@[simp] theorem null_isNull : null.isNull = true := rfl

end CTxOut

structure CTransaction where
  nVersion : Int
  vin : List CTxIn
  vout : List CTxOut
  nLockTime : UInt32
  deriving DecidableEq, Repr

/-- `CTransaction::IsCoinBase`. -/
def CTransaction.isCoinBase (tx : CTransaction) : Bool :=
  match tx.vin with
  | [txin] => txin.prevout.isNull
  | _ => false

/-- The loop of `CTransaction::GetValueOut`; `none` where it throws. -/
def valueOutFrom (nValueOut : Int) : List CTxOut → Option Int
  | [] => some nValueOut
  | out :: vout =>
    let nValueOut := int64 (nValueOut + out.nValue)
    if !moneyRange out.nValue || !moneyRange nValueOut then none else valueOutFrom nValueOut vout

/-- `CTransaction::GetValueOut`. -/
def CTransaction.getValueOut (tx : CTransaction) : Option Int := valueOutFrom 0 tx.vout

/-! ## Blocks -/

structure CBlockHeader where
  nVersion : Int
  hashPrevBlock : UInt256
  hashMerkleRoot : UInt256
  nTime : UInt32
  nBits : UInt32
  nNonce : UInt32
  deriving DecidableEq, Repr

structure CBlock extends CBlockHeader where
  vtx : List CTransaction
  deriving DecidableEq, Repr

/-! ## Encodings -/

/-- The four bytes of an `int32_t`. -/
def int32Bytes (x : Int) : Bytes := leBytes 4 (x % 2 ^ 32).toNat

/-- The eight bytes of an `int64_t`. -/
def int64Bytes (x : Int) : Bytes := leBytes 8 (x % 2 ^ 64).toNat

def uint32Bytes (x : UInt32) : Bytes := leBytes 4 x.toNat

def uint256Bytes (h : UInt256) : Bytes := leBytes 32 h.val

/-- A script as a vector of bytes. -/
def scriptBytes (script : CScript) : Bytes := writeCompactSize script.length ++ script

def COutPoint.bytes (o : COutPoint) : Bytes := uint256Bytes o.hash ++ uint32Bytes o.n

def CTxIn.bytes (txin : CTxIn) : Bytes :=
  txin.prevout.bytes ++ scriptBytes txin.scriptSig ++ uint32Bytes txin.nSequence

def CTxOut.bytes (out : CTxOut) : Bytes := int64Bytes out.nValue ++ scriptBytes out.scriptPubKey

/-- A vector: its size, then its elements. -/
def vectorBytes {α : Type} (put : α → Bytes) (v : List α) : Bytes :=
  writeCompactSize v.length ++ v.flatMap put

def CTransaction.bytes (tx : CTransaction) : Bytes :=
  int32Bytes tx.nVersion ++ vectorBytes CTxIn.bytes tx.vin ++ vectorBytes CTxOut.bytes tx.vout ++
    uint32Bytes tx.nLockTime

def CBlockHeader.bytes (block : CBlockHeader) : Bytes :=
  int32Bytes block.nVersion ++ uint256Bytes block.hashPrevBlock ++
    uint256Bytes block.hashMerkleRoot ++ uint32Bytes block.nTime ++ uint32Bytes block.nBits ++
    uint32Bytes block.nNonce

def CBlock.bytes (block : CBlock) : Bytes :=
  block.toCBlockHeader.bytes ++ vectorBytes CTransaction.bytes block.vtx

/-! ## Hashes -/

section Hash

variable (hash : Bytes → UInt256)

/-- `CTransaction::GetHash`. -/
def CTransaction.getHash (tx : CTransaction) : UInt256 := hash tx.bytes

/-- `CBlockHeader::GetHash`. -/
def CBlockHeader.getHash (block : CBlockHeader) : UInt256 := hash block.bytes

end Hash

end GC
