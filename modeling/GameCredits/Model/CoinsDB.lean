import GameCredits.Model.Coins
import GameCredits.Model.Undo

/-!
# Stored coin records (coins.h, txdb.cpp)

The encoding of `CCoins` in the coin database: the version, a code with the coinbase flag and the
availability of the first two outputs, a bit mask for the others, the available outputs in compact
form, and the height.
-/

namespace GC

open Framework

namespace CCoins

variable (ops : PubKeyOps) (coins : CCoins)

/-- Byte `b` of the mask: the availability of the outputs from `2 + 8 * b`. -/
def availByte (b : Nat) : Nat :=
  ((List.range 8).map fun i => if coins.isAvailable (2 + b * 8 + i) then 2 ^ i else 0).sum

/-- The bytes of the mask up to the end of `vout`. -/
def availBytes : List Nat := (List.range ((coins.vout.length - 2 + 7) / 8)).map coins.availByte

/-- The bytes that `CalcMaskSize` counts in `nBytes`: without the zeros at the end. -/
def maskBytes : List Nat := coins.availBytes.rdropWhile (· == 0)

/-- `nNonzeroBytes` of `CalcMaskSize`. -/
def nonzeroBytes : Nat := coins.availBytes.countP (· != 0)

/-- `nCode`; the assertion before it says that some output is available. -/
def nCode : Nat :=
  let fFirst := coins.isAvailable 0
  let fSecond := coins.isAvailable 1
  8 * (coins.nonzeroBytes - (if fFirst || fSecond then 0 else 1)) + (if coins.fCoinBase then 1 else 0)
    + (if fFirst then 2 else 0) + (if fSecond then 4 else 0)

/-- `CCoins::CalcMaskSize`: the end of the last byte with an available output, and the number of such
bytes. -/
def calcMaskSize : Nat × Nat :=
  (List.range ((coins.vout.length - 2 + 7) / 8)).foldl
    (fun (nLastUsedByte, nNonzeroBytes) b =>
      let fZero := !(List.range 8).any fun i => coins.isAvailable (2 + b * 8 + i)
      if fZero then (nLastUsedByte, nNonzeroBytes) else (b + 1, nNonzeroBytes + 1))
    (0, 0)

/-- `CCoins::GetSerializeSize`: the sum is an `unsigned int`. -/
def getSerializeSize : Nat :=
  let (nMaskSize, nMaskCode) := coins.calcMaskSize
  let fFirst := coins.isAvailable 0
  let fSecond := coins.isAvailable 1
  let nCode := 8 * (nMaskCode - (if fFirst || fSecond then 0 else 1)) +
    (if coins.fCoinBase then 1 else 0) + (if fFirst then 2 else 0) + (if fSecond then 4 else 0)
  (getSizeOfVarIntSigned coins.nVersion + getSizeOfVarInt (nCode % 2 ^ 32) + nMaskSize +
    ((coins.vout.filterMap id).map (getSerializeSizeTxOut ops)).sum +
    getSizeOfVarInt coins.nHeight) % 2 ^ 32

/-- `CCoins::Serialize`. -/
def write : Bytes :=
  writeVarIntSigned coins.nVersion ++ writeVarInt (coins.nCode % 2 ^ 32) ++
    coins.maskBytes.map UInt8.ofNat ++ (coins.vout.filterMap id).flatMap (writeTxOut ops) ++
    writeVarInt coins.nHeight

end CCoins

/-- The loop of `CCoins::Unserialize` over the mask: reads bytes until `nMaskCode` of them are not
zero. -/
def readMaskFrom (nMaskCode : Nat) : Bytes → Option (List Bool × Bytes)
  | [] => if nMaskCode = 0 then some ([], []) else none
  | chAvail :: s =>
    if nMaskCode = 0 then some ([], chAvail :: s)
    else
      (readMaskFrom (if chAvail = 0 then nMaskCode else nMaskCode - 1) s).map fun r =>
        ((List.range 8).map (fun p => chAvail.toNat.testBit p) ++ r.1, r.2)

/-- The loop over the outputs. -/
def readAvailable (ops : PubKeyOps) : List Bool → Get (List (Option CTxOut))
  | [] => pure []
  | fAvail :: vAvail => do
    let out ← if fAvail then some <$> readTxOut ops else pure none
    let vout ← readAvailable ops vAvail
    return out.bind CTxOut.unlessNull :: vout

/-- `CCoins::Unserialize`. -/
def readCoins (ops : PubKeyOps) : Get CCoins := do
  let nVersion ← readVarIntSigned
  let nCode ← readVarInt 32
  let nMaskCode := nCode / 8 + if nCode.testBit 1 || nCode.testBit 2 then 0 else 1
  let vAvail ← Get.mk (readMaskFrom nMaskCode)
  let vout ← readAvailable ops (nCode.testBit 1 :: nCode.testBit 2 :: vAvail)
  let nHeight ← readVarIntSigned
  return CCoins.cleanup ⟨nCode.testBit 0, vout, nHeight.toNat, nVersion⟩

end GC
