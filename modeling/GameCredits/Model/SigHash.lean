import GameCredits.Model.ScriptBuild
import GameCredits.Model.Wire

/-!
# Signature hashes (script/interpreter.cpp, test/sighash_tests.cpp)

`CTransactionSignatureSerializer` writes what a signature is for, straight from the transaction and
the script code; `SignatureHashOld` of the tests makes a copy of the transaction and changes that. A
read outside of a vector or of the script code has no result. A hash type is given by the bits of its
`int`.
-/

namespace GC

open Framework (Bytes)

def OP_CODESEPARATOR : UInt8 := 0xAB

def SIGHASH_ALL : UInt32 := 1
def SIGHASH_NONE : UInt32 := 2
def SIGHASH_SINGLE : UInt32 := 3
def SIGHASH_ANYONECANPAY : UInt32 := 0x80

/-- What `SignatureHash` returns: the constant `one`, or the hash of some bytes. -/
inductive SignatureDigest where
  | one
  | hashOf (bytes : Bytes)
  deriving DecidableEq

/-! ## CTransactionSignatureSerializer -/

structure CTransactionSignatureSerializer where
  txTo : CTransaction
  scriptCode : CScript
  nIn : Nat
  fAnyoneCanPay : Bool
  fHashSingle : Bool
  fHashNone : Bool

namespace CTransactionSignatureSerializer

/-- The constructor. -/
def new (txTo : CTransaction) (scriptCode : CScript) (nIn nHashType : UInt32) :
    CTransactionSignatureSerializer where
  txTo := txTo
  scriptCode := scriptCode
  nIn := nIn.toNat
  fAnyoneCanPay := nHashType &&& SIGHASH_ANYONECANPAY != 0
  fHashSingle := nHashType &&& 0x1f == SIGHASH_SINGLE
  fHashNone := nHashType &&& 0x1f == SIGHASH_NONE

/-- The first loop of `SerializeScriptCode` from `it` on, over at most `len` opcodes;
`nCodeSeparators` is an `unsigned int`. -/
def countCodeSeparators (scriptCode : CScript) : (len it nCodeSeparators : Nat) → Option Nat
  | 0, _, nCodeSeparators => some nCodeSeparators
  | len + 1, it, nCodeSeparators => do
    let ret ← getOp2 scriptCode it
    if !ret.fRet then some nCodeSeparators
    else if ret.opcodeRet == OP_CODESEPARATOR then
      countCodeSeparators scriptCode len ret.pc ((nCodeSeparators + 1) % 2 ^ 32)
    else countCodeSeparators scriptCode len ret.pc nCodeSeparators

section

variable {σ : Type} (write : σ → Bytes → σ)

/-- The second loop of `SerializeScriptCode`: the stream, `it` and `itBegin` at its end. -/
def writeSegments (scriptCode : CScript) : (len it itBegin : Nat) → σ → Option (σ × Nat × Nat)
  | 0, it, itBegin, s => some (s, it, itBegin)
  | len + 1, it, itBegin, s => do
    let ret ← getOp2 scriptCode it
    if !ret.fRet then some (s, ret.pc, itBegin)
    else if ret.opcodeRet == OP_CODESEPARATOR then
      let segment ← readAt scriptCode itBegin (ret.pc - itBegin - 1)
      writeSegments scriptCode len ret.pc ret.pc (write s segment)
    else writeSegments scriptCode len ret.pc itBegin s

/-- `SerializeScriptCode`. -/
def serializeScriptCode (scriptCode : CScript) (s : σ) : Option σ := do
  let nCodeSeparators ← countCodeSeparators scriptCode (scriptCode.length + 1) 0 0
  let s := serializeCompactSize write s (scriptCode.length - nCodeSeparators)
  let (s, it, itBegin) ← writeSegments write scriptCode (scriptCode.length + 1) 0 0 s
  if itBegin = scriptCode.length then some s
  else
    let segment ← readAt scriptCode itBegin (it - itBegin)
    some (write s segment)

variable (txTmp : CTransactionSignatureSerializer)

/-- `SerializeInput`. -/
def serializeInput (s : σ) (nInput : Nat) : Option σ := do
  let nInput := if txTmp.fAnyoneCanPay then txTmp.nIn else nInput
  let txin ← txTmp.txTo.vin[nInput]?
  let s := txin.prevout.serialize write s
  let s ← if nInput ≠ txTmp.nIn then some (serializeScript write s [])
    else serializeScriptCode write txTmp.scriptCode s
  if nInput ≠ txTmp.nIn ∧ (txTmp.fHashSingle || txTmp.fHashNone) then some (serializeInt32 write s 0)
  else some (serializeUInt32 write s txin.nSequence)

/-- `SerializeOutput`. -/
def serializeOutput (s : σ) (nOutput : Nat) : Option σ :=
  if txTmp.fHashSingle ∧ nOutput ≠ txTmp.nIn then some (CTxOut.null.serialize write s)
  else do
    let out ← txTmp.txTo.vout[nOutput]?
    some (out.serialize write s)

/-- `Serialize`; `nInputs` and `nOutputs` are `unsigned int`. -/
def serialize (s : σ) : Option σ := do
  let s := serializeInt32 write s txTmp.txTo.nVersion
  let nInputs := if txTmp.fAnyoneCanPay then 1 else txTmp.txTo.vin.length % 2 ^ 32
  let s := serializeCompactSize write s nInputs
  let s ← (List.range nInputs).foldlM (txTmp.serializeInput write) s
  let nOutputs := if txTmp.fHashNone then 0
    else if txTmp.fHashSingle then (txTmp.nIn + 1) % 2 ^ 32
    else txTmp.txTo.vout.length % 2 ^ 32
  let s := serializeCompactSize write s nOutputs
  let s ← (List.range nOutputs).foldlM (txTmp.serializeOutput write) s
  some (serializeUInt32 write s txTmp.txTo.nLockTime)

end

end CTransactionSignatureSerializer

/-- `SignatureHash`. -/
def signatureHash (scriptCode : CScript) (txTo : CTransaction) (nIn nHashType : UInt32) :
    Option SignatureDigest :=
  if txTo.vin.length ≤ nIn.toNat then some .one
  else if nHashType &&& 0x1f = SIGHASH_SINGLE ∧ txTo.vout.length ≤ nIn.toNat then some .one
  else do
    let txTmp := CTransactionSignatureSerializer.new txTo scriptCode nIn nHashType
    let ss ← txTmp.serialize streamWrite []
    some (.hashOf (serializeUInt32 streamWrite ss nHashType))

/-! ## SignatureHashOld -/

/-- `for (unsigned int i = 0; i < v.size(); i++)` over the elements of a vector. With `2 ^ 32` of them
the loop does not end. -/
def forEach {α : Type} (body : Nat → α → α) (v : List α) : Option (List α) :=
  if v.length < 2 ^ 32 then some (v.mapIdx body) else none

/-- The end of `SignatureHashOld`: `SIGHASH_ANYONECANPAY`, and the hash. -/
def signatureHashCopy (txTmp : CTransaction) (nIn nHashType : UInt32) : Option SignatureDigest := do
  let vin ← if nHashType &&& SIGHASH_ANYONECANPAY ≠ 0 then do
      let txin ← txTmp.vin[nIn.toNat]?
      some ((txTmp.vin.set 0 txin).take 1)
    else some txTmp.vin
  let ss := CTransaction.serialize streamWrite [] { txTmp with vin }
  some (.hashOf (serializeUInt32 streamWrite ss nHashType))

/-- `SignatureHashOld`. -/
def signatureHashOld (scriptCode : CScript) (txTo : CTransaction) (nIn nHashType : UInt32) :
    Option SignatureDigest :=
  if txTo.vin.length ≤ nIn.toNat then some .one
  else do
    let scriptCode := findAndDelete scriptCode [OP_CODESEPARATOR]
    let vin ← forEach (fun _ txin => { txin with scriptSig := [] }) txTo.vin
    let vin := vin.modify nIn.toNat fun txin => { txin with scriptSig := scriptCode }
    let updateOthers := fun i (txin : CTxIn) =>
      if i ≠ nIn.toNat then { txin with nSequence := 0 } else txin
    if nHashType &&& 0x1f = SIGHASH_NONE then
      let vin ← forEach updateOthers vin
      signatureHashCopy { txTo with vin, vout := [] } nIn nHashType
    else if nHashType &&& 0x1f = SIGHASH_SINGLE then
      let nOut := nIn.toNat
      if txTo.vout.length ≤ nOut then some .one
      else
        let vout := txTo.vout.take ((nOut + 1) % 2 ^ 32)
        let vout := vout.mapIdx fun i out => if i < nOut then .null else out
        let vin ← forEach updateOthers vin
        signatureHashCopy { txTo with vin, vout } nIn nHashType
    else signatureHashCopy { txTo with vin } nIn nHashType

end GC
