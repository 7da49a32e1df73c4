import GameCredits.Model.Transaction

/-!
# Scripts (script/script.h, script/script.cpp)

Reading a script opcode by opcode (`GetOp`), and the counts of signature operations that block
validation limits.
-/

namespace GC

open Framework (Bytes leNat)

def OP_PUSHDATA1 : Nat := 0x4C
def OP_PUSHDATA2 : Nat := 0x4D
def OP_PUSHDATA4 : Nat := 0x4E
def OP_1 : Nat := 0x51
def OP_16 : Nat := 0x60
def OP_RETURN : UInt8 := 0x6A
def OP_DUP : UInt8 := 0x76
def OP_EQUAL : UInt8 := 0x87
def OP_EQUALVERIFY : UInt8 := 0x88
def OP_HASH160 : UInt8 := 0xA9
def OP_CHECKSIG : UInt8 := 0xAC
def OP_CHECKSIGVERIFY : UInt8 := 0xAD
def OP_CHECKMULTISIG : UInt8 := 0xAE
def OP_CHECKMULTISIGVERIFY : UInt8 := 0xAF
def OP_INVALIDOPCODE : UInt8 := 0xFF

/-- `CScript::IsUnspendable`. -/
def isUnspendable (script : CScript) : Bool := script.head? == some OP_RETURN

/-- `CScript::IsPayToScriptHash`. -/
def isPayToScriptHash (script : CScript) : Bool :=
  script.length == 23 && script[0]? == some OP_HASH160 && script[1]? == some 0x14 &&
    script[22]? == some OP_EQUAL

/-- The operand of an opcode: `nSize` bytes of `pc`, whose length is cast to `unsigned int`. -/
def pushOperand (opcode : UInt8) (nSize : Nat) (pc : Bytes) : Option (UInt8 × Bytes × Bytes) :=
  if pc.length % 2 ^ 32 < nSize then none else some (opcode, pc.take nSize, pc.drop nSize)

/-- `CScript::GetOp2` at the rest `pc` of a script: the opcode, its operand and the rest after it,
or `none` where it returns false. -/
def getOp : Bytes → Option (UInt8 × Bytes × Bytes)
  | [] => none
  | opcode :: pc =>
    if opcode.toNat < OP_PUSHDATA1 then pushOperand opcode opcode.toNat pc
    else if opcode.toNat = OP_PUSHDATA1 then
      if pc.length < 1 then none else pushOperand opcode (leNat (pc.take 1)) (pc.drop 1)
    else if opcode.toNat = OP_PUSHDATA2 then
      if pc.length < 2 then none else pushOperand opcode (leNat (pc.take 2)) (pc.drop 2)
    else if opcode.toNat = OP_PUSHDATA4 then
      if pc.length < 4 then none else pushOperand opcode (leNat (pc.take 4)) (pc.drop 4)
    else some (opcode, [], pc)

/-- The loop of `CScript::GetSigOpCount`, over at most `len` opcodes, for a counter without bound. -/
def sigOpCountFrom (fAccurate : Bool) : (len : Nat) → (lastOpcode : UInt8) → Bytes → Nat
  | 0, _, _ => 0
  | len + 1, lastOpcode, pc =>
    match getOp pc with
    | none => 0
    | some (opcode, _, pc') =>
      (if opcode == OP_CHECKSIG || opcode == OP_CHECKSIGVERIFY then 1
        else if opcode == OP_CHECKMULTISIG || opcode == OP_CHECKMULTISIGVERIFY then
          if fAccurate && decide (OP_1 ≤ lastOpcode.toNat ∧ lastOpcode.toNat ≤ OP_16) then
            lastOpcode.toNat - (OP_1 - 1)
          else 20
        else 0) + sigOpCountFrom fAccurate len opcode pc'

/-- `CScript::GetSigOpCount(fAccurate)`, whose counter is an `unsigned int`. -/
def getSigOpCount (script : CScript) (fAccurate : Bool) : Nat :=
  sigOpCountFrom fAccurate script.length OP_INVALIDOPCODE script % 2 ^ 32

/-- The data of the last push of a push-only script, or `none` where the loop returns 0. -/
def lastPush : (len : Nat) → (data : Bytes) → Bytes → Option Bytes
  | _, data, [] => some data
  | 0, _, _ => none
  | len + 1, _, pc =>
    match getOp pc with
    | none => none
    | some (opcode, data, pc') => if OP_16 < opcode.toNat then none else lastPush len data pc'

/-- `CScript::GetSigOpCount(scriptSig)`. -/
def getP2SHScriptSigOpCount (scriptPubKey scriptSig : CScript) : Nat :=
  if !isPayToScriptHash scriptPubKey then getSigOpCount scriptPubKey true
  else match lastPush scriptSig.length [] scriptSig with
    | none => 0
    | some subscript => getSigOpCount subscript true

/-- `GetLegacySigOpCount`. -/
def getLegacySigOpCount (tx : CTransaction) : Nat :=
  ((tx.vin.map fun txin => getSigOpCount txin.scriptSig false).sum +
    (tx.vout.map fun txout => getSigOpCount txout.scriptPubKey false).sum) % 2 ^ 32

end GC
