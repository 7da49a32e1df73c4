import GameCredits.Model.Script

/-!
# The script interpreter (script/interpreter.cpp, script/script.h)

Stacks, numbers, verification flags and the checks of encodings that `EvalScript` uses. Stacks are
lists with the top first: `stacktop(-1)` is the head. Hash functions, the check of a signature's `S`
and the signature checker are parameters.

An exception or a failed assertion is a result of its own (`Exn`), so that it can be told from an
error that is returned: reads with `at` and `popstack` fail with `outOfRange`.
-/

namespace GC

open Framework (Bytes leNat leBytes)

/-! ## Results -/

inductive ScriptError where
  | UNKNOWN_ERROR | EVAL_FALSE | OP_RETURN
  | SCRIPT_SIZE | PUSH_SIZE | OP_COUNT | STACK_SIZE | SIG_COUNT | PUBKEY_COUNT
  | VERIFY | EQUALVERIFY | CHECKMULTISIGVERIFY | CHECKSIGVERIFY | NUMEQUALVERIFY
  | BAD_OPCODE | DISABLED_OPCODE | INVALID_STACK_OPERATION | INVALID_ALTSTACK_OPERATION
  | UNBALANCED_CONDITIONAL
  | SIG_HASHTYPE | SIG_DER | MINIMALDATA | SIG_PUSHONLY | SIG_HIGH_S | SIG_NULLDUMMY | PUBKEYTYPE
  | CLEANSTACK
  | DISCOURAGE_UPGRADABLE_NOPS
  deriving DecidableEq, Repr

/-- How `EvalScript` can be left without success: by `set_error`, by the exception of `CScriptNum`,
by an access outside of a stack, or by a failed assertion. -/
inductive Exn where
  | scriptError (serror : ScriptError)
  | scriptnumError (str : String)
  | outOfRange
  | assertFailed
  deriving DecidableEq, Repr

abbrev Result := Except Exn

/-- `if (fail) return set_error(serror, e)`. -/
def setErrorIf (fail : Bool) (e : ScriptError) : Result Unit :=
  if fail then .error (.scriptError e) else .ok ()

/-- `assert`. -/
def assertThat (cond : Bool) : Result Unit := if cond then .ok () else .error .assertFailed

/-! ## Stacks -/

abbrev Stack := List Bytes

/-- `stacktop(-i)`. -/
def stackTop (stack : Stack) : (i : Nat) → Result Bytes
  | 0 => .error .outOfRange
  | i + 1 => match stack[i]? with
    | some vch => .ok vch
    | none => .error .outOfRange

/-- `popstack`. -/
def popStack : Stack → Result Stack
  | [] => .error .outOfRange
  | _ :: stack => .ok stack

/-- `popstack`, `n` times. -/
def popStackN : (n : Nat) → Stack → Result Stack
  | 0, stack => .ok stack
  | n + 1, stack => do popStackN n (← popStack stack)

/-- `swap(stacktop(-i), stacktop(-j))`. -/
def swapTop (stack : Stack) (i j : Nat) : Result Stack := do
  let a ← stackTop stack i
  let b ← stackTop stack j
  return (stack.set (i - 1) b).set (j - 1) a

/-- `stack.erase(stack.end() - i)`. -/
def eraseTop (stack : Stack) (i : Nat) : Result Stack := do
  let _ ← stackTop stack i
  return stack.eraseIdx (i - 1)

/-- `CastToBool`: only zero and negative zero are false. -/
def castToBool : Bytes → Bool
  | [] => false
  | [b] => b != 0 && b != 0x80
  | b :: vch => b != 0 || castToBool vch

def vchFalse : Bytes := []

def vchTrue : Bytes := [1]

def boolBytes (f : Bool) : Bytes := if f then vchTrue else vchFalse

/-! ## Numbers -/

/-- The bytes of `absvalue`, of at most `len` bytes. -/
def absBytes : (len absvalue : Nat) → Bytes
  | 0, _ => []
  | len + 1, absvalue =>
    if absvalue = 0 then [] else UInt8.ofNat (absvalue &&& 0xff) :: absBytes len (absvalue >>> 8)

/-- `CScriptNum::serialize`. -/
def scriptNumBytes (value : Int) : Bytes :=
  let neg := decide (value < 0)
  let result := absBytes 8 value.natAbs
  match result.getLast? with
  | none => []
  | some back =>
    if back &&& 0x80 != 0 then result ++ [if neg then 0x80 else 0]
    else if neg then result.dropLast ++ [back ||| 0x80]
    else result

/-- `CScriptNum::set_vch`. -/
def setVch (vch : Bytes) : Int :=
  match vch.getLast? with
  | none => 0
  | some back =>
    if back &&& 0x80 != 0 then
      -((leNat vch &&& ((2 ^ 64 - 1) ^^^ (0x80 <<< (8 * (vch.length - 1))))) : Nat)
    else leNat vch

/-- Whether a number is encoded with more bytes than it needs. -/
def nonMinimal (vch : Bytes) : Bool :=
  match vch.getLast? with
  | none => false
  | some back =>
    back &&& 0x7f == 0 && (vch.length ≤ 1 || vch.getD (vch.length - 2) 0 &&& 0x80 == 0)

/-- `CScriptNum(vch, fRequireMinimal)`. -/
def scriptNum (fRequireMinimal : Bool) (vch : Bytes) : Result Int :=
  if 4 < vch.length then .error (.scriptnumError "script number overflow")
  else if fRequireMinimal && nonMinimal vch then
    .error (.scriptnumError "non-minimally encoded script number")
  else .ok (setVch vch)

/-- `CScriptNum::getint`. -/
def getInt (value : Int) : Int := max (-2 ^ 31) (min (2 ^ 31 - 1) value)

/-- `CScriptNum::operator-()`. -/
def negNum (value : Int) : Result Int := do
  assertThat (value != -2 ^ 63)
  return -value

/-- `CScriptNum::operator+=`. -/
def addNum (value rhs : Int) : Result Int := do
  assertThat (rhs == 0 || (decide (0 < rhs) && decide (value ≤ 2 ^ 63 - 1 - rhs)) ||
    (decide (rhs < 0) && decide (-2 ^ 63 - rhs ≤ value)))
  return value + rhs

/-- `CScriptNum::operator-=`. -/
def subNum (value rhs : Int) : Result Int := do
  assertThat (rhs == 0 || (decide (0 < rhs) && decide (-2 ^ 63 + rhs ≤ value)) ||
    (decide (rhs < 0) && decide (value ≤ 2 ^ 63 - 1 + rhs)))
  return value - rhs

/-! ## Verification flags -/

def SCRIPT_VERIFY_NONE : UInt32 := 0
def SCRIPT_VERIFY_P2SH : UInt32 := 0x001
def SCRIPT_VERIFY_STRICTENC : UInt32 := 0x002
def SCRIPT_VERIFY_DERSIG : UInt32 := 0x004
def SCRIPT_VERIFY_LOW_S : UInt32 := 0x008
def SCRIPT_VERIFY_NULLDUMMY : UInt32 := 0x010
def SCRIPT_VERIFY_SIGPUSHONLY : UInt32 := 0x020
def SCRIPT_VERIFY_MINIMALDATA : UInt32 := 0x040
def SCRIPT_VERIFY_DISCOURAGE_UPGRADABLE_NOPS : UInt32 := 0x080
def SCRIPT_VERIFY_CLEANSTACK : UInt32 := 0x100

def MANDATORY_SCRIPT_VERIFY_FLAGS : UInt32 := SCRIPT_VERIFY_P2SH

def STANDARD_SCRIPT_VERIFY_FLAGS : UInt32 :=
  MANDATORY_SCRIPT_VERIFY_FLAGS ||| SCRIPT_VERIFY_DERSIG ||| SCRIPT_VERIFY_STRICTENC |||
    SCRIPT_VERIFY_MINIMALDATA ||| SCRIPT_VERIFY_NULLDUMMY |||
    SCRIPT_VERIFY_DISCOURAGE_UPGRADABLE_NOPS ||| SCRIPT_VERIFY_CLEANSTACK

/-- `(flags & mask) != 0`. -/
def hasFlag (flags mask : UInt32) : Bool := flags &&& mask != 0

/-- A string of `n` bytes, such as a hash. -/
abbrev Digest (n : Nat) := { vch : Bytes // vch.length = n }

/-- What scripts are evaluated with: hash functions, `CheckSignatureElement(S, len, true)` and the
`CheckSig` of the signature checker. -/
structure Checker where
  ripemd160 : Bytes → Digest 20
  sha1 : Bytes → Digest 20
  sha256 : Bytes → Digest 32
  hash160 : Bytes → Digest 20
  hash256 : Bytes → Digest 32
  checkSignatureElement : Bytes → Bool
  checkSig : (vchSig vchPubKey : Bytes) → (scriptCode : CScript) → Bool

/-! ## Encodings of signatures and keys -/

/-- `IsCompressedOrUncompressedPubKey`. -/
def isCompressedOrUncompressedPubKey (vchPubKey : Bytes) : Bool :=
  if vchPubKey.length < 33 then false
  else match vchPubKey.getD 0 0 with
    | 0x04 => vchPubKey.length == 65
    | 0x02 | 0x03 => vchPubKey.length == 33
    | _ => false

/-- `IsValidSignatureEncoding`. -/
def isValidSignatureEncoding (sig : Bytes) : Bool :=
  let at_ (i : Nat) : Nat := (sig.getD i 0).toNat
  if sig.length < 9 then false
  else if 73 < sig.length then false
  else if at_ 0 ≠ 0x30 then false
  else if at_ 1 ≠ sig.length - 3 then false
  else
    let lenR := at_ 3
    if sig.length ≤ 5 + lenR then false
    else
      let lenS := at_ (5 + lenR)
      if lenR + lenS + 7 ≠ sig.length then false
      else if at_ 2 ≠ 0x02 then false
      else if lenR = 0 then false
      else if at_ 4 &&& 0x80 ≠ 0 then false
      else if 1 < lenR ∧ at_ 4 = 0 ∧ at_ 5 &&& 0x80 = 0 then false
      else if at_ (lenR + 4) ≠ 0x02 then false
      else if lenS = 0 then false
      else if at_ (lenR + 6) &&& 0x80 ≠ 0 then false
      else if 1 < lenS ∧ at_ (lenR + 6) = 0 ∧ at_ (lenR + 7) &&& 0x80 = 0 then false
      else true

/-- `IsDefinedHashtypeSignature`. -/
def isDefinedHashtypeSignature (vchSig : Bytes) : Bool :=
  match vchSig.getLast? with
  | none => false
  | some back =>
    let nHashType := back &&& ~~~0x80
    !(nHashType < 1 || 3 < nHashType)

/-- `CheckMinimalPush`. -/
def checkMinimalPush (data : Bytes) (opcode : UInt8) : Bool :=
  match data with
  | [] => opcode == 0x00
  | [b] =>
    if 1 ≤ b ∧ b ≤ 16 then opcode == 0x51 + (b - 1)
    else if b = 0x81 then opcode == 0x4F
    else opcode.toNat == 1
  | _ =>
    if data.length ≤ 75 then opcode.toNat == data.length
    else if data.length ≤ 255 then opcode.toNat == OP_PUSHDATA1
    else if data.length ≤ 65535 then opcode.toNat == OP_PUSHDATA2
    else true

section

variable (flags : UInt32) (checker : Checker)

/-- `IsLowDERSignature`. -/
def isLowDERSignature (vchSig : Bytes) : Result Unit := do
  setErrorIf (!isValidSignatureEncoding vchSig) .SIG_DER
  let nLenR := (vchSig.getD 3 0).toNat
  let nLenS := (vchSig.getD (5 + nLenR) 0).toNat
  setErrorIf (!checker.checkSignatureElement ((vchSig.drop (6 + nLenR)).take nLenS)) .SIG_HIGH_S

/-- The `LOW_S` check of `CheckSignatureEncoding`. -/
def checkLowS (vchSig : Bytes) : Result Unit :=
  if hasFlag flags SCRIPT_VERIFY_LOW_S then isLowDERSignature checker vchSig else .ok ()

/-- `CheckSignatureEncoding`. -/
def checkSignatureEncoding (vchSig : Bytes) : Result Unit :=
  if vchSig.isEmpty then .ok ()
  else do
    setErrorIf (hasFlag flags (SCRIPT_VERIFY_DERSIG ||| SCRIPT_VERIFY_LOW_S |||
      SCRIPT_VERIFY_STRICTENC) && !isValidSignatureEncoding vchSig) .SIG_DER
    checkLowS flags checker vchSig
    setErrorIf (hasFlag flags SCRIPT_VERIFY_STRICTENC && !isDefinedHashtypeSignature vchSig)
      .SIG_HASHTYPE

/-- `CheckPubKeyEncoding`. -/
def checkPubKeyEncoding (vchPubKey : Bytes) : Result Unit :=
  setErrorIf (hasFlag flags SCRIPT_VERIFY_STRICTENC &&
    !isCompressedOrUncompressedPubKey vchPubKey) .PUBKEYTYPE

end

/-! ## Script code -/

/-- `CScript << b`: the script that pushes `b`. -/
def pushData (b : Bytes) : CScript :=
  if b.length < OP_PUSHDATA1 then UInt8.ofNat b.length :: b
  else if b.length ≤ 0xff then 0x4C :: UInt8.ofNat b.length :: b
  else if b.length ≤ 0xffff then 0x4D :: (leBytes 2 b.length ++ b)
  else 0x4E :: (leBytes 4 b.length ++ b)

/-- The inner loop of `FindAndDelete`: what is left at `pc` after `b` has been erased there. -/
def eraseAll (b : CScript) : (len : Nat) → Bytes → Bytes
  | 0, pc => pc
  | len + 1, pc => if b.isPrefixOf pc then eraseAll b len (pc.drop b.length) else pc

/-- The outer loop of `FindAndDelete` from `pc` on, over at most `len` opcodes. -/
def findAndDeleteFrom (b : CScript) : (len : Nat) → Bytes → CScript
  | 0, pc => eraseAll b pc.length pc
  | len + 1, pc =>
    let pc := eraseAll b pc.length pc
    match getOp pc with
    | none => pc
    | some (_, _, pc') => pc.take (pc.length - pc'.length) ++ findAndDeleteFrom b len pc'

/-- `FindAndDelete`. -/
def findAndDelete (script b : CScript) : CScript :=
  if b.isEmpty then script else findAndDeleteFrom b script.length script

/-- The loop of `CScript::IsPushOnly`, over at most `len` opcodes. -/
def pushOnlyFrom : (len : Nat) → Bytes → Bool
  | _, [] => true
  | 0, _ => false
  | len + 1, pc =>
    match getOp pc with
    | none => false
    | some (opcode, _, pc') => if OP_16 < opcode.toNat then false else pushOnlyFrom len pc'

/-- `CScript::IsPushOnly`. -/
def isPushOnly (script : CScript) : Bool := pushOnlyFrom script.length script

end GC
