import GameCredits.Framework.Assoc
import GameCredits.Model.Interpreter

/-!
# EvalScript and VerifyScript (script/interpreter.cpp)

The switch over opcodes is a table of handlers (`switch`), so that what holds of each of them holds
of the opcode that is executed.
-/

namespace GC

open Framework (Bytes)

def MAX_SCRIPT_ELEMENT_SIZE : Nat := 520

/-- The variables of `EvalScript`: `pc` and `pbegincodehash` are the parts of the script that begin
there, the innermost conditional is the head of `vfExec`. -/
structure EvalState where
  pc : Bytes
  pbegincodehash : Bytes
  stack : Stack
  altstack : Stack
  vfExec : List Bool
  nOpCount : Nat
  deriving DecidableEq, Repr

/-- What a case of the switch does, depending on the flags. -/
abbrev Handler := (flags : UInt32) → EvalState → Result EvalState

/-- A handler that uses the flags and the main stack only. -/
def onStackWith (f : UInt32 → Stack → Result Stack) : Handler := fun flags st => do
  let stack ← f flags st.stack
  return { st with stack }

/-- A handler that uses the main stack only. -/
def onStack (f : Stack → Result Stack) : Handler := onStackWith fun _ => f

/-- `if (stack.size() < n) return set_error(serror, SCRIPT_ERR_INVALID_STACK_OPERATION)`. -/
def needStack (stack : Stack) (n : Nat) : Result Unit :=
  setErrorIf (stack.length < n) .INVALID_STACK_OPERATION

/-! ## Control -/

/-- `OP_IF` and `OP_NOTIF`. -/
def opIf (fNot fExec : Bool) : Handler := fun _ st =>
  if fExec then do
    setErrorIf (st.stack.length < 1) .UNBALANCED_CONDITIONAL
    let vch ← stackTop st.stack 1
    let stack ← popStack st.stack
    return { st with stack, vfExec := (castToBool vch != fNot) :: st.vfExec }
  else .ok { st with vfExec := false :: st.vfExec }

def opElse : Handler := fun _ st =>
  match st.vfExec with
  | [] => .error (.scriptError .UNBALANCED_CONDITIONAL)
  | back :: vfExec => .ok { st with vfExec := (!back) :: vfExec }

def opEndif : Handler := fun _ st =>
  match st.vfExec with
  | [] => .error (.scriptError .UNBALANCED_CONDITIONAL)
  | _ :: vfExec => .ok { st with vfExec }

def opVerify (stack : Stack) : Result Stack := do
  needStack stack 1
  let fValue := castToBool (← stackTop stack 1)
  setErrorIf (!fValue) .VERIFY
  popStack stack

/-- The end of an opcode with a `VERIFY` form, which takes a true result off the stack again. -/
def pushVerify (verify : Option ScriptError) (fValue : Bool) (vch : Bytes) (stack : Stack) :
    Result Stack :=
  match verify with
  | none => .ok (vch :: stack)
  | some e => do
    setErrorIf (!fValue) e
    popStack (vch :: stack)

/-- `OP_NOP1` to `OP_NOP10`. -/
def opUpgradableNop : Handler := fun flags st => do
  setErrorIf (hasFlag flags SCRIPT_VERIFY_DISCOURAGE_UPGRADABLE_NOPS) .DISCOURAGE_UPGRADABLE_NOPS
  return st

/-! ## Stack -/

def opToAltStack : Handler := fun _ st => do
  needStack st.stack 1
  let vch ← stackTop st.stack 1
  let stack ← popStack st.stack
  return { st with stack, altstack := vch :: st.altstack }

def opFromAltStack : Handler := fun _ st => do
  setErrorIf (st.altstack.length < 1) .INVALID_ALTSTACK_OPERATION
  let vch ← stackTop st.altstack 1
  let altstack ← popStack st.altstack
  return { st with stack := vch :: st.stack, altstack }

def op2Drop (stack : Stack) : Result Stack := do
  needStack stack 2
  popStackN 2 stack

def op2Dup (stack : Stack) : Result Stack := do
  needStack stack 2
  let vch1 ← stackTop stack 2
  let vch2 ← stackTop stack 1
  return vch2 :: vch1 :: stack

def op3Dup (stack : Stack) : Result Stack := do
  needStack stack 3
  let vch1 ← stackTop stack 3
  let vch2 ← stackTop stack 2
  let vch3 ← stackTop stack 1
  return vch3 :: vch2 :: vch1 :: stack

def op2Over (stack : Stack) : Result Stack := do
  needStack stack 4
  let vch1 ← stackTop stack 4
  let vch2 ← stackTop stack 3
  return vch2 :: vch1 :: stack

def op2Rot (stack : Stack) : Result Stack := do
  needStack stack 6
  let vch1 ← stackTop stack 6
  let vch2 ← stackTop stack 5
  let stack ← eraseTop stack 6
  let stack ← eraseTop stack 5
  return vch2 :: vch1 :: stack

def op2Swap (stack : Stack) : Result Stack := do
  needStack stack 4
  let stack ← swapTop stack 4 2
  swapTop stack 3 1

def opIfDup (stack : Stack) : Result Stack := do
  needStack stack 1
  let vch ← stackTop stack 1
  return if castToBool vch then vch :: stack else stack

def opDepth (stack : Stack) : Result Stack := .ok (scriptNumBytes stack.length :: stack)

def opDrop (stack : Stack) : Result Stack := do
  needStack stack 1
  popStack stack

def opDup (stack : Stack) : Result Stack := do
  needStack stack 1
  let vch ← stackTop stack 1
  return vch :: stack

def opNip (stack : Stack) : Result Stack := do
  needStack stack 2
  eraseTop stack 2

def opOver (stack : Stack) : Result Stack := do
  needStack stack 2
  let vch ← stackTop stack 2
  return vch :: stack

/-- `OP_ROLL` takes the element that is copied to the top from its old place. -/
def rollTop (roll : Bool) (stack : Stack) (i : Nat) : Result Stack :=
  if roll then eraseTop stack i else .ok stack

/-- `OP_PICK` and `OP_ROLL`. -/
def opPick (roll : Bool) (flags : UInt32) (stack : Stack) : Result Stack := do
  needStack stack 2
  let n := getInt (← scriptNum (hasFlag flags SCRIPT_VERIFY_MINIMALDATA) (← stackTop stack 1))
  let stack ← popStack stack
  setErrorIf (decide (n < 0) || decide ((stack.length : Int) ≤ n)) .INVALID_STACK_OPERATION
  let vch ← stackTop stack (n.toNat + 1)
  let stack ← rollTop roll stack (n.toNat + 1)
  return vch :: stack

def opRot (stack : Stack) : Result Stack := do
  needStack stack 3
  let stack ← swapTop stack 3 2
  swapTop stack 2 1

def opSwap (stack : Stack) : Result Stack := do
  needStack stack 2
  swapTop stack 2 1

def opTuck (stack : Stack) : Result Stack := do
  needStack stack 2
  let vch ← stackTop stack 1
  let _ ← stackTop stack 2
  return stack.insertIdx 2 vch

def opSize (stack : Stack) : Result Stack := do
  needStack stack 1
  let vch ← stackTop stack 1
  return scriptNumBytes vch.length :: stack

/-- `OP_EQUAL` and `OP_EQUALVERIFY`. -/
def opEqual (verify : Option ScriptError) (stack : Stack) : Result Stack := do
  needStack stack 2
  let vch1 ← stackTop stack 2
  let vch2 ← stackTop stack 1
  let stack ← popStackN 2 stack
  pushVerify verify (vch1 == vch2) (boolBytes (vch1 == vch2)) stack

/-! ## Numbers -/

/-- The opcodes from `OP_1ADD` to `OP_0NOTEQUAL`. -/
def opUnary (f : Int → Result Int) (flags : UInt32) (stack : Stack) : Result Stack := do
  needStack stack 1
  let bn ← scriptNum (hasFlag flags SCRIPT_VERIFY_MINIMALDATA) (← stackTop stack 1)
  let bn ← f bn
  let stack ← popStack stack
  return scriptNumBytes bn :: stack

def boolNum (f : Bool) : Int := if f then 1 else 0

def opAbs (bn : Int) : Result Int := if bn < 0 then negNum bn else .ok bn

/-- The opcodes from `OP_ADD` to `OP_MAX`. -/
def opBinary (verify : Option ScriptError) (f : Int → Int → Int) (flags : UInt32) (stack : Stack) :
    Result Stack := do
  needStack stack 2
  let bn1 ← scriptNum (hasFlag flags SCRIPT_VERIFY_MINIMALDATA) (← stackTop stack 2)
  let bn2 ← scriptNum (hasFlag flags SCRIPT_VERIFY_MINIMALDATA) (← stackTop stack 1)
  let vch := scriptNumBytes (f bn1 bn2)
  let stack ← popStackN 2 stack
  pushVerify verify (castToBool vch) vch stack

def opWithin (flags : UInt32) (stack : Stack) : Result Stack := do
  needStack stack 3
  let bn1 ← scriptNum (hasFlag flags SCRIPT_VERIFY_MINIMALDATA) (← stackTop stack 3)
  let bn2 ← scriptNum (hasFlag flags SCRIPT_VERIFY_MINIMALDATA) (← stackTop stack 2)
  let bn3 ← scriptNum (hasFlag flags SCRIPT_VERIFY_MINIMALDATA) (← stackTop stack 1)
  let stack ← popStackN 3 stack
  return boolBytes (decide (bn2 ≤ bn1) && decide (bn1 < bn3)) :: stack

/-! ## Crypto -/

/-- The opcodes from `OP_RIPEMD160` to `OP_HASH256`. -/
def opHash {n : Nat} (hash : Bytes → Digest n) (stack : Stack) : Result Stack := do
  needStack stack 1
  let vch ← stackTop stack 1
  let stack ← popStack stack
  return (hash vch).val :: stack

section

variable (checker : Checker)

/-- `OP_CHECKSIG` and `OP_CHECKSIGVERIFY`. -/
def opCheckSig (verify : Option ScriptError) : Handler := fun flags st => do
  needStack st.stack 2
  let vchSig ← stackTop st.stack 2
  let vchPubKey ← stackTop st.stack 1
  let scriptCode := findAndDelete st.pbegincodehash (pushData vchSig)
  checkSignatureEncoding flags checker vchSig
  checkPubKeyEncoding flags vchPubKey
  let fSuccess := checker.checkSig vchSig vchPubKey scriptCode
  let stack ← popStackN 2 st.stack
  let stack ← pushVerify verify fSuccess (boolBytes fSuccess) stack
  return { st with stack }

/-- The loop of `OP_CHECKMULTISIG` that drops the signatures from the script, from the signature at
`isig` on. -/
def dropSignatures (stack : Stack) : (nSigsCount isig : Nat) → CScript → Result CScript
  | 0, _, scriptCode => .ok scriptCode
  | nSigsCount + 1, isig, scriptCode => do
    let vchSig ← stackTop stack isig
    dropSignatures stack nSigsCount (isig + 1) (findAndDelete scriptCode (pushData vchSig))

/-- The loop of `OP_CHECKMULTISIG` that checks the signatures. -/
def checkSignatures (flags : UInt32) (stack : Stack) (scriptCode : CScript) :
    (nKeysCount nSigsCount isig ikey : Nat) → Result Bool
  | _, 0, _, _ => .ok true
  | 0, _ + 1, _, _ => .ok false -- there are never more signatures left than keys
  | nKeysCount + 1, nSigsCount + 1, isig, ikey => do
    let vchSig ← stackTop stack isig
    let vchPubKey ← stackTop stack ikey
    checkSignatureEncoding flags checker vchSig
    checkPubKeyEncoding flags vchPubKey
    if checker.checkSig vchSig vchPubKey scriptCode then
      checkSignatures flags stack scriptCode nKeysCount nSigsCount (isig + 1) (ikey + 1)
    else if nKeysCount < nSigsCount + 1 then .ok false
    else checkSignatures flags stack scriptCode nKeysCount (nSigsCount + 1) isig (ikey + 1)

/-- `OP_CHECKMULTISIG` and `OP_CHECKMULTISIGVERIFY`. -/
def opCheckMultisig (verify : Option ScriptError) : Handler := fun flags st => do
  needStack st.stack 1
  let fRequireMinimal := hasFlag flags SCRIPT_VERIFY_MINIMALDATA
  let nKeys := getInt (← scriptNum fRequireMinimal (← stackTop st.stack 1))
  setErrorIf (decide (nKeys < 0) || decide (20 < nKeys)) .PUBKEY_COUNT
  let nKeysCount := nKeys.toNat
  let nOpCount := st.nOpCount + nKeysCount
  setErrorIf (201 < nOpCount) .OP_COUNT
  let ikey := 2
  let i := 2 + nKeysCount
  needStack st.stack i
  let nSigs := getInt (← scriptNum fRequireMinimal (← stackTop st.stack i))
  setErrorIf (decide (nSigs < 0) || decide ((nKeysCount : Int) < nSigs)) .SIG_COUNT
  let nSigsCount := nSigs.toNat
  let isig := i + 1
  let i := i + 1 + nSigsCount
  needStack st.stack i
  let scriptCode ← dropSignatures st.stack nSigsCount isig st.pbegincodehash
  let fSuccess ← checkSignatures checker flags st.stack scriptCode nKeysCount nSigsCount isig ikey
  -- clean up the stack of the actual arguments
  let stack ← popStackN (i - 1) st.stack
  needStack stack 1
  let dummy ← stackTop stack 1
  setErrorIf (hasFlag flags SCRIPT_VERIFY_NULLDUMMY && !dummy.isEmpty) .SIG_NULLDUMMY
  let stack ← popStack stack
  let stack ← pushVerify verify fSuccess (boolBytes fSuccess) stack
  return { st with stack, nOpCount }

/-! ## The switch -/

/-- `OP_1NEGATE` and `OP_1` to `OP_16`. -/
def pushOps : List (UInt8 × Handler) :=
  (0x4F :: (List.range 16).map fun i => UInt8.ofNat (0x51 + i)).map fun opcode =>
    (opcode, onStack fun stack => .ok (scriptNumBytes ((opcode.toNat : Int) - (OP_1 - 1)) :: stack))

def controlOps (fExec : Bool) : List (UInt8 × Handler) :=
  [(0x61, fun _ st => .ok st),                                     -- OP_NOP
   (0x63, opIf false fExec),                                       -- OP_IF
   (0x64, opIf true fExec),                                        -- OP_NOTIF
   (0x67, opElse),                                                 -- OP_ELSE
   (0x68, opEndif),                                                -- OP_ENDIF
   (OP_RETURN, fun _ _ => .error (.scriptError .OP_RETURN)),
   (0x6B, opToAltStack),                                           -- OP_TOALTSTACK
   (0x6C, opFromAltStack),                                         -- OP_FROMALTSTACK
   (0xAB, fun _ st => .ok { st with pbegincodehash := st.pc })]    -- OP_CODESEPARATOR

/-- The opcodes that use the main stack only, and no flags. -/
def stackOps : List (UInt8 × (Stack → Result Stack)) :=
  [(0x69, opVerify),                          -- OP_VERIFY
   (0x6D, op2Drop),                           -- OP_2DROP
   (0x6E, op2Dup),                            -- OP_2DUP
   (0x6F, op3Dup),                            -- OP_3DUP
   (0x70, op2Over),                           -- OP_2OVER
   (0x71, op2Rot),                            -- OP_2ROT
   (0x72, op2Swap),                           -- OP_2SWAP
   (0x73, opIfDup),                           -- OP_IFDUP
   (0x74, opDepth),                           -- OP_DEPTH
   (0x75, opDrop),                            -- OP_DROP
   (OP_DUP, opDup),
   (0x77, opNip),                             -- OP_NIP
   (0x78, opOver),                            -- OP_OVER
   (0x7B, opRot),                             -- OP_ROT
   (0x7C, opSwap),                            -- OP_SWAP
   (0x7D, opTuck),                            -- OP_TUCK
   (0x82, opSize),                            -- OP_SIZE
   (OP_EQUAL, opEqual none),
   (OP_EQUALVERIFY, opEqual (some .EQUALVERIFY)),
   (0xA6, opHash checker.ripemd160),          -- OP_RIPEMD160
   (0xA7, opHash checker.sha1),               -- OP_SHA1
   (0xA8, opHash checker.sha256),             -- OP_SHA256
   (OP_HASH160, opHash checker.hash160),
   (0xAA, opHash checker.hash256)]            -- OP_HASH256

/-- The opcodes from `OP_1ADD` to `OP_0NOTEQUAL`. -/
def unaryOps : List (UInt8 × (Int → Result Int)) :=
  [(0x8B, fun bn => addNum bn 1),                                  -- OP_1ADD
   (0x8C, fun bn => subNum bn 1),                                  -- OP_1SUB
   (0x8F, negNum),                                                 -- OP_NEGATE
   (0x90, opAbs),                                                  -- OP_ABS
   (0x91, fun bn => .ok (boolNum (bn == 0))),                      -- OP_NOT
   (0x92, fun bn => .ok (boolNum (bn != 0)))]                      -- OP_0NOTEQUAL

/-- The opcodes from `OP_ADD` to `OP_MAX`. -/
def binaryOps : List (UInt8 × Option ScriptError × (Int → Int → Int)) :=
  [(0x93, none, fun bn1 bn2 => bn1 + bn2),                         -- OP_ADD
   (0x94, none, fun bn1 bn2 => bn1 - bn2),                         -- OP_SUB
   (0x9A, none, fun bn1 bn2 => boolNum (bn1 != 0 && bn2 != 0)),    -- OP_BOOLAND
   (0x9B, none, fun bn1 bn2 => boolNum (bn1 != 0 || bn2 != 0)),    -- OP_BOOLOR
   (0x9C, none, fun bn1 bn2 => boolNum (bn1 == bn2)),              -- OP_NUMEQUAL
   (0x9D, some .NUMEQUALVERIFY, fun bn1 bn2 => boolNum (bn1 == bn2)), -- OP_NUMEQUALVERIFY
   (0x9E, none, fun bn1 bn2 => boolNum (bn1 != bn2)),              -- OP_NUMNOTEQUAL
   (0x9F, none, fun bn1 bn2 => boolNum (bn1 < bn2)),               -- OP_LESSTHAN
   (0xA0, none, fun bn1 bn2 => boolNum (bn2 < bn1)),               -- OP_GREATERTHAN
   (0xA1, none, fun bn1 bn2 => boolNum (bn1 ≤ bn2)),               -- OP_LESSTHANOREQUAL
   (0xA2, none, fun bn1 bn2 => boolNum (bn2 ≤ bn1)),               -- OP_GREATERTHANOREQUAL
   (0xA3, none, fun bn1 bn2 => if bn1 < bn2 then bn1 else bn2),    -- OP_MIN
   (0xA4, none, fun bn1 bn2 => if bn2 < bn1 then bn1 else bn2)]    -- OP_MAX

def checkOps : List (UInt8 × Handler) :=
  [(0x79, onStackWith (opPick false)),                             -- OP_PICK
   (0x7A, onStackWith (opPick true)),                              -- OP_ROLL
   (0xA5, onStackWith opWithin),                                   -- OP_WITHIN
   (OP_CHECKSIG, opCheckSig checker none),
   (OP_CHECKSIGVERIFY, opCheckSig checker (some .CHECKSIGVERIFY)),
   (OP_CHECKMULTISIG, opCheckMultisig checker none),
   (OP_CHECKMULTISIGVERIFY, opCheckMultisig checker (some .CHECKMULTISIGVERIFY))]

/-- The cases of the switch. -/
def switch (fExec : Bool) : List (UInt8 × Handler) :=
  pushOps ++ controlOps fExec ++
    (stackOps checker).map (fun op => (op.1, onStack op.2)) ++
    unaryOps.map (fun op => (op.1, onStackWith (opUnary op.2))) ++
    binaryOps.map (fun op => (op.1, onStackWith (opBinary op.2.1 op.2.2))) ++
    checkOps checker ++
    (List.range 10).map fun i => (UInt8.ofNat (0xB0 + i), opUpgradableNop) -- OP_NOP1 on

/-- The opcodes that are disabled: `OP_CAT`, `OP_SUBSTR`, `OP_LEFT`, `OP_RIGHT`, `OP_INVERT`,
`OP_AND`, `OP_OR`, `OP_XOR`, `OP_2MUL`, `OP_2DIV`, `OP_MUL`, `OP_DIV`, `OP_MOD`, `OP_LSHIFT` and
`OP_RSHIFT`. -/
def disabledOps : List UInt8 :=
  [0x7E, 0x7F, 0x80, 0x81, 0x83, 0x84, 0x85, 0x86, 0x8D, 0x8E, 0x95, 0x96, 0x97, 0x98, 0x99]

/-- What the opcode does, once it has been read and counted. -/
def execute (fExec : Bool) (opcode : UInt8) (vchPushValue : Bytes) : Handler := fun flags st =>
  if fExec && opcode.toNat ≤ OP_PUSHDATA4 then do
    setErrorIf (hasFlag flags SCRIPT_VERIFY_MINIMALDATA && !checkMinimalPush vchPushValue opcode)
      .MINIMALDATA
    return { st with stack := vchPushValue :: st.stack }
  else if fExec || (0x63 ≤ opcode && opcode ≤ 0x68) then
    match (switch checker fExec).lookup opcode with
    | some handler => handler flags st
    | none => .error (.scriptError .BAD_OPCODE)
  else .ok st

/-- The body of the loop of `EvalScript`. -/
def evalOp : Handler := fun flags st =>
  let fExec := !st.vfExec.contains false
  match getOp st.pc with
  | none => .error (.scriptError .BAD_OPCODE)
  | some (opcode, vchPushValue, pc) => do
    setErrorIf (MAX_SCRIPT_ELEMENT_SIZE < vchPushValue.length) .PUSH_SIZE
    let nOpCount := if OP_16 < opcode.toNat then st.nOpCount + 1 else st.nOpCount
    setErrorIf (OP_16 < opcode.toNat && 201 < nOpCount) .OP_COUNT
    setErrorIf (disabledOps.contains opcode) .DISABLED_OPCODE
    let st ← execute checker fExec opcode vchPushValue flags { st with pc, nOpCount }
    setErrorIf (1000 < st.stack.length + st.altstack.length) .STACK_SIZE
    return st

/-- The loop of `EvalScript`, over at most `len` opcodes. -/
def evalOps : (len : Nat) → Handler
  | 0, _, st => .ok st
  | len + 1, flags, st =>
    if st.pc.isEmpty then .ok st else do evalOps len flags (← evalOp checker flags st)

/-- The variables before the loop. -/
def EvalState.init (stack : Stack) (script : CScript) : EvalState :=
  ⟨script, script, stack, [], [], 0⟩

/-- The `try` block of `EvalScript`. -/
def evalLoop (flags : UInt32) (stack : Stack) (script : CScript) : Result EvalState :=
  evalOps checker script.length flags (.init stack script)

/-- The handler `catch (...)` of `EvalScript`. -/
def catchAll {α : Type} : Result α → Result α
  | .error (.scriptnumError _) => .error (.scriptError .UNKNOWN_ERROR)
  | .error .outOfRange => .error (.scriptError .UNKNOWN_ERROR)
  | x => x

/-- `EvalScript`: the stack that it leaves. -/
def evalScript (flags : UInt32) (stack : Stack) (script : CScript) : Result Stack := do
  setErrorIf (10000 < script.length) .SCRIPT_SIZE
  let st ← catchAll (evalLoop checker flags stack script)
  setErrorIf (!st.vfExec.isEmpty) .UNBALANCED_CONDITIONAL
  return st.stack

/-- The end of an evaluation: the stack must have a true top. -/
def checkTrue (stack : Stack) : Result Unit :=
  match stack with
  | [] => .error (.scriptError .EVAL_FALSE)
  | back :: _ => setErrorIf (!castToBool back) .EVAL_FALSE

/-- The evaluation of the script whose hash is spent: the stack that it leaves, from the one that the
`scriptSig` left. -/
def evalScriptHash (flags : UInt32) (scriptSig : CScript) (stack : Stack) : Result Stack := do
  setErrorIf (!isPushOnly scriptSig) .SIG_PUSHONLY
  assertThat (!stack.isEmpty)
  let pubKey2 ← stackTop stack 1
  let stack ← popStack stack
  let stack ← evalScript checker flags stack pubKey2
  checkTrue stack
  return stack

/-- The additional validation of `VerifyScript` for spends of a script hash. -/
def checkScriptHash (flags : UInt32) (scriptSig scriptPubKey : CScript) (stackCopy stack : Stack) :
    Result Stack :=
  if hasFlag flags SCRIPT_VERIFY_P2SH && isPayToScriptHash scriptPubKey then
    evalScriptHash checker flags scriptSig stackCopy
  else .ok stack

/-- The `CLEANSTACK` check of `VerifyScript`. -/
def checkCleanStack (flags : UInt32) (stack : Stack) : Result Unit :=
  if hasFlag flags SCRIPT_VERIFY_CLEANSTACK then do
    assertThat (hasFlag flags SCRIPT_VERIFY_P2SH)
    setErrorIf (stack.length != 1) .CLEANSTACK
  else .ok ()

/-- `VerifyScript`. -/
def verifyScript (flags : UInt32) (scriptSig scriptPubKey : CScript) : Result Unit := do
  setErrorIf (hasFlag flags SCRIPT_VERIFY_SIGPUSHONLY && !isPushOnly scriptSig) .SIG_PUSHONLY
  let stackCopy ← evalScript checker flags [] scriptSig
  let stack ← evalScript checker flags stackCopy scriptPubKey
  checkTrue stack
  let stack ← checkScriptHash checker flags scriptSig scriptPubKey stackCopy stack
  checkCleanStack flags stack

end

end GC
