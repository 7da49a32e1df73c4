import GameCredits.Framework.Counted
import GameCredits.Model.EvalScript

/-!
# The calls of CheckSig (script/interpreter.cpp)

`EvalScript` and `VerifyScript` with the number of calls of `checker.CheckSig` that they make. Only
`OP_CHECKSIG`, `OP_CHECKMULTISIG` and their `VERIFY` forms make any; all else is as in `EvalScript`.
-/

namespace GC

open Framework

/-- A result with the calls of `CheckSig` that were made. -/
abbrev SigResult := Counted Exn

abbrev SigHandler := (flags : UInt32) → EvalState → SigResult EvalState

section

variable (checker : Checker)

/-- `checker.CheckSig`. -/
def callCheckSig (vchSig vchPubKey : Bytes) (scriptCode : CScript) : SigResult Bool :=
  .call (checker.checkSig vchSig vchPubKey scriptCode)

/-- `OP_CHECKSIG` and `OP_CHECKSIGVERIFY`. -/
def countCheckSig (verify : Option ScriptError) : SigHandler := fun flags st => do
  needStack st.stack 2
  let vchSig ← stackTop st.stack 2
  let vchPubKey ← stackTop st.stack 1
  let scriptCode := findAndDelete st.pbegincodehash (pushData vchSig)
  checkSignatureEncoding flags checker vchSig
  checkPubKeyEncoding flags vchPubKey
  let fSuccess ← callCheckSig checker vchSig vchPubKey scriptCode
  let stack ← popStackN 2 st.stack
  let stack ← pushVerify verify fSuccess (boolBytes fSuccess) stack
  return { st with stack }

/-- The loop of `OP_CHECKMULTISIG` that checks the signatures. -/
def countSignatures (flags : UInt32) (stack : Stack) (scriptCode : CScript) :
    (nKeysCount nSigsCount isig ikey : Nat) → SigResult Bool
  | _, 0, _, _ => pure true
  | 0, _ + 1, _, _ => pure false
  | nKeysCount + 1, nSigsCount + 1, isig, ikey => do
    let vchSig ← stackTop stack isig
    let vchPubKey ← stackTop stack ikey
    checkSignatureEncoding flags checker vchSig
    checkPubKeyEncoding flags vchPubKey
    let fOk ← callCheckSig checker vchSig vchPubKey scriptCode
    if fOk then countSignatures flags stack scriptCode nKeysCount nSigsCount (isig + 1) (ikey + 1)
    else if nKeysCount < nSigsCount + 1 then pure false
    else countSignatures flags stack scriptCode nKeysCount (nSigsCount + 1) isig (ikey + 1)

/-- `OP_CHECKMULTISIG` and `OP_CHECKMULTISIGVERIFY`. -/
def countCheckMultisig (verify : Option ScriptError) : SigHandler := fun flags st => do
  needStack st.stack 1
  let fRequireMinimal := hasFlag flags SCRIPT_VERIFY_MINIMALDATA
  let vch ← stackTop st.stack 1
  let nKeys ← scriptNum fRequireMinimal vch
  let nKeys := getInt nKeys
  setErrorIf (decide (nKeys < 0) || decide (20 < nKeys)) .PUBKEY_COUNT
  let nKeysCount := nKeys.toNat
  let nOpCount := st.nOpCount + nKeysCount
  setErrorIf (201 < nOpCount) .OP_COUNT
  let ikey := 2
  let i := 2 + nKeysCount
  needStack st.stack i
  let vch ← stackTop st.stack i
  let nSigs ← scriptNum fRequireMinimal vch
  let nSigs := getInt nSigs
  setErrorIf (decide (nSigs < 0) || decide ((nKeysCount : Int) < nSigs)) .SIG_COUNT
  let nSigsCount := nSigs.toNat
  let isig := i + 1
  let i := i + 1 + nSigsCount
  needStack st.stack i
  let scriptCode ← dropSignatures st.stack nSigsCount isig st.pbegincodehash
  let fSuccess ← countSignatures checker flags st.stack scriptCode nKeysCount nSigsCount isig ikey
  let stack ← popStackN (i - 1) st.stack
  needStack stack 1
  let dummy ← stackTop stack 1
  setErrorIf (hasFlag flags SCRIPT_VERIFY_NULLDUMMY && !dummy.isEmpty) .SIG_NULLDUMMY
  let stack ← popStack stack
  let stack ← pushVerify verify fSuccess (boolBytes fSuccess) stack
  return { st with stack, nOpCount }

/-- The cases of the switch that call `CheckSig`. -/
def sigOps : List (UInt8 × SigHandler) :=
  [(OP_CHECKSIG, countCheckSig checker none),
   (OP_CHECKSIGVERIFY, countCheckSig checker (some .CHECKSIGVERIFY)),
   (OP_CHECKMULTISIG, countCheckMultisig checker none),
   (OP_CHECKMULTISIGVERIFY, countCheckMultisig checker (some .CHECKMULTISIGVERIFY))]

/-- What the opcode does, once it has been read and counted. -/
def countExecute (fExec : Bool) (opcode : UInt8) (vchPushValue : Bytes) : SigHandler := fun flags st =>
  match (sigOps checker).lookup opcode with
  | some handler => if fExec then handler flags st else pure st
  | none => liftM (execute checker fExec opcode vchPushValue flags st)

/-- The body of the loop of `EvalScript`. -/
def countOp : SigHandler := fun flags st =>
  let fExec := !st.vfExec.contains false
  match getOp st.pc with
  | none => liftM (Except.error (.scriptError .BAD_OPCODE) : Result EvalState)
  | some (opcode, vchPushValue, pc) => do
    setErrorIf (MAX_SCRIPT_ELEMENT_SIZE < vchPushValue.length) .PUSH_SIZE
    let nOpCount := if OP_16 < opcode.toNat then st.nOpCount + 1 else st.nOpCount
    setErrorIf (OP_16 < opcode.toNat && 201 < nOpCount) .OP_COUNT
    setErrorIf (disabledOps.contains opcode) .DISABLED_OPCODE
    let st ← countExecute checker fExec opcode vchPushValue flags { st with pc, nOpCount }
    setErrorIf (1000 < st.stack.length + st.altstack.length) .STACK_SIZE
    return st

/-- The loop of `EvalScript`, over at most `len` opcodes. -/
def countOps : (len : Nat) → SigHandler
  | 0, _, st => pure st
  | len + 1, flags, st =>
    if st.pc.isEmpty then pure st
    else do
      let st ← countOp checker flags st
      countOps len flags st

/-- The `try` block of `EvalScript` with its handler `catch (...)`. -/
def countLoop (flags : UInt32) (stack : Stack) (script : CScript) : SigResult EvalState :=
  let x := countOps checker script.length flags (.init stack script)
  ⟨catchAll x.result, x.calls⟩

/-- `EvalScript`. -/
def countEvalScript (flags : UInt32) (stack : Stack) (script : CScript) : SigResult Stack := do
  setErrorIf (10000 < script.length) .SCRIPT_SIZE
  let st ← countLoop checker flags stack script
  setErrorIf (!st.vfExec.isEmpty) .UNBALANCED_CONDITIONAL
  return st.stack

/-- The evaluation of the redeem script by `VerifyScript`. -/
def countScriptHash (flags : UInt32) (scriptSig scriptPubKey : CScript) (stackCopy stack : Stack) :
    SigResult Stack :=
  if hasFlag flags SCRIPT_VERIFY_P2SH && isPayToScriptHash scriptPubKey then do
    setErrorIf (!isPushOnly scriptSig) .SIG_PUSHONLY
    assertThat (!stackCopy.isEmpty)
    let pubKey2 ← stackTop stackCopy 1
    let stack ← popStack stackCopy
    let stack ← countEvalScript checker flags stack pubKey2
    checkTrue stack
    return stack
  else pure stack

/-- `VerifyScript`, up to the evaluation of the redeem script: the stacks after the `scriptSig` and
after the `scriptPubKey`. -/
def countPubKey (flags : UInt32) (scriptSig scriptPubKey : CScript) : SigResult (Stack × Stack) := do
  setErrorIf (hasFlag flags SCRIPT_VERIFY_SIGPUSHONLY && !isPushOnly scriptSig) .SIG_PUSHONLY
  let stackCopy ← countEvalScript checker flags [] scriptSig
  let stack ← countEvalScript checker flags stackCopy scriptPubKey
  checkTrue stack
  return (stackCopy, stack)

/-- `VerifyScript`. -/
def countVerifyScript (flags : UInt32) (scriptSig scriptPubKey : CScript) : SigResult Unit := do
  let (stackCopy, stack) ← countPubKey checker flags scriptSig scriptPubKey
  let stack ← countScriptHash checker flags scriptSig scriptPubKey stackCopy stack
  checkCleanStack flags stack

/-- The calls that `VerifyScript` makes while it evaluates the redeem script. -/
def redeemCalls (flags : UInt32) (scriptSig scriptPubKey : CScript) : Nat :=
  match (countPubKey checker flags scriptSig scriptPubKey).result with
  | .ok (stackCopy, stack) =>
    (countScriptHash checker flags scriptSig scriptPubKey stackCopy stack).calls
  | .error _ => 0

end

end GC
