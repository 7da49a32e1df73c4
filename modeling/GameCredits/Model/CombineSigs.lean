import GameCredits.Framework.Assoc
import GameCredits.Framework.SortedSet
import GameCredits.Model.Sign

/-!
# Combining signatures (script/sign.cpp)

`CombineSignatures` makes one `scriptSig` of two that are signed in part. The vectors of the source are
stacks here, so that the back of one is its head.
-/

namespace GC

open Framework (Bytes)
open Framework.Assoc (Map)
open Framework (SortedSet.insert)

/-- `PushAll`. -/
def pushAll (values : Stack) : CScript := values.reverse.flatMap pushData

/-- `operator<` of `vector<unsigned char>`. -/
def bytesLess (a b : Bytes) : Bool := decide (a < b)

/-- Adds the signatures to `allsigs`. -/
def insertSigs (sigs : Stack) (allsigs : List Bytes) : List Bytes :=
  sigs.foldr (fun v allsigs => if v.isEmpty then allsigs else SortedSet.insert bytesLess v allsigs)
    allsigs

section

variable (checker : Checker) (scriptPubKey : CScript)

/-- The loop that finds the key of a signature. -/
def matchSig (sig : Bytes) : List Bytes → Map Bytes Bytes → Map Bytes Bytes
  | [], sigs => sigs
  | pubkey :: pubkeys, sigs =>
    if (sigs.lookup pubkey).isSome then matchSig sig pubkeys sigs
    else if checker.checkSig sig pubkey scriptPubKey then sigs.insert pubkey sig
    else matchSig sig pubkeys sigs

/-- The map from keys to signatures. -/
def matchSigs (allsigs pubkeys : List Bytes) : Map Bytes Bytes :=
  allsigs.foldl (fun sigs sig => matchSig checker scriptPubKey sig pubkeys sigs) ∅

/-- The loop that merges the signatures, with `nLeft` to go. -/
def mergeSigs (sigs : Map Bytes Bytes) : (nLeft : Nat) → List Bytes → CScript → Nat × CScript
  | nLeft, [], result => (nLeft, result)
  | 0, _, result => (0, result)
  | nLeft + 1, pubkey :: pubkeys, result =>
    match sigs.lookup pubkey with
    | some sig => mergeSigs sigs nLeft pubkeys (result ++ pushData sig)
    | none => mergeSigs sigs (nLeft + 1) pubkeys result

/-- `CombineMultisig`. -/
def combineMultisig (vSolutions : List Bytes) (sigs1 sigs2 : Stack) : CScript :=
  let allsigs := insertSigs sigs2 (insertSigs sigs1 [])
  let nSigsRequired := ((vSolutions.headD []).headD 0).toNat
  let pubkeys := vSolutions.tail.dropLast
  let sigs := matchSigs checker scriptPubKey allsigs pubkeys
  let (nLeft, result) := mergeSigs sigs nSigsRequired pubkeys [0x00]
  result ++ List.replicate nLeft 0x00

end

section

variable (options : SolverOptions) (checker : Checker)

/-- The static `CombineSignatures`, which goes into redeem scripts. -/
def combineStacks : (sigs1 sigs2 : Stack) → (scriptPubKey : CScript) → (txType : TxnOutType) →
    (vSolutions : List Bytes) → CScript
  | sigs1, sigs2, _, .NONSTANDARD, _ =>
    if sigs2.length ≤ sigs1.length then pushAll sigs1 else pushAll sigs2
  | sigs1, sigs2, _, .NULL_DATA, _ =>
    if sigs2.length ≤ sigs1.length then pushAll sigs1 else pushAll sigs2
  | sigs1, sigs2, _, .PUBKEY, _ =>
    if (sigs1.getLastD []).isEmpty then pushAll sigs2 else pushAll sigs1
  | sigs1, sigs2, _, .PUBKEYHASH, _ =>
    if (sigs1.getLastD []).isEmpty then pushAll sigs2 else pushAll sigs1
  | [], sigs2, _, .SCRIPTHASH, _ => pushAll sigs2
  | spk :: sigs1, sigs2, _, .SCRIPTHASH, _ =>
    if spk.isEmpty then pushAll sigs2
    else if (sigs2.headD []).isEmpty then pushAll (spk :: sigs1)
    else
      let (_, txType2, vSolutions2) := solverRet options spk
      combineStacks sigs1 sigs2.tail spk txType2 vSolutions2 ++ pushData spk
  | sigs1, sigs2, scriptPubKey, .MULTISIG, vSolutions =>
    combineMultisig checker scriptPubKey vSolutions sigs1 sigs2

/-- `BaseSignatureChecker()`. -/
def baseSignatureChecker : Checker := { checker with checkSig := fun _ _ _ => false }

/-- `CombineSignatures`; `none` where `EvalScript` fails for one of the two, since what is on the stack
then is not modelled. -/
def combineSignatures (scriptPubKey scriptSig1 scriptSig2 : CScript) : Option CScript :=
  let (_, txType, vSolutions) := solverRet options scriptPubKey
  match evalScript (baseSignatureChecker checker) SCRIPT_VERIFY_STRICTENC [] scriptSig1,
    evalScript (baseSignatureChecker checker) SCRIPT_VERIFY_STRICTENC [] scriptSig2 with
  | .ok stack1, .ok stack2 =>
    some (combineStacks options checker stack1 stack2 scriptPubKey txType vSolutions)
  | _, _ => none

end

end GC
