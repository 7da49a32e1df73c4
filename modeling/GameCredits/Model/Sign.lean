import GameCredits.Model.EvalScript

/-!
# Keys and signatures (keystore.cpp, script/standard.cpp, script/sign.cpp, wallet_ismine.cpp)

The templates of scripts, which scripts are the wallet's (`IsMine`), and the `scriptSig` that spends
one (`ProduceSignature`). Keys are known by the hash of the public key. `CreateSig` is a parameter, as
are the hash functions and the signature checker.
-/

namespace GC

open Framework (Bytes leNat)

/-- `uint160`: the hash of a public key or of a script. -/
abbrev UInt160 := Digest 20

theorem length_zeros : (List.replicate 20 (0 : UInt8)).length = 20 := rfl

theorem length_padded (vch : Bytes) : ((vch ++ List.replicate 20 0).take 20).length = 20 := by simp

/-! ## Key stores -/

/-- `CBasicKeyStore`, where `mapKeys` has the public keys. Only a key with its own hash, and only a
script with its own hash that is not too large, is ever added. -/
structure KeyStore (hash160 : Bytes → UInt160) where
  mapKeys : UInt160 → Option Bytes
  mapScripts : UInt160 → Option CScript
  setWatchOnly : List CScript
  keys : ∀ id vchPubKey, mapKeys id = some vchPubKey →
    hash160 vchPubKey = id ∧ isCompressedOrUncompressedPubKey vchPubKey = true
  scripts : ∀ id redeemScript, mapScripts id = some redeemScript →
    hash160 redeemScript = id ∧ redeemScript.length ≤ MAX_SCRIPT_ELEMENT_SIZE

namespace KeyStore

variable {hash160 : Bytes → UInt160} (keystore : KeyStore hash160)

def empty : KeyStore hash160 where
  mapKeys _ := none
  mapScripts _ := none
  setWatchOnly := []
  keys _ _ h := by cases h
  scripts _ _ h := by cases h

/-- `AddKeyPubKey`. -/
def addKeyPubKey (vchPubKey : Bytes) (h : isCompressedOrUncompressedPubKey vchPubKey = true) :
    KeyStore hash160 :=
  { keystore with
    mapKeys := fun id => if id = hash160 vchPubKey then some vchPubKey else keystore.mapKeys id
    keys := fun id key hkey => by
      split_ifs at hkey with hid
      · cases hkey
        exact ⟨hid.symm, h⟩
      · exact keystore.keys id key hkey }

/-- `AddCScript`. -/
def addCScript (redeemScript : CScript) : KeyStore hash160 :=
  if h : MAX_SCRIPT_ELEMENT_SIZE < redeemScript.length then keystore
  else
    { keystore with
      mapScripts := fun id =>
        if id = hash160 redeemScript then some redeemScript else keystore.mapScripts id
      scripts := fun id script hscript => by
        split_ifs at hscript with hid
        · cases hscript
          exact ⟨hid.symm, Nat.not_lt.mp h⟩
        · exact keystore.scripts id script hscript }

def haveKey (address : UInt160) : Bool := (keystore.mapKeys address).isSome

def haveWatchOnly (dest : CScript) : Bool := keystore.setWatchOnly.contains dest

end KeyStore

/-! ## Scripts that are built -/

/-- `CScript::EncodeOP_N`. -/
def encodeOpN (n : Nat) : UInt8 := if n = 0 then 0x00 else UInt8.ofNat (OP_1 + n - 1)

/-- `CScript::DecodeOP_N`. -/
def decodeOpN (opcode : UInt8) : Nat := if opcode = 0x00 then 0 else opcode.toNat - (OP_1 - 1)

/-- `CTxDestination`. -/
inductive Destination where
  | noDestination
  | keyID (id : UInt160)
  | scriptID (id : UInt160)
  deriving DecidableEq

/-- `GetScriptForDestination`. -/
def getScriptForDestination : Destination → CScript
  | .noDestination => []
  | .keyID id => [OP_DUP, OP_HASH160] ++ pushData id.val ++ [OP_EQUALVERIFY, OP_CHECKSIG]
  | .scriptID id => [OP_HASH160] ++ pushData id.val ++ [OP_EQUAL]

/-- `GetScriptForMultisig`. -/
def getScriptForMultisig (nRequired : Nat) (keys : List Bytes) : CScript :=
  [encodeOpN nRequired] ++ keys.flatMap pushData ++ [encodeOpN keys.length, OP_CHECKMULTISIG]

/-- `<key> OP_CHECKSIG`. -/
def getScriptForPubKey (vchPubKey : Bytes) : CScript := pushData vchPubKey ++ [OP_CHECKSIG]

/-! ## Solver -/

inductive TxnOutType where
  | NONSTANDARD | PUBKEY | PUBKEYHASH | SCRIPTHASH | MULTISIG | NULL_DATA
  deriving DecidableEq, Repr

def OP_SMALLDATA : UInt8 := 0xF9
def OP_SMALLINTEGER : UInt8 := 0xFA
def OP_PUBKEYS : UInt8 := 0xFB
def OP_PUBKEYHASH : UInt8 := 0xFD
def OP_PUBKEY : UInt8 := 0xFE

/-- `mTemplates`, in the order of the types. -/
def mTemplates (fDataCarrier : Bool) : List (TxnOutType × CScript) :=
  [(.PUBKEY, [OP_PUBKEY, OP_CHECKSIG]),
   (.PUBKEYHASH, [OP_DUP, OP_HASH160, OP_PUBKEYHASH, OP_EQUALVERIFY, OP_CHECKSIG]),
   (.MULTISIG, [OP_SMALLINTEGER, OP_PUBKEYS, OP_SMALLINTEGER, OP_CHECKMULTISIG])] ++
    (if fDataCarrier then [(.NULL_DATA, [OP_RETURN, OP_SMALLDATA])] else []) ++
    [(.NULL_DATA, [OP_RETURN])]

/-- An opcode that was read, with its operand and the rest of the script. -/
abbrev ReadOp := UInt8 × Bytes × Bytes

/-- The loop for `OP_PUBKEYS`. Where `GetOp` returns false the opcode is invalid. -/
def takePubKeys : (len : Nat) → ReadOp → List Bytes → ReadOp × List Bytes
  | 0, op, vSolutions => (op, vSolutions)
  | len + 1, (opcode1, vch1, pc1), vSolutions =>
    if 33 ≤ vch1.length ∧ vch1.length ≤ 65 then
      match getOp pc1 with
      | none => ((OP_INVALIDOPCODE, [], pc1), vSolutions ++ [vch1])
      | some op => takePubKeys len op (vSolutions ++ [vch1])
    else ((opcode1, vch1, pc1), vSolutions)

/-- An opcode against one of a template: what is added to the solutions, or `none` where it does not
match. -/
def matchOp (nMaxDatacarrierBytes : Nat) (opcode1 opcode2 : UInt8) (vch1 vch2 : Bytes) :
    Option (List Bytes) :=
  if opcode2 = OP_PUBKEY then
    if vch1.length < 33 ∨ 65 < vch1.length then none else some [vch1]
  else if opcode2 = OP_PUBKEYHASH then if vch1.length ≠ 20 then none else some [vch1]
  else if opcode2 = OP_SMALLINTEGER then
    if opcode1 = 0x00 ∨ (OP_1 ≤ opcode1.toNat ∧ opcode1.toNat ≤ OP_16) then
      some [[UInt8.ofNat (decodeOpN opcode1)]]
    else none
  else if opcode2 = OP_SMALLDATA then if nMaxDatacarrierBytes < vch1.length then none else some []
  else if opcode1 ≠ opcode2 ∨ vch1 ≠ vch2 then none
  else some []

/-- The loop that compares a script with a template, over at most `len` opcodes of the template. -/
def matchTemplate (nMaxDatacarrierBytes : Nat) :
    (len : Nat) → (pc1 pc2 : Bytes) → List Bytes → Option (List Bytes)
  | 0, pc1, pc2, vSolutions => if pc1.isEmpty && pc2.isEmpty then some vSolutions else none
  | len + 1, pc1, pc2, vSolutions =>
    if pc1.isEmpty && pc2.isEmpty then some vSolutions
    else do
      let op1 ← getOp pc1
      let op2 ← getOp pc2
      let (op1, vSolutions) :=
        if op2.1 = OP_PUBKEYS then takePubKeys pc1.length op1 vSolutions else (op1, vSolutions)
      let op2 ← if op2.1 = OP_PUBKEYS then getOp op2.2.2 else some op2
      let more ← matchOp nMaxDatacarrierBytes op1.1 op2.1 op1.2.1 op2.2.1
      matchTemplate nMaxDatacarrierBytes len op1.2.2 op2.2.2 (vSolutions ++ more)

/-- The additional checks for `TX_MULTISIG`. -/
def multisigOk (vSolutions : List Bytes) : Bool :=
  let m := ((vSolutions.headD []).headD 0).toNat
  let n := ((vSolutions.getLastD []).headD 0).toNat
  !(m < 1 || n < 1 || n < m || vSolutions.length - 2 != n)

/-- The options `-datacarrier` and `-datacarriersize`. -/
structure SolverOptions where
  fDataCarrier : Bool
  nMaxDatacarrierBytes : Nat

/-- The loop of `Solver` over the templates: what it returns, and what it leaves in its references. -/
def scanTemplates (options : SolverOptions) (scriptPubKey : CScript) :
    List (TxnOutType × CScript) → Bool × TxnOutType × List Bytes
  | [] => (false, .NONSTANDARD, [])
  | (typeRet, script2) :: templates =>
    match matchTemplate options.nMaxDatacarrierBytes script2.length scriptPubKey script2 [] with
    | none => scanTemplates options scriptPubKey templates
    | some vSolutions => (typeRet != .MULTISIG || multisigOk vSolutions, typeRet, vSolutions)

/-- `Solver`, with its references. -/
def solverRet (options : SolverOptions) (scriptPubKey : CScript) : Bool × TxnOutType × List Bytes :=
  if isPayToScriptHash scriptPubKey then (true, .SCRIPTHASH, [(scriptPubKey.drop 2).take 20])
  else scanTemplates options scriptPubKey (mTemplates options.fDataCarrier)

/-- `Solver` for those who ask whether it returns true: the type and the solutions, or `none`. -/
def solver (options : SolverOptions) (scriptPubKey : CScript) : Option (TxnOutType × List Bytes) :=
  if (solverRet options scriptPubKey).1 then some (solverRet options scriptPubKey).2 else none

/-! ## IsMine -/

inductive IsMineType where
  | NO | WATCH_ONLY | SPENDABLE
  deriving DecidableEq, Repr

/-- `CPubKey(vch)`: the key, or nothing where it is invalid. -/
def parsePubKey (vch : Bytes) : Bytes :=
  let len := match vch.headD 0 with
    | 0x02 | 0x03 => 33
    | 0x04 | 0x06 | 0x07 => 65
    | _ => 0
  if len = vch.length then vch else []

/-- `uint160(vch)`. -/
def toUInt160 (vch : Bytes) : Option UInt160 := if h : vch.length = 20 then some ⟨vch, h⟩ else none

section

variable {hash160 : Bytes → UInt160} (options : SolverOptions) (keystore : KeyStore hash160)

/-- `CPubKey(vch).GetID()`. -/
def getID (hash160 : Bytes → UInt160) (vch : Bytes) : UInt160 := hash160 (parsePubKey vch)

/-- `ExtractDestination`; `none` where it returns false. -/
def extractDestination (hash160 : Bytes → UInt160) (scriptPubKey : CScript) : Option Destination :=
  match solver options scriptPubKey with
  | some (.PUBKEY, vSolutions) =>
    let pubKey := parsePubKey (vSolutions.headD [])
    if pubKey.isEmpty then none else some (.keyID (hash160 pubKey))
  | some (.PUBKEYHASH, vSolutions) => (toUInt160 (vSolutions.headD [])).map .keyID
  | some (.SCRIPTHASH, vSolutions) => (toUInt160 (vSolutions.headD [])).map .scriptID
  | _ => none

/-- `HaveKeys`. -/
def haveKeys (pubkeys : List Bytes) : Nat :=
  pubkeys.countP fun pubkey => keystore.haveKey (getID hash160 pubkey)

/-- `IsMine`, which goes down into at most `depth` redeem scripts; `none` where these are not
enough. -/
def isMine : (depth : Nat) → CScript → Option IsMineType
  | 0, _ => none
  | depth + 1, scriptPubKey =>
    let watchOnly := if keystore.haveWatchOnly scriptPubKey then .WATCH_ONLY else .NO
    match solver options scriptPubKey with
    | none => some watchOnly
    | some (.PUBKEY, vSolutions) =>
      some (if keystore.haveKey (getID hash160 (vSolutions.headD [])) then .SPENDABLE else watchOnly)
    | some (.PUBKEYHASH, vSolutions) =>
      some (if ((toUInt160 (vSolutions.headD [])).map keystore.haveKey).getD false then .SPENDABLE
        else watchOnly)
    | some (.SCRIPTHASH, vSolutions) =>
      match (toUInt160 (vSolutions.headD [])).bind keystore.mapScripts with
      | none => some watchOnly
      | some subscript =>
        (isMine depth subscript).map fun ret => if ret = .SPENDABLE then ret else watchOnly
    | some (.MULTISIG, vSolutions) =>
      let keys := vSolutions.tail.dropLast
      some (if haveKeys keystore keys = keys.length then .SPENDABLE else watchOnly)
    | some (.NONSTANDARD, _) => some watchOnly
    | some (.NULL_DATA, _) => some watchOnly

end

/-! ## Signatures -/

/-- `BaseSignatureCreator`. -/
structure SignatureCreator where
  checker : Checker
  keystore : KeyStore checker.hash160
  createSig : (address : UInt160) → (scriptCode : CScript) → Option Bytes

section

variable (options : SolverOptions) (creator : SignatureCreator)

/-- `Sign1`. -/
def sign1 (address : UInt160) (scriptCode scriptSig : CScript) : Bool × CScript :=
  match creator.createSig address scriptCode with
  | none => (false, scriptSig)
  | some vchSig => (true, scriptSig ++ pushData vchSig)

/-- The loop of `SignN`, with `nLeft` signatures to go. -/
def signKeys (scriptCode : CScript) : (nLeft : Nat) → List Bytes → CScript → Nat × CScript
  | nLeft, [], scriptSig => (nLeft, scriptSig)
  | 0, _, scriptSig => (0, scriptSig)
  | nLeft + 1, pubkey :: keys, scriptSig =>
    match sign1 creator (getID creator.checker.hash160 pubkey) scriptCode scriptSig with
    | (true, scriptSig) => signKeys scriptCode nLeft keys scriptSig
    | (false, scriptSig) => signKeys scriptCode (nLeft + 1) keys scriptSig

/-- `SignN`. -/
def signN (multisigdata : List Bytes) (scriptCode scriptSig : CScript) : Bool × CScript :=
  let nRequired := ((multisigdata.headD []).headD 0).toNat
  let r := signKeys creator scriptCode nRequired multisigdata.tail.dropLast scriptSig
  (r.1 == 0, r.2)

/-- `SignStep`: whether the script is solved, the `scriptSig` and the type. -/
def signStep (scriptPubKey : CScript) : Bool × CScript × TxnOutType :=
  match solver options scriptPubKey with
  | none => (false, [], .NONSTANDARD)
  | some (whichType, vSolutions) =>
    let front := vSolutions.headD []
    match whichType with
    | .NONSTANDARD | .NULL_DATA => (false, [], whichType)
    | .PUBKEY =>
      let r := sign1 creator (getID creator.checker.hash160 front) scriptPubKey []
      (r.1, r.2, whichType)
    | .PUBKEYHASH =>
      match toUInt160 front with
      | none => (false, [], whichType)
      | some keyID =>
        match sign1 creator keyID scriptPubKey [] with
        | (false, scriptSig) => (false, scriptSig, whichType)
        | (true, scriptSig) =>
          (true, scriptSig ++ pushData ((creator.keystore.mapKeys keyID).getD []), whichType)
    | .SCRIPTHASH =>
      match (toUInt160 front).bind creator.keystore.mapScripts with
      | none => (false, [], whichType)
      | some subscript => (true, subscript, whichType)
    | .MULTISIG =>
      let r := signN creator vSolutions scriptPubKey [0x00]
      (r.1, r.2, whichType)

/-- `VerifyScript` with the standard flags. -/
def verifyStandard (scriptSig scriptPubKey : CScript) : Bool :=
  match verifyScript creator.checker STANDARD_SCRIPT_VERIFY_FLAGS scriptSig scriptPubKey with
  | .ok () => true
  | .error _ => false

/-- `ProduceSignature`. -/
def produceSignature (fromPubKey : CScript) : Bool × CScript :=
  match signStep options creator fromPubKey with
  | (false, scriptSig, _) => (false, scriptSig)
  | (true, subscript, .SCRIPTHASH) =>
    let (fSigned, scriptSig, subType) := signStep options creator subscript
    let fSolved := fSigned && subType != .SCRIPTHASH
    let scriptSig := scriptSig ++ pushData subscript
    if !fSolved then (false, scriptSig) else (verifyStandard creator scriptSig fromPubKey, scriptSig)
  | (true, scriptSig, _) => (verifyStandard creator scriptSig fromPubKey, scriptSig)

end

end GC
