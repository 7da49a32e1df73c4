import GameCredits.Proof.SigOps
import GameCredits.Proof.Sign

/-!
# Signing with some of the keys

`SignN` signs with the first keys that the store has. `OP_CHECKMULTISIG` reads the keys from the last one
on, and no further than the signatures go, so that keys with an encoding that the standard flags refuse
are in the way only there.
-/

namespace GC

open Framework

/-- `CreateSig` signs for the keys in the store only. A signature has the standard encoding, and the
checker takes it, with the script code that the opcodes give to it, for its own key only. -/
structure SignsOwn (creator : SignatureCreator) : Prop where
  held : ∀ address scriptCode, creator.keystore.haveKey address = true →
    ∃ vchSig, creator.createSig address scriptCode = some vchSig ∧ StandardSig vchSig ∧
      ∀ vchPubKey, creator.checker.checkSig vchSig vchPubKey
        (findAndDelete scriptCode (pushData vchSig)) = true ↔
          creator.checker.hash160 vchPubKey = address
  missing : ∀ address scriptCode, creator.keystore.haveKey address = false →
    creator.createSig address scriptCode = none

/-- `script` is what is asked for: it is the `scriptPubKey`, or a redeem script in the store, which
follows in the `scriptSig`. -/
inductive PaysTo {hash160 : Bytes → UInt160} (keystore : KeyStore hash160) (script : CScript) :
    (scriptPubKey : CScript) → (redeem : List Bytes) → Prop
  | bare : PaysTo keystore script script []
  | scriptID {id : UInt160} (h : keystore.mapScripts id = some script) :
    PaysTo keystore script (getScriptForDestination (.scriptID id)) [script]

section

variable {options : SolverOptions} {creator : SignatureCreator}

theorem SignsOwn.signs (h : SignsOwn creator) : Signs creator := fun address scriptCode hhave => by
  obtain ⟨vchSig, hcreate, hstandard, haccept⟩ := h.held address scriptCode hhave
  exact ⟨vchSig, hcreate, hstandard, fun vchPubKey => (haccept vchPubKey).mpr⟩

/-! ## Verifying -/

/-- What is left to check is the script. -/
theorem verifyScript_paysTo {script scriptPubKey : CScript} {redeem items : List Bytes}
    (hpays : PaysTo creator.keystore script scriptPubKey redeem) (hcount : items.length ≤ 17)
    (hsizes : ∀ b ∈ items, b.length ≠ 1 ∧ b.length ≤ MAX_SCRIPT_ELEMENT_SIZE)
    (hsize : 2 ≤ script.length) (hp2sh : isPayToScriptHash script = false) :
    verifyScript creator.checker STANDARD_SCRIPT_VERIFY_FLAGS ((items ++ redeem).flatMap pushData)
        scriptPubKey =
      evalScript creator.checker STANDARD_SCRIPT_VERIFY_FLAGS items.reverse script >>= fun stack =>
      checkTrue stack >>= fun _ => checkCleanStack STANDARD_SCRIPT_VERIFY_FLAGS stack := by
  cases hpays with
  | bare =>
    have hitems : Pushable (items ++ []) := by
      rw [List.append_nil]
      exact ⟨hcount.trans (by decide), hsizes⟩
    unfold verifyScript
    rw [evalScript_pushes hitems, List.append_nil]
    have hcheck : ∀ stack, checkScriptHash creator.checker STANDARD_SCRIPT_VERIFY_FLAGS
        (items.flatMap pushData) script items.reverse stack = .ok stack := fun stack => by
      rw [checkScriptHash, hp2sh, Bool.and_false]
      rfl
    show (evalScript creator.checker STANDARD_SCRIPT_VERIFY_FLAGS items.reverse script >>= fun stack =>
      checkTrue stack >>= fun _ => checkScriptHash creator.checker STANDARD_SCRIPT_VERIFY_FLAGS
        (items.flatMap pushData) script items.reverse stack >>= _) = _
    simp only [hcheck]
    rfl
  | @scriptID id h =>
    obtain ⟨rfl, hmax⟩ := creator.keystore.scripts id script h
    have hitems : Pushable (items ++ [script]) := by
      refine ⟨by rw [List.length_append, List.length_singleton]; omega, fun b hb => ?_⟩
      rcases List.mem_append.mp hb with hb | hb
      · exact hsizes b hb
      · rw [List.mem_singleton.mp hb]
        exact ⟨by omega, hmax⟩
    exact verifyScript_redeem hitems

/-- The items and the redeem script are what `ProduceSignature` leaves in the `scriptSig`. -/
theorem produceSignature_paysTo {script scriptPubKey : CScript} {redeem items : List Bytes}
    {fSigned : Bool} {whichType : TxnOutType}
    (hpays : PaysTo creator.keystore script scriptPubKey redeem)
    (hstep : signStep options creator script = (fSigned, items.flatMap pushData, whichType))
    (htype : whichType ≠ .SCRIPTHASH) :
    produceSignature options creator scriptPubKey =
      (fSigned && verifyStandard creator ((items ++ redeem).flatMap pushData) scriptPubKey,
        (items ++ redeem).flatMap pushData) := by
  cases hpays with
  | bare =>
    rw [produceSignature, hstep, List.append_nil]
    cases fSigned with
    | false => rfl
    | true =>
      cases whichType with
      | SCRIPTHASH => exact absurd rfl htype
      | _ => rfl
  | scriptID h =>
    have hsub : (whichType != .SCRIPTHASH) = true := bne_iff_ne.mpr htype
    rw [produceSignature, signStep_scriptID h, List.flatMap_append, List.flatMap_singleton]
    simp only [hstep, hsub, Bool.and_true]
    cases fSigned <;> rfl

theorem verifyStandard_iff {script scriptPubKey : CScript} {redeem items : List Bytes}
    (hpays : PaysTo creator.keystore script scriptPubKey redeem) (hcount : items.length ≤ 17)
    (hsizes : ∀ b ∈ items, b.length ≠ 1 ∧ b.length ≤ MAX_SCRIPT_ELEMENT_SIZE)
    (hsize : 2 ≤ script.length) (hp2sh : isPayToScriptHash script = false) :
    verifyStandard creator ((items ++ redeem).flatMap pushData) scriptPubKey = true ↔
      ∃ stack, evalScript creator.checker STANDARD_SCRIPT_VERIFY_FLAGS items.reverse script = .ok stack ∧
        checkTrue stack = .ok () ∧ stack.length = 1 := by
  have hflags : ∀ stack : Stack, checkCleanStack STANDARD_SCRIPT_VERIFY_FLAGS stack = .ok () ↔
      stack.length = 1 := fun stack => by
    rw [checkCleanStack, if_pos (by decide)]
    show setErrorIf (stack.length != 1) .CLEANSTACK = .ok () ↔ _
    rw [setErrorIf_eq_ok, bne_eq_false_iff_eq]
  rw [verifyStandard, verifyScript_paysTo hpays hcount hsizes hsize hp2sh]
  constructor
  · intro h
    split at h
    · rename_i hok
      obtain ⟨stack, heval, hok⟩ := bind_eq_ok.mp hok
      obtain ⟨_, htrue, hok⟩ := bind_eq_ok.mp hok
      exact ⟨stack, heval, htrue, (hflags stack).mp hok⟩
    · cases h
  · rintro ⟨stack, heval, htrue, hlen⟩
    rw [heval, ok_bind, htrue, ok_bind, (hflags stack).mpr hlen]

end

/-! ## The last opcode -/

section

variable {checker : Checker} {flags : UInt32} {stack stack' out : Stack} {script code : CScript} {n : Nat}

/-- What the last opcode has done, where evaluation comes to it. -/
theorem evalScript_last (handler : Handler) {opcode : UInt8}
    (hrun : Evals checker flags (.init stack script) ⟨[opcode], code, stack', [], [], n⟩)
    (hlookup : (switch checker true).lookup opcode = some handler) (hop : OP_16 < opcode.toNat)
    (heval : evalScript checker flags stack script = .ok out) :
    ∃ st, handler flags ⟨[], code, stack', [], [], n + 1⟩ = .ok st ∧ (st.pc = [] → out = st.stack) := by
  have hpush : OP_PUSHDATA4 < opcode.toNat := Nat.lt_trans (by decide) hop
  obtain ⟨_, -, heval⟩ := bind_eq_ok.mp heval
  obtain ⟨st', hloop, heval⟩ := bind_eq_ok.mp heval
  obtain ⟨_, -, heval⟩ := bind_eq_ok.mp heval
  cases heval
  have hloop : evalOps checker script.length flags (.init stack script) = .ok st' := catchAll_ok hloop
  obtain ⟨len, hlen, heq⟩ := hrun script.length (Nat.le_refl _)
  rw [heq] at hloop
  obtain ⟨len, rfl⟩ : ∃ k, len = k + 1 := ⟨len - 1, by
    have : 1 ≤ len := hlen
    omega⟩
  rw [evalOps] at hloop
  obtain ⟨st, hst, hrest⟩ := bind_eq_ok.mp hloop
  have hget := getOp_opcode hpush []
  refine ⟨st, ?_, fun hpc => ?_⟩
  · unfold evalOp at hst
    simp only [hget] at hst
    obtain ⟨_, -, hst⟩ := bind_eq_ok.mp hst
    obtain ⟨_, -, hst⟩ := bind_eq_ok.mp hst
    obtain ⟨_, -, hst⟩ := bind_eq_ok.mp hst
    obtain ⟨st₁, hexec, hst⟩ := bind_eq_ok.mp hst
    obtain ⟨_, -, hst⟩ := bind_eq_ok.mp hst
    cases hst
    rw [if_pos hop] at hexec
    exact (execute_handler hlookup hpush [] flags _).symm.trans hexec
  · have hend : evalOps checker len flags st = .ok st := by
      cases len with
      | zero => rfl
      | succ len =>
        rw [evalOps, hpc]
        rfl
    rw [hend] at hrest
    exact congrArg EvalState.stack (Except.ok.inj hrest).symm

theorem checkTrue_boolBytes {b : Bool} : checkTrue [boolBytes b] = .ok () ↔ b = true := by
  cases b with
  | false => exact iff_of_false (fun h => by cases h) Bool.false_ne_true
  | true => exact iff_of_true rfl rfl

end

/-! ## A key -/

section

variable {options : SolverOptions} {creator : SignatureCreator} {scriptPubKey : CScript}
  {redeem : List Bytes}

/-- What solves the script is signed for. -/
theorem produceSignature_solved {script : CScript} {items : List Bytes} {whichType : TxnOutType}
    (hpays : PaysTo creator.keystore script scriptPubKey redeem)
    (hstep : signStep options creator script = (true, items.flatMap pushData, whichType))
    (htype : whichType ≠ .SCRIPTHASH) (hsolved : SolvedBy creator.checker script items) :
    (produceSignature options creator scriptPubKey).1 = true := by
  obtain ⟨n, hrun⟩ := hsolved.solves
  rw [produceSignature_paysTo hpays hstep htype, Bool.true_and]
  exact (verifyStandard_iff hpays hsolved.count hsolved.sizes hsolved.size.1
    hsolved.not_scriptHash).mpr ⟨[vchTrue], hrun.evalScript rfl rfl hsolved.size.2, rfl, rfl⟩

theorem checkPubKeyEncoding_iff {key : Bytes} :
    checkPubKeyEncoding STANDARD_SCRIPT_VERIFY_FLAGS key = .ok () ↔
      isCompressedOrUncompressedPubKey key = true := by
  have hflag : hasFlag STANDARD_SCRIPT_VERIFY_FLAGS SCRIPT_VERIFY_STRICTENC = true := by decide
  rw [checkPubKeyEncoding, setErrorIf_eq_ok, hflag, Bool.true_and, Bool.not_eq_false']

theorem IsValidPubKey.getID_eq {key : Bytes} (h : IsValidPubKey key) (hash160 : Bytes → UInt160) :
    getID hash160 key = hash160 key := by rw [getID, h.1]

theorem signStep_getScriptForPubKey (options : SolverOptions) (creator : SignatureCreator) {key : Bytes}
    (hkey : IsValidPubKey key) :
    ∃ fSigned, signStep options creator (getScriptForPubKey key) = (fSigned,
      ((creator.createSig (creator.checker.hash160 key) (getScriptForPubKey key)).toList).flatMap
        pushData, .PUBKEY) ∧
      fSigned = (creator.createSig (creator.checker.hash160 key) (getScriptForPubKey key)).isSome := by
  refine ⟨_, ?_, rfl⟩
  rw [signStep, solver_pubKey options hkey]
  simp only [List.headD_cons, hkey.getID_eq, sign1]
  cases creator.createSig (creator.checker.hash160 key) (getScriptForPubKey key) with
  | none => rfl
  | some vchSig => simp

/-- A script for a key is signed for with that key, if it has a standard encoding. -/
theorem produceSignature_pubKey (hsigns : SignsOwn creator) {key : Bytes} (hkey : IsValidPubKey key)
    (hpays : PaysTo creator.keystore (getScriptForPubKey key) scriptPubKey redeem) :
    ((produceSignature options creator scriptPubKey).1 = true ↔
      creator.keystore.haveKey (creator.checker.hash160 key) = true ∧
        isCompressedOrUncompressedPubKey key = true) ∧
    (produceSignature options creator scriptPubKey).2 =
      ((creator.createSig (creator.checker.hash160 key) (getScriptForPubKey key)).toList ++
        redeem).flatMap pushData := by
  obtain ⟨fSigned, hstep, hsome⟩ := signStep_getScriptForPubKey options creator hkey
  have hproduce := produceSignature_paysTo hpays hstep (by decide)
  refine ⟨?_, by rw [hproduce]⟩
  constructor
  · intro h
    rw [hproduce] at h
    obtain ⟨hsigned, hverify⟩ := Bool.and_eq_true_iff.mp h
    have hhave : creator.keystore.haveKey (creator.checker.hash160 key) = true := by
      by_contra hmissing
      rw [hsome, hsigns.missing _ _ (by simpa using hmissing)] at hsigned
      cases hsigned
    obtain ⟨sig, hcreate, hstandard, -⟩ := hsigns.held _ (getScriptForPubKey key) hhave
    have hlen := length_getScriptForPubKey hkey.keyShape
    have hsize := hkey.keyShape.size
    rw [hcreate, Option.toList_some] at hverify
    have hcount : [sig].length ≤ 17 := Nat.le_add_left 1 16
    obtain ⟨stack, heval, -⟩ := (verifyStandard_iff hpays hcount (by simpa using hstandard.sizes)
      (by omega) (isPayToScriptHash_length (by omega))).mp hverify
    have hrun : Evals creator.checker STANDARD_SCRIPT_VERIFY_FLAGS
        (.init [sig] (getScriptForPubKey key))
        ⟨[OP_CHECKSIG], getScriptForPubKey key, [key, sig], [], [], 0⟩ :=
      Evals.push (.of_sizes (pubKey_sizes hkey.keyShape))
        (by rw [List.length_append, List.length_singleton]; omega) (Nat.le_add_left 2 998)
    obtain ⟨st, hop, -⟩ := evalScript_last (opCheckSig creator.checker none) hrun rfl (by decide) heval
    obtain ⟨_, -, hop⟩ := bind_eq_ok.mp hop
    obtain ⟨vchSig, -, hop⟩ := bind_eq_ok.mp hop
    obtain ⟨vchPubKey, htop, hop⟩ := bind_eq_ok.mp hop
    cases htop
    obtain ⟨_, -, hop⟩ := bind_eq_ok.mp hop
    obtain ⟨_, hencoding, -⟩ := bind_eq_ok.mp hop
    exact ⟨hhave, checkPubKeyEncoding_iff.mp hencoding⟩
  · rintro ⟨hhave, hstandard⟩
    obtain ⟨items, hstep', hsolved⟩ := signStep_pubKey hsigns.signs hstandard hhave
    exact produceSignature_solved hpays hstep' (by decide) hsolved

/-- A script for the hash of a key is signed for with that key. -/
theorem produceSignature_keyID (hsigns : SignsOwn creator) {id : UInt160}
    (hpays : PaysTo creator.keystore (getScriptForDestination (.keyID id)) scriptPubKey redeem) :
    ((produceSignature options creator scriptPubKey).1 = true ↔ creator.keystore.haveKey id = true) ∧
      (creator.keystore.haveKey id = false →
        (produceSignature options creator scriptPubKey).2 = redeem.flatMap pushData) := by
  cases hhave : creator.keystore.haveKey id with
  | true =>
    obtain ⟨items, hstep, hsolved⟩ := signStep_keyID hsigns.signs hhave
    exact ⟨iff_of_true (produceSignature_solved hpays hstep (by decide) hsolved) rfl, nofun⟩
  | false =>
    have hstep : signStep options creator (getScriptForDestination (.keyID id)) =
        (false, ([] : List Bytes).flatMap pushData, .PUBKEYHASH) := by
      have haddress : toUInt160 id.val = some id := dif_pos id.property
      rw [signStep, solver_keyID]
      simp only [List.headD_cons, haddress, sign1, hsigns.missing _ _ hhave]
      rfl
    rw [produceSignature_paysTo hpays hstep (by decide)]
    exact ⟨iff_of_false Bool.false_ne_true Bool.false_ne_true, fun _ => rfl⟩

/-! ## Several keys -/

/-- The keys that the store has. -/
def heldKeys (creator : SignatureCreator) (keys : List Bytes) : List Bytes :=
  keys.filter fun key => creator.keystore.haveKey (creator.checker.hash160 key)

/-- A signature for a key. -/
structure SignedFor (creator : SignatureCreator) (script : CScript) (sig key : Bytes) : Prop where
  created : creator.createSig (creator.checker.hash160 key) script = some sig
  standard : StandardSig sig
  own : ∀ vchPubKey, creator.checker.checkSig sig vchPubKey (findAndDelete script (pushData sig)) = true ↔
    creator.checker.hash160 vchPubKey = creator.checker.hash160 key

/-- The signatures that `CreateSig` gives for the keys. -/
def createdSigs (creator : SignatureCreator) (script : CScript) (keys : List Bytes) : List Bytes :=
  keys.filterMap fun key => creator.createSig (getID creator.checker.hash160 key) script

theorem signKeys_createdSigs (creator : SignatureCreator) (scriptCode : CScript) (nLeft : Nat)
    (keys : List Bytes) (scriptSig : CScript) :
    signKeys creator scriptCode nLeft keys scriptSig =
      (nLeft - (createdSigs creator scriptCode keys).length,
        scriptSig ++ ((createdSigs creator scriptCode keys).take nLeft).flatMap pushData) := by
  refine appendFound_eq (fun nLeft _ => ?_) (fun keys _ => ?_) (fun nLeft key _ _ hcreate => ?_)
    (fun nLeft key _ _ sig hcreate => ?_) nLeft keys scriptSig
  · cases nLeft <;> rfl
  · cases keys <;> rfl
  · rw [signKeys, sign1, hcreate]
  · rw [signKeys, sign1, hcreate]

theorem createdSigs_held (hsigns : SignsOwn creator) (script : CScript) {keys : List Bytes}
    (hkeys : ∀ key ∈ keys, IsValidPubKey key) :
    List.Forall₂ (SignedFor creator script) (createdSigs creator script keys) (heldKeys creator keys) := by
  induction keys with
  | nil => exact .nil
  | cons key keys ih =>
    have hid := (hkeys key List.mem_cons_self).getID_eq creator.checker.hash160
    have hrest := ih fun k hk => hkeys k (List.mem_cons_of_mem _ hk)
    rw [heldKeys, createdSigs] at hrest ⊢
    cases hhave : creator.keystore.haveKey (creator.checker.hash160 key) with
    | true =>
      obtain ⟨sig, hcreate, hstandard, hown⟩ := hsigns.held _ script hhave
      rw [List.filterMap_cons_some (by rw [hid]; exact hcreate),
        List.filter_cons_of_pos (by exact hhave)]
      exact .cons ⟨hcreate, hstandard, hown⟩ hrest
    | false =>
      rw [List.filterMap_cons_none (by rw [hid]; exact hsigns.missing _ _ hhave),
        List.filter_cons_of_neg (by rw [hhave]; exact Bool.false_ne_true)]
      exact hrest

theorem signStep_getScriptForMultisig (options : SolverOptions) (creator : SignatureCreator)
    {nRequired : Nat} {keys : List Bytes} (hm : 1 ≤ nRequired) (hn : nRequired ≤ keys.length)
    (hn' : keys.length ≤ 16) (hkeys : ∀ key ∈ keys, IsValidPubKey key) :
    signStep options creator (getScriptForMultisig nRequired keys) =
      (nRequired - (createdSigs creator (getScriptForMultisig nRequired keys) keys).length == 0,
        ([] :: (createdSigs creator (getScriptForMultisig nRequired keys) keys).take nRequired).flatMap
          pushData, .MULTISIG) := by
  have hfront : (UInt8.ofNat nRequired).toNat = nRequired :=
    UInt8.toNat_ofNat_of_lt' (show nRequired < 256 by omega)
  have hlast : (keys ++ [[UInt8.ofNat keys.length]]).dropLast = keys := List.dropLast_concat
  rw [signStep, solver_getScriptForMultisig options hm hn hn' hkeys]
  simp only [signN, List.headD_cons, List.tail_cons, hlast, hfront, signKeys_createdSigs,
    List.flatMap_cons]
  rfl

theorem forall₂_mem_left {α β : Type} {R : α → β → Prop} {l : List α} {l' : List β}
    (h : List.Forall₂ R l l') {a : α} (ha : a ∈ l) : ∃ b ∈ l', R a b := by
  induction h with
  | nil => cases ha
  | cons hab _ ih =>
    rcases List.mem_cons.mp ha with rfl | ha
    · exact ⟨_, List.mem_cons_self, hab⟩
    · obtain ⟨b, hb, hR⟩ := ih ha
      exact ⟨b, List.mem_cons_of_mem _ hb, hR⟩

/-- What signatures for keys are matched by: keys with the same hashes. -/
theorem sublistForall₂_signedFor {script : CScript} {sigs chosen tested : List Bytes}
    (h : List.Forall₂ (SignedFor creator script) sigs chosen)
    (hkeep : ∀ sig ∈ sigs, findAndDelete script (pushData sig) = script) :
    List.SublistForall₂ (fun sig key => creator.checker.checkSig sig key script = true) sigs tested ↔
      (chosen.map creator.checker.hash160).Sublist (tested.map creator.checker.hash160) := by
  have hforall : ∀ {l : List Bytes}, List.Forall₂
      (fun sig key => creator.checker.checkSig sig key script = true) sigs l ↔
        l.map creator.checker.hash160 = chosen.map creator.checker.hash160 := fun {l} => by
    clear tested
    induction h generalizing l with
    | nil => rw [List.forall₂_nil_left_iff, List.map_nil, List.map_eq_nil_iff]
    | @cons sig key sigs chosen hsig _ ih =>
      have hown := hsig.own
      rw [hkeep sig List.mem_cons_self] at hown
      have hrest := @ih fun s hs => hkeep s (List.mem_cons_of_mem _ hs)
      cases l with
      | nil => exact iff_of_false (fun h => by cases h) fun h => by cases h
      | cons key' l =>
        rw [List.forall₂_cons, hown, hrest, List.map_cons, List.map_cons, List.cons.injEq]
  rw [List.sublistForall₂_iff, List.sublist_map_iff]
  constructor
  · rintro ⟨l, hl, hsub⟩
    exact ⟨l, hsub, (hforall.mp hl).symm⟩
  · rintro ⟨l, hsub, heq⟩
    exact ⟨l, hforall.mpr heq.symm, hsub⟩

/-- `OP_CHECKMULTISIG` goes from the last key to the one that signed first: keys before that are not
looked at. -/
theorem evalScript_multisig_iff {script : CScript} {nRequired : Nat} {keys sigs chosen : List Bytes}
    (hscript : script = getScriptForMultisig nRequired keys)
    (hm : 1 ≤ nRequired) (hn : nRequired ≤ keys.length) (hn' : keys.length ≤ 16)
    (hkeys : ∀ key ∈ keys, KeyShape key) (hlen : sigs.length = nRequired)
    (hsigs : List.Forall₂ (SignedFor creator script) sigs chosen) :
    (∃ stack, evalScript creator.checker STANDARD_SCRIPT_VERIFY_FLAGS ([] :: sigs).reverse script =
        .ok stack ∧ checkTrue stack = .ok () ∧ stack.length = 1) ↔
      ∃ tested, tested <:+ keys ∧ (∀ key ∈ tested, isCompressedOrUncompressedPubKey key = true) ∧
        (chosen.map creator.checker.hash160).Sublist (tested.map creator.checker.hash160) := by
  have hstandard : ∀ sig ∈ sigs, StandardSig sig := fun sig hsig => by
    obtain ⟨key, -, hsigned⟩ := forall₂_mem_left hsigs hsig
    exact hsigned.standard
  have hkeep : ∀ sig ∈ sigs, findAndDelete script (pushData sig) = script := fun sig hsig => by
    rw [hscript]
    exact findAndDelete_multisig (hstandard sig hsig) hm hn hn' hkeys
  have hrun : Evals creator.checker STANDARD_SCRIPT_VERIFY_FLAGS (.init ([] :: sigs).reverse script)
      ⟨[OP_CHECKMULTISIG], script, multisigStack (scriptNumBytes keys.length) keys
        (scriptNumBytes sigs.length) sigs [] [], [], [], 0⟩ := by
    rw [List.reverse_cons, hscript]
    exact Evals.multisig hm hn hn' hkeys hlen
  obtain ⟨st, hst⟩ : ∃ st : EvalState, st = ⟨[], script, multisigStack (scriptNumBytes keys.length) keys
    (scriptNumBytes sigs.length) sigs [] [], [], [], 1⟩ := ⟨_, rfl⟩
  have hargs : MultisigArgs STANDARD_SCRIPT_VERIFY_FLAGS st.stack sigs keys [] := by
    rw [hst]
    exact .pushed (by omega) (by omega) []
  obtain ⟨r, r', hisig, hikey, hop⟩ := opCheckMultisig_loop creator.checker none hargs
    (by rw [hst]; show 1 + keys.length ≤ 201; omega)
  have hdrop : dropSigs st.pbegincodehash sigs.reverse = script := by
    rw [hst]
    exact dropSigs_of_keep fun sig hsig => hkeep sig (List.mem_reverse.mp hsig)
  have hloop := @checkSignatures_true_iff creator.checker STANDARD_SCRIPT_VERIFY_FLAGS script st.stack
    sigs.reverse keys.reverse r r' _ _ (fun sig hsig => (hstandard sig (List.mem_reverse.mp hsig)).check)
    hisig hikey
  rw [List.length_reverse, List.length_reverse] at hloop
  rw [hdrop] at hop
  have htested : (∃ tested, tested <+: keys.reverse ∧
      (∀ key ∈ tested, checkPubKeyEncoding STANDARD_SCRIPT_VERIFY_FLAGS key = .ok ()) ∧
      List.SublistForall₂ (fun sig key => creator.checker.checkSig sig key script = true) sigs.reverse
        tested) ↔
      ∃ tested, tested <:+ keys ∧ (∀ key ∈ tested, isCompressedOrUncompressedPubKey key = true) ∧
        (chosen.map creator.checker.hash160).Sublist (tested.map creator.checker.hash160) := by
    constructor
    · rintro ⟨tested, hprefix, hencoding, hmatch⟩
      refine ⟨tested.reverse, ?_, fun key hkey => ?_, ?_⟩
      · rwa [← List.reverse_prefix, List.reverse_reverse]
      · exact checkPubKeyEncoding_iff.mp (hencoding key (List.mem_reverse.mp hkey))
      · rw [← sublistForall₂_signedFor hsigs hkeep, ← sublistForall₂_reverse_iff, List.reverse_reverse]
        exact hmatch
    · rintro ⟨tested, hsuffix, hencoding, hsub⟩
      refine ⟨tested.reverse, List.reverse_prefix.mpr hsuffix, fun key hkey => ?_, ?_⟩
      · exact checkPubKeyEncoding_iff.mpr (hencoding key (List.mem_reverse.mp hkey))
      · exact sublistForall₂_reverse_iff.mpr ((sublistForall₂_signedFor hsigs hkeep).mpr hsub)
  rw [← htested, ← hloop]
  constructor
  · rintro ⟨stack, heval, htrue, -⟩
    obtain ⟨st', hhandler, hout⟩ := evalScript_last (opCheckMultisig creator.checker none) hrun rfl
      (by decide) heval
    rw [← hst, hop] at hhandler
    obtain ⟨fSuccess, hchecked, hpushed⟩ := bind_eq_ok.mp hhandler
    have hstack : (⟨st.pc, st.pbegincodehash, [boolBytes fSuccess], st.altstack, st.vfExec,
      st.nOpCount + keys.length⟩ : EvalState) = st' := Except.ok.inj hpushed
    rw [hout (by rw [← hstack, hst]), ← hstack, checkTrue_boolBytes] at htrue
    rw [hchecked, htrue]
  · intro hchecked
    have hhandler : opCheckMultisig creator.checker none STANDARD_SCRIPT_VERIFY_FLAGS st =
        .ok ⟨[], script, [vchTrue], [], [], 1 + keys.length⟩ := by
      rw [hop, hchecked, hst]
      rfl
    have hlast : Evals creator.checker STANDARD_SCRIPT_VERIFY_FLAGS
        ⟨[OP_CHECKMULTISIG], script, multisigStack (scriptNumBytes keys.length) keys
          (scriptNumBytes sigs.length) sigs [] [], [], [], 0⟩
        ⟨[], script, [vchTrue], [], [], 1 + keys.length⟩ :=
      .op (opCheckMultisig creator.checker none) rfl (by decide) (by decide) (by decide)
        (hst ▸ hhandler) (by decide)
    exact ⟨[vchTrue], (hrun.trans hlast).evalScript rfl rfl
      (hscript ▸ (length_getScriptForMultisig nRequired hkeys hn').2), rfl, rfl⟩

theorem produceSignature_multisig (hsigns : SignsOwn creator) {nRequired : Nat} {keys : List Bytes}
    (hm : 1 ≤ nRequired) (hn : nRequired ≤ keys.length) (hn' : keys.length ≤ 16)
    (hkeys : ∀ key ∈ keys, IsValidPubKey key)
    (hpays : PaysTo creator.keystore (getScriptForMultisig nRequired keys) scriptPubKey redeem) :
    ((produceSignature options creator scriptPubKey).1 = true ↔
      nRequired ≤ (heldKeys creator keys).length ∧
      ∃ tested, tested <:+ keys ∧ (∀ key ∈ tested, isCompressedOrUncompressedPubKey key = true) ∧
        (((heldKeys creator keys).take nRequired).map creator.checker.hash160).Sublist
          (tested.map creator.checker.hash160)) ∧
    ∃ sigs, (produceSignature options creator scriptPubKey).2 =
        ([] :: sigs ++ redeem).flatMap pushData ∧
      List.Forall₂ (SignedFor creator (getScriptForMultisig nRequired keys)) sigs
        ((heldKeys creator keys).take nRequired) := by
  obtain ⟨script, hscript⟩ : ∃ script, script = getScriptForMultisig nRequired keys := ⟨_, rfl⟩
  have hcreated := createdSigs_held hsigns script hkeys
  have hstep := signStep_getScriptForMultisig options creator hm hn hn' hkeys
  rw [← hscript] at hpays hstep ⊢
  have hlen := hcreated.length_eq
  generalize createdSigs creator script keys = created at hcreated hlen hstep
  have hsigned := List.forall₂_take nRequired hcreated
  have hshape : ∀ key ∈ keys, KeyShape key := fun key hkey => (hkeys key hkey).keyShape
  have hproduce := produceSignature_paysTo hpays hstep (by decide)
  refine ⟨?_, created.take nRequired, by rw [hproduce], hsigned⟩
  rw [hproduce, Bool.and_eq_true, beq_iff_eq, Nat.sub_eq_zero_iff_le, ← hlen]
  refine and_congr_right fun hheld => ?_
  have hcount : ([] :: created.take nRequired).length ≤ 17 := by
    rw [List.length_cons, List.length_take]
    omega
  have hsizes : ∀ b ∈ [] :: created.take nRequired,
      b.length ≠ 1 ∧ b.length ≤ MAX_SCRIPT_ELEMENT_SIZE :=
    List.forall_mem_cons.mpr ⟨by decide, fun sig hsig => by
      obtain ⟨key, -, hsig⟩ := forall₂_mem_left hsigned hsig
      exact hsig.standard.sizes⟩
  have hp2sh : isPayToScriptHash script = false := by
    rw [hscript, getScriptForMultisig_eq]
    exact isPayToScriptHash_encodeOpN hm (hn.trans hn') _
  have hsize : 2 ≤ script.length := hscript ▸ (length_getScriptForMultisig nRequired hshape hn').1
  exact (verifyStandard_iff hpays hcount hsizes hsize hp2sh).trans
    (evalScript_multisig_iff hscript hm hn hn' hshape
      (by rw [List.length_take]; omega) hsigned)

/-- **Signing with some of the keys.** `ProduceSignature` signs a script for a key or for the hash of one
if the store has the key. For a script of several keys it puts the signatures of the first keys that the
store has into the `scriptSig`, in their order. It signs if these are enough, and if the keys that
`OP_CHECKMULTISIG` reads from the end, until it has found them, have the standard encodings. -/
theorem produceSignature_completes (options : SolverOptions) (creator : SignatureCreator)
    (hsigns : SignsOwn creator) :
    (∀ key scriptPubKey redeem, IsValidPubKey key →
      PaysTo creator.keystore (getScriptForPubKey key) scriptPubKey redeem →
      ((produceSignature options creator scriptPubKey).1 = true ↔
        creator.keystore.haveKey (creator.checker.hash160 key) = true ∧
          isCompressedOrUncompressedPubKey key = true) ∧
      (produceSignature options creator scriptPubKey).2 =
        ((creator.createSig (creator.checker.hash160 key) (getScriptForPubKey key)).toList ++
          redeem).flatMap pushData) ∧
    (∀ id scriptPubKey redeem,
      PaysTo creator.keystore (getScriptForDestination (.keyID id)) scriptPubKey redeem →
      ((produceSignature options creator scriptPubKey).1 = true ↔
        creator.keystore.haveKey id = true) ∧
      (creator.keystore.haveKey id = false →
        (produceSignature options creator scriptPubKey).2 = redeem.flatMap pushData)) ∧
    ∀ nRequired keys scriptPubKey redeem, 1 ≤ nRequired → nRequired ≤ keys.length → keys.length ≤ 16 →
      (∀ key ∈ keys, IsValidPubKey key) →
      PaysTo creator.keystore (getScriptForMultisig nRequired keys) scriptPubKey redeem →
      ((produceSignature options creator scriptPubKey).1 = true ↔
        nRequired ≤ (heldKeys creator keys).length ∧
        ∃ tested, tested <:+ keys ∧ (∀ key ∈ tested, isCompressedOrUncompressedPubKey key = true) ∧
          (((heldKeys creator keys).take nRequired).map creator.checker.hash160).Sublist
            (tested.map creator.checker.hash160)) ∧
      ∃ sigs, (produceSignature options creator scriptPubKey).2 =
          ([] :: sigs ++ redeem).flatMap pushData ∧
        List.Forall₂ (SignedFor creator (getScriptForMultisig nRequired keys)) sigs
          ((heldKeys creator keys).take nRequired) :=
  ⟨fun _ _ _ hkey hpays => produceSignature_pubKey hsigns hkey hpays,
    fun _ _ _ hpays => produceSignature_keyID hsigns hpays,
    fun _ _ _ _ hm hn hn' hkeys hpays => produceSignature_multisig hsigns hm hn hn' hkeys hpays⟩

end

/-! ## A key in the way -/

/-- A creator for one key, whose checker takes its signature for that key only. -/
def ownChecker : Checker :=
  { prefixChecker with
    checkSig := fun vchSig vchPubKey _ =>
      vchSig == sampleSig && prefixHash vchPubKey == prefixHash sampleKey }

def ownCreator : SignatureCreator where
  checker := ownChecker
  keystore := KeyStore.empty.addKeyPubKey sampleKey sampleKey_valid
  createSig := fun address _ => if address = prefixHash sampleKey then some sampleSig else none

theorem ownCreator_signsOwn : SignsOwn ownCreator := by
  have hhave : ∀ address, ownCreator.keystore.haveKey address =
      decide (address = prefixHash sampleKey) := fun address => by
    show (if address = prefixHash sampleKey then some sampleKey else none).isSome = _
    split_ifs with h
    · exact (decide_eq_true h).symm
    · exact (decide_eq_false h).symm
  refine ⟨fun address scriptCode h => ?_, fun address scriptCode h => ?_⟩
  · rw [hhave, decide_eq_true_eq] at h
    refine ⟨sampleSig, if_pos h, ⟨by decide, by decide⟩, fun vchPubKey => ?_⟩
    show (sampleSig == sampleSig && prefixHash vchPubKey == prefixHash sampleKey) = true ↔ _
    rw [beq_self_eq_true, Bool.true_and, beq_iff_eq, h]
    rfl
  · rw [hhave, decide_eq_false_iff_not] at h
    exact if_neg h

/-- A key in the hybrid encoding. -/
def hybridKey : Bytes := 0x06 :: List.replicate 64 1

theorem isValidPubKey_samples : ∀ key ∈ [sampleKey, hybridKey], IsValidPubKey key := by
  unfold IsValidPubKey
  decide

/-- One of two keys is enough where the other one, which is hybrid, is not looked at. -/
theorem produceSignature_completes_hybridFirst :
    (produceSignature sampleOptions ownCreator (getScriptForMultisig 1 [hybridKey, sampleKey])).1 =
      true := by
  have hkeys : ∀ key ∈ [hybridKey, sampleKey], IsValidPubKey key := fun key hkey =>
    isValidPubKey_samples key (by
      rw [List.mem_cons, List.mem_singleton] at hkey ⊢
      exact hkey.symm)
  have hsigned := ((produceSignature_completes sampleOptions ownCreator ownCreator_signsOwn).2.2 1
    [hybridKey, sampleKey] _ [] (by decide) (by decide) (by decide) hkeys .bare).1
  exact hsigned.mpr ⟨by decide, [sampleKey], by decide, by decide, by decide⟩

/-- The same keys in the other order: the hybrid key is read first. -/
theorem produceSignature_counterexample :
    SignsOwn ownCreator ∧ (∀ key ∈ [sampleKey, hybridKey], IsValidPubKey key) ∧
      ownCreator.keystore.mapKeys (prefixHash sampleKey) = some sampleKey ∧
      (produceSignature sampleOptions ownCreator (getScriptForMultisig 1 [sampleKey, hybridKey])).1 =
        false :=
  ⟨ownCreator_signsOwn, isValidPubKey_samples, by decide, by decide⟩

end GC
