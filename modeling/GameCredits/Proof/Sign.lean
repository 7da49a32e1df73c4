import GameCredits.Proof.Solver

/-!
# Signing what is ours

The signatures for the keys of the scripts that are built from templates (`Standard`) solve them:

* `findAndDelete_multisig`: no signature occurs in a script for several keys;
* `signStep_standard`: one round of signing solves what is ours and no script hash;
* `produceSignature_iff`: what is ours is signed, but for a script hash below a script hash.
-/

namespace GC

open Framework

/-! ## Script hashes -/

section

variable {checker : Checker}

/-- A script for a script hash finds the script. -/
theorem evalScript_scriptID {subscript : CScript} {stack : Stack} (hstack : stack.length + 3 ≤ 1000) :
    evalScript checker STANDARD_SCRIPT_VERIFY_FLAGS (subscript :: stack)
      (getScriptForDestination (.scriptID (checker.hash160 subscript))) = .ok (vchTrue :: stack) := by
  obtain ⟨hash, hhash⟩ : ∃ hash, hash = checker.hash160 subscript := ⟨_, rfl⟩
  obtain ⟨script, hscript⟩ : ∃ script, script = getScriptForDestination (.scriptID hash) := ⟨_, rfl⟩
  have hpush : Evals checker STANDARD_SCRIPT_VERIFY_FLAGS
      ⟨pushData hash.val ++ [OP_EQUAL], script, hash.val :: stack, [], [], 1⟩
      ⟨[OP_EQUAL], script, hash.val :: hash.val :: stack, [], [], 1⟩ :=
    Evals.push (.of_sizes (by rw [hash.property]; decide))
      (by rw [List.length_append, hash.property]; decide) (by rw [List.length_cons]; omega)
  have hequal := hpush.trans (Evals.equal (by decide) (by omega))
  have hstart : Evals checker STANDARD_SCRIPT_VERIFY_FLAGS
      ⟨OP_HASH160 :: (pushData hash.val ++ [OP_EQUAL]), script, subscript :: stack, [], [], 0⟩
      ⟨pushData hash.val ++ [OP_EQUAL], script, (checker.hash160 subscript).val :: stack, [],
        [], 1⟩ := Evals.hash160 (by decide) (by omega)
  rw [← hhash] at hstart
  have hrun := hstart.trans hequal
  rw [show OP_HASH160 :: (pushData hash.val ++ [OP_EQUAL]) = script by rw [hscript]; rfl] at hrun
  rw [← hhash, ← hscript]
  refine hrun.evalScript rfl rfl ?_
  rw [hscript, scriptID_eq, List.length_cons, List.length_cons, List.length_append, hash.property]
  decide

/-- What is left to check below a script hash is the script. -/
theorem verifyScript_redeem {subscript : CScript} {items : List Bytes}
    (hitems : Pushable (items ++ [subscript])) :
    verifyScript checker STANDARD_SCRIPT_VERIFY_FLAGS ((items ++ [subscript]).flatMap pushData)
        (getScriptForDestination (.scriptID (checker.hash160 subscript))) =
      evalScript checker STANDARD_SCRIPT_VERIFY_FLAGS items.reverse subscript >>= fun stack =>
      checkTrue stack >>= fun _ => checkCleanStack STANDARD_SCRIPT_VERIFY_FLAGS stack := by
  have hcount := hitems.count
  rw [List.length_append, List.length_singleton] at hcount
  have hrev : items.reverse.length = items.length := List.length_reverse
  have heval : evalScript checker STANDARD_SCRIPT_VERIFY_FLAGS (subscript :: items.reverse)
      (getScriptForDestination (.scriptID (checker.hash160 subscript))) = .ok (vchTrue :: items.reverse) :=
    evalScript_scriptID (by omega)
  obtain ⟨script, hscript⟩ : ∃ script,
    script = getScriptForDestination (.scriptID (checker.hash160 subscript)) := ⟨_, rfl⟩
  have hp2sh : isPayToScriptHash script = true := by
    rw [hscript]
    exact isPayToScriptHash_scriptID _
  rw [← hscript] at heval ⊢
  unfold verifyScript
  rw [evalScript_pushes hitems, List.reverse_append]
  show (evalScript checker STANDARD_SCRIPT_VERIFY_FLAGS (subscript :: items.reverse) script >>= _) = _
  rw [heval]
  show (checkScriptHash checker STANDARD_SCRIPT_VERIFY_FLAGS ((items ++ [subscript]).flatMap pushData)
    script (subscript :: items.reverse) (vchTrue :: items.reverse) >>= _) = _
  rw [checkScriptHash, hp2sh]
  show (setErrorIf (!isPushOnly ((items ++ [subscript]).flatMap pushData)) .SIG_PUSHONLY >>= fun _ =>
    evalScript checker STANDARD_SCRIPT_VERIFY_FLAGS items.reverse subscript >>= fun stack =>
    checkTrue stack >>= fun _ => Except.ok stack) >>= _ = _
  rw [isPushOnly_pushes (hitems.length_le.trans_lt (by decide))]
  show (evalScript checker STANDARD_SCRIPT_VERIFY_FLAGS items.reverse subscript >>= fun stack =>
    checkTrue stack >>= fun _ => Except.ok stack) >>= _ = _
  cases evalScript checker STANDARD_SCRIPT_VERIFY_FLAGS items.reverse subscript with
  | error e => rfl
  | ok stack =>
    show (checkTrue stack >>= fun _ => Except.ok stack) >>= _ = checkTrue stack >>= _
    cases checkTrue stack <;> rfl

/-- A script spends its hash with what makes it true. -/
theorem verifyScript_scriptID {subscript : CScript} {items : List Bytes}
    (hitems : Pushable (items ++ [subscript])) (hsolves : Solves checker subscript items) :
    verifyScript checker STANDARD_SCRIPT_VERIFY_FLAGS ((items ++ [subscript]).flatMap pushData)
      (getScriptForDestination (.scriptID (checker.hash160 subscript))) = .ok () := by
  obtain ⟨n, hrun⟩ := hsolves
  have hsub := hitems.sizes subscript (List.mem_append_right _ List.mem_cons_self)
  have heval : evalScript checker STANDARD_SCRIPT_VERIFY_FLAGS items.reverse subscript =
      .ok [vchTrue] := hrun.evalScript rfl rfl (hsub.2.trans (by decide))
  rw [verifyScript_redeem hitems, heval]
  rfl

end

/-! ## Public keys -/

theorem pubKey_shape {key : Bytes} (h : isCompressedOrUncompressedPubKey key = true) :
    (key.length = 33 ∨ key.length = 65) ∧
      (key.getD 0 0 = 0x02 ∨ key.getD 0 0 = 0x03 ∨ key.getD 0 0 = 0x04) := by
  unfold isCompressedOrUncompressedPubKey at h
  split_ifs at h
  split at h
  · exact ⟨.inr (beq_iff_eq.mp h), .inr (.inr ‹_›)⟩
  · exact ⟨.inl (beq_iff_eq.mp h), .inl ‹_›⟩
  · exact ⟨.inl (beq_iff_eq.mp h), .inr (.inl ‹_›)⟩
  · cases h

theorem parsePubKey_eq {key : Bytes} (h : isCompressedOrUncompressedPubKey key = true) :
    parsePubKey key = key := by
  unfold isCompressedOrUncompressedPubKey at h
  rw [← headD_eq_getD] at h
  split_ifs at h
  unfold parsePubKey
  split at h
  · rename_i hhead
    simp only [hhead, beq_iff_eq.mp h, ↓reduceIte]
  · rename_i hhead
    simp only [hhead, beq_iff_eq.mp h, ↓reduceIte]
  · rename_i hhead
    simp only [hhead, beq_iff_eq.mp h, ↓reduceIte]
  · cases h

theorem isValidPubKey {key : Bytes} (h : isCompressedOrUncompressedPubKey key = true) :
    IsValidPubKey key := by
  refine ⟨parsePubKey_eq h, fun hnil => ?_⟩
  have hlen := (pubKey_shape h).1
  rw [hnil, List.length_nil] at hlen
  omega

theorem keyShape {key : Bytes} (h : isCompressedOrUncompressedPubKey key = true) : KeyShape key :=
  (isValidPubKey h).keyShape

/-- A public key in a script is read back. -/
theorem getOp_pubKey {key rest : Bytes} (h : KeyShape key) (hrest : rest.length ≤ 10000) :
    getOp (pushData key ++ rest) = some (pushOpcode key, key, rest) := by
  have hlen := h.size
  refine getOp_pushData ?_
  rw [List.length_append]
  omega

theorem length_pubKeys {keys : List Bytes} (h : ∀ key ∈ keys, KeyShape key)
    (hlen : keys.length ≤ 16) : (keys.flatMap pushData).length ≤ 1120 := by
  have hpush := length_pushes (k := 65) fun key hkey => by
    have := (h key hkey).size
    omega
  omega

/-! ## The size of a script -/

theorem isPayToScriptHash_length {script : CScript} (h : script.length ≠ 23) :
    isPayToScriptHash script = false := by
  rw [isPayToScriptHash, beq_eq_false_iff_ne.mpr h]
  rfl

theorem solver_nil (options : SolverOptions) : solver options [] = none := by
  unfold solver solverRet mTemplates
  cases options.fDataCarrier <;> rfl

theorem length_getScriptForPubKey {key : Bytes} (h : KeyShape key) :
    (getScriptForPubKey key).length = key.length + 2 := by
  have hlen := h.size
  rw [getScriptForPubKey, pushData, if_pos (by unfold OP_PUSHDATA1; omega), List.length_append]
  rfl

theorem length_keyID (id : UInt160) : (getScriptForDestination (.keyID id)).length = 25 := by
  rw [getScriptForDestination, pushData_hash]
  simp only [List.length_append, List.length_cons, id.property, List.length_nil]

theorem isPayToScriptHash_encodeOpN {k : Nat} (hk : 1 ≤ k) (hk' : k ≤ 16) (rest : Bytes) :
    isPayToScriptHash (encodeOpN k :: rest) = false := by
  have hne : (encodeOpN k == OP_HASH160) = false := beq_eq_false_iff_ne.mpr fun h => by
    have hop := toNat_encodeOpN hk hk'
    rw [h] at hop
    have : (0xA9 : Nat) = 0x50 + k := hop
    omega
  rw [isPayToScriptHash, List.getElem?_cons_zero, Option.some_beq_some, hne, Bool.and_false]
  rfl

/-! ## FindAndDelete -/

/-- Nothing is deleted at an opcode where the script to delete does not occur. -/
theorem findAndDelete_skip {b chunk pc data : Bytes} {opcode : UInt8} (hb : b.isEmpty = false)
    (hpre : b.isPrefixOf (chunk ++ pc) = false) (hop : getOp (chunk ++ pc) = some (opcode, data, pc))
    (h : findAndDelete pc b = pc) : findAndDelete (chunk ++ pc) b = chunk ++ pc := by
  rw [findAndDelete, hb] at h ⊢
  have hlt := getOp_length hop
  obtain ⟨len, hlen⟩ : ∃ len, (chunk ++ pc).length = len + 1 := ⟨(chunk ++ pc).length - 1, by omega⟩
  have herase : eraseAll b (chunk ++ pc).length (chunk ++ pc) = chunk ++ pc := by
    rw [hlen, eraseAll, hpre]
    rfl
  have hrest : findAndDeleteFrom b len pc = pc :=
    (findAndDeleteFrom_done b (by omega) (Nat.le_refl _)).trans h
  show findAndDeleteFrom b (chunk ++ pc).length (chunk ++ pc) = _
  rw [hlen, findAndDeleteFrom]
  simp only [herase, hop, hrest]
  rw [List.length_append, Nat.add_sub_cancel, List.take_left' rfl]

section

variable {sig : Bytes}

theorem pushData_sig (h : StandardSig sig) :
    ∃ tail, pushData sig = UInt8.ofNat sig.length :: 0x30 :: tail := by
  have hlen := h.length
  have hhead := h.head
  cases sig with
  | nil =>
    rw [List.length_nil] at hlen
    omega
  | cons c tail =>
    refine ⟨tail, ?_⟩
    rw [pushData, if_pos (by unfold OP_PUSHDATA1; omega)]
    rw [List.getD_cons_zero] at hhead
    rw [hhead]

theorem findAndDelete_op (h : StandardSig sig) {opcode : UInt8} (hop : OP_PUSHDATA4 < opcode.toNat)
    {pc : Bytes} (hpc : findAndDelete pc (pushData sig) = pc) :
    findAndDelete (opcode :: pc) (pushData sig) = opcode :: pc := by
  obtain ⟨tail, htail⟩ := pushData_sig h
  show findAndDelete ([opcode] ++ pc) (pushData sig) = [opcode] ++ pc
  refine findAndDelete_skip (by rw [htail]; rfl) ?_ (getOp_opcode hop pc) hpc
  have hne : (UInt8.ofNat sig.length == opcode) = false := beq_eq_false_iff_ne.mpr fun heq => by
    have hlen := h.length
    have hval : (UInt8.ofNat sig.length).toNat = sig.length :=
      UInt8.toNat_ofNat_of_lt' (show sig.length < 256 by omega)
    rw [← heq, hval, OP_PUSHDATA4] at hop
    omega
  rw [htail, List.singleton_append, List.isPrefixOf, hne]
  rfl

theorem findAndDelete_key (h : StandardSig sig) {key : Bytes} (hkey : KeyShape key) {pc : Bytes}
    (hsize : pc.length ≤ 10000) (hpc : findAndDelete pc (pushData sig) = pc) :
    findAndDelete (pushData key ++ pc) (pushData sig) = pushData key ++ pc := by
  obtain ⟨tail, htail⟩ := pushData_sig h
  obtain ⟨hlen, hhead⟩ := hkey
  refine findAndDelete_skip (by rw [htail]; rfl) ?_ (getOp_pubKey ⟨hlen, hhead⟩ hsize) hpc
  rw [htail, pushData, if_pos (by unfold OP_PUSHDATA1; omega)]
  cases key with
  | nil =>
    rw [List.length_nil] at hlen
    omega
  | cons c key =>
    have hne : ((0x30 : UInt8) == c) = false := beq_eq_false_iff_ne.mpr fun heq => by
      rw [List.getD_cons_zero, ← heq] at hhead
      exact hhead rfl
    rw [List.cons_append, List.cons_append, List.isPrefixOf, List.isPrefixOf, hne, Bool.false_and,
      Bool.and_false]

theorem findAndDelete_multisig (h : StandardSig sig) {nRequired : Nat} {keys : List Bytes}
    (hm : 1 ≤ nRequired) (hn : nRequired ≤ keys.length) (hn' : keys.length ≤ 16)
    (hkeys : ∀ key ∈ keys, KeyShape key) :
    findAndDelete (getScriptForMultisig nRequired keys) (pushData sig) =
      getScriptForMultisig nRequired keys := by
  have hop : ∀ {k}, 1 ≤ k → k ≤ 16 → OP_PUSHDATA4 < (encodeOpN k).toNat := fun {k} hk hk' => by
    rw [toNat_encodeOpN hk hk', OP_PUSHDATA4]
    omega
  have hend : findAndDelete [encodeOpN keys.length, OP_CHECKMULTISIG] (pushData sig) =
      [encodeOpN keys.length, OP_CHECKMULTISIG] :=
    findAndDelete_op h (hop (by omega) hn') (findAndDelete_op h (by decide) (by
      rw [findAndDelete]
      split_ifs <;> rfl))
  have hpushes : findAndDelete (keys.flatMap pushData ++ [encodeOpN keys.length, OP_CHECKMULTISIG])
      (pushData sig) = keys.flatMap pushData ++ [encodeOpN keys.length, OP_CHECKMULTISIG] := by
    have hsize : (keys.flatMap pushData ++ [encodeOpN keys.length, OP_CHECKMULTISIG]).length ≤ 10000 := by
      have := length_pubKeys hkeys hn'
      simp only [List.length_append, List.length_cons, List.length_nil]
      omega
    generalize [encodeOpN keys.length, OP_CHECKMULTISIG] = rest at hend hsize
    clear hn hn' hop
    induction keys with
    | nil => exact hend
    | cons key keys ih =>
      rw [List.flatMap_cons, List.append_assoc] at hsize ⊢
      have hsize' : (keys.flatMap pushData ++ rest).length ≤ 10000 := by
        rw [List.length_append] at hsize
        omega
      exact findAndDelete_key h (hkeys key List.mem_cons_self) hsize'
        (ih (fun k hk => hkeys k (List.mem_cons_of_mem _ hk)) hsize')
  rw [getScriptForMultisig, List.append_assoc]
  exact findAndDelete_op h (hop hm (hn.trans hn')) hpushes

end

/-! ## Signing -/

/-- `CreateSig` signs for each key in the store, in the standard encoding, and the checker takes the
signature for the key with the script code that `OP_CHECKSIG` gives to it. -/
def Signs (creator : SignatureCreator) : Prop :=
  ∀ address scriptCode, creator.keystore.haveKey address = true →
    ∃ vchSig, creator.createSig address scriptCode = some vchSig ∧ StandardSig vchSig ∧
      ∀ vchPubKey, creator.checker.hash160 vchPubKey = address →
        creator.checker.checkSig vchSig vchPubKey
          (findAndDelete scriptCode (pushData vchSig)) = true

/-- `items`, in a `scriptSig`, are standard and solve `script`. -/
structure SolvedBy (checker : Checker) (script : CScript) (items : List Bytes) : Prop where
  count : items.length ≤ 17
  sizes : ∀ b ∈ items, b.length ≠ 1 ∧ b.length ≤ MAX_SCRIPT_ELEMENT_SIZE
  solves : Solves checker script items
  size : 2 ≤ script.length ∧ script.length ≤ 10000
  not_scriptHash : isPayToScriptHash script = false

theorem StandardSig.sizes {sig : Bytes} (h : StandardSig sig) :
    sig.length ≠ 1 ∧ sig.length ≤ MAX_SCRIPT_ELEMENT_SIZE := by
  have := h.length
  unfold MAX_SCRIPT_ELEMENT_SIZE
  omega

theorem pubKey_sizes {key : Bytes} (h : KeyShape key) :
    key.length ≠ 1 ∧ key.length ≤ MAX_SCRIPT_ELEMENT_SIZE := by
  have := h.size
  unfold MAX_SCRIPT_ELEMENT_SIZE
  omega

section

variable {options : SolverOptions} {creator : SignatureCreator}

theorem sign1_eq {address : UInt160} {scriptCode scriptSig : CScript} {vchSig : Bytes}
    (h : creator.createSig address scriptCode = some vchSig) :
    sign1 creator address scriptCode scriptSig = (true, scriptSig ++ pushData vchSig) := by
  rw [sign1, h]

theorem getID_eq {checker : Checker} {key : Bytes}
    (h : isCompressedOrUncompressedPubKey key = true) :
    getID checker.hash160 key = checker.hash160 key := by
  rw [getID, parsePubKey_eq h]

/-- A script for a public key is solved by a signature. -/
theorem signStep_pubKey (hsigns : Signs creator) {key : Bytes}
    (hkey : isCompressedOrUncompressedPubKey key = true)
    (hhave : creator.keystore.haveKey (creator.checker.hash160 key) = true) :
    ∃ items, signStep options creator (getScriptForPubKey key) =
      (true, items.flatMap pushData, .PUBKEY) ∧
        SolvedBy creator.checker (getScriptForPubKey key) items := by
  obtain ⟨sig, hcreate, hsig, haccept⟩ := hsigns _ (getScriptForPubKey key) hhave
  have hlen := (pubKey_shape hkey).1
  have hsize := length_getScriptForPubKey (keyShape hkey)
  refine ⟨[sig], ?_, by simp, by simpa using hsig.sizes, ⟨1, ?_⟩, by omega,
    isPayToScriptHash_length (by omega)⟩
  · rw [signStep, solver_pubKey options (isValidPubKey hkey)]
    simp only [List.headD_cons, getID_eq hkey, sign1_eq hcreate]
    rw [List.flatMap_singleton, List.nil_append]
  · have hpush : Evals creator.checker STANDARD_SCRIPT_VERIFY_FLAGS
        (.init [sig] (getScriptForPubKey key))
        ⟨[OP_CHECKSIG], getScriptForPubKey key, [key, sig], [], [], 0⟩ :=
      Evals.push (.of_sizes (pubKey_sizes (keyShape hkey)))
        (by rw [List.length_append, List.length_singleton]; omega) (Nat.le_add_left 2 998)
    exact hpush.trans
      (Evals.checkSig (by decide) (Nat.le_add_left 1 999) hsig hkey (haccept key rfl))

/-- A script for the hash of a public key is solved by a signature and the key. -/
theorem signStep_keyID (hsigns : Signs creator) {id : UInt160}
    (hhave : creator.keystore.haveKey id = true) :
    ∃ items, signStep options creator (getScriptForDestination (.keyID id)) =
      (true, items.flatMap pushData, .PUBKEYHASH) ∧
        SolvedBy creator.checker (getScriptForDestination (.keyID id)) items := by
  obtain ⟨key, hmap⟩ := Option.isSome_iff_exists.mp hhave
  obtain ⟨hid, hkey⟩ := creator.keystore.keys id key hmap
  obtain ⟨script, hscript⟩ : ∃ script, script = getScriptForDestination (.keyID id) := ⟨_, rfl⟩
  rw [← hscript]
  obtain ⟨sig, hcreate, hsig, haccept⟩ := hsigns _ script hhave
  have hsize : script.length = 25 := by rw [hscript, length_keyID]
  have hsizes : ∀ b ∈ [sig, key], b.length ≠ 1 ∧ b.length ≤ MAX_SCRIPT_ELEMENT_SIZE := by
    simpa using ⟨hsig.sizes, pubKey_sizes (keyShape hkey)⟩
  refine ⟨[sig, key], ?_, by simp, hsizes, ⟨4, ?_⟩, by omega,
    isPayToScriptHash_length (by omega)⟩
  · have haddress : toUInt160 id.val = some id := dif_pos id.property
    rw [signStep, hscript, solver_keyID, ← hscript]
    simp only [List.headD_cons, haddress, sign1_eq hcreate, hmap, Option.getD_some]
    rw [List.flatMap_cons, List.flatMap_singleton, List.nil_append]
  · have hdup : Evals creator.checker STANDARD_SCRIPT_VERIFY_FLAGS
        ⟨OP_DUP :: OP_HASH160 :: (pushData id.val ++ [OP_EQUALVERIFY, OP_CHECKSIG]), script,
          [key, sig], [], [], 0⟩
        ⟨OP_HASH160 :: (pushData id.val ++ [OP_EQUALVERIFY, OP_CHECKSIG]), script,
          [key, key, sig], [], [], 1⟩ := Evals.dup (by decide) (Nat.le_add_left 3 997)
    have hhash : Evals creator.checker STANDARD_SCRIPT_VERIFY_FLAGS
        ⟨OP_HASH160 :: (pushData id.val ++ [OP_EQUALVERIFY, OP_CHECKSIG]), script,
          [key, key, sig], [], [], 1⟩
        ⟨pushData id.val ++ [OP_EQUALVERIFY, OP_CHECKSIG], script,
          [(creator.checker.hash160 key).val, key, sig], [], [], 2⟩ :=
      Evals.hash160 (by decide) (Nat.le_add_left 3 997)
    rw [hid] at hhash
    have hpush : Evals creator.checker STANDARD_SCRIPT_VERIFY_FLAGS
        ⟨pushData id.val ++ [OP_EQUALVERIFY, OP_CHECKSIG], script, [id.val, key, sig], [], [], 2⟩
        ⟨[OP_EQUALVERIFY, OP_CHECKSIG], script, [id.val, id.val, key, sig], [], [], 2⟩ :=
      Evals.push (.of_sizes (by rw [id.property]; decide))
        (by rw [List.length_append, id.property]; decide) (Nat.le_add_left 4 996)
    have hequal : Evals creator.checker STANDARD_SCRIPT_VERIFY_FLAGS
        ⟨[OP_EQUALVERIFY, OP_CHECKSIG], script, [id.val, id.val, key, sig], [], [], 2⟩
        ⟨[OP_CHECKSIG], script, [key, sig], [], [], 3⟩ :=
      Evals.equalVerify (by decide) (Nat.le_add_left 2 998)
    have hcheck : Evals creator.checker STANDARD_SCRIPT_VERIFY_FLAGS
        ⟨[OP_CHECKSIG], script, [key, sig], [], [], 3⟩ ⟨[], script, [vchTrue], [], [], 4⟩ :=
      Evals.checkSig (by decide) (Nat.le_add_left 1 999) hsig hkey (haccept key hid)
    have hrun := (((hdup.trans hhash).trans hpush).trans hequal).trans hcheck
    rwa [show OP_DUP :: OP_HASH160 :: (pushData id.val ++ [OP_EQUALVERIFY, OP_CHECKSIG]) = script by
      rw [hscript, getScriptForDestination]
      simp only [List.cons_append, List.nil_append]] at hrun

/-- A loop that appends what is found for the keys, up to `nLeft` times. -/
theorem appendFound_eq {f : Bytes → Option Bytes} {loop : Nat → List Bytes → CScript → Nat × CScript}
    (hnil : ∀ nLeft script, loop nLeft [] script = (nLeft, script))
    (hzero : ∀ keys script, loop 0 keys script = (0, script))
    (hnone : ∀ nLeft key keys script, f key = none →
      loop (nLeft + 1) (key :: keys) script = loop (nLeft + 1) keys script)
    (hsome : ∀ nLeft key keys script sig, f key = some sig →
      loop (nLeft + 1) (key :: keys) script = loop nLeft keys (script ++ pushData sig))
    (nLeft : Nat) (keys : List Bytes) (script : CScript) :
    loop nLeft keys script = (nLeft - (keys.filterMap f).length,
      script ++ ((keys.filterMap f).take nLeft).flatMap pushData) := by
  induction keys generalizing nLeft script with
  | nil => rw [hnil, List.filterMap_nil, List.take_nil, List.flatMap_nil, List.append_nil]; rfl
  | cons key keys ih =>
    cases nLeft with
    | zero => rw [hzero, Nat.zero_sub, List.take_zero, List.flatMap_nil, List.append_nil]
    | succ nLeft =>
      cases hf : f key with
      | none =>
        rw [hnone _ _ _ _ hf, List.filterMap_cons_none hf]
        exact ih (nLeft + 1) script
      | some sig =>
        rw [hsome _ _ _ _ _ hf, List.filterMap_cons_some hf, List.take_succ_cons, List.flatMap_cons,
          List.length_cons, Nat.succ_sub_succ, ← List.append_assoc]
        exact ih nLeft _

/-- The loop of `SignN` signs with the first `nRequired` keys, where all are held. -/
theorem signKeys_eq (hsigns : Signs creator) (scriptCode : CScript) {keys : List Bytes}
    {nRequired : Nat} (hn : nRequired ≤ keys.length)
    (hkeys : ∀ key ∈ keys, isCompressedOrUncompressedPubKey key = true)
    (hhave : ∀ key ∈ keys, creator.keystore.haveKey (creator.checker.hash160 key) = true)
    (scriptSig : CScript) :
    ∃ sigs : List Bytes, signKeys creator scriptCode nRequired keys scriptSig =
      (0, scriptSig ++ sigs.flatMap pushData) ∧ sigs.length = nRequired ∧
        (∀ sig ∈ sigs, StandardSig sig) ∧
        List.Forall₂ (fun sig key => creator.checker.checkSig sig key
          (findAndDelete scriptCode (pushData sig)) = true) sigs (keys.take nRequired) := by
  induction keys generalizing nRequired scriptSig with
  | nil =>
    obtain rfl : nRequired = 0 := Nat.le_zero.mp hn
    exact ⟨[], by rw [signKeys, List.flatMap_nil, List.append_nil], rfl, by simp, .nil⟩
  | cons key keys ih =>
    cases nRequired with
    | zero =>
      have hzero : signKeys creator scriptCode 0 (key :: keys) scriptSig = (0, scriptSig) := rfl
      exact ⟨[], by rw [hzero, List.flatMap_nil, List.append_nil], rfl, by simp, .nil⟩
    | succ nRequired =>
      have hkey := hkeys key List.mem_cons_self
      obtain ⟨sig, hcreate, hsig, haccept⟩ := hsigns _ scriptCode (hhave key List.mem_cons_self)
      obtain ⟨sigs, hloop, hlen, hsigs, hmatch⟩ := ih (Nat.le_of_succ_le_succ hn)
        (fun k hk => hkeys k (List.mem_cons_of_mem _ hk))
        (fun k hk => hhave k (List.mem_cons_of_mem _ hk)) (scriptSig ++ pushData sig)
      refine ⟨sig :: sigs, ?_, by rw [List.length_cons, hlen], List.forall_mem_cons.mpr ⟨hsig, hsigs⟩,
        .cons (haccept key rfl) hmatch⟩
      rw [signKeys, getID_eq hkey, sign1_eq hcreate, List.flatMap_cons, ← List.append_assoc]
      exact hloop

theorem length_getScriptForMultisig (nRequired : Nat) {keys : List Bytes}
    (hkeys : ∀ key ∈ keys, KeyShape key) (hn' : keys.length ≤ 16) :
    2 ≤ (getScriptForMultisig nRequired keys).length ∧
      (getScriptForMultisig nRequired keys).length ≤ 10000 := by
  have hkeysLen := length_pubKeys hkeys hn'
  rw [getScriptForMultisig_eq]
  simp only [List.length_append, List.length_cons, List.length_nil]
  omega

/-- A multisig script is run up to its last opcode. -/
theorem Evals.multisig {checker : Checker} {nRequired : Nat} {sigs keys : List Bytes}
    (hm : 1 ≤ nRequired) (hn : nRequired ≤ keys.length) (hn' : keys.length ≤ 16)
    (hkeys : ∀ key ∈ keys, KeyShape key) (hlen : sigs.length = nRequired) :
    Evals checker STANDARD_SCRIPT_VERIFY_FLAGS
      (.init (sigs.reverse ++ [[]]) (getScriptForMultisig nRequired keys))
      ⟨[OP_CHECKMULTISIG], getScriptForMultisig nRequired keys, scriptNumBytes keys.length ::
        (keys.reverse ++ scriptNumBytes sigs.length :: (sigs.reverse ++ [[]])), [], [], 0⟩ := by
  obtain ⟨script, hscript⟩ : ∃ script, script = getScriptForMultisig nRequired keys := ⟨_, rfl⟩
  have hcode : script = UInt8.ofNat (0x50 + nRequired) ::
      (keys.flatMap pushData ++ UInt8.ofNat (0x50 + keys.length) :: [OP_CHECKMULTISIG]) := by
    rw [hscript, getScriptForMultisig_eq, encodeOpN_eq hm, encodeOpN_eq (by omega)]
  have hkeysLen := length_pubKeys hkeys hn'
  have hstack : (sigs.reverse ++ [[]]).length = nRequired + 1 := by
    rw [List.length_append, List.length_reverse, hlen]
    rfl
  rw [← hscript]
  have hnumber : Evals checker STANDARD_SCRIPT_VERIFY_FLAGS
      (.init (sigs.reverse ++ [[]]) script)
      ⟨keys.flatMap pushData ++ UInt8.ofNat (0x50 + keys.length) :: [OP_CHECKMULTISIG], script,
        scriptNumBytes sigs.length :: (sigs.reverse ++ [[]]), [], [], 0⟩ := by
    rw [EvalState.init, hlen]
    have hrun : Evals checker STANDARD_SCRIPT_VERIFY_FLAGS
        ⟨UInt8.ofNat (0x50 + nRequired) ::
          (keys.flatMap pushData ++ UInt8.ofNat (0x50 + keys.length) :: [OP_CHECKMULTISIG]), script,
          sigs.reverse ++ [[]], [], [], 0⟩
        ⟨keys.flatMap pushData ++ UInt8.ofNat (0x50 + keys.length) :: [OP_CHECKMULTISIG], script,
          scriptNumBytes nRequired :: (sigs.reverse ++ [[]]), [], [], 0⟩ :=
      Evals.number (by omega) (by omega)
    rwa [← hcode] at hrun
  have hpushes : Evals checker STANDARD_SCRIPT_VERIFY_FLAGS
      ⟨keys.flatMap pushData ++ UInt8.ofNat (0x50 + keys.length) :: [OP_CHECKMULTISIG], script,
        scriptNumBytes sigs.length :: (sigs.reverse ++ [[]]), [], [], 0⟩
      ⟨UInt8.ofNat (0x50 + keys.length) :: [OP_CHECKMULTISIG], script,
        keys.reverse ++ scriptNumBytes sigs.length :: (sigs.reverse ++ [[]]), [], [], 0⟩ :=
    Evals.pushes (fun key hkey => .of_sizes (pubKey_sizes (hkeys key hkey)))
      (by simp only [List.length_append, List.length_cons, List.length_nil]; omega)
      (by rw [List.length_cons, hstack]; omega)
  have hnumber' : Evals checker STANDARD_SCRIPT_VERIFY_FLAGS
      ⟨UInt8.ofNat (0x50 + keys.length) :: [OP_CHECKMULTISIG], script,
        keys.reverse ++ scriptNumBytes sigs.length :: (sigs.reverse ++ [[]]), [], [], 0⟩
      ⟨[OP_CHECKMULTISIG], script, scriptNumBytes keys.length ::
        (keys.reverse ++ scriptNumBytes sigs.length :: (sigs.reverse ++ [[]])), [], [], 0⟩ :=
    Evals.number (by omega) (by
      rw [List.length_append, List.length_reverse, List.length_cons, hstack]
      omega)
  exact (hnumber.trans hpushes).trans hnumber'

/-- A multisig script is solved by signatures with its first keys. -/
theorem signStep_multisig (hsigns : Signs creator) {nRequired : Nat} {keys : List Bytes}
    (hm : 1 ≤ nRequired) (hn : nRequired ≤ keys.length) (hn' : keys.length ≤ 16)
    (hkeys : ∀ key ∈ keys, isCompressedOrUncompressedPubKey key = true)
    (hhave : ∀ key ∈ keys, creator.keystore.haveKey (creator.checker.hash160 key) = true) :
    ∃ items, signStep options creator (getScriptForMultisig nRequired keys) =
      (true, items.flatMap pushData, .MULTISIG) ∧
        SolvedBy creator.checker (getScriptForMultisig nRequired keys) items := by
  obtain ⟨script, hscript⟩ : ∃ script, script = getScriptForMultisig nRequired keys := ⟨_, rfl⟩
  obtain ⟨sigs, hloop, hlen, hsigs, hmatch⟩ := signKeys_eq hsigns script hn hkeys hhave [0x00]
  have hshape : ∀ key ∈ keys, KeyShape key := fun key hkey => keyShape (hkeys key hkey)
  rw [← hscript]
  have hkeep : ∀ sig ∈ sigs, findAndDelete script (pushData sig) = script := fun sig hsig => by
    rw [hscript]
    exact findAndDelete_multisig (hsigs sig hsig) hm hn hn' hshape
  have hsublist : List.SublistForall₂
      (fun sig key => creator.checker.checkSig sig key script = true) sigs keys := by
    refine List.sublistForall₂_iff.mpr ⟨keys.take nRequired, ?_, List.take_sublist _ _⟩
    exact List.forall₂_iff_zip.mpr ⟨hmatch.length_eq, fun {sig key} hmem => by
      have := (List.forall₂_iff_zip.mp hmatch).2 hmem
      rwa [hkeep sig (List.of_mem_zip hmem).1] at this⟩
  have hsize : 2 ≤ script.length ∧ script.length ≤ 10000 :=
    hscript ▸ length_getScriptForMultisig nRequired hshape hn'
  have hsizes : ∀ b ∈ [] :: sigs, b.length ≠ 1 ∧ b.length ≤ MAX_SCRIPT_ELEMENT_SIZE :=
    List.forall_mem_cons.mpr ⟨by decide, fun sig hsig => (hsigs sig hsig).sizes⟩
  refine ⟨[] :: sigs, ?_, by rw [List.length_cons]; omega, hsizes,
    ⟨1 + keys.length, ?_⟩, hsize, ?_⟩
  · have hfront : (UInt8.ofNat nRequired).toNat = nRequired :=
      UInt8.toNat_ofNat_of_lt' (show nRequired < 256 by omega)
    have hlast : (keys ++ [[UInt8.ofNat keys.length]]).dropLast = keys := List.dropLast_concat
    have hsolver := solver_getScriptForMultisig options hm hn hn' fun key h => isValidPubKey (hkeys key h)
    rw [signStep, hscript, hsolver, ← hscript]
    simp only [signN, List.cons_append, List.headD_cons, List.tail_cons, hlast, hfront, hloop,
      beq_self_eq_true, List.flatMap_cons]
    rfl
  · have hpushes : Evals creator.checker STANDARD_SCRIPT_VERIFY_FLAGS
        (.init (sigs.reverse ++ [[]]) script) ⟨[OP_CHECKMULTISIG], script, scriptNumBytes keys.length ::
          (keys.reverse ++ scriptNumBytes sigs.length :: (sigs.reverse ++ [[]])), [], [], 0⟩ := by
      rw [hscript]
      exact Evals.multisig hm hn hn' hshape hlen
    have hcheck : Evals creator.checker STANDARD_SCRIPT_VERIFY_FLAGS
        ⟨[OP_CHECKMULTISIG], script, scriptNumBytes keys.length ::
          (keys.reverse ++ scriptNumBytes sigs.length :: (sigs.reverse ++ [[]])), [], [], 0⟩
        ⟨[], script, [vchTrue], [], [], 0 + 1 + keys.length⟩ :=
      Evals.checkMultisig hn' (by omega) (Nat.le_add_left 1 999) hsigs hkeys hkeep hsublist
    rw [List.reverse_cons]
    have hrun := hpushes.trans hcheck
    rwa [Nat.zero_add] at hrun
  · rw [hscript, getScriptForMultisig_eq]
    exact isPayToScriptHash_encodeOpN hm (hn.trans hn') _

end

/-! ## What is ours -/

/-- The scripts that are built for destinations, for several keys and for a key. -/
inductive Standard : CScript → Prop where
  | destination (dest : Destination) : Standard (getScriptForDestination dest)
  | multisig {nRequired : Nat} {keys : List Bytes}
      (h : 1 ≤ nRequired ∧ nRequired ≤ keys.length ∧ keys.length ≤ 16)
      (hkeys : ∀ key ∈ keys, isCompressedOrUncompressedPubKey key = true) :
      Standard (getScriptForMultisig nRequired keys)
  | pubKey {key : Bytes} (hkey : isCompressedOrUncompressedPubKey key = true) :
      Standard (getScriptForPubKey key)

/-- A script for the hash of a redeem script in the store that itself is one for a script hash. -/
def Nested {hash160 : Bytes → UInt160} (keystore : KeyStore hash160) (scriptPubKey : CScript) : Prop :=
  ∃ id redeemScript, scriptPubKey = getScriptForDestination (.scriptID id) ∧
    keystore.mapScripts id = some redeemScript ∧ isPayToScriptHash redeemScript = true

section

variable {options : SolverOptions} {creator : SignatureCreator} {depth : Nat}

/-- A standard script that pays to a script hash is the one for its destination. -/
theorem standard_scriptHash {script : CScript} (h : Standard script)
    (hp2sh : isPayToScriptHash script = true) :
    ∃ id, script = getScriptForDestination (.scriptID id) := by
  cases h with
  | destination dest =>
    cases dest with
    | noDestination => cases hp2sh
    | keyID id =>
      rw [isPayToScriptHash_length (by rw [length_keyID]; decide)] at hp2sh
      cases hp2sh
    | scriptID id => exact ⟨id, rfl⟩
  | multisig h hkeys =>
    rw [getScriptForMultisig_eq, isPayToScriptHash_encodeOpN h.1 (h.2.1.trans h.2.2)] at hp2sh
    cases hp2sh
  | pubKey hkey =>
    have := (pubKey_shape hkey).1
    rw [isPayToScriptHash_length (by rw [length_getScriptForPubKey (keyShape hkey)]; omega)] at hp2sh
    cases hp2sh

theorem watchOnly_ne {watchOnly : Bool} :
    (if watchOnly = true then IsMineType.WATCH_ONLY else .NO) ≠ .SPENDABLE := by
  cases watchOnly <;> decide

/-- A choice of `IsMine`: what is spendable is so by its keys. -/
theorem of_spendable {c : Prop} [Decidable c] {watchOnly : Bool}
    (h : some (if c then IsMineType.SPENDABLE else if watchOnly = true then .WATCH_ONLY else .NO) =
      some .SPENDABLE) : c := by
  by_contra hc
  rw [if_neg hc] at h
  exact watchOnly_ne (Option.some.inj h)

theorem haveKeys_eq_length {hash160 : Bytes → UInt160} {keystore : KeyStore hash160}
    {keys : List Bytes} (h : haveKeys keystore keys = keys.length) :
    ∀ key ∈ keys, keystore.haveKey (getID hash160 key) = true :=
  List.countP_eq_length.mp h

/-- A standard script that is ours, and is no script hash, is solved. -/
theorem signStep_standard (hsigns : Signs creator) {script : CScript} (h : Standard script)
    (hmine : isMine options creator.keystore depth script = some .SPENDABLE)
    (hp2sh : isPayToScriptHash script = false) :
    ∃ items whichType, signStep options creator script = (true, items.flatMap pushData, whichType) ∧
      whichType ≠ .SCRIPTHASH ∧ SolvedBy creator.checker script items := by
  obtain ⟨depth, rfl⟩ : ∃ n, depth = n + 1 := by
    cases depth with
    | zero => cases hmine
    | succ depth => exact ⟨depth, rfl⟩
  cases h with
  | destination dest =>
    cases dest with
    | noDestination =>
      rw [getScriptForDestination, isMine, solver_nil] at hmine
      exact (watchOnly_ne (Option.some.inj hmine)).elim
    | keyID id =>
      rw [isMine, solver_keyID] at hmine
      have hhave : creator.keystore.haveKey id = true := by
        have haddress : toUInt160 id.val = some id := dif_pos id.property
        have := of_spendable hmine
        rwa [List.headD_cons, haddress, Option.map_some, Option.getD_some] at this
      obtain ⟨items, hstep, hsolved⟩ := signStep_keyID hsigns hhave
      exact ⟨items, _, hstep, (by decide), hsolved⟩
    | scriptID id =>
      rw [isPayToScriptHash_scriptID] at hp2sh
      cases hp2sh
  | @multisig nRequired keys h hkeys =>
    obtain ⟨hm, hn, hn'⟩ := h
    have hsolver := solver_getScriptForMultisig options hm hn hn' fun key h => isValidPubKey (hkeys key h)
    rw [isMine, hsolver] at hmine
    have hhave : ∀ key ∈ keys, creator.keystore.haveKey (creator.checker.hash160 key) = true := by
      have hlast : (([UInt8.ofNat nRequired] :: (keys ++ [[UInt8.ofNat keys.length]])).tail).dropLast =
        keys := List.dropLast_concat
      have hcount := of_spendable hmine
      rw [hlast] at hcount
      intro key hkey
      have := haveKeys_eq_length hcount key hkey
      rwa [getID_eq (hkeys key hkey)] at this
    obtain ⟨items, hstep, hsolved⟩ := signStep_multisig hsigns hm hn hn' hkeys hhave
    exact ⟨items, _, hstep, (by decide), hsolved⟩
  | pubKey hkey =>
    rw [isMine, solver_pubKey options (isValidPubKey hkey)] at hmine
    have hhave := of_spendable hmine
    rw [List.headD_cons, getID_eq hkey] at hhave
    obtain ⟨items, hstep, hsolved⟩ := signStep_pubKey hsigns hkey hhave
    exact ⟨items, _, hstep, (by decide), hsolved⟩

/-- Where a script hash is ours, its redeem script is in the store and is ours. -/
theorem isMine_scriptID {id : UInt160}
    (hmine : isMine options creator.keystore depth (getScriptForDestination (.scriptID id)) =
      some .SPENDABLE) :
    ∃ depth' redeemScript, creator.keystore.mapScripts id = some redeemScript ∧
      isMine options creator.keystore depth' redeemScript = some .SPENDABLE := by
  cases depth with
  | zero => cases hmine
  | succ depth =>
    have haddress : toUInt160 id.val = some id := dif_pos id.property
    rw [isMine, solver_scriptID] at hmine
    simp only [List.headD_cons, haddress, Option.bind_some] at hmine
    cases hscript : creator.keystore.mapScripts id with
    | none =>
      rw [hscript] at hmine
      exact (watchOnly_ne (Option.some.inj hmine)).elim
    | some redeemScript =>
      rw [hscript] at hmine
      obtain ⟨ret, hsub, hret⟩ := Option.map_eq_some_iff.mp hmine
      split_ifs at hret with heq
      exact ⟨depth, redeemScript, rfl, by rw [hsub, heq]⟩

theorem signStep_scriptID {id : UInt160} {redeemScript : CScript}
    (h : creator.keystore.mapScripts id = some redeemScript) :
    signStep options creator (getScriptForDestination (.scriptID id)) =
      (true, redeemScript, .SCRIPTHASH) := by
  have haddress : toUInt160 id.val = some id := dif_pos id.property
  rw [signStep, solver_scriptID]
  simp only [List.headD_cons, haddress, Option.bind_some, h]

/-- What is signed for a script that is no script hash passes. -/
theorem produceSignature_standard (hsigns : Signs creator) {script : CScript} (h : Standard script)
    (hmine : isMine options creator.keystore depth script = some .SPENDABLE)
    (hp2sh : isPayToScriptHash script = false) :
    (produceSignature options creator script).1 = true := by
  obtain ⟨items, whichType, hstep, htype, hsolved⟩ := signStep_standard hsigns h hmine hp2sh
  have hverify : verifyStandard creator (items.flatMap pushData) script = true := by
    rw [verifyStandard, verifyScript_pushes ⟨hsolved.count.trans (by decide), hsolved.sizes⟩
      hsolved.solves hsolved.size.2 hp2sh]
  rw [produceSignature, hstep]
  cases whichType with
  | SCRIPTHASH => exact (htype rfl).elim
  | _ => exact hverify

/-- What is signed for the hash of such a script passes. -/
theorem produceSignature_scriptID (hsigns : Signs creator) {id : UInt160} {redeemScript : CScript}
    (hscript : creator.keystore.mapScripts id = some redeemScript) (h : Standard redeemScript)
    (hmine : isMine options creator.keystore depth redeemScript = some .SPENDABLE)
    (hp2sh : isPayToScriptHash redeemScript = false) :
    (produceSignature options creator (getScriptForDestination (.scriptID id))).1 = true := by
  obtain ⟨items, whichType, hstep, htype, hsolved⟩ := signStep_standard hsigns h hmine hp2sh
  obtain ⟨hid, hsize⟩ := creator.keystore.scripts id redeemScript hscript
  have hitems : Pushable (items ++ [redeemScript]) := by
    have hcount := hsolved.count
    have hlen := hsolved.size.1
    refine ⟨by rw [List.length_append, List.length_singleton]; omega, fun b hb => ?_⟩
    rcases List.mem_append.mp hb with hb | hb
    · exact hsolved.sizes b hb
    · rw [List.mem_singleton.mp hb]
      exact ⟨by omega, hsize⟩
  have hverify : verifyStandard creator (items.flatMap pushData ++ pushData redeemScript)
      (getScriptForDestination (.scriptID id)) = true := by
    have hpush : items.flatMap pushData ++ pushData redeemScript =
        (items ++ [redeemScript]).flatMap pushData := by
      rw [List.flatMap_append, List.flatMap_singleton]
    rw [verifyStandard, hpush, ← hid, verifyScript_scriptID hitems hsolved.solves]
  have hsub : (whichType != .SCRIPTHASH) = true := bne_iff_ne.mpr htype
  rw [produceSignature, signStep_scriptID hscript]
  simp only [hstep, hsub, Bool.and_self, Bool.not_true, Bool.false_eq_true, ↓reduceIte]
  exact hverify

theorem signStep_scriptHash {script : CScript} (h : isPayToScriptHash script = true) :
    (signStep options creator script).2.2 = .SCRIPTHASH := by
  simp only [signStep, solver, solverRet, h, ↓reduceIte]
  split <;> rfl

/-- A script hash below a script hash is not signed for. -/
theorem produceSignature_nested {scriptPubKey : CScript}
    (h : Nested creator.keystore scriptPubKey) :
    (produceSignature options creator scriptPubKey).1 = false := by
  obtain ⟨id, redeemScript, rfl, hscript, hp2sh⟩ := h
  rw [produceSignature, signStep_scriptID hscript]
  simp only [signStep_scriptHash hp2sh, bne_self_eq_false, Bool.and_false, Bool.not_false, ↓reduceIte]

/-- **Signing.** What `IsMine` calls spendable, `ProduceSignature` signs if and only if it is no script
hash of a redeem script that is one for a script hash in turn. The store is any that has standard
scripts only. -/
theorem produceSignature_iff (options : SolverOptions) (creator : SignatureCreator)
    (hsigns : Signs creator)
    (hstore : ∀ id redeemScript, creator.keystore.mapScripts id = some redeemScript →
      Standard redeemScript)
    {scriptPubKey : CScript} (hscript : Standard scriptPubKey) {depth : Nat}
    (hmine : isMine options creator.keystore depth scriptPubKey = some .SPENDABLE) :
    (produceSignature options creator scriptPubKey).1 = true ↔
      ¬ Nested creator.keystore scriptPubKey := by
  constructor
  · intro hsigned hnested
    rw [produceSignature_nested hnested] at hsigned
    cases hsigned
  · intro hnested
    cases hp2sh : isPayToScriptHash scriptPubKey with
    | false => exact produceSignature_standard hsigns hscript hmine hp2sh
    | true =>
      obtain ⟨id, rfl⟩ := standard_scriptHash hscript hp2sh
      obtain ⟨depth', redeemScript, hsub, hmine'⟩ := isMine_scriptID hmine
      refine produceSignature_scriptID hsigns hsub (hstore id redeemScript hsub) hmine' ?_
      exact Bool.eq_false_iff.mpr fun h => hnested ⟨id, redeemScript, rfl, hsub, h⟩

end

/-! ### A nested script hash -/

/-- A store stays one of standard scripts when one is added. -/
theorem standard_addCScript {hash160 : Bytes → UInt160} {keystore : KeyStore hash160}
    (h : ∀ id script, keystore.mapScripts id = some script → Standard script)
    {redeemScript : CScript} (hscript : Standard redeemScript) :
    ∀ id script, (keystore.addCScript redeemScript).mapScripts id = some script →
      Standard script := by
  intro id script hmap
  unfold KeyStore.addCScript at hmap
  split_ifs at hmap
  · exact h id script hmap
  · simp only at hmap
    split_ifs at hmap
    · cases hmap
      exact hscript
    · exact h id script hmap

def prefixHash (b : Bytes) : UInt160 := ⟨(b ++ List.replicate 20 0).take 20, length_padded b⟩

def prefixChecker : Checker := { sampleChecker with hash160 := prefixHash }

def sampleKey : Bytes := 0x02 :: List.replicate 32 1

def sampleSig : Bytes := [0x30, 6, 0x02, 1, 1, 0x02, 1, 1, 1]

theorem sampleKey_valid : isCompressedOrUncompressedPubKey sampleKey = true := by decide

/-- A store with a key and its script. -/
def sampleStore : KeyStore prefixHash :=
  (KeyStore.empty.addKeyPubKey sampleKey sampleKey_valid).addCScript (getScriptForPubKey sampleKey)

/-- The script for the hash of the script in `sampleStore`. -/
def hashScript : CScript := getScriptForDestination (.scriptID (prefixHash (getScriptForPubKey sampleKey)))

/-- The script for the hash of that script. -/
def nestedScript : CScript := getScriptForDestination (.scriptID (prefixHash hashScript))

def sampleCreator (keystore : KeyStore prefixHash) : SignatureCreator where
  checker := prefixChecker
  keystore := keystore
  createSig _ _ := some sampleSig

theorem sampleCreator_signs (keystore : KeyStore prefixHash) : Signs (sampleCreator keystore) :=
  fun _ _ _ => ⟨sampleSig, rfl, ⟨by decide, by decide⟩, fun _ _ => rfl⟩

theorem sampleStore_standard :
    ∀ id script, sampleStore.mapScripts id = some script → Standard script :=
  standard_addCScript (fun _ _ h => by cases h) (.pubKey sampleKey_valid)

def sampleOptions : SolverOptions := ⟨true, 83⟩

theorem hashScript_signed :
    (produceSignature sampleOptions (sampleCreator sampleStore) hashScript).1 = true ↔
      ¬ Nested sampleStore hashScript := by
  have hmine : isMine sampleOptions sampleStore 2 hashScript = some .SPENDABLE := by decide
  exact produceSignature_iff sampleOptions (sampleCreator sampleStore) (sampleCreator_signs sampleStore)
    sampleStore_standard (.destination _) hmine

/-- The script hash of a script hash is spendable for `IsMine`, and is not signed for. -/
theorem nestedScript_unsigned :
    Signs (sampleCreator (sampleStore.addCScript hashScript)) ∧
    (∀ id script, (sampleStore.addCScript hashScript).mapScripts id = some script →
      Standard script) ∧
    Standard nestedScript ∧
    isMine sampleOptions (sampleStore.addCScript hashScript) 3 nestedScript = some .SPENDABLE ∧
    (produceSignature sampleOptions (sampleCreator (sampleStore.addCScript hashScript))
      nestedScript).1 = false :=
  ⟨sampleCreator_signs _, standard_addCScript sampleStore_standard (.destination _), .destination _,
    by decide, by decide⟩

end GC
