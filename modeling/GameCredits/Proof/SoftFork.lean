import GameCredits.Proof.ScriptLimits

/-!
# Verification flags are soft forks

What succeeds under a set of flags succeeds under each subset. Every handler of the switch is
stricter under more flags (`switch_softFork`), so that every opcode is (`evalOp_softFork`), and from
it every script (`evalScript_softFork`). In `VerifyScript` a flag can also add an evaluation
(`verifyScript_softFork`).
-/

namespace GC

open Framework

/-- What a handler does under more flags, it does under fewer. -/
def SoftFork (handler : Handler) : Prop :=
  ∀ F G : UInt32, F &&& G = F → ∀ st, Stricter (handler G st) (handler F st)

variable {F G : UInt32} {checker : Checker}

theorem hasFlag_mono (h : F &&& G = F) {mask : UInt32} (hF : hasFlag F mask = true) :
    hasFlag G mask = true := by
  rw [hasFlag, bne_iff_ne] at hF ⊢
  intro hG
  rw [← h, UInt32.and_assoc, hG, UInt32.and_zero] at hF
  exact hF rfl

theorem setErrorIf_stricter {c c' : Bool} (h : c' = true → c = true) (e : ScriptError) :
    Stricter (setErrorIf c e) (setErrorIf c' e) := by
  cases c with
  | true => exact Stricter.error _ _
  | false =>
    obtain rfl : c' = false := Bool.eq_false_iff.mpr fun hc => absurd (h hc) Bool.false_ne_true
    exact Stricter.refl _

/-- A check that a flag asks for. -/
theorem setErrorIf_flag (h : F &&& G = F) (mask : UInt32) (c : Bool) (e : ScriptError) :
    Stricter (setErrorIf (hasFlag G mask && c) e) (setErrorIf (hasFlag F mask && c) e) := by
  refine setErrorIf_stricter (fun hF => ?_) e
  rw [Bool.and_eq_true] at hF ⊢
  exact ⟨hasFlag_mono h hF.1, hF.2⟩

theorem scriptNum_stricter (h : F &&& G = F) (mask : UInt32) (vch : Bytes) :
    Stricter (scriptNum (hasFlag G mask) vch) (scriptNum (hasFlag F mask) vch) := by
  unfold scriptNum
  by_cases hlen : 4 < vch.length
  · rw [if_pos hlen]; exact Stricter.error _ _
  · rw [if_neg hlen, if_neg hlen]
    cases hG : hasFlag G mask && nonMinimal vch with
    | true => exact Stricter.error _ _
    | false =>
      have hF : (hasFlag F mask && nonMinimal vch) = false := by
        cases hm : nonMinimal vch with
        | false => exact Bool.and_false _
        | true =>
          rw [hm, Bool.and_true] at hG
          rw [Bool.and_true, Bool.eq_false_iff]
          exact fun hF => by rw [hasFlag_mono h hF] at hG; cases hG
      rw [hF]
      exact Stricter.refl _

theorem checkLowS_stricter (h : F &&& G = F) (vchSig : Bytes) :
    Stricter (checkLowS G checker vchSig) (checkLowS F checker vchSig) := by
  unfold checkLowS
  by_cases hF : hasFlag F SCRIPT_VERIFY_LOW_S = true
  · rw [if_pos hF, if_pos (hasFlag_mono h hF)]
    exact Stricter.refl _
  · rw [if_neg hF]
    exact fun _ _ => rfl

theorem checkSignatureEncoding_stricter (h : F &&& G = F) (vchSig : Bytes) :
    Stricter (checkSignatureEncoding G checker vchSig) (checkSignatureEncoding F checker vchSig) := by
  unfold checkSignatureEncoding
  split_ifs with hemp
  · exact Stricter.refl _
  · refine (setErrorIf_flag h _ _ _).bind fun _ => ?_
    exact (checkLowS_stricter h vchSig).bind fun _ => setErrorIf_flag h _ _ _

theorem checkPubKeyEncoding_stricter (h : F &&& G = F) (vchPubKey : Bytes) :
    Stricter (checkPubKeyEncoding G vchPubKey) (checkPubKeyEncoding F vchPubKey) :=
  setErrorIf_flag h _ _ _

/-! ## Handlers -/

theorem softFork_of_const {f : EvalState → Result EvalState} : SoftFork fun _ => f :=
  fun _ _ _ st => Stricter.refl (f st)

theorem onStackWith_softFork {f : UInt32 → Stack → Result Stack}
    (hf : ∀ F G : UInt32, F &&& G = F → ∀ stack, Stricter (f G stack) (f F stack)) :
    SoftFork (onStackWith f) := fun F G h st => (hf F G h st.stack).bind_refl _

theorem opUpgradableNop_softFork : SoftFork opUpgradableNop := by
  intro F G h st
  refine Stricter.bind_refl (setErrorIf_stricter (fun hF => hasFlag_mono h hF) _) _

theorem opPick_softFork (roll : Bool) : SoftFork (onStackWith (opPick roll)) := by
  refine onStackWith_softFork fun F G h stack => ?_
  refine .refl_bind _ fun _ => .refl_bind _ fun vch => ?_
  exact (scriptNum_stricter h _ vch).bind_refl _

theorem opUnary_softFork (f : Int → Result Int) : SoftFork (onStackWith (opUnary f)) := by
  refine onStackWith_softFork fun F G h stack => ?_
  refine .refl_bind _ fun _ => .refl_bind _ fun vch => ?_
  exact (scriptNum_stricter h _ vch).bind_refl _

theorem opBinary_softFork (verify : Option ScriptError) (f : Int → Int → Int) :
    SoftFork (onStackWith (opBinary verify f)) := by
  refine onStackWith_softFork fun F G h stack => ?_
  refine .refl_bind _ fun _ => .refl_bind _ fun vch => (scriptNum_stricter h _ vch).bind fun _ => ?_
  refine .refl_bind _ fun vch => ?_
  exact (scriptNum_stricter h _ vch).bind_refl _

theorem opWithin_softFork : SoftFork (onStackWith opWithin) := by
  refine onStackWith_softFork fun F G h stack => ?_
  refine .refl_bind _ fun _ => .refl_bind _ fun vch => (scriptNum_stricter h _ vch).bind fun _ => ?_
  refine .refl_bind _ fun vch => (scriptNum_stricter h _ vch).bind fun _ => ?_
  refine .refl_bind _ fun vch => ?_
  exact (scriptNum_stricter h _ vch).bind_refl _

theorem opCheckSig_softFork (verify : Option ScriptError) :
    SoftFork (opCheckSig checker verify) := by
  intro F G h st
  refine .refl_bind _ fun _ => .refl_bind _ fun vchSig => .refl_bind _ fun vchPubKey => ?_
  refine (checkSignatureEncoding_stricter h vchSig).bind fun _ => ?_
  exact (checkPubKeyEncoding_stricter h vchPubKey).bind_refl _

theorem checkSignatures_stricter (h : F &&& G = F) (stack : Stack) (scriptCode : CScript)
    (nKeysCount nSigsCount isig ikey : Nat) :
    Stricter (checkSignatures checker G stack scriptCode nKeysCount nSigsCount isig ikey)
      (checkSignatures checker F stack scriptCode nKeysCount nSigsCount isig ikey) := by
  induction nKeysCount generalizing nSigsCount isig ikey with
  | zero => cases nSigsCount <;> exact Stricter.refl _
  | succ nKeysCount ih =>
    cases nSigsCount with
    | zero => exact Stricter.refl _
    | succ nSigsCount =>
      refine .refl_bind _ fun vchSig => .refl_bind _ fun vchPubKey => ?_
      refine (checkSignatureEncoding_stricter h vchSig).bind fun _ => ?_
      refine (checkPubKeyEncoding_stricter h vchPubKey).bind fun _ => ?_
      split_ifs
      · exact ih _ _ _
      · exact Stricter.refl _
      · exact ih _ _ _

theorem opCheckMultisig_softFork (verify : Option ScriptError) :
    SoftFork (opCheckMultisig checker verify) := by
  intro F G h st
  refine .refl_bind _ fun _ => .refl_bind _ fun vch => (scriptNum_stricter h _ vch).bind fun _ => ?_
  refine .refl_bind _ fun _ => .refl_bind _ fun _ => .refl_bind _ fun _ => .refl_bind _ fun vch => ?_
  refine (scriptNum_stricter h _ vch).bind fun _ => ?_
  refine .refl_bind _ fun _ => .refl_bind _ fun _ => .refl_bind _ fun scriptCode => ?_
  refine (checkSignatures_stricter h _ _ _ _ _ _).bind fun _ => ?_
  refine .refl_bind _ fun _ => .refl_bind _ fun _ => .refl_bind _ fun dummy => ?_
  exact (setErrorIf_flag h _ _ _).bind_refl _

/-- Every case of the switch. -/
theorem switch_softFork (fExec : Bool) : ∀ op ∈ switch checker fExec, SoftFork op.2 := by
  intro op hop
  simp only [switch, List.mem_append] at hop
  rcases hop with (((((hop | hop) | hop) | hop) | hop) | hop) | hop
  · obtain ⟨opcode, -, rfl⟩ := List.mem_map.mp hop
    exact softFork_of_const
  · simp only [controlOps, List.mem_cons, List.not_mem_nil, or_false] at hop
    rcases hop with rfl | rfl | rfl | rfl | rfl | rfl | rfl | rfl | rfl <;>
      exact softFork_of_const
  · obtain ⟨op, -, rfl⟩ := List.mem_map.mp hop
    exact softFork_of_const
  · obtain ⟨op, -, rfl⟩ := List.mem_map.mp hop
    exact opUnary_softFork _
  · obtain ⟨op, -, rfl⟩ := List.mem_map.mp hop
    exact opBinary_softFork _ _
  · simp only [checkOps, List.mem_cons, List.not_mem_nil, or_false] at hop
    rcases hop with rfl | rfl | rfl | rfl | rfl | rfl | rfl
    · exact opPick_softFork _
    · exact opPick_softFork _
    · exact opWithin_softFork
    · exact opCheckSig_softFork _
    · exact opCheckSig_softFork _
    · exact opCheckMultisig_softFork _
    · exact opCheckMultisig_softFork _
  · obtain ⟨i, -, rfl⟩ := List.mem_map.mp hop
    exact opUpgradableNop_softFork

theorem execute_softFork (fExec : Bool) (opcode : UInt8) (vchPushValue : Bytes) :
    SoftFork (execute checker fExec opcode vchPushValue) := by
  intro F G h st
  unfold execute
  split_ifs
  · exact (setErrorIf_flag h _ _ _).bind_refl _
  · cases hop : (switch checker fExec).lookup opcode with
    | none => exact Stricter.refl _
    | some handler => exact switch_softFork fExec _ (Framework.Assoc.mem_of_lookup hop) F G h st
  · exact Stricter.refl _

/-! ## Scripts -/

/-- One opcode. -/
theorem evalOp_softFork : SoftFork (evalOp checker) := by
  intro F G h st
  unfold evalOp
  cases getOp st.pc with
  | none => exact Stricter.refl _
  | some r =>
    refine .refl_bind _ fun _ => .refl_bind _ fun _ => .refl_bind _ fun _ => ?_
    exact (execute_softFork _ _ _ F G h _).bind_refl _

/-- Any number of opcodes. -/
theorem evalOps_softFork (len : Nat) : SoftFork (evalOps checker len) := by
  induction len with
  | zero => exact softFork_of_const
  | succ len ih =>
    intro F G h st
    rw [evalOps, evalOps]
    split_ifs
    · exact Stricter.refl _
    · exact (evalOp_softFork F G h st).bind fun st' => ih F G h st'

theorem catchAll_stricter {α : Type} {x y : Result α} (h : Stricter x y) :
    Stricter (catchAll x) (catchAll y) := by
  intro a ha
  cases x with
  | error e => cases e <;> cases ha
  | ok b =>
    cases ha
    rw [h a rfl]
    rfl

/-- A whole script. -/
theorem evalScript_softFork (h : F &&& G = F) (stack : Stack) (script : CScript) :
    Stricter (evalScript checker G stack script) (evalScript checker F stack script) := by
  refine .refl_bind _ fun _ => ?_
  exact (catchAll_stricter (evalOps_softFork _ F G h _)).bind_refl _

theorem evalScriptHash_softFork (h : F &&& G = F) (scriptSig : CScript) (stack : Stack) :
    Stricter (evalScriptHash checker G scriptSig stack)
      (evalScriptHash checker F scriptSig stack) := by
  refine .refl_bind _ fun _ => .refl_bind _ fun _ => .refl_bind _ fun pubKey2 => ?_
  refine .refl_bind _ fun stack => ?_
  exact (evalScript_softFork h stack pubKey2).bind_refl _

theorem checkCleanStack_softFork (h : F &&& G = F)
    (hG : hasFlag G SCRIPT_VERIFY_CLEANSTACK = true → hasFlag G SCRIPT_VERIFY_P2SH = true)
    (hF : hasFlag F SCRIPT_VERIFY_CLEANSTACK = true → hasFlag F SCRIPT_VERIFY_P2SH = true)
    (stack : Stack) : Stricter (checkCleanStack G stack) (checkCleanStack F stack) := by
  unfold checkCleanStack
  by_cases hc : hasFlag F SCRIPT_VERIFY_CLEANSTACK = true
  · have hcG := hasFlag_mono h hc
    rw [if_pos hc, if_pos hcG, hF hc, hG hcG]
    exact Stricter.refl _
  · rw [if_neg hc]
    exact fun _ _ => rfl

/-- What `VerifyScript` accepts under a set of flags it accepts under each subset, where no set has
`CLEANSTACK` without `P2SH`; so what is accepted under the standard flags is accepted under the
mandatory ones. -/
theorem verifyScript_softFork (checker : Checker) (scriptSig scriptPubKey : CScript) :
    (∀ F G : UInt32, F &&& G = F →
      (hasFlag F SCRIPT_VERIFY_CLEANSTACK = true → hasFlag F SCRIPT_VERIFY_P2SH = true) →
      (hasFlag G SCRIPT_VERIFY_CLEANSTACK = true → hasFlag G SCRIPT_VERIFY_P2SH = true) →
      verifyScript checker G scriptSig scriptPubKey = .ok () →
      verifyScript checker F scriptSig scriptPubKey = .ok ()) ∧
    (verifyScript checker STANDARD_SCRIPT_VERIFY_FLAGS scriptSig scriptPubKey = .ok () →
      verifyScript checker MANDATORY_SCRIPT_VERIFY_FLAGS scriptSig scriptPubKey = .ok ()) := by
  have hgen : ∀ F G : UInt32, F &&& G = F →
      (hasFlag F SCRIPT_VERIFY_CLEANSTACK = true → hasFlag F SCRIPT_VERIFY_P2SH = true) →
      (hasFlag G SCRIPT_VERIFY_CLEANSTACK = true → hasFlag G SCRIPT_VERIFY_P2SH = true) →
      Stricter (verifyScript checker G scriptSig scriptPubKey)
        (verifyScript checker F scriptSig scriptPubKey) := by
    intro F G h hF hG
    refine (setErrorIf_flag h _ _ _).bind fun _ => ?_
    refine (evalScript_softFork h [] scriptSig).bind fun stackCopy => ?_
    refine (evalScript_softFork h stackCopy scriptPubKey).bind fun stack => .refl_bind _ fun _ => ?_
    by_cases hp : hasFlag F SCRIPT_VERIFY_P2SH = true
    · refine Stricter.bind ?_ fun stack => checkCleanStack_softFork h hG hF stack
      rw [checkScriptHash, checkScriptHash, hp, hasFlag_mono h hp]
      split_ifs
      · exact evalScriptHash_softFork h scriptSig stackCopy
      · exact Stricter.refl _
    · -- without the second evaluation there is no check of the stack it leaves
      have hc : ¬ hasFlag F SCRIPT_VERIFY_CLEANSTACK = true := fun hc => hp (hF hc)
      rw [Bool.not_eq_true] at hp
      have hstack : checkScriptHash checker F scriptSig scriptPubKey stackCopy stack = .ok stack := by
        rw [checkScriptHash, hp, Bool.false_and, if_neg Bool.false_ne_true]
      rw [hstack]
      exact fun _ _ => if_neg hc
  refine ⟨fun F G h hF hG => hgen F G h hF hG (), hgen _ _ (by decide) (by decide) (by decide) ()⟩

/-- The spend of a script hash: the script `OP_1` is pushed, and its hash is compared. -/
theorem sampleSpend_softFork :
    verifyScript sampleChecker MANDATORY_SCRIPT_VERIFY_FLAGS [0x01, 0x51]
        (OP_HASH160 :: 0x14 :: List.replicate 20 7 ++ [OP_EQUAL]) = .ok () ∧
      verifyScript sampleChecker SCRIPT_VERIFY_NONE [0x01, 0x51]
        (OP_HASH160 :: 0x14 :: List.replicate 20 7 ++ [OP_EQUAL]) = .ok () := by
  have hstandard : verifyScript sampleChecker STANDARD_SCRIPT_VERIFY_FLAGS [0x01, 0x51]
      (OP_HASH160 :: 0x14 :: List.replicate 20 7 ++ [OP_EQUAL]) = .ok () := by decide +kernel
  obtain ⟨hfork, hmandatory⟩ := verifyScript_softFork sampleChecker [0x01, 0x51]
    (OP_HASH160 :: 0x14 :: List.replicate 20 7 ++ [OP_EQUAL])
  exact ⟨hmandatory hstandard, hfork _ _ (by decide) (by decide) (by decide) hstandard⟩

end GC
