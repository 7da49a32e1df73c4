import GameCredits.Framework.Outcome
import GameCredits.Model.EvalScript

/-!
# The limits of script execution

No handler of the switch reads outside of a stack or fails an assertion of `CScriptNum`, and each
keeps the elements of both stacks and the count of operations within their limits (`switch_safe`).
With the checks around the switch this holds of every opcode (`evalOp_safe`) and of every number of
opcodes (`evalOps_safe`); as every opcode takes at least one byte, a script is at its end after as
many opcodes as it has bytes (`evalLoop_safe`).
-/

namespace GC

open Framework

/-- The ways in which `EvalScript` may be left: `set_error` and the exception of `CScriptNum`. -/
def Exn.Allowed : Exn → Prop
  | .scriptError _ => True
  | .scriptnumError _ => True
  | .outOfRange => False
  | .assertFailed => False

/-- No element is too large. -/
def Small (stack : Stack) : Prop := ∀ vch ∈ stack, vch.length ≤ MAX_SCRIPT_ELEMENT_SIZE

/-- The limits that every opcode keeps. -/
structure EvalState.Limited (st : EvalState) : Prop where
  stack : Small st.stack
  altstack : Small st.altstack
  count : st.nOpCount ≤ 201

/-- A program on the main stack that keeps the limits. -/
def SafeStack (f : Stack → Result Stack) : Prop :=
  ∀ stack, Small stack → Safe Exn.Allowed Small (f stack)

/-- A handler that keeps the limits, and does not go on in the script. -/
def SafeOp (handler : Handler) : Prop :=
  ∀ flags st, st.Limited →
    Safe Exn.Allowed (fun st' => st'.Limited ∧ st'.pc = st.pc) (handler flags st)

theorem Small.cons {vch : Bytes} {stack : Stack} (hv : vch.length ≤ MAX_SCRIPT_ELEMENT_SIZE)
    (h : Small stack) : Small (vch :: stack) := by
  intro v hmem
  rcases List.mem_cons.mp hmem with rfl | hmem
  · exact hv
  · exact h v hmem

theorem Small.subset {stack stack' : Stack} (h : Small stack) (hsub : ∀ v ∈ stack', v ∈ stack) :
    Small stack' := fun v hv => h v (hsub v hv)

theorem Small.drop {stack : Stack} (h : Small stack) (n : Nat) : Small (stack.drop n) :=
  h.subset fun _ hv => List.mem_of_mem_drop hv

/-! ## Numbers -/

theorem length_absBytes (len absvalue : Nat) : (absBytes len absvalue).length ≤ len := by
  induction len generalizing absvalue with
  | zero => exact le_rfl
  | succ len ih =>
    rw [absBytes]
    split_ifs
    · exact Nat.zero_le _
    · exact Nat.succ_le_succ (ih _)

theorem length_scriptNumBytes (value : Int) :
    (scriptNumBytes value).length ≤ MAX_SCRIPT_ELEMENT_SIZE := by
  have hmax : MAX_SCRIPT_ELEMENT_SIZE = 520 := rfl
  have hlen := length_absBytes 8 value.natAbs
  cases hback : (absBytes 8 value.natAbs).getLast? with
  | none =>
    simp only [scriptNumBytes, hback]
    exact Nat.zero_le _
  | some back =>
    simp only [scriptNumBytes, hback]
    split_ifs
    · rw [List.length_append, List.length_singleton]; omega
    · rw [List.length_append, List.length_singleton]; omega
    · rw [List.length_append, List.length_dropLast, List.length_singleton]; omega
    · omega

theorem length_boolBytes (f : Bool) : (boolBytes f).length ≤ MAX_SCRIPT_ELEMENT_SIZE := by
  cases f <;> decide

/-- A number of at most four bytes. -/
theorem scriptNum_safe (fRequireMinimal : Bool) (vch : Bytes) :
    Safe Exn.Allowed (fun bn => -2 ^ 32 ≤ bn ∧ bn ≤ 2 ^ 32) (scriptNum fRequireMinimal vch) := by
  unfold scriptNum
  split_ifs with hlen
  · trivial
  · trivial
  · have hlt : leNat vch < 2 ^ 32 := by
      refine Nat.lt_of_lt_of_le (leNat_lt vch) ?_
      rw [show (2 : Nat) ^ 32 = 256 ^ 4 by decide]
      exact Nat.pow_le_pow_right (by decide) (by omega)
    have hle := Nat.and_le_left (n := leNat vch)
      (m := (2 ^ 64 - 1) ^^^ (0x80 <<< (8 * (vch.length - 1))))
    rw [Safe.ok_iff]
    cases hback : vch.getLast? with
    | none =>
      simp only [setVch, hback]
      decide
    | some back =>
      simp only [setVch, hback]
      split_ifs <;> omega

/-! ## Access to a stack -/

section

variable {stack : Stack}

theorem setErrorIf_safe (c : Bool) (e : ScriptError) :
    Safe Exn.Allowed (fun _ => c = false) (setErrorIf c e) := by
  cases c
  · rfl
  · trivial

theorem assertThat_safe {c : Bool} (h : c = true) :
    Safe Exn.Allowed (fun _ => True) (assertThat c) := by
  rw [h]; trivial

theorem needStack_safe (stack : Stack) (n : Nat) :
    Safe Exn.Allowed (fun _ => n ≤ stack.length) (needStack stack n) :=
  (setErrorIf_safe _ _).mono fun _ h => by simpa using h

theorem stackTop_safe {i : Nat} (hi : 0 < i) (h : i ≤ stack.length) :
    Safe Exn.Allowed (· ∈ stack) (stackTop stack i) := by
  cases i with
  | zero => omega
  | succ i =>
    rw [stackTop, List.getElem?_eq_getElem (by omega)]
    exact List.getElem_mem _

theorem popStackN_safe {n : Nat} (h : n ≤ stack.length) :
    Safe Exn.Allowed (· = stack.drop n) (popStackN n stack) := by
  induction n generalizing stack with
  | zero => rfl
  | succ n ih =>
    cases stack with
    | nil => simp at h
    | cons vch stack => exact ih (Nat.le_of_succ_le_succ h)

theorem popStack_safe (h : 0 < stack.length) :
    Safe Exn.Allowed (· = stack.drop 1) (popStack stack) := by
  cases stack with
  | nil => simp at h
  | cons vch stack => rfl

theorem swapTop_safe {i j : Nat} (hi : 0 < i) (hj : 0 < j) (hi' : i ≤ stack.length)
    (hj' : j ≤ stack.length) (hs : Small stack) :
    Safe Exn.Allowed (fun s => Small s ∧ s.length = stack.length) (swapTop stack i j) := by
  refine (stackTop_safe hi hi').bind fun a ha => (stackTop_safe hj hj').bind fun b hb => ?_
  refine .pure ⟨fun v hv => ?_, by rw [List.length_set, List.length_set]⟩
  rcases List.mem_or_eq_of_mem_set hv with hv | rfl
  · rcases List.mem_or_eq_of_mem_set hv with hv | rfl
    · exact hs v hv
    · exact hs _ hb
  · exact hs _ ha

theorem eraseTop_safe {i : Nat} (hi : 0 < i) (h : i ≤ stack.length) (hs : Small stack) :
    Safe Exn.Allowed (fun s => Small s ∧ s.length + 1 = stack.length) (eraseTop stack i) := by
  refine (stackTop_safe hi h).bind fun _ _ => .pure ⟨?_, ?_⟩
  · exact hs.subset fun v hv => List.mem_of_mem_eraseIdx hv
  · rw [List.length_eraseIdx_of_lt (by omega)]; omega

theorem pushVerify_safe (verify : Option ScriptError) (fValue : Bool) {vch : Bytes}
    (hv : vch.length ≤ MAX_SCRIPT_ELEMENT_SIZE) (hs : Small stack) :
    Safe Exn.Allowed Small (pushVerify verify fValue vch stack) := by
  cases verify with
  | none => exact hs.cons hv
  | some e => exact (setErrorIf_safe _ _).bind fun _ _ => hs

end

theorem onStackWith_safe {f : UInt32 → Stack → Result Stack} (hf : ∀ flags, SafeStack (f flags)) :
    SafeOp (onStackWith f) := fun flags st h =>
  (hf flags st.stack h.stack).bind fun _ hs => .pure ⟨⟨hs, h.altstack, h.count⟩, rfl⟩

/-! ## Opcodes on the main stack -/

theorem opVerify_safe : SafeStack opVerify := fun stack hs =>
  (needStack_safe stack 1).bind fun _ h => (stackTop_safe (by decide) h).bind fun _ _ =>
    (setErrorIf_safe _ _).bind fun _ _ => (popStack_safe h).mono fun _ hd => hd ▸ hs.drop 1

theorem op2Drop_safe : SafeStack op2Drop := fun stack hs =>
  (needStack_safe stack 2).bind fun _ h => (popStackN_safe h).mono fun _ hd => hd ▸ hs.drop 2

theorem op2Dup_safe : SafeStack op2Dup := fun stack hs =>
  (needStack_safe stack 2).bind fun _ h => (stackTop_safe (by decide) h).bind fun _ h₁ =>
    (stackTop_safe (by decide) (by omega)).bind fun _ h₂ =>
      .pure ((hs.cons (hs _ h₁)).cons (hs _ h₂))

theorem op3Dup_safe : SafeStack op3Dup := fun stack hs =>
  (needStack_safe stack 3).bind fun _ h => (stackTop_safe (by decide) h).bind fun _ h₁ =>
    (stackTop_safe (by decide) (by omega)).bind fun _ h₂ =>
      (stackTop_safe (by decide) (by omega)).bind fun _ h₃ =>
        .pure (((hs.cons (hs _ h₁)).cons (hs _ h₂)).cons (hs _ h₃))

theorem op2Over_safe : SafeStack op2Over := fun stack hs =>
  (needStack_safe stack 4).bind fun _ h => (stackTop_safe (by decide) h).bind fun _ h₁ =>
    (stackTop_safe (by decide) (by omega)).bind fun _ h₂ =>
      .pure ((hs.cons (hs _ h₁)).cons (hs _ h₂))

theorem op2Rot_safe : SafeStack op2Rot := fun stack hs =>
  (needStack_safe stack 6).bind fun _ h => (stackTop_safe (by decide) h).bind fun _ h₁ =>
    (stackTop_safe (by decide) (by omega)).bind fun _ h₂ =>
      (eraseTop_safe (by decide) h hs).bind fun _ hs₁ =>
        (eraseTop_safe (by decide) (by omega) hs₁.1).bind fun _ hs₂ =>
          .pure ((hs₂.1.cons (hs _ h₁)).cons (hs _ h₂))

theorem op2Swap_safe : SafeStack op2Swap := fun stack hs =>
  (needStack_safe stack 4).bind fun _ h =>
    (swapTop_safe (by decide) (by decide) h (by omega) hs).bind fun _ hs₁ =>
      (swapTop_safe (by decide) (by decide) (by omega) (by omega) hs₁.1).mono fun _ hs₂ => hs₂.1

theorem opIfDup_safe : SafeStack opIfDup := fun stack hs =>
  (needStack_safe stack 1).bind fun _ h => (stackTop_safe (by decide) h).bind fun _ hv => by
    refine .pure ?_
    split_ifs
    · exact hs.cons (hs _ hv)
    · exact hs

theorem opDepth_safe : SafeStack opDepth := fun _ hs => hs.cons (length_scriptNumBytes _)

theorem opDrop_safe : SafeStack opDrop := fun stack hs =>
  (needStack_safe stack 1).bind fun _ h => (popStack_safe h).mono fun _ hd => hd ▸ hs.drop 1

theorem opDup_safe : SafeStack opDup := fun stack hs =>
  (needStack_safe stack 1).bind fun _ h => (stackTop_safe (by decide) h).bind fun _ hv =>
    .pure (hs.cons (hs _ hv))

theorem opNip_safe : SafeStack opNip := fun stack hs =>
  (needStack_safe stack 2).bind fun _ h =>
    (eraseTop_safe (by decide) h hs).mono fun _ hs₁ => hs₁.1

theorem opOver_safe : SafeStack opOver := fun stack hs =>
  (needStack_safe stack 2).bind fun _ h => (stackTop_safe (by decide) h).bind fun _ hv =>
    .pure (hs.cons (hs _ hv))

theorem rollTop_safe (roll : Bool) {stack : Stack} {i : Nat} (hi : 0 < i) (h : i ≤ stack.length)
    (hs : Small stack) : Safe Exn.Allowed Small (rollTop roll stack i) := by
  unfold rollTop
  split_ifs
  · exact (eraseTop_safe hi h hs).mono fun _ hs₁ => hs₁.1
  · exact hs

theorem opPick_safe (roll : Bool) (flags : UInt32) : SafeStack (opPick roll flags) := by
  intro stack hs
  refine (needStack_safe stack 2).bind fun _ h => (stackTop_safe (by decide) (by omega)).bind
    fun vch _ => (scriptNum_safe _ vch).bind fun bn _ => ?_
  refine (popStack_safe (by omega)).bind fun stack₁ hd => (setErrorIf_safe _ _).bind fun _ hn => ?_
  -- the depth that is read has been compared with what is left
  have hs₁ : Small stack₁ := hd ▸ hs.drop 1
  rw [Bool.or_eq_false_iff, decide_eq_false_iff_not, decide_eq_false_iff_not] at hn
  refine (stackTop_safe (by omega) (by omega)).bind fun vch hv => ?_
  exact (rollTop_safe roll (by omega) (by omega) hs₁).bind fun _ hs₂ => .pure (hs₂.cons (hs₁ _ hv))

theorem opRot_safe : SafeStack opRot := fun stack hs =>
  (needStack_safe stack 3).bind fun _ h =>
    (swapTop_safe (by decide) (by decide) h (by omega) hs).bind fun _ hs₁ =>
      (swapTop_safe (by decide) (by decide) (by omega) (by omega) hs₁.1).mono fun _ hs₂ => hs₂.1

theorem opSwap_safe : SafeStack opSwap := fun stack hs =>
  (needStack_safe stack 2).bind fun _ h =>
    (swapTop_safe (by decide) (by decide) h (by omega) hs).mono fun _ hs₁ => hs₁.1

theorem opTuck_safe : SafeStack opTuck := fun stack hs =>
  (needStack_safe stack 2).bind fun _ h => (stackTop_safe (by decide) (by omega)).bind fun _ hv =>
    (stackTop_safe (by decide) h).bind fun _ _ => .pure fun v hmem => by
      rcases List.eq_or_mem_of_mem_insertIdx hmem with rfl | hmem
      · exact hs _ hv
      · exact hs v hmem

theorem opSize_safe : SafeStack opSize := fun stack hs =>
  (needStack_safe stack 1).bind fun _ h => (stackTop_safe (by decide) h).bind fun _ _ =>
    .pure (hs.cons (length_scriptNumBytes _))

theorem opEqual_safe (verify : Option ScriptError) : SafeStack (opEqual verify) := fun stack hs =>
  (needStack_safe stack 2).bind fun _ h => (stackTop_safe (by decide) h).bind fun _ _ =>
    (stackTop_safe (by decide) (by omega)).bind fun _ _ => (popStackN_safe h).bind fun _ hd =>
      pushVerify_safe verify _ (length_boolBytes _) (hd ▸ hs.drop 2)

theorem opHash_safe {n : Nat} (hn : n ≤ MAX_SCRIPT_ELEMENT_SIZE) (hash : Bytes → Digest n) :
    SafeStack (opHash hash) := fun stack hs =>
  (needStack_safe stack 1).bind fun _ h => (stackTop_safe (by decide) h).bind fun vch _ =>
    (popStack_safe h).bind fun _ hd =>
      .pure ((hd ▸ hs.drop 1 : Small _).cons ((hash vch).property.trans_le hn))

/-! ## Numeric opcodes -/

theorem opUnary_safe {f : Int → Result Int}
    (hf : ∀ bn : Int, -2 ^ 32 ≤ bn ∧ bn ≤ 2 ^ 32 → Safe Exn.Allowed (fun _ => True) (f bn))
    (flags : UInt32) : SafeStack (opUnary f flags) := fun stack hs =>
  (needStack_safe stack 1).bind fun _ h => (stackTop_safe (by decide) h).bind fun vch _ =>
    (scriptNum_safe _ vch).bind fun bn hbn => (hf bn hbn).bind fun _ _ =>
      (popStack_safe h).bind fun _ hd =>
        .pure ((hd ▸ hs.drop 1 : Small _).cons (length_scriptNumBytes _))

theorem negNum_safe (bn : Int) (h : -2 ^ 32 ≤ bn ∧ bn ≤ 2 ^ 32) :
    Safe Exn.Allowed (fun _ => True) (negNum bn) := by
  refine (assertThat_safe ?_).bind fun _ _ => .pure trivial
  rw [bne_iff_ne]
  omega

/-- The assertions of the unary opcodes hold of the numbers that they are given. -/
theorem unaryOps_safe : ∀ op ∈ unaryOps, ∀ bn : Int, -2 ^ 32 ≤ bn ∧ bn ≤ 2 ^ 32 →
    Safe Exn.Allowed (fun _ => True) (op.2 bn) := by
  intro op hop bn hbn
  simp only [unaryOps, List.mem_cons, List.not_mem_nil, or_false] at hop
  rcases hop with rfl | rfl | rfl | rfl | rfl | rfl
  · refine (assertThat_safe ?_).bind fun _ _ => .pure trivial
    simp only [Bool.or_eq_true, Bool.and_eq_true, decide_eq_true_eq]
    omega
  · refine (assertThat_safe ?_).bind fun _ _ => .pure trivial
    simp only [Bool.or_eq_true, Bool.and_eq_true, decide_eq_true_eq]
    omega
  · exact negNum_safe bn hbn
  · show Safe _ _ (opAbs bn)
    unfold opAbs
    split_ifs
    · exact negNum_safe bn hbn
    · trivial
  · trivial
  · trivial

theorem opBinary_safe (verify : Option ScriptError) (f : Int → Int → Int) (flags : UInt32) :
    SafeStack (opBinary verify f flags) := fun stack hs =>
  (needStack_safe stack 2).bind fun _ h => (stackTop_safe (by decide) h).bind fun _ _ =>
    (scriptNum_safe _ _).bind fun _ _ => (stackTop_safe (by decide) (by omega)).bind fun _ _ =>
      (scriptNum_safe _ _).bind fun _ _ => (popStackN_safe h).bind fun _ hd =>
        pushVerify_safe verify _ (length_scriptNumBytes _) (hd ▸ hs.drop 2)

theorem opWithin_safe (flags : UInt32) : SafeStack (opWithin flags) := fun stack hs =>
  (needStack_safe stack 3).bind fun _ h => (stackTop_safe (by decide) h).bind fun _ _ =>
    (scriptNum_safe _ _).bind fun _ _ => (stackTop_safe (by decide) (by omega)).bind fun _ _ =>
      (scriptNum_safe _ _).bind fun _ _ => (stackTop_safe (by decide) (by omega)).bind fun _ _ =>
        (scriptNum_safe _ _).bind fun _ _ => (popStackN_safe h).bind fun _ hd =>
          .pure ((hd ▸ hs.drop 3 : Small _).cons (length_boolBytes _))

/-! ## Control and signatures -/

/-- The cases of the switch that are neither numeric nor about signatures. -/
theorem controlOps_safe (fExec : Bool) : ∀ op ∈ controlOps fExec, SafeOp op.2 := by
  intro op hop flags st ⟨hs, ha, hc⟩
  simp only [controlOps, List.mem_cons, List.not_mem_nil, or_false] at hop
  have hif : ∀ fNot, Safe Exn.Allowed (fun st' => st'.Limited ∧ st'.pc = st.pc)
      (opIf fNot fExec flags st) := by
    intro fNot
    unfold opIf
    split_ifs
    · refine (setErrorIf_safe _ _).bind fun _ h => ?_
      have h : 1 ≤ st.stack.length := Nat.not_lt.mp (of_decide_eq_false h)
      exact (stackTop_safe (by decide) h).bind fun _ _ => (popStack_safe h).bind fun _ hd =>
        .pure ⟨⟨hd ▸ hs.drop 1, ha, hc⟩, rfl⟩
    · exact ⟨⟨hs, ha, hc⟩, rfl⟩
  rcases hop with rfl | rfl | rfl | rfl | rfl | rfl | rfl | rfl | rfl
  · exact ⟨⟨hs, ha, hc⟩, rfl⟩
  · exact hif false
  · exact hif true
  · show Safe _ _ (opElse flags st)
    unfold opElse
    split
    · trivial
    · exact ⟨⟨hs, ha, hc⟩, rfl⟩
  · show Safe _ _ (opEndif flags st)
    unfold opEndif
    split
    · trivial
    · exact ⟨⟨hs, ha, hc⟩, rfl⟩
  · trivial
  · exact (needStack_safe _ 1).bind fun _ h => (stackTop_safe (by decide) h).bind fun _ hv =>
      (popStack_safe h).bind fun _ hd => .pure ⟨⟨hd ▸ hs.drop 1, ha.cons (hs _ hv), hc⟩, rfl⟩
  · refine (setErrorIf_safe _ _).bind fun _ h => ?_
    have h : 1 ≤ st.altstack.length := Nat.not_lt.mp (of_decide_eq_false h)
    exact (stackTop_safe (by decide) h).bind fun _ hv => (popStack_safe h).bind fun _ hd =>
      .pure ⟨⟨hs.cons (ha _ hv), hd ▸ ha.drop 1, hc⟩, rfl⟩
  · exact ⟨⟨hs, ha, hc⟩, rfl⟩

section

variable {checker : Checker}

theorem stackOps_safe : ∀ op ∈ stackOps checker, SafeStack op.2 := by
  have h20 : 20 ≤ MAX_SCRIPT_ELEMENT_SIZE := by decide
  have h32 : 32 ≤ MAX_SCRIPT_ELEMENT_SIZE := by decide
  simp only [stackOps, List.forall_mem_cons]
  exact ⟨opVerify_safe, op2Drop_safe, op2Dup_safe, op3Dup_safe, op2Over_safe, op2Rot_safe,
    op2Swap_safe, opIfDup_safe, opDepth_safe, opDrop_safe, opDup_safe, opNip_safe, opOver_safe,
    opRot_safe, opSwap_safe, opTuck_safe, opSize_safe, opEqual_safe _, opEqual_safe _,
    opHash_safe h20 _, opHash_safe h20 _, opHash_safe h32 _, opHash_safe h20 _, opHash_safe h32 _,
    fun _ h => by cases h⟩

theorem checkSignatureEncoding_safe (flags : UInt32) (vchSig : Bytes) :
    Safe Exn.Allowed (fun _ => True) (checkSignatureEncoding flags checker vchSig) := by
  have hlow : Safe Exn.Allowed (fun _ => True) (checkLowS flags checker vchSig) := by
    unfold checkLowS
    split_ifs
    · exact (setErrorIf_safe _ _).bind fun _ _ => (setErrorIf_safe _ _).mono fun _ _ => trivial
    · trivial
  unfold checkSignatureEncoding
  split_ifs
  · trivial
  · exact (setErrorIf_safe _ _).bind fun _ _ => hlow.bind fun _ _ =>
      (setErrorIf_safe _ _).mono fun _ _ => trivial

theorem opCheckSig_safe (verify : Option ScriptError) : SafeOp (opCheckSig checker verify) :=
  fun flags st ⟨hs, ha, hc⟩ =>
  (needStack_safe _ 2).bind fun _ h => (stackTop_safe (by decide) h).bind fun _ _ =>
    (stackTop_safe (by decide) (by omega)).bind fun _ _ =>
      (checkSignatureEncoding_safe flags _).bind fun _ _ => (setErrorIf_safe _ _).bind fun _ _ =>
        (popStackN_safe h).bind fun _ hd =>
          (pushVerify_safe verify _ (length_boolBytes _) (hd ▸ hs.drop 2)).bind fun _ hs' =>
            .pure ⟨⟨hs', ha, hc⟩, rfl⟩

theorem dropSignatures_safe {stack : Stack} (nSigsCount : Nat) {isig : Nat} (hpos : 0 < isig)
    (h : isig + nSigsCount ≤ stack.length + 1) (scriptCode : CScript) :
    Safe Exn.Allowed (fun _ => True) (dropSignatures stack nSigsCount isig scriptCode) := by
  induction nSigsCount generalizing isig scriptCode with
  | zero => trivial
  | succ nSigsCount ih =>
    exact (stackTop_safe hpos (by omega)).bind fun _ _ => ih (by omega) (by omega) _

/-- The loop stays between the keys and between the signatures. -/
theorem checkSignatures_safe (flags : UInt32) {stack : Stack} (scriptCode : CScript)
    {nKeysCount nSigsCount isig ikey : Nat} (hisig : 0 < isig) (hikey : 0 < ikey)
    (hsigs : isig + nSigsCount ≤ stack.length + 1) (hkeys : ikey + nKeysCount ≤ stack.length + 1) :
    Safe Exn.Allowed (fun _ => True)
      (checkSignatures checker flags stack scriptCode nKeysCount nSigsCount isig ikey) := by
  induction nKeysCount generalizing nSigsCount isig ikey with
  | zero => cases nSigsCount <;> trivial
  | succ nKeysCount ih =>
    cases nSigsCount with
    | zero => trivial
    | succ nSigsCount =>
      refine (stackTop_safe hisig (by omega)).bind fun _ _ =>
        (stackTop_safe hikey (by omega)).bind fun _ _ =>
          (checkSignatureEncoding_safe flags _).bind fun _ _ =>
            (setErrorIf_safe _ _).bind fun _ _ => ?_
      split_ifs
      · exact ih (by omega) (by omega) (by omega) (by omega)
      · trivial
      · exact ih (by omega) (by omega) (by omega) (by omega)

theorem opCheckMultisig_safe (verify : Option ScriptError) :
    SafeOp (opCheckMultisig checker verify) := by
  intro flags st ⟨hs, ha, hc⟩
  refine (needStack_safe _ 1).bind fun _ h₁ => (stackTop_safe (by decide) h₁).bind fun _ _ =>
    (scriptNum_safe _ _).bind fun _ _ => (setErrorIf_safe _ _).bind fun _ _ =>
      (setErrorIf_safe _ _).bind fun _ hcount => (needStack_safe _ _).bind fun _ hkeys => ?_
  refine (stackTop_safe (by omega) hkeys).bind fun _ _ => (scriptNum_safe _ _).bind fun _ _ =>
    (setErrorIf_safe _ _).bind fun _ _ => (needStack_safe _ _).bind fun _ hsigs => ?_
  refine (dropSignatures_safe _ (by omega) (by omega) _).bind fun scriptCode _ =>
    (checkSignatures_safe flags scriptCode (by omega) (by decide) (by omega) (by omega)).bind
      fun fSuccess _ => (popStackN_safe (by omega)).bind fun stack hd => ?_
  have hs' : Small stack := hd ▸ hs.drop _
  refine (needStack_safe stack 1).bind fun _ h => (stackTop_safe (by decide) h).bind fun _ _ =>
    (setErrorIf_safe _ _).bind fun _ _ => (popStack_safe h).bind fun _ hd' => ?_
  refine (pushVerify_safe verify _ (length_boolBytes _) (hd' ▸ hs'.drop 1)).bind fun _ hs'' => ?_
  exact .pure ⟨⟨hs'', ha, by simpa using hcount⟩, rfl⟩

/-- Every case of the switch. -/
theorem switch_safe (fExec : Bool) : ∀ op ∈ switch checker fExec, SafeOp op.2 := by
  intro op hop
  simp only [switch, List.mem_append] at hop
  rcases hop with (((((hop | hop) | hop) | hop) | hop) | hop) | hop
  · obtain ⟨opcode, -, rfl⟩ := List.mem_map.mp hop
    exact onStackWith_safe (f := fun _ stack =>
      .ok (scriptNumBytes ((opcode.toNat : Int) - (OP_1 - 1)) :: stack))
      fun _ _ hs => hs.cons (length_scriptNumBytes _)
  · exact controlOps_safe fExec op hop
  · obtain ⟨op, hop', rfl⟩ := List.mem_map.mp hop
    exact onStackWith_safe fun _ => stackOps_safe op hop'
  · obtain ⟨op, hop', rfl⟩ := List.mem_map.mp hop
    exact onStackWith_safe (opUnary_safe (unaryOps_safe op hop'))
  · obtain ⟨op, -, rfl⟩ := List.mem_map.mp hop
    exact onStackWith_safe (opBinary_safe _ _)
  · simp only [checkOps, List.mem_cons, List.not_mem_nil, or_false] at hop
    rcases hop with rfl | rfl | rfl | rfl | rfl | rfl | rfl
    · exact onStackWith_safe (opPick_safe false)
    · exact onStackWith_safe (opPick_safe true)
    · exact onStackWith_safe opWithin_safe
    · exact opCheckSig_safe _
    · exact opCheckSig_safe _
    · exact opCheckMultisig_safe _
    · exact opCheckMultisig_safe _
  · obtain ⟨i, -, rfl⟩ := List.mem_map.mp hop
    exact fun flags st h => (setErrorIf_safe _ _).bind fun _ _ => .pure ⟨h, rfl⟩

/-! ## Scripts -/

theorem pushOperand_length {opcode opcode' : UInt8} {nSize : Nat} {pc data pc' : Bytes}
    (h : pushOperand opcode nSize pc = some (opcode', data, pc')) : pc'.length ≤ pc.length := by
  unfold pushOperand at h
  split_ifs at h
  simp only [Option.some.injEq, Prod.mk.injEq] at h
  obtain ⟨-, -, rfl⟩ := h
  rw [List.length_drop]
  omega

/-- An opcode takes at least one byte. -/
theorem getOp_length {pc data pc' : Bytes} {opcode : UInt8}
    (h : getOp pc = some (opcode, data, pc')) : pc'.length < pc.length := by
  cases pc with
  | nil => cases h
  | cons b pc =>
    have hlen : ∀ n, (pc.drop n).length ≤ pc.length := fun n => by rw [List.length_drop]; omega
    rw [List.length_cons, Nat.lt_succ_iff]
    simp only [getOp] at h
    split_ifs at h
    · exact pushOperand_length h
    · exact (pushOperand_length h).trans (hlen 1)
    · exact (pushOperand_length h).trans (hlen 2)
    · exact (pushOperand_length h).trans (hlen 4)
    · simp only [Option.some.injEq, Prod.mk.injEq] at h
      rw [h.2.2]

theorem execute_safe (fExec : Bool) (opcode : UInt8) {vchPushValue : Bytes}
    (hv : vchPushValue.length ≤ MAX_SCRIPT_ELEMENT_SIZE) :
    SafeOp (execute checker fExec opcode vchPushValue) := by
  intro flags st h
  unfold execute
  split_ifs
  · exact (setErrorIf_safe _ _).bind fun _ _ => .pure ⟨⟨h.stack.cons hv, h.altstack, h.count⟩, rfl⟩
  · cases hop : (switch checker fExec).lookup opcode with
    | none => trivial
    | some handler => exact switch_safe fExec _ (Framework.Assoc.mem_of_lookup hop) flags st h
  · exact ⟨h, rfl⟩

/-- What holds after a completed opcode. -/
structure EvalState.Bounded (st : EvalState) : Prop extends st.Limited where
  size : st.stack.length + st.altstack.length ≤ 1000

/-- One opcode. -/
theorem evalOp_safe (flags : UInt32) {st : EvalState} (h : st.Limited) :
    Safe Exn.Allowed (fun st' => st'.Bounded ∧ st'.pc.length < st.pc.length)
      (evalOp checker flags st) := by
  unfold evalOp
  cases hop : getOp st.pc with
  | none => trivial
  | some r =>
    obtain ⟨opcode, vchPushValue, pc⟩ := r
    refine (setErrorIf_safe _ _).bind fun _ hv => (setErrorIf_safe _ _).bind fun _ hcount =>
      (setErrorIf_safe _ _).bind fun _ _ => ?_
    have hv : vchPushValue.length ≤ MAX_SCRIPT_ELEMENT_SIZE := by simpa using hv
    have hlim : EvalState.Limited { st with
        pc, nOpCount := if OP_16 < opcode.toNat then st.nOpCount + 1 else st.nOpCount } := by
      refine ⟨h.stack, h.altstack, ?_⟩
      have := h.count
      rw [Bool.and_eq_false_iff, decide_eq_false_iff_not, decide_eq_false_iff_not] at hcount
      show (if OP_16 < opcode.toNat then st.nOpCount + 1 else st.nOpCount) ≤ 201
      split_ifs at hcount ⊢ <;> omega
    refine (execute_safe _ opcode hv flags _ hlim).bind fun st' hst' => ?_
    refine (setErrorIf_safe _ _).bind fun _ hsize => .pure ⟨⟨hst'.1, by simpa using hsize⟩, ?_⟩
    rw [hst'.2]
    exact getOp_length hop

/-- Any number of opcodes; a script is at its end after as many as it has bytes. -/
theorem evalOps_safe (len : Nat) (flags : UInt32) {st : EvalState} (h : st.Bounded) :
    Safe Exn.Allowed (fun st' => st'.Bounded ∧ (st.pc.length ≤ len → st'.pc = []))
      (evalOps checker len flags st) := by
  induction len generalizing st with
  | zero => exact ⟨h, fun hlen => List.eq_nil_of_length_eq_zero (Nat.le_zero.mp hlen)⟩
  | succ len ih =>
    rw [evalOps]
    split_ifs with hpc
    · exact ⟨h, fun _ => List.isEmpty_iff.mp hpc⟩
    · refine (evalOp_safe flags h.toLimited).bind fun st' hst' => (ih hst'.1).mono fun st'' h'' => ?_
      exact ⟨h''.1, fun hlen => h''.2 (by have := hst'.2; omega)⟩

/-- From a stack within the limits the loop of `EvalScript` keeps them after every opcode and is
left by an error or the exception of `CScriptNum` only, or with the script at its end. -/
theorem evalLoop_safe (checker : Checker) (flags : UInt32) (stack : Stack) (script : CScript)
    (hlen : stack.length ≤ 1000) (hsize : ∀ vch ∈ stack, vch.length ≤ 520) :
    (∀ n, Safe Exn.Allowed (fun st => st.stack.length + st.altstack.length ≤ 1000 ∧
        (∀ vch ∈ st.stack ++ st.altstack, vch.length ≤ 520) ∧ st.nOpCount ≤ 201)
      (evalOps checker n flags (.init stack script))) ∧
    Safe Exn.Allowed (fun st => st.pc = []) (evalLoop checker flags stack script) := by
  have hinit : (EvalState.init stack script).Bounded :=
    ⟨⟨hsize, fun _ h => (by cases h), Nat.zero_le _⟩, hlen⟩
  refine ⟨fun n => (evalOps_safe n flags hinit).mono fun st h => ⟨h.1.size, fun vch hv => ?_,
    h.1.count⟩, (evalOps_safe _ flags hinit).mono fun st h => h.2 le_rfl⟩
  rcases List.mem_append.mp hv with hv | hv
  · exact h.1.stack vch hv
  · exact h.1.altstack vch hv

/-- A checker that takes every signature, with constant hash functions. -/
def sampleChecker : Checker where
  ripemd160 _ := ⟨List.replicate 20 7, rfl⟩
  sha1 _ := ⟨List.replicate 20 7, rfl⟩
  sha256 _ := ⟨List.replicate 32 7, rfl⟩
  hash160 _ := ⟨List.replicate 20 7, rfl⟩
  hash256 _ := ⟨List.replicate 32 7, rfl⟩
  checkSignatureElement _ := true
  checkSig _ _ _ := true

/-- `OP_1 OP_ADD` on one number. -/
theorem sampleScript_safe :
    (∀ n, Safe Exn.Allowed (fun st => st.stack.length + st.altstack.length ≤ 1000 ∧
        (∀ vch ∈ st.stack ++ st.altstack, vch.length ≤ 520) ∧ st.nOpCount ≤ 201)
      (evalOps sampleChecker n SCRIPT_VERIFY_NONE (.init [[3]] [0x51, 0x93]))) ∧
    Safe Exn.Allowed (fun st => st.pc = [])
      (evalLoop sampleChecker SCRIPT_VERIFY_NONE [[3]] [0x51, 0x93]) :=
  evalLoop_safe sampleChecker SCRIPT_VERIFY_NONE [[3]] [0x51, 0x93] (by decide) (by decide)

/-! ## FindAndDelete -/

theorem length_eraseAll (b : CScript) (len : Nat) (pc : Bytes) :
    (eraseAll b len pc).length ≤ pc.length := by
  induction len generalizing pc with
  | zero => exact le_rfl
  | succ len ih =>
    rw [eraseAll]
    split_ifs
    · exact (ih _).trans (by rw [List.length_drop]; omega)
    · exact le_rfl

/-- The outer loop ends within as many opcodes as there are bytes: more change nothing. -/
theorem findAndDeleteFrom_done (b : CScript) {len len' : Nat} {pc : Bytes} (h : pc.length ≤ len)
    (h' : pc.length ≤ len') : findAndDeleteFrom b len pc = findAndDeleteFrom b len' pc := by
  have hnil : ∀ len, findAndDeleteFrom b len [] = [] := fun len => by cases len <;> rfl
  induction len generalizing pc len' with
  | zero =>
    obtain rfl := List.eq_nil_of_length_eq_zero (Nat.le_zero.mp h)
    rw [hnil, hnil]
  | succ len ih =>
    cases len' with
    | zero =>
      obtain rfl := List.eq_nil_of_length_eq_zero (Nat.le_zero.mp h')
      rw [hnil, hnil]
    | succ len' =>
      have hlen := length_eraseAll b pc.length pc
      rw [findAndDeleteFrom, findAndDeleteFrom]
      cases hop : getOp (eraseAll b pc.length pc) with
      | none => rfl
      | some r =>
        obtain ⟨opcode, data, pc'⟩ := r
        have := getOp_length hop
        have heq : findAndDeleteFrom b len pc' = findAndDeleteFrom b len' pc' :=
          ih (by omega) (by omega)
        simp only [heq]

end

end GC
