import GameCredits.Framework.Outcome
import GameCredits.Model.SigOps
import Mathlib.Tactic.IntervalCases
import Mathlib.Tactic.SplitIfs

/-!
# Signature operations

The counts of signature operations that blocks are limited by are no less than the calls of
`CheckSig` that evaluation makes.

* `countVerifyScript_result`: `VerifyScript` with the count returns what it returns without.
* `countEvalScript_calls`: the calls of `EvalScript` and the count of its script.
* `redeemCalls_le`: the calls for a redeem script and the count of the inputs' scripts.
* `sigOps_wrapped`: the counts themselves are `unsigned int`s, which a long script makes overflow.
-/

namespace GC

open Framework

section

variable {checker : Checker}

/-! ## What the evaluation returns -/

theorem countCheckSig_result (verify : Option ScriptError) (flags : UInt32) (st : EvalState) :
    (countCheckSig checker verify flags st).result = opCheckSig checker verify flags st := by
  unfold countCheckSig callCheckSig
  simp only [Counted.result_bind, Counted.result_lift, Counted.result_call, Counted.result_pure]
  rfl

theorem countSignatures_result (flags : UInt32) (stack : Stack) (scriptCode : CScript)
    (nKeysCount nSigsCount isig ikey : Nat) :
    (countSignatures checker flags stack scriptCode nKeysCount nSigsCount isig ikey).result =
      checkSignatures checker flags stack scriptCode nKeysCount nSigsCount isig ikey := by
  induction nKeysCount generalizing nSigsCount isig ikey with
  | zero => cases nSigsCount <;> rfl
  | succ nKeysCount ih =>
    cases nSigsCount with
    | zero => rfl
    | succ nSigsCount =>
      rw [countSignatures, checkSignatures]
      simp only [Counted.result_bind, Counted.result_lift]
      refine bind_congr fun vchSig => bind_congr fun vchPubKey => bind_congr fun _ =>
        bind_congr fun _ => ?_
      show (if checker.checkSig vchSig vchPubKey scriptCode then _ else _ : SigResult Bool).result = _
      split_ifs
      · exact ih _ _ _
      · rfl
      · exact ih _ _ _

theorem countCheckMultisig_result (verify : Option ScriptError) (flags : UInt32) (st : EvalState) :
    (countCheckMultisig checker verify flags st).result =
      opCheckMultisig checker verify flags st := by
  unfold countCheckMultisig
  simp only [Counted.result_bind, Counted.result_lift, Counted.result_pure, countSignatures_result]
  rfl

/-- The opcodes that call `CheckSig` are cases of the switch that do the same. -/
theorem sigOps_lookup (fExec : Bool) {opcode : UInt8} {handler : SigHandler}
    (h : (sigOps checker).lookup opcode = some handler) :
    ∃ op, (switch checker fExec).lookup opcode = some op ∧ OP_PUSHDATA4 < opcode.toNat ∧
      ¬ (0x63 ≤ opcode ∧ opcode ≤ 0x68) ∧
      ∀ flags st, (handler flags st).result = op flags st := by
  have hmem := Assoc.mem_of_lookup h
  simp only [sigOps, List.mem_cons, Prod.mk.injEq, List.not_mem_nil, or_false] at hmem
  rcases hmem with ⟨rfl, rfl⟩ | ⟨rfl, rfl⟩ | ⟨rfl, rfl⟩ | ⟨rfl, rfl⟩
  · exact ⟨opCheckSig checker none, rfl, by decide, by decide, countCheckSig_result _⟩
  · exact ⟨opCheckSig checker (some .CHECKSIGVERIFY), rfl, by decide, by decide,
      countCheckSig_result _⟩
  · exact ⟨opCheckMultisig checker none, rfl, by decide, by decide, countCheckMultisig_result _⟩
  · exact ⟨opCheckMultisig checker (some .CHECKMULTISIGVERIFY), rfl, by decide, by decide,
      countCheckMultisig_result _⟩

theorem countExecute_result (fExec : Bool) (opcode : UInt8) (vchPushValue : Bytes) (flags : UInt32)
    (st : EvalState) : (countExecute checker fExec opcode vchPushValue flags st).result =
      execute checker fExec opcode vchPushValue flags st := by
  unfold countExecute
  cases h : (sigOps checker).lookup opcode with
  | none => rfl
  | some handler =>
    obtain ⟨op, hop, hpush, hcontrol, hresult⟩ := sigOps_lookup fExec h
    have hle : ¬ opcode.toNat ≤ OP_PUSHDATA4 := Nat.not_le.mpr hpush
    cases fExec with
    | false => simp [execute, hcontrol]
    | true => simp [execute, hle, hop, hresult]

theorem countOp_result (flags : UInt32) (st : EvalState) :
    (countOp checker flags st).result = evalOp checker flags st := by
  unfold countOp evalOp
  cases getOp st.pc with
  | none => rfl
  | some op =>
    simp only [Counted.result_bind, Counted.result_lift, Counted.result_pure, countExecute_result]
    rfl

theorem countOps_result (len : Nat) (flags : UInt32) (st : EvalState) :
    (countOps checker len flags st).result = evalOps checker len flags st := by
  induction len generalizing st with
  | zero => rfl
  | succ len ih =>
    rw [countOps, evalOps]
    split_ifs
    · rfl
    · simp only [Counted.result_bind, countOp_result, ih]

theorem countEvalScript_result (flags : UInt32) (stack : Stack) (script : CScript) :
    (countEvalScript checker flags stack script).result = evalScript checker flags stack script := by
  unfold countEvalScript countLoop
  simp only [Counted.result_bind, Counted.result_lift, Counted.result_pure, countOps_result]
  rfl

theorem countScriptHash_result (flags : UInt32) (scriptSig scriptPubKey : CScript)
    (stackCopy stack : Stack) :
    (countScriptHash checker flags scriptSig scriptPubKey stackCopy stack).result =
      checkScriptHash checker flags scriptSig scriptPubKey stackCopy stack := by
  unfold countScriptHash checkScriptHash
  split_ifs
  · simp only [Counted.result_bind, Counted.result_lift, Counted.result_pure,
      countEvalScript_result]
    rfl
  · rfl

/-- The count does not change what `VerifyScript` returns. -/
theorem countVerifyScript_result (checker : Checker) (flags : UInt32)
    (scriptSig scriptPubKey : CScript) :
    (countVerifyScript checker flags scriptSig scriptPubKey).result =
      verifyScript checker flags scriptSig scriptPubKey := by
  unfold countVerifyScript countPubKey verifyScript
  simp only [Counted.result_bind, Counted.result_lift, Counted.result_pure,
    countEvalScript_result, countScriptHash_result, bind_assoc]
  rfl

/-! ## The place in the script -/

/-- The handler does not go on in the script. -/
def KeepsPc (handler : Handler) : Prop :=
  ∀ flags st, Safe (fun _ => True) (fun st' => st'.pc = st.pc) (handler flags st)

theorem onStackWith_pc (f : UInt32 → Stack → Result Stack) : KeepsPc (onStackWith f) :=
  fun _ _ => .of_rest fun _ => .pure rfl

theorem opIf_pc (fNot fExec : Bool) : KeepsPc (opIf fNot fExec) := by
  intro flags st
  unfold opIf
  split_ifs
  · exact .of_rest fun _ => .of_rest fun _ => .of_rest fun _ => .pure rfl
  · rfl

theorem controlOps_pc (fExec : Bool) : ∀ op ∈ controlOps fExec, KeepsPc op.2 := by
  simp only [controlOps, List.forall_mem_cons]
  refine ⟨fun _ _ => rfl, opIf_pc _ _, opIf_pc _ _, fun flags st => ?_, fun flags st => ?_,
    fun _ _ => trivial, fun _ _ => ?_, fun _ _ => ?_, fun _ _ => rfl, fun _ h => by cases h⟩
  · show Safe _ _ (opElse flags st)
    unfold opElse
    split
    · trivial
    · rfl
  · show Safe _ _ (opEndif flags st)
    unfold opEndif
    split
    · trivial
    · rfl
  · exact .of_rest fun _ => .of_rest fun _ => .of_rest fun _ => .pure rfl
  · exact .of_rest fun _ => .of_rest fun _ => .of_rest fun _ => .pure rfl

theorem opCheckSig_pc (verify : Option ScriptError) : KeepsPc (opCheckSig checker verify) :=
  fun _ _ => .of_rest fun _ => .of_rest fun _ => .of_rest fun _ => .of_rest fun _ =>
    .of_rest fun _ => .of_rest fun _ => .of_rest fun _ => .pure rfl

theorem opCheckMultisig_pc (verify : Option ScriptError) :
    KeepsPc (opCheckMultisig checker verify) :=
  fun _ _ => .of_rest fun _ => .of_rest fun _ => .of_rest fun _ => .of_rest fun _ =>
    .of_rest fun _ => .of_rest fun _ => .of_rest fun _ => .of_rest fun _ => .of_rest fun _ =>
      .of_rest fun _ => .of_rest fun _ => .of_rest fun _ => .of_rest fun _ => .of_rest fun _ =>
        .of_rest fun _ => .of_rest fun _ => .of_rest fun _ => .of_rest fun _ => .pure rfl

theorem switch_pc (fExec : Bool) : ∀ op ∈ switch checker fExec, KeepsPc op.2 := by
  intro op hop
  simp only [switch, List.mem_append] at hop
  rcases hop with (((((hop | hop) | hop) | hop) | hop) | hop) | hop
  · obtain ⟨opcode, -, rfl⟩ := List.mem_map.mp hop
    exact onStackWith_pc fun _ stack =>
      .ok (scriptNumBytes ((opcode.toNat : Int) - (OP_1 - 1)) :: stack)
  · exact controlOps_pc fExec op hop
  · obtain ⟨op, -, rfl⟩ := List.mem_map.mp hop
    exact onStackWith_pc _
  · obtain ⟨op, -, rfl⟩ := List.mem_map.mp hop
    exact onStackWith_pc _
  · obtain ⟨op, -, rfl⟩ := List.mem_map.mp hop
    exact onStackWith_pc _
  · simp only [checkOps, List.mem_cons, List.not_mem_nil, or_false] at hop
    rcases hop with rfl | rfl | rfl | rfl | rfl | rfl | rfl
    · exact onStackWith_pc _
    · exact onStackWith_pc _
    · exact onStackWith_pc _
    · exact opCheckSig_pc _
    · exact opCheckSig_pc _
    · exact opCheckMultisig_pc _
    · exact opCheckMultisig_pc _
  · obtain ⟨i, -, rfl⟩ := List.mem_map.mp hop
    exact fun _ _ => .of_rest fun _ => .pure rfl

theorem execute_pc (fExec : Bool) (opcode : UInt8) (vchPushValue : Bytes) :
    KeepsPc (execute checker fExec opcode vchPushValue) := by
  intro flags st
  unfold execute
  split_ifs
  · exact .of_rest fun _ => .pure rfl
  · cases hop : (switch checker fExec).lookup opcode with
    | none => trivial
    | some handler => exact switch_pc fExec _ (Assoc.mem_of_lookup hop) flags st
  · rfl

/-- What a completed opcode has done. -/
theorem evalOp_ok {flags : UInt32} {st st' : EvalState}
    (h : evalOp checker flags st = .ok st') :
    ∃ opcode vchPushValue pc nOpCount, getOp st.pc = some (opcode, vchPushValue, pc) ∧
      execute checker (!st.vfExec.contains false) opcode vchPushValue flags
        { st with pc, nOpCount } = .ok st' ∧ st'.pc = pc := by
  unfold evalOp at h
  cases hop : getOp st.pc with
  | none =>
    rw [hop] at h
    cases h
  | some op =>
    obtain ⟨opcode, vchPushValue, pc⟩ := op
    rw [hop] at h
    obtain ⟨_, -, h⟩ := bind_eq_ok.mp h
    obtain ⟨_, -, h⟩ := bind_eq_ok.mp h
    obtain ⟨_, -, h⟩ := bind_eq_ok.mp h
    obtain ⟨st₁, hexec, h⟩ := bind_eq_ok.mp h
    obtain ⟨_, -, h⟩ := bind_eq_ok.mp h
    cases h
    exact ⟨opcode, vchPushValue, pc, _, rfl, hexec, (execute_pc _ _ _ _ _).of_ok hexec⟩

/-! ## Calls of one opcode -/

open Counted in
theorem countCheckSig_calls (verify : Option ScriptError) (flags : UInt32) (st : EvalState) :
    (countCheckSig checker verify flags st).calls ≤ 1 := by
  unfold countCheckSig
  refine calls_lift_bind_le fun _ _ => calls_lift_bind_le fun _ _ => calls_lift_bind_le fun _ _ =>
    calls_lift_bind_le fun _ _ => calls_lift_bind_le fun _ _ => ?_
  refine calls_bind_le (n := 0) (Nat.le_refl 1) fun _ _ => ?_
  exact calls_lift_bind_le fun _ _ => calls_lift_bind_le fun _ _ => Nat.le_refl 0

/-- Each round takes a key. -/
theorem countSignatures_calls (flags : UInt32) (stack : Stack) (scriptCode : CScript)
    (nKeysCount nSigsCount isig ikey : Nat) :
    (countSignatures checker flags stack scriptCode nKeysCount nSigsCount isig ikey).calls ≤
      nKeysCount := by
  induction nKeysCount generalizing nSigsCount isig ikey with
  | zero => cases nSigsCount <;> exact Nat.le_refl 0
  | succ nKeysCount ih =>
    cases nSigsCount with
    | zero => exact Nat.zero_le _
    | succ nSigsCount =>
      rw [countSignatures]
      refine Counted.calls_lift_bind_le fun _ _ => Counted.calls_lift_bind_le fun _ _ =>
        Counted.calls_lift_bind_le fun _ _ => Counted.calls_lift_bind_le fun _ _ => ?_
      refine (Counted.calls_bind_le (m := 1) (n := nKeysCount) (Nat.le_refl 1) fun fOk _ => ?_).trans
        (Nat.le_of_eq (Nat.add_comm 1 nKeysCount))
      split_ifs
      · exact ih _ _ _
      · exact Nat.zero_le _
      · exact ih _ _ _

open Counted in
/-- No more calls than the number of keys, the top of the stack. -/
theorem countCheckMultisig_calls (verify : Option ScriptError) (flags : UInt32) {st : EvalState}
    {n : Nat} (hn : ∀ vch f nKeys, stackTop st.stack 1 = .ok vch → scriptNum f vch = .ok nKeys →
      getInt nKeys ≤ 20 → (getInt nKeys).toNat ≤ n) :
    (countCheckMultisig checker verify flags st).calls ≤ n := by
  unfold countCheckMultisig
  refine calls_lift_bind_le fun _ _ => calls_lift_bind_le fun vch hvch =>
    calls_lift_bind_le fun nKeys hkeys => calls_lift_bind_le fun _ hcount => ?_
  have hle : getInt nKeys ≤ 20 := by
    unfold setErrorIf at hcount
    split_ifs at hcount with h
    rw [Bool.or_eq_true, not_or] at h
    exact Int.not_lt.mp fun hlt => h.2 (decide_eq_true hlt)
  refine calls_lift_bind_le fun _ _ => calls_lift_bind_le fun _ _ => calls_lift_bind_le fun _ _ =>
    calls_lift_bind_le fun _ _ => calls_lift_bind_le fun _ _ => calls_lift_bind_le fun _ _ =>
      calls_lift_bind_le fun _ _ => ?_
  refine calls_bind_le (n := 0)
    ((countSignatures_calls _ _ _ _ _ _ _).trans (hn vch _ nKeys hvch hkeys hle)) fun _ _ => ?_
  exact calls_lift_bind_le fun _ _ => calls_lift_bind_le fun _ _ => calls_lift_bind_le fun _ _ =>
    calls_lift_bind_le fun _ _ => calls_lift_bind_le fun _ _ => calls_lift_bind_le fun _ _ =>
      Nat.le_refl 0

/-! ## The number of keys -/

/-- Numbers from `OP_1` to `OP_16`. -/
theorem small_opcode {opcode : UInt8} (h₁ : OP_1 ≤ opcode.toNat) (h₁₆ : opcode.toNat ≤ OP_16) :
    ∃ i < 16, opcode = UInt8.ofNat (0x51 + i) := by
  refine ⟨opcode.toNat - 0x51, ?_, ?_⟩
  · unfold OP_1 OP_16 at *
    omega
  · have h : 0x51 + (opcode.toNat - 0x51) = opcode.toNat := by
      unfold OP_1 at h₁
      omega
    rw [h, UInt8.ofNat_toNat]

/-- `OP_1` to `OP_16` push their number. -/
theorem execute_small (fExec : Bool) {opcode : UInt8} (h₁ : OP_1 ≤ opcode.toNat)
    (h₁₆ : opcode.toNat ≤ OP_16) (vchPushValue : Bytes) (flags : UInt32) (st : EvalState) :
    execute checker fExec opcode vchPushValue flags st =
      .ok (if fExec then
        { st with stack := scriptNumBytes ((opcode.toNat : Int) - (OP_1 - 1)) :: st.stack }
      else st) := by
  obtain ⟨i, hi, rfl⟩ := small_opcode h₁ h₁₆
  cases fExec <;> interval_cases i <;> rfl

/-- The number that is read back. -/
theorem scriptNum_small {opcode : UInt8} (h₁ : OP_1 ≤ opcode.toNat) (h₁₆ : opcode.toNat ≤ OP_16)
    (f : Bool) : scriptNum f (scriptNumBytes ((opcode.toNat : Int) - (OP_1 - 1))) =
      .ok ((opcode.toNat : Int) - (OP_1 - 1)) := by
  obtain ⟨i, hi, rfl⟩ := small_opcode h₁ h₁₆
  cases f <;> interval_cases i <;> rfl

/-- After one of `OP_1` to `OP_16` that was executed, the top of the stack is its number. -/
def LastPushed (lastOpcode : UInt8) (st : EvalState) : Prop :=
  st.vfExec.contains false = false → OP_1 ≤ lastOpcode.toNat → lastOpcode.toNat ≤ OP_16 →
    stackTop st.stack 1 = .ok (scriptNumBytes ((lastOpcode.toNat : Int) - (OP_1 - 1)))

theorem lastPushed_next {flags : UInt32} {opcode : UInt8} {vchPushValue : Bytes}
    {st st' : EvalState} {pc : Bytes} {nOpCount : Nat}
    (h : execute checker (!st.vfExec.contains false) opcode vchPushValue flags
      { st with pc, nOpCount } = .ok st') : LastPushed opcode st' := by
  intro hexec h₁ h₁₆
  rw [execute_small _ h₁ h₁₆] at h
  cases h
  cases hcond : st.vfExec.contains false with
  | true =>
    rw [hcond] at hexec
    cases hexec.symm.trans hcond
  | false => rfl

/-! ## Scripts -/

/-- What `GetSigOpCount(true)` counts for one opcode. -/
def opCount (lastOpcode opcode : UInt8) : Nat :=
  if opcode == OP_CHECKSIG || opcode == OP_CHECKSIGVERIFY then 1
  else if opcode == OP_CHECKMULTISIG || opcode == OP_CHECKMULTISIGVERIFY then
    if OP_1 ≤ lastOpcode.toNat ∧ lastOpcode.toNat ≤ OP_16 then lastOpcode.toNat - (OP_1 - 1) else 20
  else 0

theorem opCount_multisig {lastOpcode opcode : UInt8}
    (h : opcode = OP_CHECKMULTISIG ∨ opcode = OP_CHECKMULTISIGVERIFY) :
    opCount lastOpcode opcode = if OP_1 ≤ lastOpcode.toNat ∧ lastOpcode.toNat ≤ OP_16 then
      lastOpcode.toNat - (OP_1 - 1) else 20 := by
  rcases h with rfl | rfl
  · rw [opCount, if_neg (by decide), if_pos (by decide)]
  · rw [opCount, if_neg (by decide), if_pos (by decide)]

theorem countMultisig_calls {lastOpcode : UInt8} {st : EvalState} (hlast : LastPushed lastOpcode st)
    (hexec : st.vfExec.contains false = false) (verify : Option ScriptError) (flags : UInt32) :
    (countCheckMultisig checker verify flags st).calls ≤
      if OP_1 ≤ lastOpcode.toNat ∧ lastOpcode.toNat ≤ OP_16 then lastOpcode.toNat - (OP_1 - 1)
      else 20 := by
  refine countCheckMultisig_calls verify flags fun vch f nKeys hvch hkeys hle => ?_
  split_ifs with hsmall
  · rw [hlast hexec hsmall.1 hsmall.2] at hvch
    cases hvch
    rw [scriptNum_small hsmall.1 hsmall.2] at hkeys
    cases hkeys
    unfold getInt OP_1
    omega
  · omega

theorem countExecute_calls {lastOpcode : UInt8} {st : EvalState} (hlast : LastPushed lastOpcode st)
    (opcode : UInt8) (vchPushValue pc : Bytes) (nOpCount : Nat) (flags : UInt32) :
    (countExecute checker (!st.vfExec.contains false) opcode vchPushValue flags
      { st with pc, nOpCount }).calls ≤ opCount lastOpcode opcode := by
  unfold countExecute
  cases h : (sigOps checker).lookup opcode with
  | none => exact Nat.zero_le _
  | some handler =>
    cases hexec : st.vfExec.contains false with
    | true => exact Nat.zero_le _
    | false =>
      have hmem := Assoc.mem_of_lookup h
      have hlast : LastPushed lastOpcode { st with pc, nOpCount } := hlast
      simp only [sigOps, List.mem_cons, Prod.mk.injEq, List.not_mem_nil, or_false] at hmem
      simp only [Bool.not_false, if_true]
      rcases hmem with ⟨rfl, rfl⟩ | ⟨rfl, rfl⟩ | ⟨rfl, rfl⟩ | ⟨rfl, rfl⟩
      · rw [opCount, if_pos (by decide)]
        exact countCheckSig_calls _ _ _
      · rw [opCount, if_pos (by decide)]
        exact countCheckSig_calls _ _ _
      · rw [opCount_multisig (.inl rfl)]
        exact countMultisig_calls hlast hexec _ _
      · rw [opCount_multisig (.inr rfl)]
        exact countMultisig_calls hlast hexec _ _

theorem sigOpCountFrom_step {len : Nat} {lastOpcode opcode : UInt8} {pc vch pc' : Bytes}
    (h : getOp pc = some (opcode, vch, pc')) :
    sigOpCountFrom true (len + 1) lastOpcode pc =
      opCount lastOpcode opcode + sigOpCountFrom true len opcode pc' := by
  rw [sigOpCountFrom, h]
  simp [opCount]

theorem countOp_calls {lastOpcode opcode : UInt8} {st : EvalState} {vchPushValue pc : Bytes}
    (hlast : LastPushed lastOpcode st) (h : getOp st.pc = some (opcode, vchPushValue, pc))
    (flags : UInt32) : (countOp checker flags st).calls ≤ opCount lastOpcode opcode := by
  unfold countOp
  rw [h]
  refine Counted.calls_lift_bind_le fun _ _ => Counted.calls_lift_bind_le fun _ _ =>
    Counted.calls_lift_bind_le fun _ _ => ?_
  refine Counted.calls_bind_le (n := 0)
    (countExecute_calls hlast opcode vchPushValue pc _ flags) fun _ _ => ?_
  exact Counted.calls_lift_bind_le fun _ _ => Nat.le_refl 0

/-- By induction on the opcodes that are left; at a `CHECKMULTISIG` the opcode before it in the
script, if it was one of `OP_1` to `OP_16`, has been executed as the `CHECKMULTISIG` is. -/
theorem countOps_calls (len : Nat) (flags : UInt32) {lastOpcode : UInt8} {st : EvalState}
    (hlast : LastPushed lastOpcode st) :
    (countOps checker len flags st).calls ≤ sigOpCountFrom true len lastOpcode st.pc := by
  induction len generalizing lastOpcode st with
  | zero => exact Nat.le_refl 0
  | succ len ih =>
    rw [countOps]
    split_ifs with hpc
    · exact Nat.zero_le _
    · cases hop : getOp st.pc with
      | none =>
        have herror : (countOp checker flags st).result = .error (.scriptError .BAD_OPCODE) := by
          rw [countOp, hop]
          rfl
        rw [Counted.calls_bind_error herror, countOp, hop]
        exact Nat.zero_le _
      | some op =>
        obtain ⟨opcode, vchPushValue, pc⟩ := op
        rw [sigOpCountFrom_step hop]
        refine Counted.calls_bind_le (countOp_calls hlast hop flags) fun st' hst' => ?_
        rw [countOp_result] at hst'
        obtain ⟨opcode', vch', pc', nOpCount, hop', hexec, hpc'⟩ := evalOp_ok hst'
        rw [hop] at hop'
        cases hop'
        rw [← hpc']
        exact ih (lastPushed_next hexec)

/-- The number before a `CHECKMULTISIG` only lowers the count. -/
theorem sigOpCountFrom_le (len : Nat) (lastOpcode : UInt8) (pc : Bytes) :
    sigOpCountFrom true len lastOpcode pc ≤ sigOpCountFrom false len lastOpcode pc := by
  induction len generalizing lastOpcode pc with
  | zero => exact Nat.le_refl 0
  | succ len ih =>
    rw [sigOpCountFrom, sigOpCountFrom]
    cases getOp pc with
    | none => exact Nat.le_refl 0
    | some op =>
      refine Nat.add_le_add ?_ (ih op.1 op.2.2)
      simp only [Bool.true_and, Bool.false_and, Bool.false_eq_true, if_false, decide_eq_true_eq]
      split_ifs with h₁ h₂ h₃
      · exact Nat.le_refl 1
      · have := h₃.2
        unfold OP_1 OP_16 at *
        omega
      · exact Nat.le_refl 20
      · exact Nat.le_refl 0

theorem sigOpCountFrom_bound (len : Nat) (lastOpcode : UInt8) (pc : Bytes) :
    sigOpCountFrom false len lastOpcode pc ≤ 20 * len := by
  induction len generalizing lastOpcode pc with
  | zero => exact Nat.le_refl 0
  | succ len ih =>
    rw [sigOpCountFrom]
    cases getOp pc with
    | none => exact Nat.zero_le _
    | some op =>
      obtain ⟨opcode, _, pc'⟩ := op
      have hop := ih opcode pc'
      simp only [Bool.false_and, Bool.false_eq_true, if_false]
      split_ifs <;> omega

/-- Twenty for each byte is the most that is counted, so the count of a script that is not too long fits
in its type. -/
theorem getSigOpCount_eq {script : CScript} (h : 20 * script.length < 2 ^ 32) (fAccurate : Bool) :
    getSigOpCount script fAccurate =
      sigOpCountFrom fAccurate script.length OP_INVALIDOPCODE script := by
  have hfalse := sigOpCountFrom_bound script.length OP_INVALIDOPCODE script
  refine Nat.mod_eq_of_lt (Nat.lt_of_le_of_lt ?_ h)
  cases fAccurate with
  | true => exact (sigOpCountFrom_le _ _ _).trans hfalse
  | false => exact hfalse

theorem countEvalScript_calls (flags : UInt32) (stack : Stack) (script : CScript) :
    (countEvalScript checker flags stack script).calls ≤ getSigOpCount script true := by
  unfold countEvalScript
  refine Counted.calls_lift_bind_le fun _ hsize => ?_
  have hlen : script.length ≤ 10000 := by
    unfold setErrorIf at hsize
    split_ifs at hsize with h
    simpa using h
  rw [getSigOpCount_eq (by omega)]
  refine Counted.calls_bind_le (n := 0) (?_ : (countLoop checker flags stack script).calls ≤ _)
    fun _ _ => ?_
  · refine countOps_calls script.length flags (?_ : LastPushed OP_INVALIDOPCODE _)
    exact fun _ _ h => absurd h (by decide)
  · exact Counted.calls_lift_bind_le fun _ _ => Nat.le_refl 0

end

/-! ## Redeem scripts -/

/-- No signature operations are counted in what the opcodes from `OP_1NEGATE` to `OP_16` push. -/
theorem getSigOpCount_small {opcode : UInt8} (h : opcode = 0x4F ∨ OP_1 ≤ opcode.toNat)
    (h₁₆ : opcode.toNat ≤ OP_16) :
    getSigOpCount (scriptNumBytes ((opcode.toNat : Int) - (OP_1 - 1))) true = 0 := by
  rcases h with rfl | h₁
  · rfl
  · obtain ⟨i, hi, rfl⟩ := small_opcode h₁ h₁₆
    interval_cases i <;> rfl

/-- The counts of the top of the stack are those of the data of the last push, or less. -/
def TopCounted (data : Bytes) (stack : Stack) : Prop :=
  ∀ top, stack.head? = some top → getSigOpCount top true ≤ getSigOpCount data true

section

variable {checker : Checker}

/-- An opcode of a script that pushes only. -/
theorem execute_push {opcode : UInt8} (h₁₆ : opcode.toNat ≤ OP_16) {data : Bytes} {flags : UInt32}
    {st st' : EvalState} (h : execute checker true opcode data flags st = .ok st') :
    st'.vfExec = st.vfExec ∧ TopCounted data st'.stack := by
  by_cases hpush : opcode.toNat ≤ OP_PUSHDATA4
  · rw [execute, if_pos (by simpa using hpush)] at h
    obtain ⟨_, -, h⟩ := bind_eq_ok.mp h
    cases h
    refine ⟨rfl, fun top htop => ?_⟩
    cases htop
    exact Nat.le_refl _
  · have hcount : ∀ {stack : Stack}, (opcode = 0x4F ∨ OP_1 ≤ opcode.toNat) → TopCounted data
        (scriptNumBytes ((opcode.toNat : Int) - (OP_1 - 1)) :: stack) := fun hop top htop => by
      cases htop
      rw [getSigOpCount_small hop h₁₆]
      exact Nat.zero_le _
    rcases Nat.lt_or_ge opcode.toNat OP_1 with hlt | hge
    · have hop : opcode = 0x4F ∨ opcode = 0x50 := by
        have hcases : opcode.toNat = 0x4F ∨ opcode.toNat = 0x50 := by
          unfold OP_PUSHDATA4 at hpush
          unfold OP_1 at hlt
          omega
        exact hcases.imp UInt8.toNat_inj.mp UInt8.toNat_inj.mp
      rcases hop with rfl | rfl
      · cases h
        exact ⟨rfl, hcount (.inl rfl)⟩
      · cases h
    · rw [execute_small true hge h₁₆] at h
      cases h
      exact ⟨rfl, hcount (.inr hge)⟩

theorem pushOnlyFrom_step {len : Nat} {opcode : UInt8} {pc vch pc' : Bytes}
    (h : getOp pc = some (opcode, vch, pc')) :
    pushOnlyFrom (len + 1) pc =
      if OP_16 < opcode.toNat then false else pushOnlyFrom len pc' := by
  cases pc with
  | nil => cases h
  | cons b pc => simp only [pushOnlyFrom, h]

theorem lastPush_step {len : Nat} {opcode : UInt8} {data pc vch pc' : Bytes}
    (h : getOp pc = some (opcode, vch, pc')) :
    lastPush (len + 1) data pc =
      if OP_16 < opcode.toNat then none else lastPush len vch pc' := by
  cases pc with
  | nil => cases h
  | cons b pc => simp only [lastPush, h]

/-- By induction on the opcodes of a script that pushes only. -/
theorem evalOps_push (len : Nat) {flags : UInt32} {data : Bytes} {st st' : EvalState}
    (hpush : pushOnlyFrom len st.pc = true) (hexec : st.vfExec = []) (htop : TopCounted data st.stack)
    (h : evalOps checker len flags st = .ok st') :
    ∃ data', lastPush len data st.pc = some data' ∧ TopCounted data' st'.stack := by
  induction len generalizing data st with
  | zero =>
    cases h
    cases hpc : st'.pc with
    | nil => exact ⟨data, rfl, htop⟩
    | cons b pc =>
      rw [hpc] at hpush
      cases hpush
  | succ len ih =>
    rw [evalOps] at h
    split_ifs at h with hempty
    · cases h
      rw [List.isEmpty_iff.mp hempty]
      exact ⟨data, rfl, htop⟩
    · obtain ⟨st₁, hst₁, h⟩ := bind_eq_ok.mp h
      obtain ⟨opcode, vch, pc', nOpCount, hop, hexecute, hpc'⟩ := evalOp_ok hst₁
      rw [pushOnlyFrom_step hop] at hpush
      rw [lastPush_step hop]
      split_ifs at hpush ⊢ with hle
      rw [hexec] at hexecute
      obtain ⟨hexec₁, htop₁⟩ := execute_push (Nat.not_lt.mp hle) hexecute
      rw [← hpc'] at hpush ⊢
      exact ih hpush hexec₁ htop₁ h

theorem catchAll_ok {α : Type} {x : Result α} {a : α} (h : catchAll x = .ok a) : x = .ok a := by
  unfold catchAll at h
  split at h
  · cases h
  · cases h
  · exact h

/-- What a `scriptSig` that pushes only leaves on the stack. -/
theorem evalScript_push {flags : UInt32} {scriptSig : CScript} {stack : Stack}
    (hpush : isPushOnly scriptSig = true) (h : evalScript checker flags [] scriptSig = .ok stack) :
    ∃ data, lastPush scriptSig.length [] scriptSig = some data ∧ TopCounted data stack := by
  obtain ⟨_, -, h⟩ := bind_eq_ok.mp h
  obtain ⟨st, hloop, h⟩ := bind_eq_ok.mp h
  obtain ⟨_, -, h⟩ := bind_eq_ok.mp h
  cases h
  have hpush : pushOnlyFrom scriptSig.length (EvalState.init [] scriptSig).pc = true := hpush
  exact evalOps_push scriptSig.length hpush rfl (fun _ htop => by cases htop) (catchAll_ok hloop)

theorem countPubKey_ok {flags : UInt32} {scriptSig scriptPubKey : CScript} {stackCopy stack : Stack}
    (h : (countPubKey checker flags scriptSig scriptPubKey).result = .ok (stackCopy, stack)) :
    evalScript checker flags [] scriptSig = .ok stackCopy := by
  unfold countPubKey at h
  simp only [Counted.result_bind, Counted.result_lift, countEvalScript_result,
    Counted.result_pure] at h
  obtain ⟨_, -, h⟩ := bind_eq_ok.mp h
  obtain ⟨stack₁, hsig, h⟩ := bind_eq_ok.mp h
  obtain ⟨_, -, h⟩ := bind_eq_ok.mp h
  obtain ⟨_, -, h⟩ := bind_eq_ok.mp h
  cases h
  exact hsig

theorem redeemCalls_le (flags : UInt32) (scriptSig scriptPubKey : CScript) :
    redeemCalls checker flags scriptSig scriptPubKey ≤
      getP2SHScriptSigOpCount scriptPubKey scriptSig := by
  unfold redeemCalls
  split
  · next stackCopy stack hstacks =>
    unfold countScriptHash
    split_ifs with hcond
    · rw [Bool.and_eq_true] at hcond
      refine Counted.calls_lift_bind_le fun _ hpush => Counted.calls_lift_bind_le fun _ _ =>
        Counted.calls_lift_bind_le fun pubKey2 htop => Counted.calls_lift_bind_le fun _ _ => ?_
      have hpush : isPushOnly scriptSig = true := by
        unfold setErrorIf at hpush
        split_ifs at hpush with h
        simpa using h
      obtain ⟨data, hdata, hcounted⟩ := evalScript_push hpush (countPubKey_ok hstacks)
      have hhead : stackCopy.head? = some pubKey2 := by
        cases stackCopy with
        | nil => cases htop
        | cons top rest =>
          cases htop
          rfl
      rw [getP2SHScriptSigOpCount, hcond.2, hdata]
      refine (Counted.calls_bind_le (n := 0)
        ((countEvalScript_calls flags _ pubKey2).trans (hcounted pubKey2 hhead)) fun _ _ => ?_)
      exact Counted.calls_lift_bind_le fun _ _ => Nat.le_refl 0
    · exact Nat.zero_le _
  · exact Nat.zero_le _

theorem countVerifyScript_calls (flags : UInt32) (scriptSig scriptPubKey : CScript) :
    (countVerifyScript checker flags scriptSig scriptPubKey).calls =
      (countPubKey checker flags scriptSig scriptPubKey).calls +
        redeemCalls checker flags scriptSig scriptPubKey := by
  unfold countVerifyScript redeemCalls
  cases h : (countPubKey checker flags scriptSig scriptPubKey).result with
  | error e => exact Counted.calls_bind_error h
  | ok r =>
    rw [Counted.calls_bind_ok h]
    congr 1
    obtain ⟨stackCopy, stack⟩ := r
    simp only
    cases hredeem : (countScriptHash checker flags scriptSig scriptPubKey stackCopy stack).result with
    | error e => exact Counted.calls_bind_error hredeem
    | ok stack' =>
      rw [Counted.calls_bind_ok hredeem]
      rfl

end

/-- The calls of `CheckSig` that `EvalScript` makes, whether it fails or not, are no more than the
accurate count of the script, and this is no more than the other count, unless the script is so long
that the counts may overflow. Those that `VerifyScript` makes for a redeem script, after all others, are
no more than the count of the spent script with the `scriptSig`. -/
theorem sigOps_sound (checker : Checker) (flags : UInt32) :
    (∀ (stack : Stack) (script : CScript),
      (countEvalScript checker flags stack script).result = evalScript checker flags stack script ∧
      (countEvalScript checker flags stack script).calls ≤ getSigOpCount script true ∧
      (20 * script.length < 2 ^ 32 → getSigOpCount script true ≤ getSigOpCount script false)) ∧
    ∀ scriptSig scriptPubKey : CScript,
      (countVerifyScript checker flags scriptSig scriptPubKey).result =
        verifyScript checker flags scriptSig scriptPubKey ∧
      (countVerifyScript checker flags scriptSig scriptPubKey).calls =
        (countPubKey checker flags scriptSig scriptPubKey).calls +
          redeemCalls checker flags scriptSig scriptPubKey ∧
      redeemCalls checker flags scriptSig scriptPubKey ≤
        getP2SHScriptSigOpCount scriptPubKey scriptSig := by
  refine ⟨fun stack script => ⟨countEvalScript_result flags stack script,
    countEvalScript_calls flags stack script, fun hlen => ?_⟩,
   fun scriptSig scriptPubKey => ⟨countVerifyScript_result checker flags scriptSig scriptPubKey,
    countVerifyScript_calls flags scriptSig scriptPubKey,
    redeemCalls_le flags scriptSig scriptPubKey⟩⟩
  rw [getSigOpCount_eq hlen, getSigOpCount_eq hlen]
  exact sigOpCountFrom_le _ _ _

theorem sigOps_sound_multisig :
    getSigOpCount [0x51, OP_CHECKMULTISIG] true ≤ getSigOpCount [0x51, OP_CHECKMULTISIG] false := by
  let zeros (n : Nat) : Digest n := ⟨List.replicate n 0, List.length_replicate⟩
  let checker : Checker := ⟨fun _ => zeros 20, fun _ => zeros 20, fun _ => zeros 32, fun _ => zeros 20,
    fun _ => zeros 32, fun _ => true, fun _ _ _ => false⟩
  exact ((sigOps_sound checker 0).1 [] _).2.2 (by decide)

/-- The script of `n` times `OP_1 OP_CHECKMULTISIG`. -/
def multisigs (n : Nat) : CScript := (List.replicate n [0x51, OP_CHECKMULTISIG]).flatten

theorem length_multisigs (n : Nat) : (multisigs n).length = 2 * n := by
  rw [multisigs, List.length_flatten, List.map_replicate, List.sum_replicate]
  exact Nat.mul_comm n 2

theorem sigOpCountFrom_multisigs (fAccurate : Bool) (n : Nat) (lastOpcode : UInt8) :
    sigOpCountFrom fAccurate (2 * n) lastOpcode (multisigs n) = (if fAccurate then 1 else 20) * n := by
  induction n generalizing lastOpcode with
  | zero => rfl
  | succ n ih =>
    have hcons : multisigs (n + 1) = 0x51 :: OP_CHECKMULTISIG :: multisigs n := rfl
    have hone : getOp (0x51 :: OP_CHECKMULTISIG :: multisigs n) =
        some (0x51, [], OP_CHECKMULTISIG :: multisigs n) := rfl
    have hmultisig : getOp (OP_CHECKMULTISIG :: multisigs n) =
        some (OP_CHECKMULTISIG, [], multisigs n) := rfl
    show sigOpCountFrom fAccurate (2 * n + 1 + 1) lastOpcode _ = _
    simp only [hcons, sigOpCountFrom, hone, hmultisig, ih, Nat.mul_succ]
    cases fAccurate
    · exact (Nat.zero_add _).trans (Nat.add_comm 20 _)
    · exact (Nat.zero_add _).trans (Nat.add_comm 1 _)

/-- One for each `OP_CHECKMULTISIG` still fits in the type of the counts, but twenty do not. -/
theorem sigOps_wrapped : ∃ script : CScript,
    getSigOpCount script false = 4 ∧ getSigOpCount script true = 214748365 := by
  refine ⟨multisigs 214748365, ?_, ?_⟩
  · rw [getSigOpCount, length_multisigs, sigOpCountFrom_multisigs]
    rfl
  · rw [getSigOpCount, length_multisigs, sigOpCountFrom_multisigs]
    rfl

end GC
