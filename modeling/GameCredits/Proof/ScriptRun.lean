import GameCredits.Framework.Outcome
import GameCredits.Model.EvalScript
import GameCredits.Proof.Multisig
import GameCredits.Proof.ScriptBuild
import GameCredits.Proof.ScriptLimits
import Mathlib.Tactic.IntervalCases

/-!
# Rules for running scripts

`Evals` says that evaluation from one state goes on from another. It has a rule for each opcode that
standard scripts use, outside of conditionals; `Evals.evalScript` gives the stack at the end.
-/

namespace GC

open Framework

/-! ## Evaluation goes on -/

/-- The loop of `EvalScript` from `st` goes on from `st'`. -/
def Evals (checker : Checker) (flags : UInt32) (st st' : EvalState) : Prop :=
  ∀ len, st.pc.length ≤ len → ∃ len', st'.pc.length ≤ len' ∧
    evalOps checker len flags st = evalOps checker len' flags st'

section

variable {checker : Checker} {flags : UInt32} {st st' st'' : EvalState}

theorem Evals.refl (st : EvalState) : Evals checker flags st st := fun len h => ⟨len, h, rfl⟩

theorem Evals.trans (h : Evals checker flags st st') (h' : Evals checker flags st' st'') :
    Evals checker flags st st'' := fun len hlen => by
  obtain ⟨len₁, hlen₁, heq⟩ := h len hlen
  obtain ⟨len₂, hlen₂, heq'⟩ := h' len₁ hlen₁
  exact ⟨len₂, hlen₂, heq.trans heq'⟩

/-- One opcode. -/
theorem Evals.step {opcode : UInt8} {vch pc : Bytes} (hop : getOp st.pc = some (opcode, vch, pc))
    (hsize : vch.length ≤ MAX_SCRIPT_ELEMENT_SIZE) (hcount : OP_16 < opcode.toNat → st.nOpCount < 201)
    (hdisabled : disabledOps.contains opcode = false)
    (hexec : execute checker (!st.vfExec.contains false) opcode vch flags
      { st with pc, nOpCount := if OP_16 < opcode.toNat then st.nOpCount + 1 else st.nOpCount } =
        .ok st')
    (hpc : st'.pc = pc) (hstack : st'.stack.length + st'.altstack.length ≤ 1000) :
    Evals checker flags st st' := by
  intro len hlen
  have hlt := getOp_length hop
  have heval : evalOp checker flags st = .ok st' := by
    have h₁ : decide (MAX_SCRIPT_ELEMENT_SIZE < vch.length) = false :=
      decide_eq_false (Nat.not_lt.mpr hsize)
    have h₂ : (decide (OP_16 < opcode.toNat) &&
        decide (201 < if OP_16 < opcode.toNat then st.nOpCount + 1 else st.nOpCount)) = false := by
      by_cases h : OP_16 < opcode.toNat
      · have := hcount h
        simp only [if_pos h, decide_eq_false (show ¬ 201 < st.nOpCount + 1 by omega), Bool.and_false]
      · simp only [decide_eq_false h, Bool.false_and]
    have h₃ : decide (1000 < st'.stack.length + st'.altstack.length) = false :=
      decide_eq_false (Nat.not_lt.mpr hstack)
    unfold evalOp
    rw [hop]
    simp only [h₁, h₂, hdisabled]
    show (execute checker (!st.vfExec.contains false) opcode vch flags _ >>= _) = _
    rw [hexec]
    show (setErrorIf (decide (1000 < st'.stack.length + st'.altstack.length)) .STACK_SIZE >>= _) = _
    rw [h₃]
    rfl
  obtain ⟨len, rfl⟩ : ∃ n, len = n + 1 := ⟨len - 1, by omega⟩
  refine ⟨len, by rw [hpc]; omega, ?_⟩
  rw [evalOps, if_neg, heval]
  · rfl
  · intro hempty
    rw [List.isEmpty_iff.mp hempty] at hlt
    cases hlt

/-- At the end of the script. -/
theorem Evals.evalScript {stack : Stack} {script : CScript}
    (h : Evals checker flags (.init stack script) st) (hpc : st.pc = []) (hexec : st.vfExec = [])
    (hsize : script.length ≤ 10000) : evalScript checker flags stack script = .ok st.stack := by
  obtain ⟨len, -, heq⟩ := h script.length (Nat.le_refl _)
  have hend : evalOps checker len flags st = .ok st := by
    cases len with
    | zero => rfl
    | succ len =>
      rw [evalOps, hpc]
      rfl
  have h₁ : decide (10000 < script.length) = false := decide_eq_false (Nat.not_lt.mpr hsize)
  unfold GC.evalScript evalLoop
  rw [heq, hend, h₁]
  show (setErrorIf (!st.vfExec.isEmpty) .UNBALANCED_CONDITIONAL >>= _) = _
  rw [hexec]
  rfl

end

/-! ## Opcodes -/

section

variable {checker : Checker} {flags : UInt32} {code rest : Bytes} {stack : Stack} {n : Nat}

theorem execute_handler {opcode : UInt8} {handler : Handler}
    (h : (switch checker true).lookup opcode = some handler) (hop : OP_PUSHDATA4 < opcode.toNat)
    (vch : Bytes) (flags : UInt32) (st : EvalState) :
    execute checker true opcode vch flags st = handler flags st := by
  rw [execute, if_neg, Bool.true_or, if_pos rfl, h]
  simp only [Bool.true_and, decide_eq_true_eq]
  omega

/-- An opcode that is counted. -/
theorem Evals.op (handler : Handler) {opcode : UInt8} {stack' : Stack} {n' : Nat}
    (hlookup : (switch checker true).lookup opcode = some handler) (hop : OP_16 < opcode.toNat)
    (hdisabled : disabledOps.contains opcode = false) (hn : n < 201)
    (hhandler : handler flags ⟨rest, code, stack, [], [], n + 1⟩ =
      .ok ⟨rest, code, stack', [], [], n'⟩)
    (hstack : stack'.length ≤ 1000) :
    Evals checker flags ⟨opcode :: rest, code, stack, [], [], n⟩
      ⟨rest, code, stack', [], [], n'⟩ := by
  have hpush : OP_PUSHDATA4 < opcode.toNat := Nat.lt_trans (by decide) hop
  refine Evals.step (getOp_opcode hpush rest) (Nat.zero_le _) (fun _ => hn) hdisabled ?_ rfl hstack
  simp only [if_pos hop]
  exact (execute_handler hlookup hpush [] flags _).trans hhandler

theorem Evals.dup {vch : Bytes} (hn : n < 201) (hstack : stack.length + 2 ≤ 1000) :
    Evals checker flags ⟨OP_DUP :: rest, code, vch :: stack, [], [], n⟩
      ⟨rest, code, vch :: vch :: stack, [], [], n + 1⟩ :=
  .op (onStack opDup) rfl (by decide) (by decide) hn rfl hstack

theorem Evals.hash160 {vch : Bytes} (hn : n < 201) (hstack : stack.length + 1 ≤ 1000) :
    Evals checker flags ⟨OP_HASH160 :: rest, code, vch :: stack, [], [], n⟩
      ⟨rest, code, (checker.hash160 vch).val :: stack, [], [], n + 1⟩ :=
  .op (onStack (opHash checker.hash160)) rfl (by decide) (by decide) hn rfl hstack

theorem Evals.equalVerify {vch : Bytes} (hn : n < 201) (hstack : stack.length ≤ 1000) :
    Evals checker flags ⟨OP_EQUALVERIFY :: rest, code, vch :: vch :: stack, [], [], n⟩
      ⟨rest, code, stack, [], [], n + 1⟩ := by
  refine .op (onStack (opEqual (some .EQUALVERIFY))) rfl (by decide) (by decide) hn ?_
    hstack
  show (pushVerify (some .EQUALVERIFY) (vch == vch) (boolBytes (vch == vch)) stack >>= _) = _
  rw [beq_self_eq_true]
  rfl

theorem Evals.equal {vch : Bytes} (hn : n < 201) (hstack : stack.length + 1 ≤ 1000) :
    Evals checker flags ⟨OP_EQUAL :: rest, code, vch :: vch :: stack, [], [], n⟩
      ⟨rest, code, vchTrue :: stack, [], [], n + 1⟩ := by
  refine .op (onStack (opEqual none)) rfl (by decide) (by decide) hn ?_ hstack
  show (pushVerify none (vch == vch) (boolBytes (vch == vch)) stack >>= _) = _
  rw [beq_self_eq_true]
  rfl

/-- Data, other than one byte, is pushed with the shortest opcode. -/
theorem checkMinimalPush_pushOpcode {b : Bytes} (h : b.length ≤ MAX_SCRIPT_ELEMENT_SIZE)
    (hlen : b.length ≠ 1) : checkMinimalPush b (pushOpcode b) = true := by
  have h₁ : OP_PUSHDATA1 = 0x4C := rfl
  unfold MAX_SCRIPT_ELEMENT_SIZE at h
  unfold checkMinimalPush
  split
  · rfl
  · exact (hlen rfl).elim
  · split_ifs with hdirect hone htwo
    · rw [pushOpcode_small (by omega)]
      exact beq_self_eq_true _
    · rw [pushOpcode, if_neg (by omega), if_pos hone]
      rfl
    · rw [pushOpcode, if_neg (by omega), if_neg hone, if_pos htwo]
      rfl
    · omega

theorem disabledOps_contains {opcode : UInt8} (h : opcode.toNat < 0x7E) :
    disabledOps.contains opcode = false := by
  have hall : disabledOps.all (fun op => decide (0x7E ≤ op.toNat)) = true := rfl
  rw [Bool.eq_false_iff]
  intro hmem
  have hge := List.all_eq_true.mp hall opcode (List.contains_iff_mem.mp hmem)
  exact absurd (of_decide_eq_true hge) (Nat.not_le.mpr h)

/-- What `CScript <<` can push under the flags: a byte alone may have an opcode of its own. -/
structure CanPush (flags : UInt32) (b : Bytes) : Prop where
  minimal : hasFlag flags SCRIPT_VERIFY_MINIMALDATA = true → b.length ≠ 1
  size : b.length ≤ MAX_SCRIPT_ELEMENT_SIZE

theorem CanPush.of_sizes {b : Bytes} (h : b.length ≠ 1 ∧ b.length ≤ MAX_SCRIPT_ELEMENT_SIZE) :
    CanPush flags b := ⟨fun _ => h.1, h.2⟩

theorem CanPush.checked {b : Bytes} (h : CanPush flags b) :
    (hasFlag flags SCRIPT_VERIFY_MINIMALDATA && !checkMinimalPush b (pushOpcode b)) = false := by
  cases hflag : hasFlag flags SCRIPT_VERIFY_MINIMALDATA with
  | false => rfl
  | true =>
    rw [checkMinimalPush_pushOpcode h.size (h.minimal hflag)]
    rfl

theorem Evals.push {b : Bytes} (h : CanPush flags b) (hrest : (b ++ rest).length < 2 ^ 32)
    (hstack : stack.length + 1 ≤ 1000) :
    Evals checker flags ⟨pushData b ++ rest, code, stack, [], [], n⟩
      ⟨rest, code, b :: stack, [], [], n⟩ := by
  obtain ⟨opcode, hopcode⟩ : ∃ opcode, opcode = pushOpcode b := ⟨_, rfl⟩
  have hop := getOp_pushData hrest
  have hle := pushOpcode_le b
  have hminimal := h.checked
  rw [← hopcode] at hop hle hminimal
  have hcount : ¬ OP_16 < opcode.toNat := by
    unfold OP_16
    unfold OP_PUSHDATA4 at hle
    omega
  have hdisabled : disabledOps.contains opcode = false :=
    disabledOps_contains (Nat.lt_of_le_of_lt hle (by decide))
  refine Evals.step hop h.size (fun h => absurd h hcount) hdisabled ?_ rfl hstack
  simp only [if_neg hcount]
  show execute checker true opcode b flags _ = _
  rw [execute, if_pos (by simpa using hle), hminimal]
  rfl

/-- `OP_1` to `OP_16`. -/
theorem Evals.number {k : Nat} (hk : 1 ≤ k ∧ k ≤ 16) (hstack : stack.length + 1 ≤ 1000) :
    Evals checker flags ⟨UInt8.ofNat (0x50 + k) :: rest, code, stack, [], [], n⟩
      ⟨rest, code, scriptNumBytes k :: stack, [], [], n⟩ := by
  have hop : (UInt8.ofNat (0x50 + k)).toNat = 0x50 + k :=
    UInt8.toNat_ofNat_of_lt' (show 0x50 + k < 256 by omega)
  have h₄ : OP_PUSHDATA4 = 0x4E := rfl
  have h₁₆ : OP_16 = 0x60 := rfl
  refine Evals.step (getOp_opcode (by omega) rest) (Nat.zero_le _) (fun h => by omega)
    (disabledOps_contains (by omega)) ?_ rfl hstack
  rw [if_neg (by omega)]
  obtain ⟨hlo, hhi⟩ := hk
  interval_cases k <;> rfl

/-! ## Signatures -/

/-- The encoding of a signature passes the standard checks. -/
structure StandardSig (sig : Bytes) : Prop where
  encoding : isValidSignatureEncoding sig = true
  hashtype : isDefinedHashtypeSignature sig = true

theorem StandardSig.length {sig : Bytes} (h : StandardSig sig) :
    9 ≤ sig.length ∧ sig.length ≤ 73 := by
  have hvalid := h.encoding
  by_contra hlen
  by_cases h₉ : sig.length < 9
  · simp only [isValidSignatureEncoding, h₉, ↓reduceIte, Bool.false_eq_true] at hvalid
  · have h₇₃ : 73 < sig.length := by omega
    simp only [isValidSignatureEncoding, h₉, h₇₃, ↓reduceIte, Bool.false_eq_true] at hvalid

theorem StandardSig.head {sig : Bytes} (h : StandardSig sig) : sig.getD 0 0 = 0x30 := by
  have hvalid := h.encoding
  have hlen := h.length
  by_contra hhead
  have h₉ : ¬ sig.length < 9 := by omega
  have h₇₃ : ¬ 73 < sig.length := by omega
  have h₀ : (sig.getD 0 0).toNat ≠ 0x30 := fun h => hhead (UInt8.toNat_inj.mp h)
  simp only [isValidSignatureEncoding, h₉, h₇₃, h₀, ↓reduceIte, Bool.false_eq_true, ne_eq,
    not_false_eq_true] at hvalid

theorem StandardSig.check {sig : Bytes} (h : StandardSig sig) :
    checkSignatureEncoding STANDARD_SCRIPT_VERIFY_FLAGS checker sig = .ok () := by
  unfold checkSignatureEncoding
  split_ifs with hempty
  · rfl
  · rw [h.encoding, h.hashtype]
    rfl

theorem checkPubKeyEncoding_standard {key : Bytes}
    (h : isCompressedOrUncompressedPubKey key = true) (flags : UInt32) :
    checkPubKeyEncoding flags key = .ok () := by
  rw [checkPubKeyEncoding, h, Bool.not_true, Bool.and_false]
  rfl

theorem Evals.checkSig {sig key : Bytes} (hn : n < 201) (hstack : stack.length + 1 ≤ 1000)
    (hsig : StandardSig sig) (hkey : isCompressedOrUncompressedPubKey key = true)
    (haccept : checker.checkSig sig key (findAndDelete code (pushData sig)) = true) :
    Evals checker STANDARD_SCRIPT_VERIFY_FLAGS
      ⟨OP_CHECKSIG :: rest, code, key :: sig :: stack, [], [], n⟩
      ⟨rest, code, vchTrue :: stack, [], [], n + 1⟩ := by
  refine .op (opCheckSig checker none) rfl (by decide) (by decide) hn ?_ hstack
  show (checkSignatureEncoding STANDARD_SCRIPT_VERIFY_FLAGS checker sig >>= fun _ =>
    checkPubKeyEncoding STANDARD_SCRIPT_VERIFY_FLAGS key >>= fun _ =>
    pushVerify none (checker.checkSig sig key (findAndDelete code (pushData sig)))
      (boolBytes (checker.checkSig sig key (findAndDelete code (pushData sig)))) stack >>=
    fun stack => Except.ok (⟨rest, code, stack, [], [], n + 1⟩ : EvalState)) = _
  rw [hsig.check, checkPubKeyEncoding_standard hkey, haccept]
  rfl

/-! ## Several signatures -/

theorem dropSigs_of_keep {sigs : List Bytes}
    (hkeep : ∀ sig ∈ sigs, findAndDelete code (pushData sig) = code) : dropSigs code sigs = code := by
  induction sigs with
  | nil => rfl
  | cons sig sigs ih =>
    rw [dropSigs, List.foldl_cons, hkeep sig List.mem_cons_self]
    exact ih fun s hs => hkeep s (List.mem_cons_of_mem _ hs)

theorem Evals.checkMultisig {sigs keys : List Bytes} (hkeys : keys.length ≤ 16)
    (hn : n + 1 + keys.length ≤ 201) (hstack : stack.length + 1 ≤ 1000)
    (hsig : ∀ sig ∈ sigs, StandardSig sig)
    (hkey : ∀ key ∈ keys, isCompressedOrUncompressedPubKey key = true)
    (hkeep : ∀ sig ∈ sigs, findAndDelete code (pushData sig) = code)
    (hmatch : List.SublistForall₂ (fun sig key => checker.checkSig sig key code = true) sigs keys) :
    Evals checker STANDARD_SCRIPT_VERIFY_FLAGS
      ⟨OP_CHECKMULTISIG :: rest, code, scriptNumBytes keys.length ::
        (keys.reverse ++ scriptNumBytes sigs.length :: (sigs.reverse ++ [] :: stack)), [], [], n⟩
      ⟨rest, code, vchTrue :: stack, [], [], n + 1 + keys.length⟩ := by
  have hargs : MultisigArgs STANDARD_SCRIPT_VERIFY_FLAGS _ sigs keys stack :=
    .pushed (sublistForall₂_length hmatch) (by omega) stack
  have hmatches : matchSignatures checker code sigs keys = true := by
    rw [matchSignatures, greedyMatch_iff, dropSigs_of_keep (by simpa using hkeep)]
    exact sublistForall₂_reverse hmatch
  refine .op (opCheckMultisig checker none) rfl (by decide) (by decide) (by omega) ?_ hstack
  refine (opCheckMultisig_eq hargs hn (fun sig hmem => (hsig sig hmem).check) fun key hmem =>
    checkPubKeyEncoding_standard (hkey key hmem) _).trans ?_
  show (pushVerify none (matchSignatures checker code sigs keys)
    (boolBytes (matchSignatures checker code sigs keys)) stack >>= _) = _
  rw [hmatches]
  rfl

/-! ## Spending -/

/-- What a `scriptSig` can push under the standard flags. -/
structure Pushable (items : List Bytes) : Prop where
  count : items.length ≤ 18
  sizes : ∀ b ∈ items, b.length ≠ 1 ∧ b.length ≤ MAX_SCRIPT_ELEMENT_SIZE

theorem Evals.pushes {items : List Bytes} (h : ∀ b ∈ items, CanPush flags b)
    (hrest : (items.flatMap pushData ++ rest).length < 2 ^ 32)
    (hstack : stack.length + items.length ≤ 1000) :
    Evals checker flags ⟨items.flatMap pushData ++ rest, code, stack, [], [], n⟩
      ⟨rest, code, items.reverse ++ stack, [], [], n⟩ := by
  induction items generalizing stack with
  | nil => exact .refl _
  | cons b items ih =>
    rw [List.length_cons] at hstack
    have hb := h b List.mem_cons_self
    have hlen : (b :: stack).length + items.length ≤ 1000 := by
      rw [List.length_cons]
      omega
    rw [List.flatMap_cons, List.append_assoc] at hrest
    rw [List.flatMap_cons, List.append_assoc, List.reverse_cons, List.append_assoc]
    exact (Evals.push hb (length_operand_lt hrest) (by omega)).trans
      (ih (fun c hc => h c (List.mem_cons_of_mem _ hc)) (length_rest_lt hrest) hlen)

theorem length_pushData (b : Bytes) : (pushData b).length ≤ b.length + 5 := by
  unfold pushData
  split_ifs
  · exact Nat.le_add_right (b.length + 1) 4
  · exact Nat.le_add_right (b.length + 2) 3
  · simp only [List.length_cons, List.length_append, length_leBytes]
    omega
  · simp only [List.length_cons, List.length_append, length_leBytes]
    omega

theorem length_pushes {items : List Bytes} {k : Nat} (h : ∀ b ∈ items, b.length ≤ k) :
    (items.flatMap pushData).length ≤ items.length * (k + 5) := by
  induction items with
  | nil => exact Nat.zero_le _
  | cons b items ih =>
    have hb := h b List.mem_cons_self
    have hrest := ih fun c hc => h c (List.mem_cons_of_mem _ hc)
    have hpush := length_pushData b
    rw [List.flatMap_cons, List.length_append, List.length_cons, Nat.succ_mul]
    omega

theorem length_pushes_le {items : List Bytes} (hcount : items.length ≤ 18)
    (h : ∀ b ∈ items, b.length ≤ MAX_SCRIPT_ELEMENT_SIZE) :
    (items.flatMap pushData).length ≤ 10000 := by
  have hmul : items.length * (MAX_SCRIPT_ELEMENT_SIZE + 5) ≤ 18 * (MAX_SCRIPT_ELEMENT_SIZE + 5) :=
    Nat.mul_le_mul_right _ hcount
  exact ((length_pushes h).trans hmul).trans (by decide)

theorem Pushable.length_le {items : List Bytes} (h : Pushable items) :
    (items.flatMap pushData).length ≤ 10000 := length_pushes_le h.count fun b hb => (h.sizes b hb).2

theorem evalScript_canPush {items : List Bytes} (hcount : items.length ≤ 18)
    (h : ∀ b ∈ items, CanPush flags b) :
    evalScript checker flags [] (items.flatMap pushData) = .ok items.reverse := by
  have hlen := length_pushes_le hcount fun b hb => (h b hb).size
  have hrun : Evals checker flags (.init [] (items.flatMap pushData))
      ⟨[], items.flatMap pushData, items.reverse, [], [], 0⟩ := by
    have : Evals checker flags
        ⟨items.flatMap pushData ++ [], items.flatMap pushData, [], [], [], 0⟩
        ⟨[], items.flatMap pushData, items.reverse ++ [], [], [], 0⟩ :=
      Evals.pushes h (by rw [List.append_nil]; omega) (by rw [List.length_nil]; omega)
    rwa [List.append_nil, List.append_nil] at this
  exact hrun.evalScript rfl rfl hlen

theorem evalScript_pushes {items : List Bytes} (h : Pushable items) :
    evalScript checker flags [] (items.flatMap pushData) = .ok items.reverse :=
  evalScript_canPush h.count fun b hb => .of_sizes (h.sizes b hb)

theorem isPushOnly_pushes {items : List Bytes} (h : (items.flatMap pushData).length < 2 ^ 32) :
    isPushOnly (items.flatMap pushData) = true := by
  have hfrom : ∀ len, (items.flatMap pushData).length ≤ len →
      pushOnlyFrom len (items.flatMap pushData) = true := by
    induction items with
    | nil => exact fun len _ => by cases len <;> rfl
    | cons b items ih =>
      intro len hlen
      rw [List.flatMap_cons] at h hlen ⊢
      have hop := getOp_pushData (length_operand_lt h)
      have hle := pushOpcode_le b
      have hlt := getOp_length hop
      have hop₁₆ : ¬ OP_16 < (pushOpcode b).toNat := by
        unfold OP_16
        unfold OP_PUSHDATA4 at hle
        omega
      cases hp : pushData b ++ items.flatMap pushData with
      | nil => rw [hp] at hop; cases hop
      | cons c pc =>
        rw [hp] at hop hlen hlt
        cases len with
        | zero => cases hlen
        | succ len =>
          rw [pushOnlyFrom, hop]
          · simp only [if_neg hop₁₆]
            exact ih (length_rest_lt h) len (by omega)
          · exact fun h => by cases h
  exact hfrom _ (Nat.le_refl _)

/-- `items`, pushed in this order, make `script` true. -/
def Solves (checker : Checker) (script : CScript) (items : List Bytes) : Prop :=
  ∃ n, Evals checker STANDARD_SCRIPT_VERIFY_FLAGS (.init items.reverse script)
    ⟨[], script, [vchTrue], [], [], n⟩

theorem verifyScript_pushes {script : CScript} {items : List Bytes} (hitems : Pushable items)
    (hsolves : Solves checker script items) (hsize : script.length ≤ 10000)
    (hscript : isPayToScriptHash script = false) :
    verifyScript checker STANDARD_SCRIPT_VERIFY_FLAGS (items.flatMap pushData) script = .ok () := by
  obtain ⟨n, hrun⟩ := hsolves
  have heval : evalScript checker STANDARD_SCRIPT_VERIFY_FLAGS items.reverse script = .ok [vchTrue] :=
    hrun.evalScript rfl rfl hsize
  unfold verifyScript
  rw [evalScript_pushes hitems]
  show (evalScript checker STANDARD_SCRIPT_VERIFY_FLAGS items.reverse script >>= _) = _
  rw [heval]
  show (checkScriptHash checker STANDARD_SCRIPT_VERIFY_FLAGS (items.flatMap pushData) script
    items.reverse [vchTrue] >>= _) = _
  rw [checkScriptHash, hscript, Bool.and_false]
  rfl

end

end GC
