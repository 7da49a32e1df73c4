import GameCredits.Model.SigHash
import GameCredits.Proof.ScriptBuild
import GameCredits.Proof.ScriptLimits
import GameCredits.Proof.Wire

/-!
# What signatures are for

`SerializeScriptCode` writes the script code in segments between the code separators, with a size in
front that it has counted before (`serializeScriptCode_eq`); `FindAndDelete` takes the code separators
out (`findAndDelete_codeSeparators`). Input by input and output by output the serializer writes the
transaction that `SignatureHashOld` changes a copy into (`serialize_eq`, `signatureHashOld_eq`).
-/

namespace GC

open Framework

/-! ## The opcodes of a script -/

/-- The opcodes of a script with their bytes, over at most `len` of them; `none` where `GetOp` fails
before the end. -/
def parseOps : (len : Nat) → Bytes → Option (List (UInt8 × Bytes))
  | _, [] => some []
  | 0, _ => none
  | len + 1, pc =>
    match getOp pc with
    | none => none
    | some (opcode, _, pc') =>
      (parseOps len pc').map fun ops => (opcode, pc.take (pc.length - pc'.length)) :: ops

/-- The bytes `pc` are the opcodes `ops`, one after another. -/
inductive Parsed : Bytes → List (UInt8 × Bytes) → Prop
  | nil : Parsed [] []
  | cons {opcode : UInt8} {vch chunk pc : Bytes} {ops : List (UInt8 × Bytes)}
      (hop : getOp (chunk ++ pc) = some (opcode, vch, pc)) (hops : Parsed pc ops) :
      Parsed (chunk ++ pc) ((opcode, chunk) :: ops)

def isCodeSeparator (op : UInt8 × Bytes) : Bool := op.1 == OP_CODESEPARATOR

/-- The bytes of a script without its code separators. -/
def removeCodeSeparators (ops : List (UInt8 × Bytes)) : CScript :=
  (ops.filter fun op => !isCodeSeparator op).flatMap Prod.snd

section

variable {pc pc' vch : Bytes} {opcode : UInt8}

/-- A code separator is one byte. -/
theorem getOp_codeSeparator (h : getOp pc = some (OP_CODESEPARATOR, vch, pc')) :
    pc = OP_CODESEPARATOR :: pc' := by
  cases pc with
  | nil => cases h
  | cons c pc =>
    obtain rfl := getOp_head h
    rw [getOp_opcode (by decide)] at h
    cases h
    rfl

/-- What `GetOp` leaves is the end of what it was given. -/
theorem getOp_suffix (h : getOp pc = some (opcode, vch, pc')) :
    pc = pc.take (pc.length - pc'.length) ++ pc' := by
  obtain ⟨r, -, hmatch, -⟩ := @getOp2_spec pc 0 (Nat.zero_le _)
  have hresult := hmatch.result
  rw [List.drop_zero, h] at hresult
  split_ifs at hresult
  obtain ⟨-, -, rfl⟩ := hresult
  have hinside := hmatch.inside
  rw [List.length_drop, Nat.sub_sub_self hinside, List.take_append_drop]

theorem parsed_of_parseOps {len : Nat} {ops : List (UInt8 × Bytes)} (h : parseOps len pc = some ops) :
    Parsed pc ops := by
  induction len generalizing pc ops with
  | zero =>
    cases pc with
    | nil =>
      cases h
      exact .nil
    | cons c pc => cases h
  | succ len ih =>
    cases hpc : pc with
    | nil =>
      rw [hpc] at h
      cases h
      exact .nil
    | cons c t =>
      rw [← hpc]
      rw [parseOps] at h
      · cases hop : getOp pc with
        | none =>
          rw [hop] at h
          cases h
        | some r =>
          obtain ⟨opcode, vch, pc'⟩ := r
          rw [hop] at h
          obtain ⟨ops', hops, rfl⟩ := Option.map_eq_some_iff.mp h
          have hsuffix := getOp_suffix hop
          generalize pc.take (pc.length - pc'.length) = chunk at hsuffix
          rw [hsuffix] at hop ⊢
          exact .cons hop (ih hops)
      · intro hnil
        rw [hpc] at hnil
        cases hnil

theorem removeCodeSeparators_cons (opcode : UInt8) (chunk : Bytes) (ops : List (UInt8 × Bytes)) :
    removeCodeSeparators ((opcode, chunk) :: ops) =
      if opcode = OP_CODESEPARATOR then removeCodeSeparators ops
      else chunk ++ removeCodeSeparators ops := by
  simp only [removeCodeSeparators, isCodeSeparator]
  split_ifs with h
  · rw [List.filter_cons_of_neg (by simp [h])]
  · rw [List.filter_cons_of_pos (by simp [h]), List.flatMap_cons]

theorem countP_codeSeparator (opcode : UInt8) (chunk : Bytes) (ops : List (UInt8 × Bytes)) :
    ((opcode, chunk) :: ops).countP isCodeSeparator =
      ops.countP isCodeSeparator + if opcode = OP_CODESEPARATOR then 1 else 0 := by
  rw [List.countP_cons]
  simp only [isCodeSeparator, beq_iff_eq]

theorem codeSeparator_chunk {chunk : Bytes}
    (h : getOp (chunk ++ pc) = some (OP_CODESEPARATOR, vch, pc)) : chunk = [OP_CODESEPARATOR] :=
  List.append_cancel_right (getOp_codeSeparator h)

/-- Each code separator is one byte of the script. -/
theorem Parsed.length {ops : List (UInt8 × Bytes)} (h : Parsed pc ops) :
    (removeCodeSeparators ops).length + ops.countP isCodeSeparator = pc.length := by
  induction h with
  | nil => rfl
  | @cons opcode vch chunk pc ops hop hops ih =>
    rw [removeCodeSeparators_cons, countP_codeSeparator, List.length_append, ← ih]
    split_ifs with hsep
    · rw [hsep] at hop
      rw [codeSeparator_chunk hop, List.length_singleton]
      omega
    · rw [List.length_append]
      omega

/-! ## FindAndDelete -/

theorem findAndDeleteFrom_cons (c : UInt8) (len : Nat) (pc : Bytes) :
    findAndDeleteFrom [c] len (c :: pc) = findAndDeleteFrom [c] len pc := by
  have herase : eraseAll [c] (c :: pc).length (c :: pc) = eraseAll [c] pc.length pc := by
    rw [List.length_cons, eraseAll, List.isPrefixOf_cons_cons_self]
    rfl
  cases len with
  | zero => exact herase
  | succ len =>
    rw [findAndDeleteFrom, findAndDeleteFrom]
    simp only [herase]

theorem eraseAll_other {c d : UInt8} (h : c ≠ d) (len : Nat) (pc : Bytes) :
    eraseAll [c] len (d :: pc) = d :: pc := by
  cases len with
  | zero => rfl
  | succ len =>
    rw [eraseAll, if_neg]
    rw [List.isPrefixOf, beq_eq_false_iff_ne.mpr h]
    exact Bool.false_ne_true

/-- `FindAndDelete` takes the code separators out. -/
theorem findAndDelete_codeSeparators {ops : List (UInt8 × Bytes)} (h : Parsed pc ops) {len : Nat}
    (hlen : pc.length ≤ len) :
    findAndDeleteFrom [OP_CODESEPARATOR] len pc = removeCodeSeparators ops := by
  induction h generalizing len with
  | nil => cases len <;> rfl
  | @cons opcode vch chunk pc ops hop hops ih =>
    have hlt := getOp_length hop
    rw [removeCodeSeparators_cons]
    by_cases hsep : opcode = OP_CODESEPARATOR
    · rw [hsep] at hop
      rw [if_pos hsep, getOp_codeSeparator hop, findAndDeleteFrom_cons]
      exact ih (by omega)
    · rw [if_neg hsep]
      obtain ⟨len, rfl⟩ : ∃ n, len = n + 1 := ⟨len - 1, by omega⟩
      have herase : eraseAll [OP_CODESEPARATOR] (chunk ++ pc).length (chunk ++ pc) = chunk ++ pc := by
        cases hpc : chunk ++ pc with
        | nil =>
          rw [hpc] at hop
          cases hop
        | cons c t =>
          rw [hpc] at hop
          exact eraseAll_other (fun heq => hsep ((getOp_head hop).trans heq.symm)) _ _
      rw [findAndDeleteFrom, herase, hop]
      simp only
      rw [List.length_append, Nat.add_sub_cancel, List.take_left, ih (by omega)]

end

/-! ## What is signed -/

/-- Input `i` of what is signed: only the input itself has a script, and where the others may be
updated they have no sequence number. -/
def signedInput (code : CScript) (nIn : Nat) (fUpdate : Bool) (i : Nat) (txin : CTxIn) : CTxIn :=
  if i = nIn then { txin with scriptSig := code }
  else { txin with scriptSig := [], nSequence := if fUpdate then 0 else txin.nSequence }

/-- `SIGHASH_NONE` and `SIGHASH_SINGLE` let the others update at will. -/
def updatesOthers (nHashType : UInt32) : Bool :=
  nHashType &&& 0x1f == SIGHASH_SINGLE || nHashType &&& 0x1f == SIGHASH_NONE

def signedVin (code : CScript) (tx : CTransaction) (nIn nHashType : UInt32) : List CTxIn :=
  let vin := tx.vin.mapIdx (signedInput code nIn.toNat (updatesOthers nHashType))
  if nHashType &&& SIGHASH_ANYONECANPAY ≠ 0 then vin[nIn.toNat]?.toList else vin

def signedVout (tx : CTransaction) (nIn nHashType : UInt32) : List CTxOut :=
  if nHashType &&& 0x1f = SIGHASH_NONE then []
  else if nHashType &&& 0x1f = SIGHASH_SINGLE then
    List.replicate nIn.toNat .null ++ tx.vout[nIn.toNat]?.toList
  else tx.vout

/-- The transaction that a signature is for; `code` is the script code without code separators. -/
def signedTransaction (code : CScript) (tx : CTransaction) (nIn nHashType : UInt32) : CTransaction :=
  { tx with vin := signedVin code tx nIn nHashType, vout := signedVout tx nIn nHashType }

/-- The index is out of range, or there is no output for `SIGHASH_SINGLE`. -/
def SignsOne (tx : CTransaction) (nIn nHashType : UInt32) : Prop :=
  tx.vin.length ≤ nIn.toNat ∨
    (nHashType &&& 0x1f = SIGHASH_SINGLE ∧ tx.vout.length ≤ nIn.toNat)

instance (tx : CTransaction) (nIn nHashType : UInt32) : Decidable (SignsOne tx nIn nHashType) :=
  inferInstanceAs (Decidable (_ ∨ _))

/-! ## The script code -/

section

variable {script : CScript} {it : Nat}

theorem getOp2_some {opcode : UInt8} {vch pc : Bytes} (hit : it ≤ script.length)
    (h : getOp (script.drop it) = some (opcode, vch, pc)) :
    ∃ ret, getOp2 script it = some ret ∧ ret.fRet = true ∧ ret.opcodeRet = opcode ∧
      script.drop ret.pc = pc ∧ it < ret.pc ∧ ret.pc ≤ script.length := by
  obtain ⟨ret, hret, hmatch, hlt⟩ := getOp2_spec hit
  have hresult := hmatch.result
  rw [h] at hresult
  split_ifs at hresult with htrue
  simp only [Option.some.injEq, Prod.mk.injEq] at hresult
  exact ⟨ret, hret, htrue, hresult.1.symm, hresult.2.2.symm, hlt htrue, hmatch.inside⟩

theorem length_drop_eq {pc : Bytes} (h : script.drop it = pc) : script.length - it = pc.length := by
  rw [← h, List.length_drop]

theorem getOp2_end (hit : it ≤ script.length) (h : script.drop it = []) :
    getOp2 script it = some { fRet := false, pc := script.length } := by
  have hlen := length_drop_eq h
  rw [List.length_nil] at hlen
  obtain rfl : it = script.length := by omega
  rw [getOp2, if_pos (Nat.le_refl _)]

end

namespace CTransactionSignatureSerializer

variable {script pc : Bytes} {ops : List (UInt8 × Bytes)}

/-- The first loop counts the code separators. -/
theorem countCodeSeparators_eq (h : Parsed pc ops) {len it nCodeSeparators : Nat}
    (hlen : pc.length < len) (hit : it ≤ script.length) (hdrop : script.drop it = pc)
    (hcount : nCodeSeparators + ops.countP isCodeSeparator < 2 ^ 32) :
    countCodeSeparators script len it nCodeSeparators =
      some (nCodeSeparators + ops.countP isCodeSeparator) := by
  induction h generalizing len it nCodeSeparators with
  | nil =>
    obtain ⟨len, rfl⟩ : ∃ n, len = n + 1 := ⟨len - 1, by omega⟩
    rw [countCodeSeparators, getOp2_end hit hdrop]
    rfl
  | @cons opcode vch chunk pc ops hop hops ih =>
    have hlt := getOp_length hop
    obtain ⟨len, rfl⟩ : ∃ n, len = n + 1 := ⟨len - 1, by omega⟩
    rw [← hdrop] at hop
    obtain ⟨ret, hret, htrue, rfl, hpc, -, hinside⟩ := getOp2_some hit hop
    rw [countP_codeSeparator] at hcount ⊢
    rw [countCodeSeparators, hret]
    simp only [Option.bind_eq_bind, Option.bind_some, htrue, Bool.not_true, Bool.false_eq_true,
      if_false, beq_iff_eq]
    split_ifs at hcount ⊢ with hsep
    · rw [Nat.mod_eq_of_lt (by omega), ih (by omega) hinside hpc (by omega)]
      congr 1
      omega
    · exact ih (by omega) hinside hpc hcount

section

variable {σ : Type} {write : σ → Bytes → σ}
  (happend : ∀ os a b, write (write os a) b = write os (a ++ b)) (hnil : ∀ os, write os [] = os)

include happend hnil

/-- The second loop writes all but the code separators, up to the last segment, which is left. -/
theorem writeSegments_eq (h : Parsed pc ops) {len it itBegin : Nat} (s : σ) (hlen : pc.length < len)
    (hit : it ≤ script.length) (hdrop : script.drop it = pc) (hbegin : itBegin ≤ it) :
    ∃ bytes itBegin', writeSegments write script len it itBegin s =
        some (write s bytes, script.length, itBegin') ∧ itBegin' ≤ script.length ∧
      bytes ++ script.drop itBegin' =
        (script.drop itBegin).take (it - itBegin) ++ removeCodeSeparators ops := by
  induction h generalizing len it itBegin s with
  | nil =>
    obtain ⟨len, rfl⟩ : ∃ n, len = n + 1 := ⟨len - 1, by omega⟩
    have hend := length_drop_eq hdrop
    refine ⟨[], itBegin, ?_, by omega, ?_⟩
    · rw [writeSegments, getOp2_end hit hdrop, hnil]
      rfl
    · rw [List.nil_append, List.take_of_length_le]
      · exact (List.append_nil _).symm
      · rw [List.length_drop]
        rw [List.length_nil] at hend
        omega
  | @cons opcode vch chunk pc ops hop hops ih =>
    have hlt := getOp_length hop
    have hleft := length_drop_eq hdrop
    obtain ⟨len, rfl⟩ : ∃ n, len = n + 1 := ⟨len - 1, by omega⟩
    rw [← hdrop] at hop
    obtain ⟨ret, hret, htrue, rfl, hpc, hnext, hinside⟩ := getOp2_some hit hop
    have hleft' := length_drop_eq hpc
    rw [List.length_append] at hleft
    have hshort : pc.length < len := by omega
    have hbegin' : itBegin ≤ ret.pc := by omega
    rw [hdrop] at hop
    rw [writeSegments, hret, removeCodeSeparators_cons]
    simp only [Option.bind_eq_bind, Option.bind_some, htrue, Bool.not_true, Bool.false_eq_true,
      if_false, beq_iff_eq]
    split_ifs with hsep
    · -- the segment before the code separator
      rw [hsep] at hop
      have hchunk := codeSeparator_chunk hop
      rw [hchunk, List.length_singleton] at hleft
      rw [readAt_eq (by omega), show ret.pc - itBegin - 1 = it - itBegin by omega, Option.bind_some]
      obtain ⟨bytes, itBegin', hrun, hend, heq⟩ :=
        ih (write s ((script.drop itBegin).take (it - itBegin))) hshort hinside hpc (Nat.le_refl _)
      rw [Nat.sub_self, List.take_zero, List.nil_append] at heq
      refine ⟨(script.drop itBegin).take (it - itBegin) ++ bytes, itBegin', ?_, hend, ?_⟩
      · rw [hrun, happend]
      · rw [List.append_assoc, heq]
    · -- the segment goes on
      obtain ⟨bytes, itBegin', hrun, hend, heq⟩ := ih s hshort hinside hpc hbegin'
      refine ⟨bytes, itBegin', hrun, hend, ?_⟩
      rw [heq, show ret.pc - itBegin = it - itBegin + (ret.pc - it) by omega, List.take_add,
        List.drop_drop, show itBegin + (it - itBegin) = it by omega, hdrop, List.append_assoc,
        show ret.pc - it = chunk.length by omega, List.take_left]

/-- `SerializeScriptCode` writes the script without its code separators. -/
theorem serializeScriptCode_eq (h : Parsed script ops) (hcount : ops.countP isCodeSeparator < 2 ^ 32)
    (s : σ) : serializeScriptCode write script s =
      some (write s (scriptBytes (removeCodeSeparators ops))) := by
  have hlen := h.length
  have hcounted : countCodeSeparators script (script.length + 1) 0 0 =
      some (ops.countP isCodeSeparator) := by
    rw [countCodeSeparators_eq h (Nat.lt_succ_self _) (Nat.zero_le _) rfl (by omega), Nat.zero_add]
  obtain ⟨bytes, itBegin, hrun, hend, heq⟩ := writeSegments_eq happend hnil h
    (serializeCompactSize write s (script.length - ops.countP isCodeSeparator))
    (Nat.lt_succ_self _) (Nat.zero_le _) rfl (Nat.le_refl 0)
  rw [Nat.sub_self, List.take_zero, List.nil_append] at heq
  rw [serializeScriptCode, hcounted]
  simp only [Option.bind_eq_bind, Option.bind_some, hrun]
  have hsize : script.length - ops.countP isCodeSeparator = (removeCodeSeparators ops).length := by
    omega
  have hdone : write (serializeCompactSize write s (script.length - ops.countP isCodeSeparator))
      (removeCodeSeparators ops) = write s (scriptBytes (removeCodeSeparators ops)) := by
    rw [serializeCompactSize_eq happend, happend, hsize, scriptBytes]
  rw [← hdone, ← heq]
  split_ifs with hlast
  · rw [hlast, List.drop_length, List.append_nil]
  · have hrest : (script.drop itBegin).take (script.length - itBegin) = script.drop itBegin :=
      List.take_of_length_le (Nat.le_of_eq List.length_drop)
    rw [readAt_eq (by omega), Option.bind_some, hrest, happend]

/-! ## Inputs and outputs -/

omit happend hnil in
theorem serializeUInt32_eq (s : σ) (x : UInt32) : serializeUInt32 write s x = write s (uint32Bytes x) :=
  rfl

/-- A loop that writes the elements of a vector one by one. -/
theorem foldlM_range {α : Type} {put : α → Bytes} {f : σ → Nat → Option σ} {v : List α}
    (h : ∀ i a, v[i]? = some a → ∀ s, f s i = some (write s (put a))) (s : σ) :
    (List.range v.length).foldlM f s = some (write s (v.flatMap put)) := by
  induction v using List.reverseRecOn with
  | nil => exact congrArg some (hnil s).symm
  | append_singleton v a ih =>
    have hlast : (v ++ [a])[v.length]? = some a := List.getElem?_concat_length
    have hinit := ih fun i b hb => h i b (by
      obtain ⟨hi, -⟩ := List.getElem?_eq_some_iff.mp hb
      rw [List.getElem?_append_left hi, hb])
    rw [List.length_append, List.length_singleton, List.range_succ, List.foldlM_append, hinit]
    simp only [Option.bind_eq_bind, Option.bind_some, List.foldlM_cons, List.foldlM_nil, h _ a hlast,
      Option.pure_def]
    rw [happend, List.flatMap_append, List.flatMap_singleton]

variable {tx : CTransaction} {nIn nHashType : UInt32}

/-- An input is written as it is in what is signed. -/
theorem serializeInput_eq (h : Parsed script ops) (hcount : ops.countP isCodeSeparator < 2 ^ 32)
    {nInput j : Nat} {txin : CTxIn}
    (hj : (if (new tx script nIn nHashType).fAnyoneCanPay then nIn.toNat else nInput) = j)
    (hin : tx.vin[j]? = some txin) (s : σ) :
    (new tx script nIn nHashType).serializeInput write s nInput =
      some (write s (signedInput (removeCodeSeparators ops) nIn.toNat (updatesOthers nHashType) j
        txin).bytes) := by
  have hnIn : (new tx script nIn nHashType).nIn = nIn.toNat := rfl
  have hcode : (new tx script nIn nHashType).scriptCode = script := rfl
  have htx : (new tx script nIn nHashType).txTo = tx := rfl
  have hupdate : ((new tx script nIn nHashType).fHashSingle ||
      (new tx script nIn nHashType).fHashNone) = updatesOthers nHashType := rfl
  simp only [serializeInput, hnIn, hj, htx, hin, hcode, hupdate, Option.bind_eq_bind,
    Option.bind_some, COutPoint.serialize_eq happend]
  by_cases heq : j = nIn.toNat
  · simp only [heq, ne_eq, not_true_eq_false, if_false, false_and, Option.bind_some,
      serializeScriptCode_eq happend hnil h hcount, signedInput, if_true]
    rw [serializeUInt32_eq, happend, happend, ← List.append_assoc]
    rfl
  · simp only [heq, ne_eq, not_false_eq_true, if_true, true_and,
      serializeScript_eq happend, signedInput, if_false]
    split_ifs
    · rw [serializeInt32, serWriteData, happend, happend, ← List.append_assoc]
      rfl
    · rw [serializeUInt32_eq, happend, happend, ← List.append_assoc]
      rfl

theorem serializeVin_eq (h : Parsed script ops) (hcount : ops.countP isCodeSeparator < 2 ^ 32) (s : σ) :
    (List.range (signedVin (removeCodeSeparators ops) tx nIn nHashType).length).foldlM
      ((new tx script nIn nHashType).serializeInput write) s =
        some (write s
          ((signedVin (removeCodeSeparators ops) tx nIn nHashType).flatMap CTxIn.bytes)) := by
  refine foldlM_range happend hnil (fun i txin hi s => ?_) s
  have hmap : ∀ {j}, (tx.vin.mapIdx (signedInput (removeCodeSeparators ops) nIn.toNat
      (updatesOthers nHashType)))[j]? = some txin → ∃ txin', tx.vin[j]? = some txin' ∧
        signedInput (removeCodeSeparators ops) nIn.toNat (updatesOthers nHashType) j txin' = txin := by
    intro j hj
    rw [List.getElem?_mapIdx] at hj
    exact Option.map_eq_some_iff.mp hj
  rw [signedVin] at hi
  split_ifs at hi with hanyone
  · obtain ⟨txin', htx, heq⟩ : ∃ txin', tx.vin[nIn.toNat]? = some txin' ∧ signedInput
        (removeCodeSeparators ops) nIn.toNat (updatesOthers nHashType) nIn.toNat txin' = txin := by
      refine hmap ?_
      have hmem := List.mem_of_getElem? hi
      rwa [Option.mem_toList] at hmem
    rw [← heq]
    exact serializeInput_eq happend hnil h hcount (if_pos (bne_iff_ne.mpr hanyone)) htx s
  · obtain ⟨txin', htx, heq⟩ := hmap hi
    rw [← heq]
    have hfalse : (new tx script nIn nHashType).fAnyoneCanPay = false :=
      bne_eq_false_iff_eq.mpr (not_not.mp hanyone)
    exact serializeInput_eq happend hnil h hcount (if_neg (by rw [hfalse]; decide)) htx s

theorem serializeVout_eq (s : σ) :
    (List.range (signedVout tx nIn nHashType).length).foldlM
      ((new tx script nIn nHashType).serializeOutput write) s =
        some (write s ((signedVout tx nIn nHashType).flatMap CTxOut.bytes)) := by
  refine foldlM_range happend hnil (fun i out hi s => ?_) s
  simp only [serializeOutput, new, beq_iff_eq]
  rw [signedVout] at hi
  split_ifs at hi with hnone hsingle
  · cases hi
  · rcases Nat.lt_or_ge i nIn.toNat with hlt | hge
    · rw [List.getElem?_append_left (by rwa [List.length_replicate]),
        List.getElem?_replicate_of_lt hlt] at hi
      cases hi
      rw [if_pos ⟨hsingle, hlt.ne⟩, CTxOut.serialize_eq happend]
    · rw [List.getElem?_append_right (by rwa [List.length_replicate]), List.length_replicate] at hi
      obtain ⟨hsub, -⟩ := List.getElem?_eq_some_iff.mp hi
      have hmem := List.mem_of_getElem? hi
      rw [Option.mem_toList] at hmem
      rw [hmem, Option.toList_some, List.length_singleton] at hsub
      obtain rfl : i = nIn.toNat := by omega
      rw [if_neg fun h => h.2 rfl, hmem]
      exact congrArg some (CTxOut.serialize_eq happend s out)
  · rw [if_neg fun h => hsingle h.1, hi]
    exact congrArg some (CTxOut.serialize_eq happend s out)

/-- The serializer writes the transaction that is signed. -/
theorem serialize_eq (h : Parsed script ops) (hcount : ops.countP isCodeSeparator < 2 ^ 32)
    (hvin : tx.vin.length < 2 ^ 32) (hvout : tx.vout.length < 2 ^ 32)
    (hone : ¬ SignsOne tx nIn nHashType) (s : σ) : (new tx script nIn nHashType).serialize write s =
      some (write s (signedTransaction (removeCodeSeparators ops) tx nIn nHashType).bytes) := by
  rw [SignsOne, not_or, Nat.not_le] at hone
  obtain ⟨hin, hout⟩ := hone
  have htx : (new tx script nIn nHashType).txTo = tx := rfl
  have hInputs : (if (new tx script nIn nHashType).fAnyoneCanPay then 1 else tx.vin.length % 2 ^ 32) =
      (signedVin (removeCodeSeparators ops) tx nIn nHashType).length := by
    simp only [new, bne_iff_ne, signedVin]
    split_ifs
    · rw [List.getElem?_eq_getElem (by rwa [List.length_mapIdx])]
      rfl
    · rw [List.length_mapIdx, Nat.mod_eq_of_lt hvin]
  have hOutputs : (if (new tx script nIn nHashType).fHashNone then 0
      else if (new tx script nIn nHashType).fHashSingle then
        ((new tx script nIn nHashType).nIn + 1) % 2 ^ 32
      else tx.vout.length % 2 ^ 32) = (signedVout tx nIn nHashType).length := by
    simp only [new, beq_iff_eq, signedVout]
    split_ifs with hnone hsingle
    · rfl
    · have hlt : nIn.toNat < tx.vout.length := Nat.lt_of_not_le fun hle => hout ⟨hsingle, hle⟩
      rw [List.getElem?_eq_getElem hlt, List.length_append, List.length_replicate,
        Nat.mod_eq_of_lt (by omega)]
      rfl
    · rw [Nat.mod_eq_of_lt hvout]
  simp only [serialize, htx, hInputs, hOutputs, serializeVin_eq happend hnil h hcount,
    serializeVout_eq happend hnil, Option.bind_eq_bind, Option.bind_some, serializeInt32, serWriteData,
    serializeCompactSize_eq happend, serializeUInt32, happend, signedTransaction, CTransaction.bytes,
    vectorBytes, List.append_assoc]
  rfl

end

end CTransactionSignatureSerializer

/-! ## The copy -/

section

variable {scriptCode : CScript} {ops : List (UInt8 × Bytes)} {tx : CTransaction}
  {nIn nHashType : UInt32}

theorem signatureHashCopy_eq {txTmp : CTransaction} (hin : nIn.toNat < txTmp.vin.length) :
    signatureHashCopy txTmp nIn nHashType = some (.hashOf (CTransaction.bytes { txTmp with
      vin := if nHashType &&& SIGHASH_ANYONECANPAY ≠ 0 then txTmp.vin[nIn.toNat]?.toList
        else txTmp.vin } ++ uint32Bytes nHashType)) := by
  rw [signatureHashCopy]
  split_ifs with hanyone
  · have hfirst : ∀ txin, (txTmp.vin.set 0 txin).take 1 = [txin] := fun txin => by
      cases hv : txTmp.vin with
      | nil =>
        rw [hv] at hin
        exact absurd hin (Nat.not_lt_zero _)
      | cons a v => rfl
    simp only [List.getElem?_eq_getElem hin, Option.bind_eq_bind, Option.bind_some, hfirst,
      CTransaction.serialize_stream, Option.toList_some]
    rfl
  · simp only [Option.bind_eq_bind, Option.bind_some, CTransaction.serialize_stream]
    rfl

/-- Blanking all scripts and then setting one. -/
theorem modify_mapIdx_blank (code : CScript) (vin : List CTxIn) :
    (vin.mapIdx fun _ txin => { txin with scriptSig := [] }).modify nIn.toNat
      (fun txin => { txin with scriptSig := code }) =
        vin.mapIdx (signedInput code nIn.toNat false) := by
  refine List.ext_getElem? fun i => ?_
  rw [List.getElem?_modify, List.getElem?_mapIdx, List.getElem?_mapIdx]
  cases vin[i]? with
  | none => rfl
  | some txin =>
    by_cases hi : nIn.toNat = i
    · simp [hi, signedInput]
    · simp [hi, Ne.symm hi, signedInput]

theorem mapIdx_updateOthers (code : CScript) (vin : List CTxIn) :
    (vin.mapIdx (signedInput code nIn.toNat false)).mapIdx
      (fun i txin => if i ≠ nIn.toNat then { txin with nSequence := 0 } else txin) =
        vin.mapIdx (signedInput code nIn.toNat true) := by
  refine List.ext_getElem? fun i => ?_
  rw [List.getElem?_mapIdx, List.getElem?_mapIdx, List.getElem?_mapIdx]
  cases vin[i]? with
  | none => rfl
  | some txin =>
    by_cases hi : i = nIn.toNat
    · simp [hi, signedInput]
    · simp [hi, signedInput]

/-- The outputs before the one at the index are nulled, and those after it are dropped. -/
theorem mapIdx_take_outputs {vout : List CTxOut} {n : Nat} (h : n < vout.length) :
    ((vout.take (n + 1)).mapIdx fun i out => if i < n then .null else out) =
      List.replicate n .null ++ vout[n]?.toList := by
  refine List.ext_getElem? fun i => ?_
  rw [List.getElem?_mapIdx, List.getElem?_take, List.getElem?_eq_getElem h]
  rcases Nat.lt_trichotomy i n with hlt | rfl | hgt
  · rw [if_pos (by omega), List.getElem?_eq_getElem (hlt.trans h),
      List.getElem?_append_left (by rwa [List.length_replicate]), List.getElem?_replicate_of_lt hlt,
      Option.map_some, if_pos hlt]
  · rw [if_pos (by omega), List.getElem?_eq_getElem h,
      List.getElem?_append_right (by rw [List.length_replicate]), List.length_replicate, Nat.sub_self,
      Option.map_some, if_neg (lt_irrefl _)]
    rfl
  · rw [if_neg (by omega), List.getElem?_eq_none]
    · rfl
    · rw [List.length_append, List.length_replicate, Option.toList_some, List.length_singleton]
      omega

/-- The copy is the transaction that is signed. -/
theorem signatureHashOld_eq (h : Parsed scriptCode ops) (hvin : tx.vin.length < 2 ^ 32) :
    signatureHashOld scriptCode tx nIn nHashType =
      some (if SignsOne tx nIn nHashType then .one else .hashOf
        ((signedTransaction (removeCodeSeparators ops) tx nIn nHashType).bytes ++
          uint32Bytes nHashType)) := by
  have hdelete : findAndDelete scriptCode [OP_CODESEPARATOR] = removeCodeSeparators ops :=
    findAndDelete_codeSeparators h (Nat.le_refl _)
  have heach : ∀ (body : Nat → CTxIn → CTxIn) (v : List CTxIn), v.length = tx.vin.length →
      forEach body v = some (v.mapIdx body) := fun body v hv => if_pos (hv ▸ hvin)
  have hlength : ∀ f : Nat → CTxIn → CTxIn, (tx.vin.mapIdx f).length = tx.vin.length :=
    fun f => List.length_mapIdx
  unfold signatureHashOld
  by_cases hrange : tx.vin.length ≤ nIn.toNat
  · rw [if_pos hrange, if_pos (.inl hrange)]
  rw [if_neg hrange]
  have hin : ∀ f : Nat → CTxIn → CTxIn, nIn.toNat < (tx.vin.mapIdx f).length := fun f => by
    rw [hlength]
    exact Nat.not_le.mp hrange
  simp only [hdelete, heach _ tx.vin rfl, Option.bind_eq_bind, Option.bind_some, modify_mapIdx_blank,
    heach _ _ (hlength _), mapIdx_updateOthers]
  have hne : SIGHASH_NONE ≠ SIGHASH_SINGLE := by decide
  by_cases hnone : nHashType &&& 0x1f = SIGHASH_NONE
  · have hupdate : updatesOthers nHashType = true := by
      rw [updatesOthers, hnone]
      rfl
    have hone : ¬ SignsOne tx nIn nHashType := fun h1 =>
      h1.elim hrange fun h2 => hne (hnone.symm.trans h2.1)
    rw [if_pos hnone, signatureHashCopy_eq (hin _), if_neg hone, signedTransaction, signedVin,
      signedVout, if_pos hnone, hupdate]
  rw [if_neg hnone]
  by_cases hsingle : nHashType &&& 0x1f = SIGHASH_SINGLE
  · have hupdate : updatesOthers nHashType = true := by
      rw [updatesOthers, hsingle]
      rfl
    rw [if_pos hsingle]
    by_cases hout : tx.vout.length ≤ nIn.toNat
    · rw [if_pos hout, if_pos (.inr ⟨hsingle, hout⟩)]
    · have hone : ¬ SignsOne tx nIn nHashType := fun h1 => h1.elim hrange fun h2 => hout h2.2
      rw [if_neg hout, Nat.mod_eq_of_lt (by omega), mapIdx_take_outputs (Nat.not_le.mp hout),
        signatureHashCopy_eq (hin _), if_neg hone, signedTransaction, signedVin, signedVout,
        if_neg hnone, if_pos hsingle, hupdate]
  · have hupdate : updatesOthers nHashType = false := by
      rw [updatesOthers, beq_eq_false_iff_ne.mpr hsingle, beq_eq_false_iff_ne.mpr hnone]
      rfl
    have hone : ¬ SignsOne tx nIn nHashType := fun h1 => h1.elim hrange fun h2 => hsingle h2.1
    rw [if_neg hsingle, signatureHashCopy_eq (hin _), if_neg hone, signedTransaction, signedVin,
      signedVout, if_neg hnone, if_neg hsingle, hupdate]

end

/-! ## The serializer and the copy -/

/-- Where there are fewer than `2 ^ 32` inputs, outputs and code separators, `SignatureHash` is the
hash of the transaction that is signed, followed by the hash type, and agrees with
`SignatureHashOld`. -/
theorem signatureHash_exact {scriptCode : CScript} {ops : List (UInt8 × Bytes)}
    (hparse : parseOps scriptCode.length scriptCode = some ops)
    (hcount : ops.countP isCodeSeparator < 2 ^ 32) {tx : CTransaction} (hvin : tx.vin.length < 2 ^ 32)
    (hvout : tx.vout.length < 2 ^ 32) (nIn nHashType : UInt32) :
    signatureHash scriptCode tx nIn nHashType =
      some (if SignsOne tx nIn nHashType then .one else .hashOf
        ((signedTransaction (removeCodeSeparators ops) tx nIn nHashType).bytes ++
          uint32Bytes nHashType)) ∧
    signatureHash scriptCode tx nIn nHashType = signatureHashOld scriptCode tx nIn nHashType := by
  have h := parsed_of_parseOps hparse
  have hexact : signatureHash scriptCode tx nIn nHashType =
      some (if SignsOne tx nIn nHashType then .one else .hashOf
        ((signedTransaction (removeCodeSeparators ops) tx nIn nHashType).bytes ++
          uint32Bytes nHashType)) := by
    rw [signatureHash]
    by_cases hone : SignsOne tx nIn nHashType
    · rw [if_pos hone]
      split_ifs with hrange hsingle
      · rfl
      · rfl
      · exact absurd hone (not_or.mpr ⟨hrange, hsingle⟩)
    · rw [if_neg hone, if_neg fun hrange => hone (.inl hrange),
        if_neg fun hsingle => hone (.inr hsingle)]
      simp only [CTransactionSignatureSerializer.serialize_eq streamWrite_append List.append_nil h
        hcount hvin hvout hone, Option.bind_eq_bind, Option.bind_some]
      rfl
  exact ⟨hexact, by rw [hexact, signatureHashOld_eq h hvin]⟩

/-- Two inputs and two outputs. -/
def signedSpend : CTransaction :=
  ⟨1, [⟨⟨1, 0⟩, [0x51], 7⟩, ⟨⟨2, 1⟩, [0x52], 8⟩], [⟨5, [0x53]⟩, ⟨6, [0x54]⟩], 9⟩

/-- The second input, with `SIGHASH_SINGLE`, and `OP_1 OP_CODESEPARATOR OP_CHECKSIG`. -/
theorem signatureHash_exact_sample :
    signatureHash [0x51, 0xAB, 0xAC] signedSpend 1 SIGHASH_SINGLE =
      some (.hashOf ((CTransaction.mk 1 [⟨⟨1, 0⟩, [], 0⟩, ⟨⟨2, 1⟩, [0x51, 0xAC], 8⟩]
        [.null, ⟨6, [0x54]⟩] 9).bytes ++ uint32Bytes SIGHASH_SINGLE)) ∧
      signatureHash [0x51, 0xAB, 0xAC] signedSpend 1 SIGHASH_SINGLE =
        signatureHashOld [0x51, 0xAB, 0xAC] signedSpend 1 SIGHASH_SINGLE := by
  obtain ⟨ops, hops⟩ : ∃ ops : List (UInt8 × Bytes),
    ops = [(0x51, [0x51]), (0xAB, [0xAB]), (0xAC, [0xAC])] := ⟨_, rfl⟩
  have hparse : parseOps 3 [0x51, 0xAB, 0xAC] = some ops := by
    rw [hops]
    decide
  have hcount : ops.countP isCodeSeparator < 2 ^ 32 := by
    rw [hops]
    decide
  have hsigned : signedTransaction (removeCodeSeparators ops) signedSpend 1 SIGHASH_SINGLE =
      ⟨1, [⟨⟨1, 0⟩, [], 0⟩, ⟨⟨2, 1⟩, [0x51, 0xAC], 8⟩], [.null, ⟨6, [0x54]⟩], 9⟩ := by
    rw [hops]
    decide
  have hexact := @signatureHash_exact [0x51, 0xAB, 0xAC] ops hparse hcount signedSpend (by decide)
    (by decide) 1 SIGHASH_SINGLE
  rwa [if_neg (by decide), hsigned] at hexact

/-- With `2 ^ 32` inputs, `nInputs` is zero. -/
theorem signatureHash_wrapped : ¬ ∀ (scriptCode : CScript) (ops : List (UInt8 × Bytes))
    (tx : CTransaction) (nIn nHashType : UInt32), parseOps scriptCode.length scriptCode = some ops →
    signatureHash scriptCode tx nIn nHashType =
      some (if SignsOne tx nIn nHashType then .one else .hashOf
        ((signedTransaction (removeCodeSeparators ops) tx nIn nHashType).bytes ++
          uint32Bytes nHashType)) := by
  intro hall
  obtain ⟨vin, hvin⟩ : ∃ vin : List CTxIn, vin.length = 2 ^ 32 :=
    ⟨List.replicate (2 ^ 32) ⟨⟨0, 0⟩, [], 0⟩, List.length_replicate⟩
  have hrange : ¬ vin.length ≤ (0 : UInt32).toNat := by
    rw [hvin]
    decide
  have hsingle : ¬ SIGHASH_ALL &&& 0x1f = SIGHASH_SINGLE := by decide
  have hone : ¬ SignsOne ⟨1, vin, [], 0⟩ 0 SIGHASH_ALL :=
    not_or.mpr ⟨hrange, fun h => hsingle h.1⟩
  have hrun := hall [] [] ⟨1, vin, [], 0⟩ 0 SIGHASH_ALL rfl
  have hshort : signatureHash [] ⟨1, vin, [], 0⟩ 0 SIGHASH_ALL =
      some (.hashOf [1, 0, 0, 0, 0, 0, 0, 0, 0, 0, 1, 0, 0, 0]) := by
    rw [signatureHash, if_neg hrange, if_neg fun h => hsingle h.1]
    simp only [CTransactionSignatureSerializer.serialize, CTransactionSignatureSerializer.new, hvin]
    rfl
  rw [hshort, if_neg hone, Option.some.injEq, SignatureDigest.hashOf.injEq] at hrun
  have hlen := congrArg List.length hrun
  have hsize : (writeCompactSize vin.length).length = 9 := by
    rw [hvin]
    decide
  simp only [signedTransaction, CTransaction.bytes, vectorBytes, List.length_append] at hlen
  have hsigned : (signedVin (removeCodeSeparators []) ⟨1, vin, [], 0⟩ 0 SIGHASH_ALL).length =
      vin.length := by
    rw [signedVin, if_neg (by decide), List.length_mapIdx]
  rw [hsigned, hsize] at hlen
  simp only [List.length_cons, List.length_nil, int32Bytes, uint32Bytes, length_leBytes] at hlen
  omega

end GC
