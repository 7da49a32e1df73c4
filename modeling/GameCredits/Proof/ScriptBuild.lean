import GameCredits.Model.ScriptBuild
import GameCredits.Proof.ScriptNum

/-!
# Scripts that are built and read

The opcode and the size in front of an operand are read back whatever comes after them
(`Piece.readHead_bytes`), so no piece of a script begins another (`Piece.parsed_of_append`). The
operand is read back where the bytes that are left are enough of them in `unsigned int`, to which
`GetOp2` casts their number; `Fits` says so of every piece, and holds of all scripts below 4 GiB.
-/

namespace GC

open Framework

/-! ## Opcode and size -/

/-- The opcode at the start, the size of its operand, and what comes after them. -/
def readHead : Bytes → Option (UInt8 × Nat × Bytes)
  | [] => none
  | opcode :: pc =>
    if opcode.toNat < OP_PUSHDATA1 then some (opcode, opcode.toNat, pc)
    else if opcode.toNat = OP_PUSHDATA1 then
      if pc.length < 1 then none else some (opcode, leNat (pc.take 1), pc.drop 1)
    else if opcode.toNat = OP_PUSHDATA2 then
      if pc.length < 2 then none else some (opcode, leNat (pc.take 2), pc.drop 2)
    else if opcode.toNat = OP_PUSHDATA4 then
      if pc.length < 4 then none else some (opcode, leNat (pc.take 4), pc.drop 4)
    else some (opcode, 0, pc)

theorem getOp_eq (pc : Bytes) :
    getOp pc = (readHead pc).bind fun head => pushOperand head.1 head.2.1 head.2.2 := by
  cases pc with
  | nil => rfl
  | cons opcode pc =>
    rw [getOp, readHead]
    split_ifs
    iterate 7 rfl
    · rw [Option.bind_some, pushOperand, if_neg (Nat.not_lt_zero _)]
      rfl

/-- The opcode that pushes data. -/
def pushOpcode (b : Bytes) : UInt8 :=
  if b.length < OP_PUSHDATA1 then UInt8.ofNat b.length
  else if b.length ≤ 0xff then 0x4C
  else if b.length ≤ 0xffff then 0x4D
  else 0x4E

theorem pushOpcode_le (b : Bytes) : (pushOpcode b).toNat ≤ OP_PUSHDATA4 := by
  unfold pushOpcode
  split_ifs with h
  · unfold OP_PUSHDATA1 at h
    rw [UInt8.toNat_ofNat_of_lt' (show b.length < 256 by omega)]
    exact h.le.trans (by decide)
  · decide
  · decide
  · decide

theorem pushOpcode_small {b : Bytes} (h : b.length < OP_PUSHDATA1) :
    (pushOpcode b).toNat = b.length := by
  rw [pushOpcode, if_pos h]
  unfold OP_PUSHDATA1 at h
  exact UInt8.toNat_ofNat_of_lt' (show b.length < 256 by omega)

theorem readHead_opcode {opcode : UInt8} (h : OP_PUSHDATA4 < opcode.toNat) (rest : Bytes) :
    readHead (opcode :: rest) = some (opcode, 0, rest) := by
  have h₁ : OP_PUSHDATA1 = 0x4C := rfl
  have h₂ : OP_PUSHDATA2 = 0x4D := rfl
  have h₄ : OP_PUSHDATA4 = 0x4E := rfl
  rw [readHead, if_neg (by omega), if_neg (by omega), if_neg (by omega), if_neg (by omega)]

theorem take_leBytes (k n : Nat) (rest : Bytes) : (leBytes k n ++ rest).take k = leBytes k n :=
  List.take_left' (length_leBytes k n)

theorem drop_leBytes (k n : Nat) (rest : Bytes) : (leBytes k n ++ rest).drop k = rest :=
  List.drop_left' (length_leBytes k n)

/-- The size of data is read as it was written. -/
theorem readHead_pushData {b : Bytes} (h : b.length < 2 ^ 32) (rest : Bytes) :
    readHead (pushData b ++ rest) = some (pushOpcode b, b.length, b ++ rest) := by
  -- each form with a field of `k` bytes for the size
  have hsized : ∀ k, b.length < 256 ^ k →
      ¬ (leBytes k b.length ++ (b ++ rest)).length < k ∧
        leNat ((leBytes k b.length ++ (b ++ rest)).take k) = b.length ∧
        (leBytes k b.length ++ (b ++ rest)).drop k = b ++ rest := fun k hk => by
    refine ⟨?_, ?_, drop_leBytes _ _ _⟩
    · rw [List.length_append, length_leBytes]
      omega
    · rw [take_leBytes, leNat_leBytes, Nat.mod_eq_of_lt hk]
  unfold pushData pushOpcode
  split_ifs with hdirect hone htwo
  · have hop : (UInt8.ofNat b.length).toNat = b.length := by
      unfold OP_PUSHDATA1 at hdirect
      exact UInt8.toNat_ofNat_of_lt' (show b.length < 256 by omega)
    rw [List.cons_append, readHead, hop, if_pos hdirect]
  · obtain ⟨hlen, htake, hdrop⟩ := hsized 1 (by omega)
    have hbyte : UInt8.ofNat b.length :: b ++ rest = leBytes 1 b.length ++ (b ++ rest) := by
      rw [leBytes, leBytes, Nat.mod_eq_of_lt (by omega)]
      rfl
    rw [List.cons_append, hbyte]
    show (if (leBytes 1 b.length ++ (b ++ rest)).length < 1 then none else
      some ((0x4C : UInt8), leNat ((leBytes 1 b.length ++ (b ++ rest)).take 1),
        (leBytes 1 b.length ++ (b ++ rest)).drop 1)) = _
    rw [if_neg hlen, htake, hdrop]
  · obtain ⟨hlen, htake, hdrop⟩ := hsized 2 (by omega)
    rw [List.cons_append, List.append_assoc]
    show (if (leBytes 2 b.length ++ (b ++ rest)).length < 2 then none else
      some ((0x4D : UInt8), leNat ((leBytes 2 b.length ++ (b ++ rest)).take 2),
        (leBytes 2 b.length ++ (b ++ rest)).drop 2)) = _
    rw [if_neg hlen, htake, hdrop]
  · obtain ⟨hlen, htake, hdrop⟩ := hsized 4 (by omega)
    rw [List.cons_append, List.append_assoc]
    show (if (leBytes 4 b.length ++ (b ++ rest)).length < 4 then none else
      some ((0x4E : UInt8), leNat ((leBytes 4 b.length ++ (b ++ rest)).take 4),
        (leBytes 4 b.length ++ (b ++ rest)).drop 4)) = _
    rw [if_neg hlen, htake, hdrop]

/-! ## Operands -/

theorem pushOperand_append {opcode : UInt8} {b rest : Bytes}
    (h : b.length ≤ (b ++ rest).length % 2 ^ 32) :
    pushOperand opcode b.length (b ++ rest) = some (opcode, b, rest) := by
  rw [pushOperand, if_neg (Nat.not_lt.mpr h), List.take_left, List.drop_left]

theorem pushOperand_append_none {opcode : UInt8} {b rest : Bytes}
    (h : ¬ b.length ≤ (b ++ rest).length % 2 ^ 32) :
    pushOperand opcode b.length (b ++ rest) = none := by
  rw [pushOperand, if_pos (Nat.not_le.mp h)]

theorem getOp_head {c opcode : UInt8} {pc pc' vch : Bytes}
    (h : getOp (c :: pc) = some (opcode, vch, pc')) : opcode = c := by
  rw [getOp_eq] at h
  obtain ⟨⟨op, nSize, rest⟩, hhead, hpush⟩ := Option.bind_eq_some_iff.mp h
  have hop : op = c := by
    rw [readHead] at hhead
    split_ifs at hhead <;>
    · cases hhead
      rfl
  simp only [pushOperand] at hpush
  split_ifs at hpush
  cases hpush
  exact hop

theorem getOp_opcode {opcode : UInt8} (h : OP_PUSHDATA4 < opcode.toNat) (rest : Bytes) :
    getOp (opcode :: rest) = some (opcode, [], rest) := by
  rw [getOp_eq, readHead_opcode h]
  exact pushOperand_append (b := []) (Nat.zero_le _)

/-- Data is read back where the whole rest of the script is below 4 GiB. -/
theorem getOp_pushData {b rest : Bytes} (h : (b ++ rest).length < 2 ^ 32) :
    getOp (pushData b ++ rest) = some (pushOpcode b, b, rest) := by
  have hb : b.length ≤ (b ++ rest).length := by
    rw [List.length_append]
    exact Nat.le_add_right _ _
  rw [getOp_eq, readHead_pushData (hb.trans_lt h)]
  exact pushOperand_append (by rwa [Nat.mod_eq_of_lt h])

theorem length_lt_pushData (b : Bytes) : b.length < (pushData b).length := by
  unfold pushData
  split_ifs <;> simp only [List.length_cons, List.length_append] <;> omega

theorem length_operand_lt {b rest : Bytes} {n : Nat} (h : (pushData b ++ rest).length < n) :
    (b ++ rest).length < n := by
  have := length_lt_pushData b
  rw [List.length_append] at h ⊢
  omega

theorem length_rest_lt {b rest : Bytes} {n : Nat} (h : (pushData b ++ rest).length < n) :
    rest.length < n := by
  rw [List.length_append] at h
  omega

/-! ## Pieces -/

namespace Piece

/-- What `operator<<` takes: vectors shorter than `2 ^ 32`, the numbers of `int64_t`, and opcodes that
have no operand. -/
def Allowed : Piece → Prop
  | .data b => b.length < 2 ^ 32
  | .number n => -2 ^ 63 ≤ n ∧ n < 2 ^ 63
  | .opcode op => OP_PUSHDATA4 < op.toNat

/-- What `GetOp` returns for a piece: the opcode, and the bytes that it pushes. -/
def parsed : Piece → UInt8 × Bytes
  | .data b => (pushOpcode b, b)
  | .number n =>
    if n = -1 ∨ 1 ≤ n ∧ n ≤ 16 then (UInt8.ofNat (n + 0x50).toNat, [])
    else if n = 0 then (0, [])
    else (pushOpcode (scriptNumBytes n), scriptNumBytes n)
  | .opcode op => (op, [])

variable {p q : Piece} {pieces : List Piece} {rest rest' : Bytes}

theorem length_scriptNumBytes_le {n : Int} (h : n.natAbs < 256 ^ 8) :
    (scriptNumBytes n).length ≤ 9 := by
  have habs : (absBytes 8 n.natAbs).length ≤ 8 := length_absBytes_le h
  unfold scriptNumBytes
  simp only
  split
  · exact Nat.zero_le _
  · split_ifs with h80 hneg hneg
    · rw [List.length_append, List.length_singleton]
      omega
    · rw [List.length_append, List.length_singleton]
      omega
    · rw [List.length_append, List.length_dropLast, List.length_singleton]
      omega
    · omega

theorem toNat_smallInt {n : Int} (h : n = -1 ∨ 1 ≤ n ∧ n ≤ 16) :
    ((UInt8.ofNat (n + 0x50).toNat).toNat : Int) = n + 0x50 := by
  rw [UInt8.toNat_ofNat_of_lt' (show (n + 0x50).toNat < 256 by omega)]
  omega

/-- The opcode and the size of a piece are read back, whatever comes after it. -/
theorem readHead_bytes (h : p.Allowed) (rest : Bytes) : readHead (p.bytes ++ rest) =
    some (p.parsed.1, p.parsed.2.length, p.parsed.2 ++ rest) := by
  cases p with
  | data b => exact readHead_pushData h rest
  | opcode op => exact readHead_opcode h rest
  | number n =>
    obtain ⟨hlo, hhi⟩ := h
    rw [bytes, pushInt, parsed]
    split_ifs with hsmall hzero
    · have := toNat_smallInt hsmall
      refine readHead_opcode ?_ rest
      rw [OP_PUSHDATA4]
      omega
    · rfl
    · have hlen := length_scriptNumBytes_le (n := n) (by omega)
      exact readHead_pushData (by omega) rest

/-- No piece begins another. -/
theorem parsed_of_append (hp : p.Allowed) (hq : q.Allowed)
    (h : p.bytes ++ rest = q.bytes ++ rest') : p.parsed = q.parsed := by
  have hread := (readHead_bytes hp rest).symm.trans
    ((congrArg readHead h).trans (readHead_bytes hq rest'))
  simp only [Option.some.injEq, Prod.mk.injEq] at hread
  obtain ⟨hop, hlen, hdata⟩ := hread
  exact Prod.ext hop (List.append_inj hdata hlen).1

/-- `GetOp` at a piece. -/
theorem getOp_bytes (h : p.Allowed) (rest : Bytes) : getOp (p.bytes ++ rest) =
    if p.parsed.2.length ≤ (p.parsed.2 ++ rest).length % 2 ^ 32
      then some (p.parsed.1, p.parsed.2, rest) else none := by
  rw [getOp_eq, readHead_bytes h, Option.bind_some]
  split_ifs with hfits
  · exact pushOperand_append hfits
  · exact pushOperand_append_none hfits

theorem length_readHead {pc pc' : Bytes} {opcode : UInt8} {nSize : Nat}
    (h : readHead pc = some (opcode, nSize, pc')) : pc'.length < pc.length := by
  cases pc with
  | nil => cases h
  | cons c pc =>
    rw [List.length_cons, Nat.lt_succ_iff]
    rw [readHead] at h
    split_ifs at h <;>
    · obtain ⟨-, -, rfl⟩ := h
      simp only [List.length_drop, Nat.sub_le, Nat.le_refl]

theorem length_operand (h : p.Allowed) (rest : Bytes) :
    (p.parsed.2 ++ rest).length < (p.bytes ++ rest).length := length_readHead (readHead_bytes h rest)

/-! ## Sequences of pieces -/

theorem buildScript_cons (p : Piece) (pieces : List Piece) :
    buildScript (p :: pieces) = p.bytes ++ buildScript pieces := by
  have hfold : ∀ script : Bytes, pieces.foldl (fun script piece => script ++ piece.bytes) script =
      script ++ buildScript pieces := by
    induction pieces with
    | nil => exact fun script => (List.append_nil script).symm
    | cons q pieces ih =>
      intro script
      rw [buildScript, List.foldl_cons, List.foldl_cons, ih, ih, List.nil_append, List.append_assoc]
  exact hfold p.bytes

/-- At each piece the number of bytes from its operand on, cast to `unsigned int`, does not fall below
the size of the operand. -/
def Fits : List Piece → Prop
  | [] => True
  | p :: pieces =>
    p.parsed.2.length ≤ (p.parsed.2 ++ buildScript pieces).length % 2 ^ 32 ∧ Fits pieces

theorem fits_of_length (h : ∀ p ∈ pieces, p.Allowed) (hlen : (buildScript pieces).length < 2 ^ 32) :
    Fits pieces := by
  induction pieces with
  | nil => trivial
  | cons p pieces ih =>
    have hp := length_operand (h p List.mem_cons_self) (buildScript pieces)
    rw [buildScript_cons] at hlen
    have hrest : (buildScript pieces).length < 2 ^ 32 := by
      rw [List.length_append] at hlen
      omega
    refine ⟨?_, ih (fun q hq => h q (List.mem_cons_of_mem _ hq)) hrest⟩
    rw [Nat.mod_eq_of_lt (hp.trans hlen), List.length_append]
    exact Nat.le_add_right _ _

theorem getOps_nil (len : Nat) : getOps len [] = ([], []) := by
  cases len <;> rfl

/-- The pieces are read back, up to the end of the script, exactly where they fit. -/
theorem getOps_buildScript (h : ∀ p ∈ pieces, p.Allowed) {len : Nat}
    (hlen : (buildScript pieces).length ≤ len) :
    getOps len (buildScript pieces) = (pieces.map parsed, []) ↔ Fits pieces := by
  induction pieces generalizing len with
  | nil => exact iff_of_true (getOps_nil len) trivial
  | cons p pieces ih =>
    have hp := h p List.mem_cons_self
    have hpos := length_operand hp (buildScript pieces)
    rw [buildScript_cons] at hlen ⊢
    rw [List.length_append] at hpos
    obtain ⟨len, rfl⟩ : ∃ n, len = n + 1 := ⟨len - 1, by omega⟩
    have ih : getOps len (buildScript pieces) = (pieces.map parsed, []) ↔ Fits pieces :=
      ih (fun q hq => h q (List.mem_cons_of_mem _ hq)) (by omega)
    rw [getOps, getOp_bytes hp, Fits, ← ih, List.map_cons]
    split_ifs with hfits
    · simp only [hfits, true_and, Prod.ext_iff, List.cons.injEq]
    · exact iff_of_false (fun heq => by cases heq) fun hf => hfits hf.1

end Piece

/-! ## Positions -/

/-- `GetOp2` has read within the script, and has what `op` says of the bytes from `pc` on. -/
structure GetOpRet.Matches (script : CScript) (pc : Nat) (r : GetOpRet)
    (op : Option (UInt8 × Bytes × Bytes)) : Prop where
  advance : pc ≤ r.pc
  inside : r.pc ≤ script.length
  result : op = if r.fRet then some (r.opcodeRet, r.vchRet, script.drop r.pc) else none

section

variable {script : CScript} {pc : Nat}

theorem GetOpRet.Matches.failed (h : pc ≤ script.length) :
    Matches script pc { fRet := false, pc } none := ⟨Nat.le_refl _, h, rfl⟩

theorem readAt_eq {k : Nat} (h : pc + k ≤ script.length) :
    readAt script pc k = some ((script.drop pc).take k) := if_pos h

theorem length_drop_cast (h : pc ≤ script.length) :
    (script.length : Int) - pc = ((script.drop pc).length : Nat) := by
  rw [List.length_drop]
  omega

/-- The operand is read only where the script has all of it: the cast can only lower what is left. -/
theorem getOperand_spec (h : pc ≤ script.length) (opcode : UInt8) (nSize : Nat) :
    ∃ r, getOperand script pc opcode nSize = some r ∧
      r.Matches script pc (pushOperand opcode nSize (script.drop pc)) := by
  have hcond : ((script.length : Int) - pc < 0 ∨
      (((script.length : Int) - pc) % 2 ^ 32).toNat < nSize) ↔
        (script.drop pc).length % 2 ^ 32 < nSize := by
    rw [length_drop_cast h]
    omega
  simp only [getOperand, hcond, pushOperand]
  split_ifs with hleft
  · exact ⟨_, rfl, .failed h⟩
  · have hmod := Nat.mod_le (script.drop pc).length (2 ^ 32)
    have hdrop : (script.drop pc).length = script.length - pc := List.length_drop
    have hinside : pc + nSize ≤ script.length := by omega
    rw [readAt_eq hinside]
    exact ⟨_, rfl, Nat.le_add_right _ _, hinside, by rw [if_pos rfl, List.drop_drop]⟩

theorem getSized_spec (h : pc ≤ script.length) (opcode : UInt8) (k : Nat) :
    ∃ r, getSized script pc opcode k = some r ∧ r.Matches script pc
      (if (script.drop pc).length < k then none
        else pushOperand opcode (leNat ((script.drop pc).take k)) ((script.drop pc).drop k)) := by
  have hdrop : (script.drop pc).length = script.length - pc := List.length_drop
  rw [getSized, length_drop_cast h]
  simp only [Nat.cast_lt]
  split_ifs with hleft
  · exact ⟨_, rfl, .failed h⟩
  · have hinside : pc + k ≤ script.length := by omega
    rw [readAt_eq hinside, List.drop_drop]
    obtain ⟨r, hr, hmatch⟩ := getOperand_spec hinside opcode (leNat ((script.drop pc).take k))
    exact ⟨r, hr, (Nat.le_add_right _ _).trans hmatch.advance, hmatch.inside, hmatch.result⟩

/-- `GetOp2` never reads outside of the script, gets what `getOp` gets from the bytes that are left,
and goes on where it returns true. -/
theorem getOp2_spec (h : pc ≤ script.length) : ∃ r, getOp2 script pc = some r ∧
    r.Matches script pc (getOp (script.drop pc)) ∧ (r.fRet = true → pc < r.pc) := by
  rcases Nat.eq_or_lt_of_le h with rfl | hlt
  · rw [getOp2, if_pos (Nat.le_refl _), List.drop_length]
    exact ⟨_, rfl, .failed h, fun hret => by cases hret⟩
  · have hread : ∀ {x : Option GetOpRet} {op : Option (UInt8 × Bytes × Bytes)},
        (∃ r, x = some r ∧ r.Matches script (pc + 1) op) →
        ∃ r, x = some r ∧ r.Matches script pc op ∧ (r.fRet = true → pc < r.pc) := by
      rintro _ _ ⟨r, hr, hmatch⟩
      exact ⟨r, hr, ⟨(Nat.le_succ pc).trans hmatch.advance, hmatch.inside, hmatch.result⟩,
        fun _ => hmatch.advance⟩
    rw [getOp2, if_neg (Nat.not_le.mpr hlt), if_neg (by omega), List.getElem?_eq_getElem hlt,
      List.drop_eq_getElem_cons hlt, getOp]
    refine hread ?_
    simp only [Option.bind_eq_bind, Option.bind_some]
    generalize script[pc] = opcode
    have h₁ : OP_PUSHDATA1 = 0x4C := rfl
    have h₂ : OP_PUSHDATA2 = 0x4D := rfl
    have h₄ : OP_PUSHDATA4 = 0x4E := rfl
    by_cases hdirect : opcode.toNat < OP_PUSHDATA1
    · rw [if_pos (by omega), if_pos hdirect, if_pos hdirect]
      exact getOperand_spec hlt opcode _
    by_cases hone : opcode.toNat = OP_PUSHDATA1
    · rw [if_pos (by omega), if_neg hdirect, if_pos hone, if_neg hdirect, if_pos hone]
      exact getSized_spec hlt opcode 1
    by_cases htwo : opcode.toNat = OP_PUSHDATA2
    · rw [if_pos (by omega), if_neg hdirect, if_neg hone, if_pos htwo, if_neg hdirect, if_neg hone,
        if_pos htwo]
      exact getSized_spec hlt opcode 2
    by_cases hfour : opcode.toNat = OP_PUSHDATA4
    · rw [if_pos (by omega), if_neg hdirect, if_neg hone, if_neg htwo, if_pos hfour, if_neg hdirect,
        if_neg hone, if_neg htwo, if_pos hfour]
      exact getSized_spec hlt opcode 4
    · rw [if_neg (by omega), if_neg hdirect, if_neg hone, if_neg htwo, if_neg hfour]
      exact ⟨_, rfl, Nat.le_refl _, hlt, rfl⟩

end

/-! ## Heights -/

/-- The number that an opcode and its operand stand for. -/
def Piece.value (opcode : UInt8) (vch : Bytes) : Int :=
  if 0x4F ≤ opcode.toNat then opcode.toNat - 0x50 else setVch vch

theorem Piece.value_number {n : Int} (h : n.natAbs < 2 ^ 63) :
    value (number n).parsed.1 (number n).parsed.2 = n := by
  rw [parsed]
  split_ifs with hsmall hzero
  · have := toNat_smallInt hsmall
    show value (UInt8.ofNat (n + 0x50).toNat) [] = n
    rw [value, if_pos (by omega)]
    omega
  · rw [hzero]
    rfl
  · have hlen : (scriptNumBytes n).length ≤ 9 := length_scriptNumBytes_le (by omega)
    have hop := pushOpcode_small (b := scriptNumBytes n) (hlen.trans_lt (by decide))
    show value (pushOpcode (scriptNumBytes n)) (scriptNumBytes n) = n
    rw [value, if_neg (by omega)]
    exact setVch_scriptNumBytes h

theorem coinbaseHeightOk_iff {nHeight : Int} {scriptSig : CScript} :
    coinbaseHeightOk nHeight scriptSig = true ↔ ∃ rest, pushInt nHeight ++ rest = scriptSig := by
  have hexpect : buildScript [.number nHeight] = pushInt nHeight := by
    rw [Piece.buildScript_cons]
    exact List.append_nil _
  simp only [coinbaseHeightOk, hexpect, Bool.not_or, Bool.not_not, Bool.and_eq_true,
    Bool.not_eq_true', decide_eq_false_iff_not, beq_iff_eq]
  constructor
  · rintro ⟨-, htake⟩
    refine ⟨scriptSig.drop (pushInt nHeight).length, ?_⟩
    nth_rewrite 1 [← htake]
    exact List.take_append_drop _ _
  · rintro ⟨rest, rfl⟩
    exact ⟨by rw [List.length_append]; omega, List.take_left⟩

theorem coinbaseHeightOk_inj {m n : Int} {scriptSig : CScript} (hm : m.natAbs < 2 ^ 63)
    (hn : n.natAbs < 2 ^ 63) (h : coinbaseHeightOk m scriptSig = true)
    (h' : coinbaseHeightOk n scriptSig = true) : m = n := by
  obtain ⟨rest, hrest⟩ := coinbaseHeightOk_iff.mp h
  obtain ⟨rest', hrest'⟩ := coinbaseHeightOk_iff.mp h'
  have hparsed : (Piece.number m).parsed = (Piece.number n).parsed :=
    Piece.parsed_of_append ⟨by omega, by omega⟩ ⟨by omega, by omega⟩ (hrest.trans hrest'.symm)
  rw [← Piece.value_number hm, hparsed, Piece.value_number hn]

/-! ## Building and reading -/

/-- What is built is read back exactly where all pieces fit, and all scripts below 4 GiB do; no piece
begins another; `GetOp2` stays inside of the script and goes on; a coinbase has one height. -/
theorem script_inverse :
    (∀ pieces : List Piece, (∀ p ∈ pieces, p.Allowed) →
      (getOps (buildScript pieces).length (buildScript pieces) = (pieces.map Piece.parsed, []) ↔
        Piece.Fits pieces) ∧
      ((buildScript pieces).length < 2 ^ 32 → Piece.Fits pieces)) ∧
    (∀ (p q : Piece) (script : CScript), p.Allowed → q.Allowed → p.bytes <+: script →
      q.bytes <+: script → p.parsed = q.parsed) ∧
    (∀ (script : CScript) pc, pc ≤ script.length → ∃ r, getOp2 script pc = some r ∧
      r.Matches script pc (getOp (script.drop pc)) ∧ (r.fRet = true → pc < r.pc)) ∧
    ∀ (scriptSig : CScript) (m n : Int), m.natAbs ≤ 2 ^ 31 → n.natAbs ≤ 2 ^ 31 →
      coinbaseHeightOk m scriptSig = true → coinbaseHeightOk n scriptSig = true → m = n := by
  refine ⟨fun pieces h => ⟨Piece.getOps_buildScript h (Nat.le_refl _), Piece.fits_of_length h⟩, ?_,
    fun script pc h => getOp2_spec h,
    fun scriptSig m n hm hn => coinbaseHeightOk_inj (by omega) (by omega)⟩
  rintro p q _ hp hq ⟨rest, rfl⟩ ⟨rest', h⟩
  exact Piece.parsed_of_append hp hq h.symm

/-- Two bytes, the number 17 and `OP_CHECKSIG`. -/
theorem script_inverse_sample :
    getOps 6 [2, 1, 2, 1, 17, 0xAC] = ([(2, [1, 2]), (1, [17]), (0xAC, [])], []) ∧
      (∃ r, getOp2 [2, 1, 2, 1, 17, 0xAC] 3 = some r ∧ r.pc = 5) ∧
      coinbaseHeightOk 1 [1, 17, 0] = false := by
  have hallowed : ∀ p ∈ [Piece.data [1, 2], .number 17, .opcode 0xAC], p.Allowed := by
    intro p hp
    simp only [List.mem_cons, List.not_mem_nil, or_false] at hp
    rcases hp with rfl | rfl | rfl
    · exact (by decide : 2 < 2 ^ 32)
    · exact (by decide : (-2 ^ 63 : Int) ≤ 17 ∧ (17 : Int) < 2 ^ 63)
    · exact (by decide : OP_PUSHDATA4 < (0xAC : UInt8).toNat)
  obtain ⟨hread, hfits⟩ := script_inverse.1 _ hallowed
  obtain ⟨r, hr, -, -⟩ := script_inverse.2.2.1 [2, 1, 2, 1, 17, 0xAC] 3 (by decide)
  have hpos : getOp2 [2, 1, 2, 1, 17, 0xAC] 3 = some ⟨true, 5, 1, [17]⟩ := by decide
  refine ⟨hread.mpr (hfits (by decide)), ⟨r, hr, by rw [hr] at hpos; cases hpos; rfl⟩, ?_⟩
  rw [Bool.eq_false_iff]
  intro h
  exact absurd (script_inverse.2.2.2 _ 17 1 (by decide) (by decide) (by decide) h) (by decide)

/-- One byte is pushed, and then so many that 4 GiB are left where the first operand is read. -/
theorem script_truncated : ¬ ∀ pieces : List Piece, (∀ p ∈ pieces, p.Allowed) →
    getOps (buildScript pieces).length (buildScript pieces) = (pieces.map Piece.parsed, []) := by
  intro hall
  obtain ⟨b, hb⟩ : ∃ b : Bytes, b.length = 2 ^ 32 - 6 := ⟨List.replicate (2 ^ 32 - 6) 0,
    List.length_replicate⟩
  have hallowed : ∀ p ∈ [Piece.data [0], .data b], p.Allowed := by
    intro p hp
    rcases List.mem_pair.mp hp with rfl | rfl
    · exact (by decide : 1 < 2 ^ 32)
    · show b.length < 2 ^ 32
      omega
  have hfits := (Piece.getOps_buildScript hallowed (Nat.le_refl _)).mp (hall _ hallowed)
  have hlen : ([0] ++ buildScript [.data b]).length = 2 ^ 32 := by
    have h₁ : OP_PUSHDATA1 = 0x4C := rfl
    rw [Piece.buildScript_cons, Piece.bytes, pushData, if_neg (by omega), if_neg (by omega),
      if_neg (by omega)]
    simp only [List.length_append, List.length_cons, length_leBytes, hb]
    rfl
  have hfirst : 1 ≤ ([0] ++ buildScript [.data b]).length % 2 ^ 32 := hfits.1
  rw [hlen] at hfirst
  exact absurd hfirst (by decide)

end GC
