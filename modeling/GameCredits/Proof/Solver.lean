import GameCredits.Model.Sign
import GameCredits.Proof.ScriptRun

/-!
# Classifying scripts

`Solver` compares a script with templates, opcode by opcode. The opcodes of a script are those that
`GetOp` reads (`Reads`, `reads_iff_getOps`); what a template accepts is said of them
(`matchTemplate_pubKey_iff`, `matchTemplate_pubKeyHash_iff`, `matchTemplate_multisig_iff`). The first
opcode of a script tells its type (`Pays.unique`), so the types that can be spent are told exactly
(`solver_iff`, `solver_classifies`).
-/

namespace GC

open Framework (Bytes)

/-! ## Scripts for hashes and small numbers -/

theorem pushData_hash (id : UInt160) : pushData id.val = 0x14 :: id.val := by
  rw [pushData, if_pos (by rw [id.property]; decide), id.property]
  rfl

theorem scriptID_eq (id : UInt160) :
    getScriptForDestination (.scriptID id) = OP_HASH160 :: 0x14 :: (id.val ++ [OP_EQUAL]) := by
  rw [getScriptForDestination, pushData_hash]
  rfl

theorem isPayToScriptHash_scriptID (id : UInt160) :
    isPayToScriptHash (getScriptForDestination (.scriptID id)) = true := by
  have hlast : (OP_HASH160 :: 0x14 :: (id.val ++ [OP_EQUAL]))[22]? = some OP_EQUAL := by
    show (id.val ++ [OP_EQUAL])[20]? = some OP_EQUAL
    rw [List.getElem?_append_right (by rw [id.property]), id.property]
    rfl
  have hlen : (OP_HASH160 :: 0x14 :: (id.val ++ [OP_EQUAL])).length = 23 := by
    rw [List.length_cons, List.length_cons, List.length_append, id.property]
    rfl
  rw [scriptID_eq, isPayToScriptHash, hlast, hlen]
  rfl

theorem encodeOpN_eq {k : Nat} (hk : 1 ≤ k) : encodeOpN k = UInt8.ofNat (0x50 + k) := by
  rw [encodeOpN, if_neg (by omega), OP_1]
  congr 1
  omega

theorem toNat_encodeOpN {k : Nat} (hk : 1 ≤ k) (hk' : k ≤ 16) : (encodeOpN k).toNat = 0x50 + k := by
  rw [encodeOpN_eq hk]
  exact UInt8.toNat_ofNat_of_lt' (show 0x50 + k < 256 by omega)

theorem getOp_encodeOpN {k : Nat} (hk : 1 ≤ k) (hk' : k ≤ 16) (rest : Bytes) :
    getOp (encodeOpN k :: rest) = some (encodeOpN k, [], rest) :=
  getOp_opcode (by rw [toNat_encodeOpN hk hk', OP_PUSHDATA4]; omega) rest

/-! ## The opcodes of a script -/

/-- `GetOp` reads the opcodes with their operands from `pc`, up to `rest`. -/
def Reads : (pc : Bytes) → List (UInt8 × Bytes) → (rest : Bytes) → Prop
  | pc, [], rest => pc = rest
  | pc, op :: ops, rest => ∃ pc', getOp pc = some (op.1, op.2, pc') ∧ Reads pc' ops rest

section

variable {pc rest : Bytes} {ops ops' : List (UInt8 × Bytes)}

theorem reads_append : Reads pc (ops ++ ops') rest ↔ ∃ mid, Reads pc ops mid ∧ Reads mid ops' rest := by
  induction ops generalizing pc with
  | nil => exact ⟨fun h => ⟨pc, rfl, h⟩, fun ⟨mid, hmid, h⟩ => hmid ▸ h⟩
  | cons op ops ih =>
    constructor
    · rintro ⟨pc', hop, h⟩
      obtain ⟨mid, hmid, hrest⟩ := ih.mp h
      exact ⟨mid, ⟨pc', hop, hmid⟩, hrest⟩
    · rintro ⟨mid, ⟨pc', hop, hmid⟩, hrest⟩
      exact ⟨pc', hop, ih.mpr ⟨mid, hmid, hrest⟩⟩

/-- These are the opcodes that a loop of `GetOp` gets. -/
theorem reads_iff_getOps {len : Nat} (hlen : pc.length ≤ len) :
    Reads pc ops [] ↔ getOps len pc = (ops, []) := by
  induction len generalizing pc ops with
  | zero =>
    obtain rfl := List.length_eq_zero_iff.mp (Nat.le_zero.mp hlen)
    cases ops with
    | nil => exact iff_of_true rfl rfl
    | cons op ops =>
      refine iff_of_false ?_ (fun h => by cases h)
      rintro ⟨_, hop, _⟩
      cases hop
  | succ len ih =>
    cases hop : getOp pc with
    | none =>
      rw [getOps, hop]
      cases ops with
      | nil => exact ⟨fun h => by rw [show pc = [] from h], fun h => (Prod.mk.inj h).2⟩
      | cons op ops =>
        refine iff_of_false ?_ (fun h => by cases h)
        rintro ⟨pc', hop', -⟩
        rw [hop] at hop'
        cases hop'
    | some next =>
      obtain ⟨opcode, vch, pc'⟩ := next
      have hlt := getOp_length hop
      rw [getOps, hop]
      cases ops with
      | nil =>
        refine iff_of_false (fun h => ?_) (fun h => by cases h)
        rw [show pc = [] from h] at hop
        cases hop
      | cons op ops =>
        have hrest : Reads pc' ops [] ↔ getOps len pc' = (ops, []) := ih (by omega)
        constructor
        · rintro ⟨pc₁, hop₁, h₁⟩
          rw [hop] at hop₁
          cases hop₁
          simp only [hrest.mp h₁]
        · intro h
          obtain ⟨hcons, hnil⟩ := Prod.mk.inj h
          obtain ⟨rfl, rfl⟩ := List.cons.inj hcons
          exact ⟨pc', hop, hrest.mpr (Prod.ext rfl hnil)⟩

/-- A small number, and an opcode above those that push data, have no operand. -/
theorem getOp_operand {opcode : UInt8} {vch pc' : Bytes} (h : getOp pc = some (opcode, vch, pc'))
    (hop : opcode = 0x00 ∨ OP_PUSHDATA4 < opcode.toNat) : vch = [] := by
  cases pc with
  | nil => cases h
  | cons c pc =>
    obtain rfl := getOp_head h
    rcases hop with rfl | hop
    · have hempty : getOp (0x00 :: pc) = some (0x00, [], pc) := rfl
      rw [hempty] at h
      exact (Prod.mk.inj (Prod.mk.inj (Option.some.inj h)).2).1.symm
    · rw [getOp_opcode hop] at h
      exact (Prod.mk.inj (Prod.mk.inj (Option.some.inj h)).2).1.symm

end

/-! ## One opcode of a template -/

section

variable {nMaxDatacarrierBytes len : Nat} {opcode1 opcode2 : UInt8} {pc1 rest2 vch : Bytes}
  {vSolutions vSolutions' more : List Bytes}

theorem matchTemplate_op (hop₁ : getOp pc1 = some (opcode1, vch1, rest1))
    (hop₂ : OP_PUSHDATA4 < opcode2.toNat) (hne : opcode2 ≠ OP_PUBKEYS) :
    matchTemplate nMaxDatacarrierBytes (len + 1) pc1 (opcode2 :: rest2) vSolutions =
      (matchOp nMaxDatacarrierBytes opcode1 opcode2 vch1 []).bind fun more =>
        matchTemplate nMaxDatacarrierBytes len rest1 rest2 (vSolutions ++ more) := by
  rw [matchTemplate, List.isEmpty_cons, Bool.and_false, if_neg Bool.false_ne_true, hop₁,
    getOp_opcode hop₂]
  simp only [Option.bind_eq_bind, Option.bind_some, if_neg hne]

theorem matchTemplate_end : matchTemplate nMaxDatacarrierBytes len [] [] vSolutions =
    some vSolutions := by
  cases len <;> rfl

theorem matchTemplate_end_iff : matchTemplate nMaxDatacarrierBytes len pc1 [] vSolutions =
    some vSolutions' ↔ pc1 = [] ∧ vSolutions = vSolutions' := by
  cases pc1 with
  | nil => rw [matchTemplate_end, Option.some_inj, and_iff_right rfl]
  | cons b pc1 =>
    refine iff_of_false (fun h => ?_) nofun
    cases len with
    | zero => cases h
    | succ len =>
      rw [matchTemplate] at h
      cases hop : getOp (b :: pc1) with
      | none =>
        rw [hop] at h
        cases h
      | some op1 =>
        rw [hop] at h
        cases h

theorem matchTemplate_op_iff (hop₂ : OP_PUSHDATA4 < opcode2.toNat) (hne : opcode2 ≠ OP_PUBKEYS) :
    matchTemplate nMaxDatacarrierBytes (len + 1) pc1 (opcode2 :: rest2) vSolutions =
      some vSolutions' ↔ ∃ opcode1 vch1 pc1' more, getOp pc1 = some (opcode1, vch1, pc1') ∧
        matchOp nMaxDatacarrierBytes opcode1 opcode2 vch1 [] = some more ∧
        matchTemplate nMaxDatacarrierBytes len pc1' rest2 (vSolutions ++ more) = some vSolutions' := by
  cases hop₁ : getOp pc1 with
  | none =>
    refine iff_of_false (fun h => ?_) (fun ⟨_, _, _, _, h, _⟩ => by cases h)
    rw [matchTemplate, List.isEmpty_cons, Bool.and_false, if_neg Bool.false_ne_true, hop₁] at h
    cases h
  | some op1 =>
    obtain ⟨opcode1, vch1, pc1'⟩ := op1
    rw [matchTemplate_op hop₁ hop₂ hne, Option.bind_eq_some_iff]
    constructor
    · rintro ⟨more, hmore, h⟩
      exact ⟨opcode1, vch1, pc1', more, rfl, hmore, h⟩
    · rintro ⟨_, _, _, more, heq, hmore, h⟩
      cases heq
      exact ⟨more, hmore, h⟩

/-- The length of what may be a public key. -/
def PubKeySized (vch : Bytes) : Prop := 33 ≤ vch.length ∧ vch.length ≤ 65

theorem matchOp_pubKey_iff : matchOp nMaxDatacarrierBytes opcode1 OP_PUBKEY vch [] = some more ↔
    PubKeySized vch ∧ [vch] = more := by
  rw [matchOp, if_pos rfl, PubKeySized]
  split_ifs with h
  · exact iff_of_false (fun h' => by cases h') (fun h' => by omega)
  · rw [Option.some_inj, and_iff_right (by omega)]

theorem matchOp_pubKeyHash_iff :
    matchOp nMaxDatacarrierBytes opcode1 OP_PUBKEYHASH vch [] = some more ↔
      vch.length = 20 ∧ [vch] = more := by
  rw [matchOp, if_neg (by decide), if_pos rfl]
  split_ifs with h
  · exact iff_of_false (fun h' => by cases h') (fun h' => h h'.1)
  · rw [Option.some_inj, and_iff_right (not_not.mp h)]

theorem matchOp_exact_iff (hop : opcode2 ∉ [OP_PUBKEY, OP_PUBKEYHASH, OP_SMALLINTEGER, OP_SMALLDATA]) :
    matchOp nMaxDatacarrierBytes opcode1 opcode2 vch [] = some more ↔
      opcode1 = opcode2 ∧ vch = [] ∧ [] = more := by
  simp only [List.mem_cons, List.not_mem_nil, or_false, not_or] at hop
  obtain ⟨hkey, hhash, hint, hdata⟩ := hop
  rw [matchOp, if_neg hkey, if_neg hhash, if_neg hint, if_neg hdata]
  split_ifs with h
  · refine iff_of_false (fun h' => by cases h') fun h' => ?_
    exact h.elim (fun hne => hne h'.1) (fun hne => hne h'.2.1)
  · obtain ⟨hop, hvch⟩ := not_or.mp h
    rw [Option.some_inj, and_iff_right (not_not.mp hop), and_iff_right (not_not.mp hvch)]

/-- An opcode of a template that stands for itself. -/
theorem matchTemplate_exact_iff (hop₂ : OP_PUSHDATA4 < opcode2.toNat)
    (hop : opcode2 ∉ [OP_PUBKEYS, OP_PUBKEY, OP_PUBKEYHASH, OP_SMALLINTEGER, OP_SMALLDATA]) :
    matchTemplate nMaxDatacarrierBytes (len + 1) pc1 (opcode2 :: rest2) vSolutions =
      some vSolutions' ↔ ∃ pc1', getOp pc1 = some (opcode2, [], pc1') ∧
        matchTemplate nMaxDatacarrierBytes len pc1' rest2 vSolutions = some vSolutions' := by
  rw [List.mem_cons, not_or] at hop
  obtain ⟨hne, hop⟩ := hop
  rw [matchTemplate_op_iff hop₂ hne]
  constructor
  · rintro ⟨_, _, pc1', _, hop₁, hmatch, h⟩
    obtain ⟨rfl, rfl, rfl⟩ := (matchOp_exact_iff hop).mp hmatch
    rw [List.append_nil] at h
    exact ⟨pc1', hop₁, h⟩
  · rintro ⟨pc1', hop₁, h⟩
    exact ⟨opcode2, [], pc1', [], hop₁, (matchOp_exact_iff hop).mpr ⟨rfl, rfl, rfl⟩,
      by rwa [List.append_nil]⟩

/-- The opcodes of small numbers. -/
theorem encodeOpN_iff : (opcode1 = 0x00 ∨ (OP_1 ≤ opcode1.toNat ∧ opcode1.toNat ≤ OP_16)) ↔
    ∃ k ≤ 16, opcode1 = encodeOpN k := by
  constructor
  · rintro (rfl | ⟨h₁, h₁₆⟩)
    · exact ⟨0, Nat.zero_le _, rfl⟩
    · unfold OP_1 at h₁
      unfold OP_16 at h₁₆
      refine ⟨opcode1.toNat - 0x50, by omega, UInt8.toNat_inj.mp ?_⟩
      rw [toNat_encodeOpN (by omega) (by omega)]
      omega
  · rintro ⟨k, hk, rfl⟩
    rcases Nat.eq_zero_or_pos k with rfl | hpos
    · exact .inl rfl
    · rw [toNat_encodeOpN hpos hk, OP_1, OP_16]
      exact .inr (by omega)

theorem decodeOpN_encodeOpN {k : Nat} (hk : k ≤ 16) : decodeOpN (encodeOpN k) = k := by
  rcases Nat.eq_zero_or_pos k with rfl | hpos
  · rfl
  · have hop := toNat_encodeOpN hpos hk
    rw [decodeOpN, if_neg fun h => by rw [h] at hop; exact absurd hop (by
      show (0 : Nat) ≠ _
      omega), hop, OP_1]
    omega

theorem encodeOpN_operand {k : Nat} (hk : k ≤ 16) :
    encodeOpN k = 0x00 ∨ OP_PUSHDATA4 < (encodeOpN k).toNat := by
  rcases Nat.eq_zero_or_pos k with rfl | hpos
  · exact .inl rfl
  · rw [toNat_encodeOpN hpos hk, OP_PUSHDATA4]
    exact .inr (by omega)

theorem encodeOpN_ne_invalid {k : Nat} (hk : k ≤ 16) : encodeOpN k ≠ OP_INVALIDOPCODE := by
  rcases Nat.eq_zero_or_pos k with rfl | hpos
  · decide
  · intro h
    have hop := toNat_encodeOpN hpos hk
    rw [h] at hop
    have : (0xFF : Nat) = 0x50 + k := hop
    omega

theorem matchOp_smallInteger_iff :
    matchOp nMaxDatacarrierBytes opcode1 OP_SMALLINTEGER vch [] = some more ↔
      ∃ k ≤ 16, opcode1 = encodeOpN k ∧ [[UInt8.ofNat k]] = more := by
  rw [matchOp, if_neg (by decide), if_neg (by decide), if_pos rfl]
  by_cases h : opcode1 = 0x00 ∨ (OP_1 ≤ opcode1.toNat ∧ opcode1.toNat ≤ OP_16)
  · obtain ⟨k, hk, rfl⟩ := encodeOpN_iff.mp h
    rw [if_pos h, Option.some_inj, decodeOpN_encodeOpN hk]
    constructor
    · exact fun hmore => ⟨k, hk, rfl, hmore⟩
    · rintro ⟨k', hk', heq, rfl⟩
      rw [← decodeOpN_encodeOpN hk, ← decodeOpN_encodeOpN hk', heq]
  · rw [if_neg h]
    refine iff_of_false (fun h' => by cases h') ?_
    rintro ⟨k, hk, heq, _⟩
    exact h (encodeOpN_iff.mpr ⟨k, hk, heq⟩)

end

/-! ## The templates -/

section

variable {nMaxDatacarrierBytes : Nat} {script : CScript} {vSolutions vSolutions' : List Bytes}

theorem matchTemplate_pubKey_iff :
    matchTemplate nMaxDatacarrierBytes 2 script [OP_PUBKEY, OP_CHECKSIG] [] = some vSolutions ↔
      ∃ opcode key, PubKeySized key ∧ Reads script [(opcode, key), (OP_CHECKSIG, [])] [] ∧
        [key] = vSolutions := by
  rw [matchTemplate_op_iff (by decide) (by decide)]
  constructor
  · rintro ⟨opcode, key, pc, _, hkey, hmatch, h⟩
    obtain ⟨hsized, rfl⟩ := matchOp_pubKey_iff.mp hmatch
    obtain ⟨rest, hop, hend⟩ := (matchTemplate_exact_iff (by decide) (by decide)).mp h
    obtain ⟨hrest, hsol⟩ := matchTemplate_end_iff.mp hend
    exact ⟨opcode, key, hsized, ⟨pc, hkey, rest, hop, hrest⟩, hsol⟩
  · rintro ⟨opcode, key, hsized, ⟨pc, hkey, rest, hop, hrest⟩, hsol⟩
    exact ⟨opcode, key, pc, [key], hkey, matchOp_pubKey_iff.mpr ⟨hsized, rfl⟩,
      (matchTemplate_exact_iff (by decide) (by decide)).mpr
        ⟨rest, hop, matchTemplate_end_iff.mpr ⟨hrest, hsol⟩⟩⟩

theorem matchTemplate_pubKeyHash_iff : matchTemplate nMaxDatacarrierBytes 5 script
    [OP_DUP, OP_HASH160, OP_PUBKEYHASH, OP_EQUALVERIFY, OP_CHECKSIG] [] = some vSolutions ↔
      ∃ opcode hash, hash.length = 20 ∧ Reads script [(OP_DUP, []), (OP_HASH160, []), (opcode, hash),
        (OP_EQUALVERIFY, []), (OP_CHECKSIG, [])] [] ∧ [hash] = vSolutions := by
  rw [matchTemplate_exact_iff (by decide) (by decide)]
  constructor
  · rintro ⟨pc₁, hdup, h⟩
    obtain ⟨pc₂, hhash160, h⟩ := (matchTemplate_exact_iff (by decide) (by decide)).mp h
    obtain ⟨opcode, hash, pc₃, _, hpush, hmatch, h⟩ :=
      (matchTemplate_op_iff (by decide) (by decide)).mp h
    obtain ⟨hlen, rfl⟩ := matchOp_pubKeyHash_iff.mp hmatch
    obtain ⟨pc₄, hequal, h⟩ := (matchTemplate_exact_iff (by decide) (by decide)).mp h
    obtain ⟨pc₅, hcheck, h⟩ := (matchTemplate_exact_iff (by decide) (by decide)).mp h
    obtain ⟨hrest, hsol⟩ := matchTemplate_end_iff.mp h
    exact ⟨opcode, hash, hlen,
      ⟨pc₁, hdup, pc₂, hhash160, pc₃, hpush, pc₄, hequal, pc₅, hcheck, hrest⟩, hsol⟩
  · rintro ⟨opcode, hash, hlen,
      ⟨pc₁, hdup, pc₂, hhash160, pc₃, hpush, pc₄, hequal, pc₅, hcheck, hrest⟩, hsol⟩
    have hend : matchTemplate nMaxDatacarrierBytes 0 pc₅ [] [hash] = some vSolutions :=
      matchTemplate_end_iff.mpr ⟨hrest, hsol⟩
    have hrest := (matchTemplate_exact_iff (by decide) (by decide)).mpr ⟨pc₄, hequal,
      (matchTemplate_exact_iff (by decide) (by decide)).mpr ⟨pc₅, hcheck, hend⟩⟩
    exact ⟨pc₁, hdup, (matchTemplate_exact_iff (by decide) (by decide)).mpr ⟨pc₂, hhash160,
      (matchTemplate_op_iff (by decide) (by decide)).mpr ⟨opcode, hash, pc₃, [hash], hpush,
        matchOp_pubKeyHash_iff.mpr ⟨hlen, rfl⟩, hrest⟩⟩⟩

section

variable {opcode : UInt8} {vch pc : Bytes} {len : Nat}

theorem takePubKeys_next {op : ReadOp} (hsized : PubKeySized vch) (hop : getOp pc = some op) :
    takePubKeys (len + 1) (opcode, vch, pc) vSolutions =
      takePubKeys len op (vSolutions ++ [vch]) := by
  unfold PubKeySized at hsized
  rw [takePubKeys, if_pos hsized, hop]

theorem takePubKeys_failed (hsized : PubKeySized vch) (hop : getOp pc = none) :
    takePubKeys (len + 1) (opcode, vch, pc) vSolutions =
      ((OP_INVALIDOPCODE, [], pc), vSolutions ++ [vch]) := by
  unfold PubKeySized at hsized
  rw [takePubKeys, if_pos hsized, hop]

theorem takePubKeys_other (hsized : ¬ PubKeySized vch) :
    takePubKeys (len + 1) (opcode, vch, pc) vSolutions = ((opcode, vch, pc), vSolutions) := by
  unfold PubKeySized at hsized
  rw [takePubKeys, if_neg hsized]

end

/-- The keys that are taken from an opcode on, where those after it are read from `pc`, and the opcode
that is none. -/
def KeysTaken (op last : UInt8 × Bytes) (pc rest : Bytes) (keys : List (UInt8 × Bytes)) : Prop :=
  ∃ ops, op :: ops = keys ++ [last] ∧ Reads pc ops rest ∧ (∀ key ∈ keys, PubKeySized key.2) ∧
    ¬ PubKeySized last.2

section

variable {op last op' : UInt8 × Bytes} {pc pc' rest : Bytes} {keys : List (UInt8 × Bytes)}

theorem keysTaken_other (hsized : ¬ PubKeySized op.2) :
    KeysTaken op last pc rest keys ↔ keys = [] ∧ op = last ∧ pc = rest := by
  constructor
  · rintro ⟨ops, hops, hreads, hkeys, -⟩
    cases keys with
    | nil =>
      obtain ⟨hop, rfl⟩ := List.cons.inj hops
      exact ⟨rfl, hop, hreads⟩
    | cons key keys =>
      obtain ⟨rfl, -⟩ := List.cons.inj hops
      exact absurd (hkeys _ List.mem_cons_self) hsized
  · rintro ⟨rfl, rfl, rfl⟩
    exact ⟨[], rfl, rfl, nofun, hsized⟩

/-- After a key the opcode that is read next is a key or the last. -/
theorem keysTaken_sized (hsized : PubKeySized op.2) : KeysTaken op last pc rest keys ↔
    ∃ op' pc' keys', getOp pc = some (op'.1, op'.2, pc') ∧ keys = op :: keys' ∧
      KeysTaken op' last pc' rest keys' := by
  constructor
  · rintro ⟨ops, hops, hreads, hkeys, hnot⟩
    cases keys with
    | nil =>
      obtain ⟨rfl, -⟩ := List.cons.inj hops
      exact absurd hsized hnot
    | cons key keys =>
      obtain ⟨rfl, htail⟩ := List.cons.inj hops
      cases ops with
      | nil => exact absurd htail.symm (List.append_ne_nil_of_right_ne_nil _ (List.cons_ne_nil _ _))
      | cons op' ops =>
        obtain ⟨pc', hop', hrest⟩ := hreads
        exact ⟨op', pc', keys, hop', rfl, ops, htail, hrest, (List.forall_mem_cons.mp hkeys).2, hnot⟩
  · rintro ⟨op', pc', keys, hop', rfl, ops, hops, hrest, hkeys, hnot⟩
    exact ⟨op' :: ops, by rw [hops, List.cons_append], ⟨pc', hop', hrest⟩,
      List.forall_mem_cons.mpr ⟨hsized, hkeys⟩, hnot⟩

end

/-- The loop for `OP_PUBKEYS` takes what may be public keys, up to the first opcode that is none. -/
theorem takePubKeys_iff (op last : UInt8 × Bytes) {pc rest : Bytes} {len : Nat}
    (hlen : pc.length < len) (hlast : last.1 ≠ OP_INVALIDOPCODE) :
    takePubKeys len (op.1, op.2, pc) vSolutions = ((last.1, last.2, rest), vSolutions') ↔
      ∃ keys, KeysTaken op last pc rest keys ∧ vSolutions ++ keys.map Prod.snd = vSolutions' := by
  induction len generalizing op pc vSolutions with
  | zero => omega
  | succ len ih =>
    by_cases hsized : PubKeySized op.2
    · simp only [keysTaken_sized hsized]
      cases hop : getOp pc with
      | none =>
        rw [takePubKeys_failed hsized hop]
        refine iff_of_false (fun h => hlast ?_) fun ⟨_, ⟨_, _, _, hop', _⟩, _⟩ => by cases hop'
        exact (Prod.mk.inj (Prod.mk.inj h).1).1.symm
      | some next =>
        obtain ⟨opcode', vch', pc'⟩ := next
        have hlt := getOp_length hop
        have hrest : takePubKeys len (opcode', vch', pc') (vSolutions ++ [op.2]) =
            ((last.1, last.2, rest), vSolutions') ↔ ∃ keys, KeysTaken (opcode', vch') last pc' rest keys ∧
              vSolutions ++ [op.2] ++ keys.map Prod.snd = vSolutions' :=
          @ih (vSolutions ++ [op.2]) (opcode', vch') pc' (by omega)
        rw [takePubKeys_next hsized hop, hrest]
        constructor
        · rintro ⟨keys, htaken, rfl⟩
          exact ⟨op :: keys, ⟨(opcode', vch'), pc', keys, rfl, rfl, htaken⟩, by
            rw [List.map_cons, List.append_assoc, List.singleton_append]⟩
        · rintro ⟨_, ⟨op', _, keys, hop', rfl, htaken⟩, rfl⟩
          cases hop'
          exact ⟨keys, htaken, by rw [List.map_cons, List.append_assoc, List.singleton_append]⟩
    · rw [takePubKeys_other hsized]
      simp only [keysTaken_other hsized]
      constructor
      · intro h
        obtain ⟨hop, rfl⟩ := Prod.mk.inj h
        obtain ⟨hopcode, hop⟩ := Prod.mk.inj hop
        obtain ⟨hvch, rfl⟩ := Prod.mk.inj hop
        exact ⟨[], ⟨rfl, Prod.ext hopcode hvch, rfl⟩, List.append_nil _⟩
      · rintro ⟨_, ⟨rfl, rfl, rfl⟩, rfl⟩
        rw [List.map_nil, List.append_nil]

theorem matchTemplate_pubKeys {opcode : UInt8} {vch pc pc1 rest2 : Bytes} {len : Nat}
    (hop : getOp pc1 = some (opcode, vch, pc)) :
    matchTemplate nMaxDatacarrierBytes (len + 1) pc1 (OP_PUBKEYS :: OP_SMALLINTEGER :: rest2)
      vSolutions =
      (matchOp nMaxDatacarrierBytes (takePubKeys pc1.length (opcode, vch, pc) vSolutions).1.1
        OP_SMALLINTEGER (takePubKeys pc1.length (opcode, vch, pc) vSolutions).1.2.1 []).bind fun more =>
          matchTemplate nMaxDatacarrierBytes len
            (takePubKeys pc1.length (opcode, vch, pc) vSolutions).1.2.2 rest2
            ((takePubKeys pc1.length (opcode, vch, pc) vSolutions).2 ++ more) := by
  have hkeysOp : getOp (OP_PUBKEYS :: OP_SMALLINTEGER :: rest2) =
      some (OP_PUBKEYS, [], OP_SMALLINTEGER :: rest2) := getOp_opcode (by decide) _
  have hintOp : getOp (OP_SMALLINTEGER :: rest2) = some (OP_SMALLINTEGER, [], rest2) :=
    getOp_opcode (by decide) _
  rw [matchTemplate, List.isEmpty_cons, Bool.and_false, if_neg Bool.false_ne_true, hop, hkeysOp]
  simp only [Option.bind_eq_bind, Option.bind_some, ↓reduceIte, hintOp]

/-- The keys of a template up to the number after them. -/
theorem matchTemplate_pubKeys_iff {pc1 rest2 : Bytes} {len : Nat} :
    matchTemplate nMaxDatacarrierBytes (len + 1) pc1 (OP_PUBKEYS :: OP_SMALLINTEGER :: rest2)
      vSolutions = some vSolutions' ↔
      ∃ keys, ∃ n ≤ 16, ∃ rest, (∀ key ∈ keys, PubKeySized key.2) ∧
        Reads pc1 (keys ++ [(encodeOpN n, [])]) rest ∧
        matchTemplate nMaxDatacarrierBytes len rest rest2
          (vSolutions ++ keys.map Prod.snd ++ [[UInt8.ofNat n]]) = some vSolutions' := by
  cases hop : getOp pc1 with
  | none =>
    refine iff_of_false (fun h => ?_) ?_
    · rw [matchTemplate, List.isEmpty_cons, Bool.and_false, if_neg Bool.false_ne_true, hop] at h
      cases h
    · rintro ⟨keys, n, -, rest, -, hreads, -⟩
      cases keys <;>
      · obtain ⟨pc, hop', -⟩ := hreads
        rw [hop] at hop'
        cases hop'
  | some op1 =>
    obtain ⟨opcode, vch, pc⟩ := op1
    have hlen := getOp_length hop
    rw [matchTemplate_pubKeys hop, Option.bind_eq_some_iff]
    constructor
    · rintro ⟨more, hmatch, h⟩
      obtain ⟨⟨⟨o, v, rest⟩, vSol⟩, htake⟩ :
        ∃ r, takePubKeys pc1.length (opcode, vch, pc) vSolutions = r := ⟨_, rfl⟩
      rw [htake] at hmatch h
      obtain ⟨n, hn, hopn, rfl⟩ := matchOp_smallInteger_iff.mp hmatch
      obtain rfl : o = encodeOpN n := hopn
      obtain ⟨keys, ⟨ops, hops, hreads, hkeys, -⟩, rfl⟩ :=
        (takePubKeys_iff (opcode, vch) (encodeOpN n, v) hlen (encodeOpN_ne_invalid hn)).mp htake
      have hreads : Reads pc1 (keys ++ [(encodeOpN n, v)]) rest := hops ▸ ⟨pc, hop, hreads⟩
      obtain ⟨mid, hmid, rest', hlast, hrest⟩ := reads_append.mp hreads
      obtain rfl : v = [] := getOp_operand hlast (encodeOpN_operand hn)
      exact ⟨keys, n, hn, rest, hkeys, hreads, h⟩
    · rintro ⟨keys, n, hn, rest, hkeys, hreads, h⟩
      obtain ⟨first, ops, hfirst⟩ : ∃ first ops, keys ++ [(encodeOpN n, [])] = first :: ops :=
        List.exists_cons_of_ne_nil (List.append_ne_nil_of_right_ne_nil _ (List.cons_ne_nil _ _))
      rw [hfirst] at hreads
      obtain ⟨pc', hop', hreads⟩ := hreads
      rw [hop] at hop'
      obtain ⟨rfl, rfl, rfl⟩ : opcode = first.1 ∧ vch = first.2 ∧ pc = pc' := by simpa using hop'
      have htake : takePubKeys pc1.length (first.1, first.2, pc) vSolutions =
          ((encodeOpN n, [], rest), vSolutions ++ keys.map Prod.snd) :=
        (takePubKeys_iff first (encodeOpN n, []) hlen (encodeOpN_ne_invalid hn)).mpr
          ⟨keys, ⟨ops, hfirst.symm, hreads, hkeys, fun h =>
            absurd (show 33 ≤ ([] : Bytes).length from h.1) (by decide)⟩, rfl⟩
      rw [htake]
      exact ⟨[[UInt8.ofNat n]], matchOp_smallInteger_iff.mpr ⟨n, hn, rfl, rfl⟩, h⟩

theorem matchTemplate_multisig_iff : matchTemplate nMaxDatacarrierBytes 4 script
    [OP_SMALLINTEGER, OP_PUBKEYS, OP_SMALLINTEGER, OP_CHECKMULTISIG] [] = some vSolutions ↔
      ∃ m ≤ 16, ∃ n ≤ 16, ∃ keys, (∀ key ∈ keys, PubKeySized key.2) ∧
        Reads script ((encodeOpN m, []) :: (keys ++ [(encodeOpN n, []), (OP_CHECKMULTISIG, [])])) [] ∧
        [UInt8.ofNat m] :: (keys.map Prod.snd ++ [[UInt8.ofNat n]]) = vSolutions := by
  rw [matchTemplate_op_iff (by decide) (by decide)]
  constructor
  · rintro ⟨opcode, vch, pc, _, hop, hmatch, h⟩
    obtain ⟨m, hm, rfl, rfl⟩ := matchOp_smallInteger_iff.mp hmatch
    obtain rfl := getOp_operand hop (encodeOpN_operand hm)
    obtain ⟨keys, n, hn, mid, hkeys, hreads, h⟩ := matchTemplate_pubKeys_iff.mp h
    obtain ⟨rest, hcheck, h⟩ := (matchTemplate_exact_iff (by decide) (by decide)).mp h
    obtain ⟨hrest, hsol⟩ := matchTemplate_end_iff.mp h
    refine ⟨m, hm, n, hn, keys, hkeys, ⟨pc, hop, ?_⟩, ?_⟩
    · rw [show keys ++ [(encodeOpN n, []), (OP_CHECKMULTISIG, [])] =
        keys ++ [(encodeOpN n, [])] ++ [(OP_CHECKMULTISIG, [])] by
          rw [List.append_assoc, List.singleton_append]]
      exact reads_append.mpr ⟨mid, hreads, rest, hcheck, hrest⟩
    · rw [← hsol, List.nil_append, List.singleton_append, List.cons_append]
  · rintro ⟨m, hm, n, hn, keys, hkeys, ⟨pc, hop, hreads⟩, hsol⟩
    rw [show keys ++ [(encodeOpN n, []), (OP_CHECKMULTISIG, [])] =
      keys ++ [(encodeOpN n, [])] ++ [(OP_CHECKMULTISIG, [])] by
        rw [List.append_assoc, List.singleton_append]] at hreads
    obtain ⟨mid, hreads, rest, hcheck, hrest⟩ := reads_append.mp hreads
    refine ⟨encodeOpN m, [], pc, [[UInt8.ofNat m]], hop,
      matchOp_smallInteger_iff.mpr ⟨m, hm, rfl, rfl⟩, matchTemplate_pubKeys_iff.mpr
        ⟨keys, n, hn, mid, hkeys, hreads, ?_⟩⟩
    refine (matchTemplate_exact_iff (by decide) (by decide)).mpr ⟨rest, hcheck, ?_⟩
    refine matchTemplate_end_iff.mpr ⟨hrest, ?_⟩
    rw [← hsol, List.nil_append, List.singleton_append, List.cons_append]

end

/-! ## The types -/

/-- The scripts that can be spent, by type, and the parameters they push. -/
def Pays (script : CScript) : TxnOutType → List Bytes → Prop
  | .PUBKEY, vSolutions => ∃ opcode key, PubKeySized key ∧
      Reads script [(opcode, key), (OP_CHECKSIG, [])] [] ∧ [key] = vSolutions
  | .PUBKEYHASH, vSolutions => ∃ opcode hash, hash.length = 20 ∧
      Reads script [(OP_DUP, []), (OP_HASH160, []), (opcode, hash), (OP_EQUALVERIFY, []),
        (OP_CHECKSIG, [])] [] ∧ [hash] = vSolutions
  | .SCRIPTHASH, vSolutions => ∃ hash, hash.length = 20 ∧
      script = OP_HASH160 :: 0x14 :: (hash ++ [OP_EQUAL]) ∧ [hash] = vSolutions
  | .MULTISIG, vSolutions => ∃ m keys, (1 ≤ m ∧ m ≤ keys.length ∧ keys.length ≤ 16) ∧
      (∀ key ∈ keys, PubKeySized key.2) ∧
      Reads script ((encodeOpN m, []) ::
        (keys ++ [(encodeOpN keys.length, []), (OP_CHECKMULTISIG, [])])) [] ∧
      [UInt8.ofNat m] :: (keys.map Prod.snd ++ [[UInt8.ofNat keys.length]]) = vSolutions
  | .NONSTANDARD, _ => False
  | .NULL_DATA, _ => False

theorem isPayToScriptHash_iff {script : CScript} : isPayToScriptHash script = true ↔
    ∃ hash, hash.length = 20 ∧ script = OP_HASH160 :: 0x14 :: (hash ++ [OP_EQUAL]) := by
  constructor
  · intro h
    simp only [isPayToScriptHash, Bool.and_eq_true, beq_iff_eq] at h
    obtain ⟨⟨⟨hlen, hop⟩, hsize⟩, hequal⟩ := h
    rcases script with _ | ⟨a, _ | ⟨b, rest⟩⟩
    · cases hlen
    · cases hlen
    · obtain rfl : a = OP_HASH160 := Option.some.inj hop
      obtain rfl : b = 0x14 := Option.some.inj hsize
      have hlen : rest.length = 21 := Nat.succ_injective (Nat.succ_injective hlen)
      have hequal : rest[20]? = some OP_EQUAL := hequal
      refine ⟨rest.take 20, by rw [List.length_take, hlen]; rfl, ?_⟩
      rw [← List.take_append_drop 20 rest]
      have hdrop : rest.drop 20 = [OP_EQUAL] := by
        rw [List.drop_eq_getElem?_toList_append, hequal, List.drop_of_length_le (by omega)]
        rfl
      rw [hdrop, List.take_left' (by rw [List.length_take, hlen]; rfl)]
  · rintro ⟨hash, hhash, rfl⟩
    rw [← scriptID_eq ⟨hash, hhash⟩]
    exact isPayToScriptHash_scriptID _

/-- The type that the first opcode of a script tells. -/
def headType (op : UInt8 × Bytes) : TxnOutType :=
  if op.2 ≠ [] then .PUBKEY
  else if op.1 = OP_DUP then .PUBKEYHASH
  else if op.1 = OP_HASH160 then .SCRIPTHASH
  else .MULTISIG

theorem headType_encodeOpN {m : Nat} (hm : 1 ≤ m) (hm' : m ≤ 16) :
    headType (encodeOpN m, []) = .MULTISIG := by
  have hne : ∀ {opcode : UInt8}, 0x60 < opcode.toNat → encodeOpN m ≠ opcode := fun hop h => by
    rw [← h, toNat_encodeOpN hm hm'] at hop
    omega
  rw [headType, if_neg (not_not.mpr rfl), if_neg (hne (by decide)), if_neg (hne (by decide))]

theorem Pays.head {script : CScript} {typeRet : TxnOutType} {vSolutions : List Bytes}
    (h : Pays script typeRet vSolutions) :
    ∃ op pc, getOp script = some (op.1, op.2, pc) ∧ headType op = typeRet := by
  cases typeRet with
  | NONSTANDARD => cases h
  | NULL_DATA => cases h
  | PUBKEY =>
    obtain ⟨opcode, key, hsized, ⟨pc, hop, -⟩, -⟩ := h
    refine ⟨(opcode, key), pc, hop, if_pos fun hnil => ?_⟩
    obtain rfl : key = [] := hnil
    exact absurd hsized.1 (by decide)
  | PUBKEYHASH =>
    obtain ⟨_, _, -, ⟨pc, hop, -⟩, -⟩ := h
    exact ⟨(OP_DUP, []), pc, hop, rfl⟩
  | SCRIPTHASH =>
    obtain ⟨hash, -, rfl, -⟩ := h
    exact ⟨(OP_HASH160, []), _, getOp_opcode (by decide) _, rfl⟩
  | MULTISIG =>
    obtain ⟨m, keys, ⟨hm, hn, hn'⟩, -, ⟨pc, hop, -⟩, -⟩ := h
    exact ⟨(encodeOpN m, []), pc, hop, headType_encodeOpN hm (hn.trans hn')⟩

/-- No script has two types. -/
theorem Pays.unique {script : CScript} {typeRet typeRet' : TxnOutType} {vSolutions vSolutions' : List Bytes}
    (h : Pays script typeRet vSolutions) (h' : Pays script typeRet' vSolutions') :
    typeRet = typeRet' := by
  obtain ⟨op, pc, hop, rfl⟩ := h.head
  obtain ⟨op', pc', hop', rfl⟩ := h'.head
  rw [hop] at hop'
  obtain ⟨hopcode, hvch, -⟩ : op.1 = op'.1 ∧ op.2 = op'.2 ∧ pc = pc' := by simpa using hop'
  rw [Prod.ext hopcode hvch]

/-! ## Solver -/

theorem solver_eq_some {options : SolverOptions} {script : CScript} {ret : TxnOutType × List Bytes} :
    solver options script = some ret ↔ solverRet options script = (true, ret) := by
  rw [solver, Prod.ext_iff]
  split_ifs with h <;> simp [h]

theorem multisigOk_iff {m n : Nat} {keys : List Bytes} (hm : m ≤ 16) (hn : n ≤ 16) :
    multisigOk ([UInt8.ofNat m] :: (keys ++ [[UInt8.ofNat n]])) = true ↔
      1 ≤ m ∧ m ≤ n ∧ keys.length = n := by
  have hbyte : ∀ k ≤ 16, (UInt8.ofNat k).toNat = k := fun k hk =>
    UInt8.toNat_ofNat_of_lt' (show k < 256 by omega)
  have hlast : ([UInt8.ofNat m] :: (keys ++ [[UInt8.ofNat n]])).getLastD [] = [UInt8.ofNat n] := by
    rw [← List.cons_append, List.getLastD_eq_getLast?, List.getLast?_concat, Option.getD_some]
  have hlen : ([UInt8.ofNat m] :: (keys ++ [[UInt8.ofNat n]])).length - 2 = keys.length := by
    simp only [List.length_append, List.length_cons, List.length_nil]
    omega
  rw [multisigOk, hlast, hlen]
  show (!(decide ((UInt8.ofNat m).toNat < 1) || decide ((UInt8.ofNat n).toNat < 1) ||
    decide ((UInt8.ofNat n).toNat < (UInt8.ofNat m).toNat) ||
    keys.length != (UInt8.ofNat n).toNat)) = true ↔ _
  rw [hbyte _ hm, hbyte _ hn]
  simp only [Bool.not_eq_true', Bool.or_eq_false_iff, decide_eq_false_iff_not, bne_eq_false_iff_eq]
  omega

section

variable {options : SolverOptions} {script : CScript} {typeRet : TxnOutType} {vSolutions : List Bytes}

theorem scanTemplates_cons_iff {type2 : TxnOutType} {script2 : CScript}
    {templates : List (TxnOutType × CScript)} :
    scanTemplates options script ((type2, script2) :: templates) = (true, typeRet, vSolutions) ↔
      (matchTemplate options.nMaxDatacarrierBytes script2.length script script2 [] = some vSolutions ∧
        type2 = typeRet ∧ (type2 = .MULTISIG → multisigOk vSolutions = true)) ∨
      (matchTemplate options.nMaxDatacarrierBytes script2.length script script2 [] = none ∧
        scanTemplates options script templates = (true, typeRet, vSolutions)) := by
  rw [scanTemplates]
  cases matchTemplate options.nMaxDatacarrierBytes script2.length script script2 [] with
  | none => simp only [reduceCtorEq, false_and, true_and, false_or]
  | some vSol =>
    have hok : (type2 != .MULTISIG || multisigOk vSol) = true ↔
        (type2 = .MULTISIG → multisigOk vSol = true) := by
      rw [Bool.or_eq_true, bne_iff_ne, ← imp_iff_not_or]
    simp only [reduceCtorEq, false_and, or_false, Option.some_inj]
    rw [Prod.mk_inj, Prod.mk_inj, hok]
    constructor
    · rintro ⟨hok, htype, rfl⟩
      exact ⟨rfl, htype, hok⟩
    · rintro ⟨rfl, htype, hok⟩
      exact ⟨hok, htype, rfl⟩

theorem scanTemplates_mem {templates : List (TxnOutType × CScript)}
    (h : scanTemplates options script templates = (true, typeRet, vSolutions)) :
    typeRet ∈ templates.map Prod.fst := by
  induction templates with
  | nil => cases h
  | cons template templates ih =>
    rcases scanTemplates_cons_iff.mp h with ⟨-, htype, -⟩ | ⟨-, h⟩
    · exact List.mem_cons.mpr (.inl htype.symm)
    · exact List.mem_cons_of_mem _ (ih h)

/-- The types that can be spent. -/
def spendableTypes : List TxnOutType := [.PUBKEY, .PUBKEYHASH, .SCRIPTHASH, .MULTISIG]

theorem matchTemplate_multisigOk_iff :
    (matchTemplate options.nMaxDatacarrierBytes 4 script
      [OP_SMALLINTEGER, OP_PUBKEYS, OP_SMALLINTEGER, OP_CHECKMULTISIG] [] = some vSolutions ∧
      multisigOk vSolutions = true) ↔ Pays script .MULTISIG vSolutions := by
  rw [matchTemplate_multisig_iff]
  constructor
  · rintro ⟨⟨m, hm, n, hn, keys, hkeys, hreads, rfl⟩, hok⟩
    obtain ⟨hm₁, hmn, hlen⟩ := (multisigOk_iff hm hn).mp hok
    rw [List.length_map] at hlen
    subst hlen
    exact ⟨m, keys, ⟨hm₁, hmn, hn⟩, hkeys, hreads, rfl⟩
  · rintro ⟨m, keys, ⟨hm, hmn, hn⟩, hkeys, hreads, rfl⟩
    exact ⟨⟨m, hmn.trans hn, keys.length, hn, keys, hkeys, hreads, rfl⟩,
      (multisigOk_iff (hmn.trans hn) hn).mpr ⟨hm, hmn, List.length_map _⟩⟩

/-- The templates after those that can be spent. -/
theorem mTemplates_eq (fDataCarrier : Bool) : ∃ templates,
    mTemplates fDataCarrier =
      (.PUBKEY, [OP_PUBKEY, OP_CHECKSIG]) ::
      (.PUBKEYHASH, [OP_DUP, OP_HASH160, OP_PUBKEYHASH, OP_EQUALVERIFY, OP_CHECKSIG]) ::
      (.MULTISIG, [OP_SMALLINTEGER, OP_PUBKEYS, OP_SMALLINTEGER, OP_CHECKMULTISIG]) :: templates ∧
    ∀ type2 ∈ templates.map Prod.fst, type2 = .NULL_DATA := by
  refine ⟨_, rfl, ?_⟩
  cases fDataCarrier <;> decide

theorem scanTemplates_iff (htype : typeRet ∈ spendableTypes) (hne : typeRet ≠ .SCRIPTHASH) :
    scanTemplates options script (mTemplates options.fDataCarrier) = (true, typeRet, vSolutions) ↔
      Pays script typeRet vSolutions := by
  obtain ⟨templates, htemplates, hnull⟩ := mTemplates_eq options.fDataCarrier
  rw [htemplates]
  constructor
  · intro h
    rcases scanTemplates_cons_iff.mp h with ⟨hmatch, rfl, -⟩ | ⟨-, h⟩
    · exact matchTemplate_pubKey_iff.mp hmatch
    rcases scanTemplates_cons_iff.mp h with ⟨hmatch, rfl, -⟩ | ⟨-, h⟩
    · exact matchTemplate_pubKeyHash_iff.mp hmatch
    rcases scanTemplates_cons_iff.mp h with ⟨hmatch, rfl, hok⟩ | ⟨-, h⟩
    · exact matchTemplate_multisigOk_iff.mp ⟨hmatch, hok rfl⟩
    obtain rfl := hnull _ (scanTemplates_mem h)
    exact absurd htype (by decide)
  · intro h
    have hkey : typeRet ≠ .PUBKEY → matchTemplate options.nMaxDatacarrierBytes 2 script
        [OP_PUBKEY, OP_CHECKSIG] [] = none := fun hne =>
      Option.eq_none_iff_forall_ne_some.mpr fun vSol hmatch =>
        have hpays : Pays script .PUBKEY vSol := matchTemplate_pubKey_iff.mp hmatch
        hne (h.unique hpays)
    have hhash : typeRet ≠ .PUBKEYHASH → matchTemplate options.nMaxDatacarrierBytes 5 script
        [OP_DUP, OP_HASH160, OP_PUBKEYHASH, OP_EQUALVERIFY, OP_CHECKSIG] [] = none := fun hne =>
      Option.eq_none_iff_forall_ne_some.mpr fun vSol hmatch =>
        have hpays : Pays script .PUBKEYHASH vSol := matchTemplate_pubKeyHash_iff.mp hmatch
        hne (h.unique hpays)
    cases typeRet with
    | NONSTANDARD => cases h
    | NULL_DATA => cases h
    | SCRIPTHASH => exact absurd rfl hne
    | PUBKEY =>
      exact scanTemplates_cons_iff.mpr (.inl ⟨matchTemplate_pubKey_iff.mpr h, rfl, nofun⟩)
    | PUBKEYHASH =>
      exact scanTemplates_cons_iff.mpr (.inr ⟨hkey nofun, scanTemplates_cons_iff.mpr
        (.inl ⟨matchTemplate_pubKeyHash_iff.mpr h, rfl, nofun⟩)⟩)
    | MULTISIG =>
      obtain ⟨hmatch, hok⟩ := matchTemplate_multisigOk_iff.mpr h
      exact scanTemplates_cons_iff.mpr (.inr ⟨hkey nofun, scanTemplates_cons_iff.mpr
        (.inr ⟨hhash nofun, scanTemplates_cons_iff.mpr (.inl ⟨hmatch, rfl, fun _ => hok⟩)⟩)⟩)

theorem solver_scriptID (options : SolverOptions) (id : UInt160) :
    solver options (getScriptForDestination (.scriptID id)) = some (.SCRIPTHASH, [id.val]) := by
  rw [solver_eq_some, solverRet, isPayToScriptHash_scriptID, scriptID_eq]
  show (true, TxnOutType.SCRIPTHASH, [(id.val ++ [OP_EQUAL]).take 20]) = _
  rw [List.take_left' id.property]

/-- The types that can be spent are those that `Solver` tells. -/
theorem solver_iff (htype : typeRet ∈ spendableTypes) :
    solver options script = some (typeRet, vSolutions) ↔ Pays script typeRet vSolutions := by
  cases hp2sh : isPayToScriptHash script with
  | true =>
    obtain ⟨hash, hhash, hscript⟩ := isPayToScriptHash_iff.mp hp2sh
    have hsolver : solver options script = some (.SCRIPTHASH, [hash]) := by
      rw [hscript, ← scriptID_eq ⟨hash, hhash⟩, solver_scriptID]
    have hpays : Pays script .SCRIPTHASH [hash] := ⟨hash, hhash, hscript, rfl⟩
    rw [hsolver]
    constructor
    · intro h
      cases h
      exact hpays
    · intro h
      obtain rfl := hpays.unique h
      obtain ⟨hash', -, hscript', rfl⟩ := h
      rw [hscript] at hscript'
      have htail := (List.cons.inj (List.cons.inj hscript').2).2
      rw [List.append_cancel_right htail]
  | false =>
    rw [solver_eq_some, solverRet, hp2sh, if_neg Bool.false_ne_true]
    by_cases hne : typeRet = .SCRIPTHASH
    · subst hne
      refine iff_of_false (fun h => ?_) fun ⟨hash, hhash, hscript, _⟩ => ?_
      · obtain ⟨templates, htemplates, hnull⟩ := mTemplates_eq options.fDataCarrier
        have hmem := scanTemplates_mem h
        rw [htemplates] at hmem
        simp only [List.map_cons, List.mem_cons, reduceCtorEq, false_or] at hmem
        cases hnull _ hmem
      · rw [isPayToScriptHash_iff.mpr ⟨hash, hhash, hscript⟩] at hp2sh
        cases hp2sh
    · exact scanTemplates_iff htype hne

end

/-! ## Scripts that are built -/

/-- A `CPubKey` that is valid. -/
def IsValidPubKey (vchPubKey : Bytes) : Prop := parsePubKey vchPubKey = vchPubKey ∧ vchPubKey ≠ []

theorem headD_eq_getD (vch : Bytes) : vch.headD 0 = vch.getD 0 0 := by cases vch <;> rfl

/-- The size of a public key in any encoding, which does not begin as a signature does. -/
structure KeyShape (key : Bytes) : Prop where
  size : key.length = 33 ∨ key.length = 65
  head : key.getD 0 0 ≠ 0x30

theorem IsValidPubKey.keyShape {key : Bytes} (h : IsValidPubKey key) : KeyShape key := by
  obtain ⟨hparse, hne⟩ := h
  have hlen : ∀ {len}, (if len = key.length then key else []) = key → len = key.length := fun h => by
    split_ifs at h with heq
    · exact heq
    · exact absurd h.symm hne
  have hpos := List.length_pos_iff.mpr hne
  unfold parsePubKey at hparse
  rw [headD_eq_getD] at hparse
  split at hparse <;> rename_i hhead
  all_goals try
    exact ⟨by have := hlen hparse; omega, by rw [hhead]; decide⟩
  have := hlen hparse
  omega

theorem IsValidPubKey.sized {key : Bytes} (h : IsValidPubKey key) : PubKeySized key := by
  have hsize := h.keyShape.size
  unfold PubKeySized
  omega

theorem reads_pushes {keys : List Bytes} {rest : Bytes}
    (hsize : (keys.flatMap pushData ++ rest).length < 2 ^ 32) :
    Reads (keys.flatMap pushData ++ rest) (keys.map fun key => (pushOpcode key, key)) rest := by
  induction keys with
  | nil => rfl
  | cons key keys ih =>
    rw [List.flatMap_cons, List.append_assoc] at hsize ⊢
    exact ⟨_, getOp_pushData (length_operand_lt hsize), ih (length_rest_lt hsize)⟩

theorem getScriptForMultisig_eq (nRequired : Nat) (keys : List Bytes) :
    getScriptForMultisig nRequired keys = encodeOpN nRequired ::
      (keys.flatMap pushData ++ encodeOpN keys.length :: [OP_CHECKMULTISIG]) := by
  rw [getScriptForMultisig]
  simp only [List.cons_append, List.nil_append]

theorem solver_getScriptForMultisig (options : SolverOptions) {m : Nat} {keys : List Bytes}
    (hm : 1 ≤ m) (hn : m ≤ keys.length) (hn' : keys.length ≤ 16)
    (hkeys : ∀ key ∈ keys, IsValidPubKey key) :
    solver options (getScriptForMultisig m keys) =
      some (.MULTISIG, [UInt8.ofNat m] :: (keys ++ [[UInt8.ofNat keys.length]])) := by
  have hsize : (keys.flatMap pushData ++ [encodeOpN keys.length, OP_CHECKMULTISIG]).length < 2 ^ 32 := by
    have hpush := length_pushes fun key hkey => (hkeys key hkey).sized.2
    rw [List.length_append]
    show (keys.flatMap pushData).length + 2 < _
    omega
  have hlast : Reads [encodeOpN keys.length, OP_CHECKMULTISIG]
      [(encodeOpN keys.length, []), (OP_CHECKMULTISIG, [])] [] :=
    ⟨_, getOp_encodeOpN (hm.trans hn) hn' _, _, getOp_opcode (by decide) _, rfl⟩
  refine (solver_iff (by decide)).mpr ⟨m, keys.map fun key => (pushOpcode key, key), ?_, ?_, ?_, ?_⟩
  · rw [List.length_map]
    exact ⟨hm, hn, hn'⟩
  · rintro _ hmem
    obtain ⟨key, hkey, rfl⟩ := List.mem_map.mp hmem
    exact (hkeys key hkey).sized
  · rw [List.length_map, getScriptForMultisig_eq]
    exact ⟨_, getOp_encodeOpN hm (hn.trans hn') _, reads_append.mpr ⟨_, reads_pushes hsize, hlast⟩⟩
  · rw [List.length_map, List.map_map]
    simp only [Function.comp_def, List.map_id']

theorem solver_pubKey (options : SolverOptions) {key : Bytes} (h : IsValidPubKey key) :
    solver options (getScriptForPubKey key) = some (.PUBKEY, [key]) := by
  have hop : getOp (pushData key ++ [OP_CHECKSIG]) = some (pushOpcode key, key, [OP_CHECKSIG]) := by
    have hsize := h.sized.2
    refine getOp_pushData ?_
    rw [List.length_append, List.length_singleton]
    omega
  exact (solver_iff (by decide)).mpr
    ⟨pushOpcode key, key, h.sized, ⟨_, hop, _, getOp_opcode (by decide) _, rfl⟩, rfl⟩

theorem solver_keyID (options : SolverOptions) (id : UInt160) :
    solver options (getScriptForDestination (.keyID id)) = some (.PUBKEYHASH, [id.val]) := by
  have hop : getOp (pushData id.val ++ [OP_EQUALVERIFY, OP_CHECKSIG]) =
      some (pushOpcode id.val, id.val, [OP_EQUALVERIFY, OP_CHECKSIG]) :=
    getOp_pushData (by rw [List.length_append, id.property]; decide)
  have hscript : getScriptForDestination (.keyID id) =
      OP_DUP :: OP_HASH160 :: (pushData id.val ++ [OP_EQUALVERIFY, OP_CHECKSIG]) := by
    rw [getScriptForDestination]
    simp only [List.cons_append, List.nil_append]
  rw [hscript]
  exact (solver_iff (by decide)).mpr ⟨pushOpcode id.val, id.val, id.property,
    ⟨_, getOp_opcode (by decide) _, _, getOp_opcode (by decide) _, _, hop, _,
      getOp_opcode (by decide) _, _, getOp_opcode (by decide) _, rfl⟩, rfl⟩

theorem extractDestination_getScriptForDestination (options : SolverOptions)
    (hash160 : Bytes → UInt160) {dest : Destination} (hdest : dest ≠ .noDestination) :
    extractDestination options hash160 (getScriptForDestination dest) = some dest := by
  have hhash : ∀ id : UInt160, toUInt160 ([id.val].headD []) = some id := fun id =>
    dif_pos id.property
  cases dest with
  | noDestination => exact absurd rfl hdest
  | keyID id =>
    rw [extractDestination, solver_keyID]
    show (toUInt160 ([id.val].headD [])).map Destination.keyID = _
    rw [hhash]
    rfl
  | scriptID id =>
    rw [extractDestination, solver_scriptID]
    show (toUInt160 ([id.val].headD [])).map Destination.scriptID = _
    rw [hhash]
    rfl

/-- **Classification.** The types that can be spent are told exactly for their scripts, with the
parameters that these push; the indices into the solutions and into a script hash are in range; what is
built for a destination or for several keys is told as such. -/
theorem solver_classifies (options : SolverOptions) :
    (∀ script typeRet vSolutions, typeRet ∈ spendableTypes →
      (solver options script = some (typeRet, vSolutions) ↔ Pays script typeRet vSolutions)) ∧
    (∀ script vSolutions, matchTemplate options.nMaxDatacarrierBytes 4 script
      [OP_SMALLINTEGER, OP_PUBKEYS, OP_SMALLINTEGER, OP_CHECKMULTISIG] [] = some vSolutions →
      ∃ m keys n, vSolutions = [m] :: (keys ++ [[n]])) ∧
    (∀ script, isPayToScriptHash script = true → script.length = 23) ∧
    (∀ hash160 dest, dest ≠ .noDestination →
      extractDestination options hash160 (getScriptForDestination dest) = some dest) ∧
    ∀ m keys, 1 ≤ m → m ≤ keys.length → keys.length ≤ 16 → (∀ key ∈ keys, IsValidPubKey key) →
      solver options (getScriptForMultisig m keys) =
        some (.MULTISIG, [UInt8.ofNat m] :: (keys ++ [[UInt8.ofNat keys.length]])) := by
  refine ⟨fun _ _ _ htype => solver_iff htype, fun script vSolutions hmatch => ?_, fun script h => ?_,
    fun hash160 dest => extractDestination_getScriptForDestination options hash160,
    fun m keys => solver_getScriptForMultisig options⟩
  · obtain ⟨m, -, n, -, keys, -, -, rfl⟩ := matchTemplate_multisig_iff.mp hmatch
    exact ⟨_, _, _, rfl⟩
  · obtain ⟨hash, hhash, rfl⟩ := isPayToScriptHash_iff.mp h
    simp only [List.length_cons, List.length_append, hhash, List.length_nil]

end GC
