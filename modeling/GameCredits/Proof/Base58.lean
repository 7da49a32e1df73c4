import GameCredits.Model.Base58Check
import GameCredits.Framework.Scan
import GameCredits.Framework.Outcome

/-!
# Base58 is a bijection on its image

Both loops compute exactly and the buffers suffice (`encodeBytes_eq`, `decodeChars_digits`), because
138/100 and 733/1000 are above the logarithms of 256 to the base 58 and of 58 to the base 256
(`encode_capacity`, `decode_capacity`). A string is read as the digits up to the first character that
is none (`exists_digits`). What one direction writes, the other reads back (`decode_encode`,
`decode_cases`), since a number has one expansion without leading zeros and the leading zeros are
counted apart.

* `decodeCheck_iff`: the same with a checksum;
* `CBitcoinAddress.address_text`, `CBitcoinSecret.secret_text`: what an address and a secret key are as
  text.
-/

namespace GC

open Framework

/-! ## The characters -/

/-- The character for a digit. -/
def base58Char (d : Nat) : UInt8 := pszBase58.getD d 0

theorem findIdx_base58Char {d : Nat} (hd : d < 58) :
    pszBase58.findIdx? (· == base58Char d) = some d := by
  have h : ∀ d < 58, pszBase58.findIdx? (· == base58Char d) = some d := by decide
  exact h d hd

theorem base58Char_not_space {d : Nat} (hd : d < 58) : isspace (base58Char d) = false := by
  have h : ∀ d < 58, isspace (base58Char d) = false := by decide
  exact h d hd

theorem base58Char_mem {d : Nat} (hd : d < 58) : base58Char d ∈ pszBase58 := by
  have h : ∀ d < 58, base58Char d ∈ pszBase58 := by decide
  exact h d hd

/-- Only the digit zero is written as `1`. -/
theorem base58Char_eq_one {d : Nat} (hd : d < 58) : (base58Char d == '1'.toUInt8) = (d == 0) := by
  have h : ∀ d < 58, (base58Char d == '1'.toUInt8) = (d == 0) := by decide
  exact h d hd

theorem findIdx_eq_some {c : UInt8} {d : Nat} (h : pszBase58.findIdx? (· == c) = some d) :
    d < 58 ∧ c = base58Char d := by
  obtain ⟨hd, hc, -⟩ := List.findIdx?_eq_some_iff_getElem.mp h
  refine ⟨hd, ?_⟩
  rw [base58Char, List.getD_eq_getElem?_getD, List.getElem?_eq_getElem hd, Option.getD_some]
  exact (eq_of_beq hc).symm

theorem findIdx_eq_none {c : UInt8} (h : pszBase58.findIdx? (· == c) = none) : c ∉ pszBase58 := by
  intro hc
  have := List.findIdx?_eq_none_iff.mp h c hc
  rw [beq_self_eq_true] at this
  cases this

/-- A string up to the first character that is not a Base58 digit. -/
theorem exists_digits (psz : Bytes) : ∃ (ds : List Nat) (rest : Bytes), (∀ d ∈ ds, d < 58) ∧
    psz = ds.map base58Char ++ rest ∧
    ∀ c s, rest = c :: s → isspace c = true ∨ c ∉ pszBase58 := by
  induction psz with
  | nil => exact ⟨[], [], by simp, rfl, by simp⟩
  | cons c psz ih =>
    cases hc : pszBase58.findIdx? (· == c) with
    | none =>
      refine ⟨[], c :: psz, by simp, rfl, ?_⟩
      rintro c' s h
      obtain ⟨rfl, rfl⟩ := List.cons.inj h
      exact .inr (findIdx_eq_none hc)
    | some d =>
      obtain ⟨hd, rfl⟩ := findIdx_eq_some hc
      obtain ⟨ds, rest, hds, rfl, hrest⟩ := ih
      exact ⟨d :: ds, rest, List.forall_mem_cons.mpr ⟨hd, hds⟩, rfl, hrest⟩

/-! ## The buffers -/

/-- 138/100 is above the logarithm of 256 to the base 58. -/
theorem encode_capacity (n : Nat) : 256 ^ n ≤ 58 ^ (n * 138 / 100 + 1) :=
  pow_le_pow_of_ratio (by decide) (show 29 ≠ 0 by decide) (show 256 ^ 29 ≤ 58 ^ 40 by decide)
    (by omega)

/-- 733/1000 is above the logarithm of 58 to the base 256. -/
theorem decode_capacity (n : Nat) : 58 ^ n ≤ 256 ^ (n * 733 / 1000 + 1) :=
  pow_le_pow_of_ratio (by decide) (show 71 ≠ 0 by decide) (show 58 ^ 71 ≤ 256 ^ 52 by decide)
    (by omega)

/-! ## The loops -/

/-- What the buffer `out` holds after the digits `ds` of the base `mul`, over `buf`. -/
structure Converted (base mul : Nat) (ds buf out : List Nat) : Prop where
  digits : ∀ d ∈ out, d < base
  value_eq : value base out = value base buf * mul ^ ds.length + value mul ds

theorem Converted.nil {base mul : Nat} {buf : List Nat} (h : ∀ d ∈ buf, d < base) :
    Converted base mul [] buf buf :=
  ⟨h, by rw [List.length_nil, pow_zero, Nat.mul_one, value_nil, Nat.add_zero]⟩

theorem Converted.cons {base mul d : Nat} {ds buf out : List Nat}
    (hvalue : value base (mulAdd base mul d buf).1 = value base buf * mul + d)
    (h : Converted base mul ds (mulAdd base mul d buf).1 out) :
    Converted base mul (d :: ds) buf out :=
  ⟨h.digits, by rw [h.value_eq, hvalue, List.length_cons, value_cons, pow_succ]; ring⟩

/-- The assertion of `EncodeBase58` holds, and the buffer gets the number: `j` bytes are done. -/
theorem encodeBytes_eq (vch : Bytes) {b58 : List Nat} {j : Nat} (hdigits : ∀ d ∈ b58, d < 58)
    (hj : value 58 b58 < 256 ^ j) (hfit : 256 ^ (j + vch.length) ≤ 58 ^ b58.length) :
    ∃ out, encodeBytes vch b58 = .ok out ∧ Converted 58 256 (vch.map UInt8.toNat) b58 out := by
  induction vch generalizing b58 j with
  | nil => exact ⟨b58, rfl, .nil hdigits⟩
  | cons ch vch ih =>
    have hone : 256 ^ (j + 1) ≤ 58 ^ b58.length :=
      le_trans (Nat.pow_le_pow_right (by decide) (by rw [List.length_cons]; omega)) hfit
    obtain ⟨hzero, hvalue, hlt⟩ := mulAdd_grow hj ch.toNat_lt hone
    obtain ⟨out, hout, hconv⟩ := ih (mulAdd_digits (by decide) b58) hlt
      (by rw [length_mulAdd, Nat.add_right_comm, Nat.add_assoc]; exact hfit)
    refine ⟨out, ?_, .cons hvalue hconv⟩
    rw [encodeBytes]
    simp only [hzero, if_true]
    exact hout

/-- The assertion of `DecodeBase58` holds, and the buffer gets the number: `j` digits are done. -/
theorem decodeChars_digits {ds b256 : List Nat} {j : Nat} (rest : Bytes) (hds : ∀ d ∈ ds, d < 58)
    (hdigits : ∀ d ∈ b256, d < 256) (hj : value 256 b256 < 58 ^ j)
    (hfit : 58 ^ (j + ds.length) ≤ 256 ^ b256.length) :
    ∃ out, decodeChars (ds.map base58Char ++ rest) b256 = decodeChars rest out ∧
      Converted 256 58 ds b256 out := by
  induction ds generalizing b256 j with
  | nil => exact ⟨b256, rfl, .nil hdigits⟩
  | cons d ds ih =>
    obtain ⟨hd, hds⟩ := List.forall_mem_cons.mp hds
    have hone : 58 ^ (j + 1) ≤ 256 ^ b256.length :=
      le_trans (Nat.pow_le_pow_right (by decide) (by rw [List.length_cons]; omega)) hfit
    obtain ⟨hzero, hvalue, hlt⟩ := mulAdd_grow hj hd hone
    obtain ⟨out, hout, hconv⟩ := ih hds (mulAdd_digits (by decide) b256) hlt
      (by rw [length_mulAdd, Nat.add_right_comm, Nat.add_assoc]; exact hfit)
    refine ⟨out, ?_, .cons hvalue hconv⟩
    rw [List.map_cons, List.cons_append, decodeChars, base58Char_not_space hd,
      findIdx_base58Char hd]
    simp only [Bool.false_eq_true, if_false, hzero, if_true]
    exact hout

/-- From an empty buffer the number is that of the digits. -/
theorem Converted.of_empty {base mul n : Nat} {ds out : List Nat}
    (h : Converted base mul ds (List.replicate n 0) out) : value base out = value mul ds := by
  rw [h.value_eq, value_replicate_zero, Nat.zero_mul, Nat.zero_add]

theorem lt_of_mem_replicate_zero {base n d : Nat} (hb : 0 < base) (hd : d ∈ List.replicate n 0) :
    d < base := by
  rwa [List.eq_of_mem_replicate hd]

/-- `EncodeBase58` on its buffer. -/
theorem encodeBytes_buffer (vch : Bytes) :
    ∃ out, encodeBytes vch (List.replicate (vch.length * 138 / 100 + 1) 0) = .ok out ∧
      (∀ d ∈ out, d < 58) ∧ value 58 out = value 256 (vch.map UInt8.toNat) := by
  have hempty : value 58 (List.replicate (vch.length * 138 / 100 + 1) 0) < 256 ^ 0 := by
    rw [value_replicate_zero]
    decide
  obtain ⟨out, hout, hconv⟩ := encodeBytes_eq vch
    (fun d hd => lt_of_mem_replicate_zero (by decide) hd) hempty
    (by rw [List.length_replicate, Nat.zero_add]; exact encode_capacity _)
  exact ⟨out, hout, hconv.digits, hconv.of_empty⟩

/-- `DecodeBase58` on its buffer, which has room for as many digits as there are characters. -/
theorem decodeChars_buffer {ds : List Nat} {n : Nat} (rest : Bytes) (hds : ∀ d ∈ ds, d < 58)
    (hn : ds.length ≤ n) :
    ∃ out, decodeChars (ds.map base58Char ++ rest) (List.replicate (n * 733 / 1000 + 1) 0) =
        decodeChars rest out ∧ (∀ d ∈ out, d < 256) ∧ value 256 out = value 58 ds := by
  have hempty : value 256 (List.replicate (n * 733 / 1000 + 1) 0) < 58 ^ 0 := by
    rw [value_replicate_zero]
    decide
  have hfit : 58 ^ (0 + ds.length) ≤ 256 ^ (List.replicate (n * 733 / 1000 + 1) 0).length := by
    rw [List.length_replicate, Nat.zero_add]
    exact le_trans (Nat.pow_le_pow_right (by decide) hn) (decode_capacity n)
  obtain ⟨out, hout, hconv⟩ := decodeChars_digits rest hds
    (fun d hd => lt_of_mem_replicate_zero (by decide) hd) hempty hfit
  exact ⟨out, hout, hconv.digits, hconv.of_empty⟩

/-! ## Both directions -/

/-- The first of the mapped digits is not the zero one. -/
theorem head_map {f : Nat → UInt8} {z : UInt8} {n : Nat} {ds : List Nat}
    (hf : ∀ d < n, (f d == z) = (d == 0)) (hds : ∀ d ∈ ds, d < n) (hhead : ds.head? ≠ some 0)
    (rest : Bytes) (hrest : ∀ c s, rest = c :: s → (c == z) = false) :
    ∀ c s, ds.map f ++ rest = c :: s → (c == z) = false := by
  intro c s h
  cases ds with
  | nil => exact hrest c s h
  | cons d ds =>
    obtain ⟨rfl, -⟩ := List.cons.inj h
    rw [hf d (hds d List.mem_cons_self)]
    exact beq_eq_false_iff_ne.mpr fun hd => hhead (by rw [hd]; rfl)

theorem ofNat_beq_zero {d : Nat} (hd : d < 256) : (UInt8.ofNat d == 0) = (d == 0) := by
  rw [Bool.eq_iff_iff, beq_iff_eq, beq_iff_eq, ← UInt8.toNat_inj, UInt8.toNat_ofNat',
    Nat.mod_eq_of_lt hd]
  rfl

theorem map_toNat_ofNat {bs : List Nat} (hbs : ∀ d ∈ bs, d < 256) :
    (bs.map UInt8.ofNat).map UInt8.toNat = bs := by
  rw [List.map_map]
  refine (List.map_congr_left fun d hd => ?_).trans (List.map_id bs)
  exact UInt8.toNat_ofNat_of_lt' (hbs d hd)

/-- A byte vector by its leading zeros and the rest. -/
theorem encodeBase58_eq {zeroes : Nat} (hzeroes : zeroes < 2 ^ 31) {bs : List Nat} (hbs : ∀ d ∈ bs, d < 256)
    (hhead : bs.head? ≠ some 0) :
    ∃ ds, (∀ d ∈ ds, d < 58) ∧ ds.head? ≠ some 0 ∧ value 58 ds = value 256 bs ∧
      encodeBase58 (List.replicate zeroes 0 ++ bs.map UInt8.ofNat) =
        .ok (List.replicate zeroes '1'.toUInt8 ++ ds.map base58Char) := by
  obtain ⟨htake, hdrop⟩ := span_append (p := (· == 0)) (l := List.replicate zeroes (0 : UInt8))
    (r := bs.map UInt8.ofNat) (fun a ha => by rw [List.eq_of_mem_replicate ha]; rfl) (by
      have h := head_map (fun d => ofNat_beq_zero) hbs hhead [] nofun
      rwa [List.append_nil] at h)
  obtain ⟨out, hout, hdigits, hvalue⟩ := encodeBytes_buffer (bs.map UInt8.ofNat)
  rw [map_toNat_ofNat hbs] at hvalue
  refine ⟨strip out, fun d hd => hdigits d (mem_of_mem_strip hd), strip_head out,
    by rw [value_strip, hvalue], ?_⟩
  rw [encodeBase58]
  simp only [htake, hdrop, hout, List.length_replicate, countZeroes, if_pos hzeroes]
  rfl

/-- White space ends the digits, and any other character is refused. -/
theorem decodeChars_rest {rest : Bytes} (b256 : List Nat)
    (hrest : ∀ c s, rest = c :: s → isspace c = true ∨ c ∉ pszBase58) :
    decodeChars rest b256 = .ok (b256, rest) ∨
      decodeChars rest b256 = .error .refused ∧ rest.dropWhile isspace ≠ [] := by
  cases rest with
  | nil => exact .inl rfl
  | cons c s =>
    rw [decodeChars]
    by_cases hc : isspace c = true
    · exact .inl (if_pos hc)
    · have hnot := (hrest c s rfl).resolve_left hc
      have hnone : pszBase58.findIdx? (· == c) = none :=
        List.findIdx?_eq_none_iff.mpr fun x hx =>
          beq_eq_false_iff_ne.mpr fun h => hnot (by rw [← h]; exact hx)
      rw [if_neg hc, hnone, List.dropWhile_cons_of_neg hc]
      exact .inr ⟨rfl, List.cons_ne_nil _ _⟩

/-- A string that is, after white space, ones, digits the first of which is not zero, and what
follows the digits. -/
theorem decodeBase58_eq {zeroes : Nat} (hzeroes : zeroes < 2 ^ 31) {ds : List Nat} {psz rest : Bytes}
    (hpsz : psz.dropWhile isspace =
      List.replicate zeroes '1'.toUInt8 ++ (ds.map base58Char ++ rest))
    (hds : ∀ d ∈ ds, d < 58) (hhead : ds.head? ≠ some 0)
    (hrest : ∀ c s, rest = c :: s → isspace c = true ∨ c ∉ pszBase58) :
    ∃ bs, (∀ d ∈ bs, d < 256) ∧ bs.head? ≠ some 0 ∧ value 256 bs = value 58 ds ∧
      decodeBase58 psz =
        if rest.dropWhile isspace = [] then .ok (List.replicate zeroes 0 ++ bs.map UInt8.ofNat)
        else .error .refused := by
  have hone : ∀ c s, rest = c :: s → (c == '1'.toUInt8) = false := by
    intro c s h
    refine beq_eq_false_iff_ne.mpr fun hc => ?_
    rcases hrest c s h with hspace | hnot
    · rw [hc] at hspace
      exact absurd hspace (by decide)
    · rw [hc] at hnot
      exact hnot (by decide)
  obtain ⟨htake, hdrop⟩ := span_append (p := (· == '1'.toUInt8))
    (l := List.replicate zeroes '1'.toUInt8) (r := ds.map base58Char ++ rest)
    (fun a ha => by rw [List.eq_of_mem_replicate ha]; rfl)
    (head_map (fun d hd => base58Char_eq_one hd) hds hhead rest hone)
  obtain ⟨out, hout, hdigits, hvalue⟩ := decodeChars_buffer
    (n := (ds.map base58Char ++ rest).length) rest hds
    (by rw [List.length_append, List.length_map]; exact Nat.le_add_right _ _)
  refine ⟨strip out, fun d hd => hdigits d (mem_of_mem_strip hd), strip_head out,
    by rw [value_strip, hvalue], ?_⟩
  rw [decodeBase58]
  simp only [hpsz, htake, hdrop, hout, List.length_replicate, countZeroes, if_pos hzeroes]
  rcases decodeChars_rest out hrest with hend | ⟨hrefused, hne⟩
  · rw [hend, ok_bind, ok_bind]
    by_cases hs : rest.dropWhile isspace = []
    · rw [if_pos hs, if_neg (not_not.mpr hs)]
      rfl
    · rw [if_neg hs, if_pos hs]
  · rw [hrefused, if_neg hne]
    rfl

/-- Every string is of that form. -/
theorem exists_base58Parts (psz : Bytes) : ∃ zeroes, ∃ (ds : List Nat) (rest : Bytes),
    psz.dropWhile isspace = List.replicate zeroes '1'.toUInt8 ++ (ds.map base58Char ++ rest) ∧
    (∀ d ∈ ds, d < 58) ∧ ds.head? ≠ some 0 ∧
    ∀ c s, rest = c :: s → isspace c = true ∨ c ∉ pszBase58 := by
  obtain ⟨ds, rest, hds, hpsz, hrest⟩ := exists_digits (psz.dropWhile isspace)
  refine ⟨(ds.takeWhile (· == 0)).length, strip ds, rest, ?_,
    fun d hd => hds d (mem_of_mem_strip hd), strip_head ds, hrest⟩
  have hone : base58Char 0 = '1'.toUInt8 := rfl
  rw [hpsz, ← List.append_assoc, ← hone, ← List.map_replicate, ← List.map_append, replicate_strip]

/-- Ones and digits are no white space. -/
theorem written_not_space (zeroes : Nat) {ds : List Nat} (hds : ∀ d ∈ ds, d < 58) :
    ∀ c ∈ List.replicate zeroes '1'.toUInt8 ++ ds.map base58Char, isspace c = false := by
  intro c hc
  rcases List.mem_append.mp hc with hc | hc
  · rw [List.eq_of_mem_replicate hc]
    rfl
  · obtain ⟨d, hd, rfl⟩ := List.mem_map.mp hc
    exact base58Char_not_space (hds d hd)

theorem written_mem (zeroes : Nat) {ds : List Nat} (hds : ∀ d ∈ ds, d < 58) :
    ∀ c ∈ List.replicate zeroes '1'.toUInt8 ++ ds.map base58Char, c ∈ pszBase58 := by
  intro c hc
  rcases List.mem_append.mp hc with hc | hc
  · rw [List.eq_of_mem_replicate hc]
    exact base58Char_mem (by decide : 0 < 58)
  · obtain ⟨d, hd, rfl⟩ := List.mem_map.mp hc
    exact base58Char_mem (hds d hd)

theorem le_leadingCount {z : UInt8} {n : Nat} {s rest : Bytes} (h : s = List.replicate n z ++ rest) :
    n ≤ (s.takeWhile (· == z)).length := by
  rw [h, List.takeWhile_append_of_pos fun a ha => beq_iff_eq.mpr (List.eq_of_mem_replicate ha),
    List.length_append, List.length_replicate]
  exact Nat.le_add_right _ _

/-- Encoding and then decoding returns the byte vector. -/
theorem decode_encode {vch : Bytes} (hzeroes : (vch.takeWhile (· == 0)).length < 2 ^ 31) :
    ∃ str, encodeBase58 vch = .ok str ∧ decodeBase58 str = .ok vch := by
  have hbytes : ∀ d ∈ vch.map UInt8.toNat, d < 256 := fun d hd => by
    obtain ⟨b, -, rfl⟩ := List.mem_map.mp hd
    exact b.toNat_lt
  obtain ⟨zeroes, hparts⟩ : ∃ zeroes, List.replicate zeroes 0 ++ strip (vch.map UInt8.toNat) =
    vch.map UInt8.toNat := ⟨_, replicate_strip _⟩
  generalize hbs : strip (vch.map UInt8.toNat) = bs at hparts
  have hlt : ∀ d ∈ bs, d < 256 := fun d hd => hbytes d (mem_of_mem_strip (hbs ▸ hd))
  have hhead : bs.head? ≠ some 0 := hbs ▸ strip_head _
  have hvch : List.replicate zeroes 0 ++ bs.map UInt8.ofNat = vch := by
    have h := congrArg (List.map UInt8.ofNat) hparts
    rw [List.map_append, List.map_replicate, List.map_map] at h
    refine h.trans ((List.map_congr_left fun b _ => ?_).trans (List.map_id vch))
    exact UInt8.ofNat_toNat
  have hzeroes : zeroes < 2 ^ 31 := Nat.lt_of_le_of_lt (le_leadingCount hvch.symm) hzeroes
  obtain ⟨ds, hds, hdhead, hvalue, hencode⟩ := encodeBase58_eq hzeroes hlt hhead
  have hstr : (List.replicate zeroes '1'.toUInt8 ++ ds.map base58Char).dropWhile isspace =
      List.replicate zeroes '1'.toUInt8 ++ (ds.map base58Char ++ []) := by
    rw [List.append_nil]
    exact dropWhile_of_none fun c s hl =>
      written_not_space zeroes hds c (by rw [hl]; exact List.mem_cons_self)
  obtain ⟨bs', hlt', hhead', hvalue', hdecode⟩ := decodeBase58_eq hzeroes hstr hds hdhead nofun
  have hsame : bs' = bs := by
    rw [← strip_of_head hhead']
    exact strip_eq (by decide) hlt' hlt hhead (hvalue'.trans hvalue)
  rw [hvch] at hencode
  rw [hsame, hvch] at hdecode
  exact ⟨_, hencode, hdecode⟩

/-- What decoding says about a string: it is refused because of a character that is no digit, or its
trimmed form consists of digits and is the encoding of the result. -/
theorem decode_cases {psz : Bytes}
    (hzeroes : ((psz.dropWhile isspace).takeWhile (· == '1'.toUInt8)).length < 2 ^ 31) :
    (decodeBase58 psz = .error .refused ∧ ∃ c ∈ trimSpace psz, c ∉ pszBase58) ∨
    ∃ vch, decodeBase58 psz = .ok vch ∧ encodeBase58 vch = .ok (trimSpace psz) ∧
      ∀ c ∈ trimSpace psz, c ∈ pszBase58 := by
  obtain ⟨zeroes, ds, rest, hpsz, hds, hhead, hrest⟩ := exists_base58Parts psz
  have hzeroes : zeroes < 2 ^ 31 := Nat.lt_of_le_of_lt (le_leadingCount hpsz) hzeroes
  obtain ⟨bs, hlt, hbhead, hvalue, hdecode⟩ := decodeBase58_eq hzeroes hpsz hds hhead hrest
  by_cases hend : rest.dropWhile isspace = []
  · rw [if_pos hend] at hdecode
    have htrim : trimSpace psz = List.replicate zeroes '1'.toUInt8 ++ ds.map base58Char := by
      rw [trimSpace, hpsz, ← List.append_assoc]
      exact rdropWhile_append (written_not_space zeroes hds) hend
    obtain ⟨ds', hds', hhead', hvalue', hencode⟩ := encodeBase58_eq hzeroes hlt hbhead
    have hsame : ds' = ds := by
      rw [← strip_of_head hhead']
      exact strip_eq (by decide) hds' hds hhead (hvalue'.trans hvalue)
    rw [hsame, ← htrim] at hencode
    exact .inr ⟨_, hdecode, hencode, htrim ▸ written_mem zeroes hds⟩
  · rw [if_neg hend] at hdecode
    refine .inl ⟨hdecode, ?_⟩
    cases rest with
    | nil => exact absurd rfl hend
    | cons c s =>
      refine ⟨c, ?_, fun hc => ?_⟩
      · rw [trimSpace, hpsz, ← List.append_assoc]
        exact mem_rdropWhile hend
      · have hspace := (hrest c s rfl).resolve_right (not_not.mpr hc)
        have hnone : ∀ c ∈ pszBase58, isspace c = false := by decide +kernel
        rw [hnone c hc] at hspace
        cases hspace

/-- Otherwise the count of the ones overflows. -/
theorem decode_overflow {psz : Bytes}
    (hzeroes : ¬ ((psz.dropWhile isspace).takeWhile (· == '1'.toUInt8)).length < 2 ^ 31) :
    decodeBase58 psz = .error .overflow := by
  rw [decodeBase58]
  simp only [countZeroes, if_neg hzeroes]
  rfl

theorem decode_ok {psz vch : Bytes} (h : decodeBase58 psz = .ok vch) :
    encodeBase58 vch = .ok (trimSpace psz) ∧ ∀ c ∈ trimSpace psz, c ∈ pszBase58 := by
  by_cases hzeroes : ((psz.dropWhile isspace).takeWhile (· == '1'.toUInt8)).length < 2 ^ 31
  · rcases decode_cases hzeroes with ⟨hrefused, -⟩ | ⟨vch', hok, hencode⟩
    · rw [hrefused] at h
      cases h
    · rw [hok] at h
      cases h
      exact hencode
  · rw [decode_overflow hzeroes] at h
    cases h

theorem encode_overflow {vch : Bytes} (hzeroes : ¬ (vch.takeWhile (· == 0)).length < 2 ^ 31) :
    encodeBase58 vch = .error .overflow := by
  rw [encodeBase58]
  simp only [countZeroes, if_neg hzeroes]
  rfl

/-- Base58 is a bijection on its image: every byte vector is encoded and read back, what is accepted
is the encoding of its result between white space, a string with any other character is refused,
and no assertion fails; as long as an `int` counts the zeros or ones at the beginning. -/
theorem base58_bijection :
    (∀ vch : Bytes, (vch.takeWhile (· == 0)).length < 2 ^ 31 →
      ∃ str, encodeBase58 vch = .ok str ∧ decodeBase58 str = .ok vch) ∧
    (∀ psz vch, decodeBase58 psz = .ok vch → encodeBase58 vch = .ok (trimSpace psz)) ∧
    (∀ psz : Bytes, ((psz.dropWhile isspace).takeWhile (· == '1'.toUInt8)).length < 2 ^ 31 →
      (decodeBase58 psz = .error .refused ↔ ∃ c ∈ trimSpace psz, c ∉ pszBase58)) ∧
    (∀ vch, encodeBase58 vch ≠ .error .assertFailed) ∧
    ∀ psz, decodeBase58 psz ≠ .error .assertFailed := by
  refine ⟨fun vch => decode_encode, fun psz vch h => (decode_ok h).1, fun psz hzeroes => ?_,
    fun vch h => ?_, fun psz h => ?_⟩
  · rcases decode_cases hzeroes with ⟨hrefused, hbad⟩ | ⟨vch', hok, -, hgood⟩
    · exact ⟨fun _ => hbad, fun _ => hrefused⟩
    · rw [hok]
      exact ⟨fun h => (nomatch h), fun ⟨c, hc, hnot⟩ => absurd (hgood c hc) hnot⟩
  · by_cases hzeroes : (vch.takeWhile (· == 0)).length < 2 ^ 31
    · obtain ⟨str, hok, -⟩ := decode_encode hzeroes
      rw [hok] at h
      cases h
    · rw [encode_overflow hzeroes] at h
      cases h
  · by_cases hzeroes : ((psz.dropWhile isspace).takeWhile (· == '1'.toUInt8)).length < 2 ^ 31
    · rcases decode_cases hzeroes with ⟨hrefused, -⟩ | ⟨vch', hok, -, -⟩
      · rw [hrefused] at h
        cases h
      · rw [hok] at h
        cases h
    · rw [decode_overflow hzeroes] at h
      cases h

/-- The bytes 0 and 1, as the characters for 0 and 1. -/
theorem base58_bijection_two : ∃ str, encodeBase58 [0, 1] = .ok str ∧ decodeBase58 str = .ok [0, 1] :=
  base58_bijection.1 [0, 1] (by decide)

/-- So many zeros that their number is no `int`. -/
theorem base58_overflow : ∃ vch : Bytes, vch ≠ [] ∧ encodeBase58 vch = .error .overflow := by
  refine ⟨List.replicate (2 ^ 31) 0, List.ne_nil_of_length_pos (by
    rw [List.length_replicate]
    exact Nat.two_pow_pos 31), encode_overflow ?_⟩
  have h := le_leadingCount (s := List.replicate (2 ^ 31) (0 : UInt8)) (List.append_nil _).symm
  exact Nat.not_lt.mpr h

/-! ## With a checksum -/

section

variable {hash : Bytes → UInt256}

theorem length_checksum (vch : Bytes) : (checksum hash vch).length = 4 := by
  rw [checksum, uint256Bytes, List.length_take, length_leBytes]
  rfl

theorem decode_encoded {str vch : Bytes} (h : encodeBase58 vch = .ok str) :
    decodeBase58 str = .ok vch := by
  by_cases hzeroes : (vch.takeWhile (· == 0)).length < 2 ^ 31
  · obtain ⟨str', hencode, hdecode⟩ := decode_encode hzeroes
    rwa [Except.ok.inj (h.symm.trans hencode)]
  · rw [encode_overflow hzeroes] at h
    cases h

theorem ones_lt {psz : Bytes} (h : psz.length < 2 ^ 31) :
    ((psz.dropWhile isspace).takeWhile (· == '1'.toUInt8)).length < 2 ^ 31 :=
  Nat.lt_of_le_of_lt (((List.takeWhile_sublist _).trans (List.dropWhile_sublist _)).length_le) h

/-- A string without its white space is the encoding of a vector exactly if this is what it is read as. -/
theorem decode_iff {psz : Bytes} (hpsz : psz.length < 2 ^ 31) (vch : Bytes) :
    decodeBase58 psz = .ok vch ↔ encodeBase58 vch = .ok (trimSpace psz) := by
  refine ⟨fun h => (decode_ok h).1, fun h => ?_⟩
  have hdecode := decode_encoded h
  obtain ⟨hencode, hgood⟩ := decode_ok hdecode
  have hsame : trimSpace (trimSpace psz) = trimSpace psz :=
    Except.ok.inj (hencode.symm.trans h)
  rw [hsame] at hgood
  rcases decode_cases (ones_lt hpsz) with ⟨-, c, hc, hnot⟩ | ⟨vch', hok, hencode', -⟩
  · exact absurd (hgood c hc) hnot
  · rw [hok, ← decode_encoded hencode', hdecode]

/-- The same with the checksum. -/
theorem decodeCheck_iff {psz : Bytes} (hpsz : psz.length < 2 ^ 31) (vch : Bytes) :
    decodeBase58Check hash psz = .ok vch ↔ encodeBase58Check hash vch = .ok (trimSpace psz) := by
  rw [encodeBase58Check, ← decode_iff hpsz, decodeBase58Check]
  have hlen : (vch ++ checksum hash vch).length - 4 = vch.length := by
    rw [List.length_append, length_checksum]
    omega
  cases hdecode : decodeBase58 psz with
  | error e => exact ⟨fun h => (by cases h), fun h => (by cases h)⟩
  | ok vchRet =>
    rw [ok_bind]
    constructor
    · intro h
      split_ifs at h with hshort hsum
      rw [not_not] at hsum
      obtain rfl : vchRet.take (vchRet.length - 4) = vch := Except.ok.inj h
      rw [hsum, List.take_append_drop]
    · intro h
      obtain rfl : vchRet = vch ++ checksum hash vch := Except.ok.inj h
      have hlong : ¬ (vch ++ checksum hash vch).length < 4 := by
        rw [List.length_append, length_checksum]
        omega
      rw [if_neg hlong, hlen, List.take_left' rfl, List.drop_left' rfl, if_neg (not_not.mpr rfl)]
      rfl

variable (hash)

theorem encodeCheck_ok {vch : Bytes} (h : vch.length ≤ 100) :
    ∃ str, encodeBase58Check hash vch = .ok str := by
  have hzeroes : ((vch ++ checksum hash vch).takeWhile (· == 0)).length < 2 ^ 31 := by
    refine Nat.lt_of_le_of_lt (List.takeWhile_sublist _).length_le ?_
    rw [List.length_append, length_checksum]
    omega
  obtain ⟨str, hencode, -⟩ := decode_encode hzeroes
  exact ⟨str, hencode⟩

/-- No assertion fails. -/
theorem decodeCheck_cases {psz : Bytes} (hpsz : psz.length < 2 ^ 31) :
    decodeBase58Check hash psz = .error .refused ∨ ∃ vch, decodeBase58Check hash psz = .ok vch := by
  rw [decodeBase58Check]
  rcases decode_cases (ones_lt hpsz) with ⟨hrefused, -⟩ | ⟨vch, hok, -⟩
  · rw [hrefused]
    exact .inl rfl
  · rw [hok, ok_bind]
    split_ifs
    · exact .inl rfl
    · exact .inl rfl
    · exact .inr ⟨_, rfl⟩

/-- `SetString` refuses a string and clears the data, or the string is what `ToString` gives. -/
theorem setString_cases {psz : Bytes} (hpsz : psz.length < 2 ^ 31) : ∃ fOk b58, CBase58Data.setString hash psz 1 = .ok (fOk, b58) ∧
    (fOk = false → b58 = ⟨[], []⟩) ∧
    ∀ b58', b58'.vchVersion.length = 1 →
      (fOk = true ∧ b58 = b58' ↔ b58'.toString hash = .ok (trimSpace psz)) := by
  unfold CBase58Data.setString
  have hrefuse : (∀ vch, decodeBase58Check hash psz = .ok vch → vch.length < 1) →
      ∀ b58' : CBase58Data, b58'.vchVersion.length = 1 →
      (false = true ∧ ⟨[], []⟩ = b58' ↔ b58'.toString hash = .ok (trimSpace psz)) := by
    intro hshort b58' hver
    refine ⟨fun h => (by cases h.1), fun h => ?_⟩
    have := hshort _ ((decodeCheck_iff hpsz _).mpr h)
    rw [List.length_append, hver] at this
    omega
  rcases decodeCheck_cases hash hpsz with hdecode | ⟨vch, hdecode⟩
  · rw [hdecode]
    refine ⟨false, _, rfl, fun _ => rfl, hrefuse fun vch h => ?_⟩
    rw [hdecode] at h
    cases h
  · rw [hdecode]
    simp only
    split_ifs with hshort
    · refine ⟨false, _, rfl, fun _ => rfl, hrefuse fun vch' h => ?_⟩
      rw [hdecode] at h
      cases h
      exact hshort
    · refine ⟨true, _, rfl, fun h => (by cases h), fun b58' hver => ?_⟩
      rw [CBase58Data.toString, ← decodeCheck_iff hpsz, hdecode]
      constructor
      · rintro ⟨-, rfl⟩
        rw [List.take_append_drop]
      · intro h
        obtain rfl : vch = b58'.vchVersion ++ b58'.vchData := Except.ok.inj h
        rw [List.take_left' hver, List.drop_left' hver]
        exact ⟨rfl, rfl⟩

end

/-! ## Addresses -/

namespace CBitcoinAddress

variable (params : Base58Prefixes)

theorem length_version_ofDestination {dest : Destination} (h : dest ≠ .noDestination) :
    (ofDestination params dest).vchVersion.length = 1 := by
  cases dest with
  | noDestination => exact absurd rfl h
  | keyID id => exact params.length_pubKey
  | scriptID id => exact params.length_script

theorem isValid_ofDestination {dest : Destination} (h : dest ≠ .noDestination) :
    isValid params (ofDestination params dest) = true := by
  cases dest with
  | noDestination => exact absurd rfl h
  | keyID id => simp [isValid, ofDestination, set, id.property]
  | scriptID id => simp [isValid, ofDestination, set, id.property]

theorem get_ofDestination (dest : Destination) : get params (ofDestination params dest) = dest := by
  by_cases h : dest = .noDestination
  · subst h
    exact dif_neg Bool.false_ne_true
  · rw [get, dif_pos (isValid_ofDestination params h)]
    cases dest with
    | noDestination => exact absurd rfl h
    | keyID id => exact if_pos rfl
    | scriptID id => exact (if_neg params.distinct.symm).trans (if_pos rfl)

variable {params}

/-- The data of a valid address are those of its destination. -/
theorem ofDestination_get {addr : CBase58Data} (h : isValid params addr = true) :
    get params addr ≠ .noDestination ∧ ofDestination params (get params addr) = addr := by
  have hversion : addr.vchVersion = params.PUBKEY_ADDRESS ∨ addr.vchVersion = params.SCRIPT_ADDRESS := by
    simp only [isValid, Bool.and_eq_true, Bool.or_eq_true, beq_iff_eq] at h
    exact h.2
  rw [get, dif_pos h]
  simp only
  split_ifs with hkey hscript
  · constructor
    · rintro ⟨⟩
    · rw [ofDestination, set, ← hkey]
  · constructor
    · rintro ⟨⟩
    · rw [ofDestination, set, ← hscript]
  · exact absurd hversion (not_or.mpr ⟨hkey, hscript⟩)

theorem length_ofDestination (dest : Destination) :
    ((ofDestination params dest).vchVersion ++ (ofDestination params dest).vchData).length ≤ 21 := by
  rw [List.length_append]
  cases dest with
  | noDestination => exact Nat.zero_le _
  | keyID id => exact (congrArg₂ (· + ·) params.length_pubKey id.property).le
  | scriptID id => exact (congrArg₂ (· + ·) params.length_script id.property).le

/-- **Addresses as text.** Every destination has a text. A string that is not too long for the `int` that
counts its ones is read without a failed assertion, and as a destination exactly if it is the text of this
destination, between white space; it is a valid address exactly if it is one of some destination. -/
theorem address_text (params : Base58Prefixes) (hash : Bytes → UInt256) :
    (∀ dest, ∃ str, (ofDestination params dest).toString hash = .ok str) ∧
    ∀ strAddress : Bytes, strAddress.length < 2 ^ 31 → ∃ addr, ofString hash strAddress = .ok addr ∧
      (isValid params addr = true ↔ get params addr ≠ .noDestination) ∧
      ∀ dest, dest ≠ .noDestination → (get params addr = dest ↔
        (ofDestination params dest).toString hash = .ok (trimSpace strAddress)) := by
  refine ⟨fun dest => encodeCheck_ok hash ((length_ofDestination dest).trans (by decide)),
    fun strAddress hlen => ?_⟩
  obtain ⟨fOk, addr, hset, hclear, hiff⟩ := setString_cases hash hlen
  have hvalid : isValid params addr = true ↔ get params addr ≠ .noDestination :=
    ⟨fun h => (ofDestination_get h).1, fun h => by_contra fun hn => h (dif_neg hn)⟩
  refine ⟨addr, by rw [ofString, hset]; rfl, hvalid, fun dest hdest => ?_⟩
  rw [← hiff _ (length_version_ofDestination params hdest)]
  constructor
  · intro hget
    have haddr := ofDestination_get (hvalid.mpr (hget ▸ hdest))
    refine ⟨?_, by rw [← hget, haddr.2]⟩
    by_contra hno
    rw [hclear (Bool.eq_false_of_not_eq_true hno)] at haddr
    exact haddr.1 (dif_neg Bool.false_ne_true)
  · rintro ⟨-, rfl⟩
    exact get_ofDestination params dest

/-- The text of twenty zeros as a key hash of the main network, if every checksum is zero. -/
def zerosText : Bytes :=
  [71, 72, 113, 118, 82, 56, 75, 119, 121, 114, 99, 74, 53, 85, 74, 72, 118, 119, 102, 55, 82, 109, 76,
    116, 118, 65, 110, 114, 49, 117, 65, 102, 50, 55]

theorem address_text_zeros : ∃ addr, ofString (fun _ => 0) (32 :: zerosText) = .ok addr ∧
    get mainPrefixes addr = .keyID ⟨List.replicate 20 0, List.length_replicate⟩ := by
  obtain ⟨addr, hread, -, hget⟩ :=
    (address_text mainPrefixes fun _ => 0).2 (32 :: zerosText) (by decide)
  exact ⟨addr, hread, (hget (.keyID _) Destination.noConfusion).mpr (by decide +kernel)⟩

end CBitcoinAddress

/-! ## Secret keys -/

namespace CBitcoinSecret

variable {params : Base58Prefixes}

/-- The data of a key. -/
def keyData (params : Base58Prefixes) (key : Bip32.CKey) : CBase58Data :=
  ⟨params.SECRET_KEY, key.vch.val ++ if key.fCompressed then [1] else []⟩

theorem length_keyData (key : Bip32.CKey) :
    ((keyData params key).vchVersion ++ (keyData params key).vchData).length ≤ 34 := by
  have hversion := params.length_secret
  have hlen := key.vch.property
  cases hc : key.fCompressed <;> simp [keyData, hc, hlen, hversion]

theorem isValid_keyData (key : Bip32.CKey) : isValid params (keyData params key) = true := by
  have hlen := key.vch.property
  cases hc : key.fCompressed <;>
    simp [isValid, keyData, hc, hlen]

theorem getKey_keyData {key : Bip32.CKey} (h : key.fValid = true) (ret : Bip32.CKey) :
    getKey ret (keyData params key) = .ok key := by
  have hlen := key.vch.property
  have htake : (keyData params key).vchData.take 32 = key.vch.val := List.take_left' hlen
  have hflag : (decide (32 < (keyData params key).vchData.length) &&
      (keyData params key).vchData[32]? == some 1) = key.fCompressed := by
    cases hc : key.fCompressed <;> simp [keyData, hc, hlen]
  have hlong : ¬ (keyData params key).vchData.length < 32 := by
    simp [keyData, hlen]
  rw [getKey, if_neg hlong, htake, hflag, Bip32.CKey.set_vch h]

/-- The data of a valid secret are those of its key. -/
theorem keyData_getKey {secret : CBase58Data} (hvalid : isValid params secret = true) {ret key : Bip32.CKey}
    (hget : getKey ret secret = .ok key) (hkey : key.fValid = true) : secret = keyData params key := by
  simp only [isValid, Bool.and_eq_true, Bool.or_eq_true, beq_iff_eq] at hvalid
  obtain ⟨hformat, hversion⟩ := hvalid
  rw [getKey] at hget
  split_ifs at hget with hshort
  have hset := Except.ok.inj hget
  rw [Bip32.CKey.set] at hset
  split_ifs at hset with hcheck
  · subst hset
    obtain ⟨version, data⟩ := secret
    rw [keyData, CBase58Data.mk.injEq]
    refine ⟨hversion, ?_⟩
    simp only at hformat ⊢
    rcases hformat with hlen | ⟨hlen, hone⟩
    · simp [hlen, List.take_of_length_le]
    · have hflag : (decide (32 < data.length) && data[32]? == some 1) = true := by
        rw [hlen, hone]
        rfl
      rw [List.getElem?_eq_getElem (by omega), Option.some.injEq] at hone
      have hdrop : data.drop 32 = [1] := by
        rw [List.drop_eq_getElem_cons (by omega), List.drop_of_length_le (by omega), hone]
      rw [hflag, if_pos rfl, ← hdrop, List.take_append_drop]
  · rw [← hset] at hkey
    cases hkey

/-- **Secret keys as text.** Every valid key has a text. A string that is not too long for the `int` that
counts its ones is read without a failed assertion, and is accepted as this key exactly if it is the text
of the key, between white space. -/
theorem secret_text (params : Base58Prefixes) (hash : Bytes → UInt256) :
    (∀ key : Bip32.CKey, key.fValid = true → ∃ secret str, setKey params key = .ok secret ∧
      secret.toString hash = .ok str) ∧
    ∀ pszSecret : Bytes, pszSecret.length < 2 ^ 31 →
      ∃ fOk secret, setString params hash pszSecret = .ok (fOk, secret) ∧
      ∀ key : Bip32.CKey, key.fValid = true → ∀ ret,
        (fOk = true ∧ getKey ret secret = .ok key ↔ ∃ secret', setKey params key = .ok secret' ∧
          secret'.toString hash = .ok (trimSpace pszSecret)) := by
  have hset : ∀ {key : Bip32.CKey}, key.fValid = true → setKey params key = .ok (keyData params key) :=
    fun h => if_pos h
  refine ⟨fun key h => ?_, fun pszSecret hlen => ?_⟩
  · obtain ⟨str, hstr⟩ := encodeCheck_ok hash ((length_keyData key).trans (by decide))
    exact ⟨_, str, hset h, hstr⟩
  · obtain ⟨fOk, secret, hread, -, hiff⟩ := setString_cases hash hlen
    refine ⟨fOk && isValid params secret, secret, by rw [setString, hread]; rfl, fun key hkey ret => ?_⟩
    have htext := hiff (keyData params key) params.length_secret
    rw [hset hkey, Bool.and_eq_true]
    constructor
    · rintro ⟨⟨hok, hvalid⟩, hget⟩
      exact ⟨_, rfl, htext.mp ⟨hok, keyData_getKey hvalid hget hkey⟩⟩
    · rintro ⟨secret', hsecret, hstr⟩
      obtain rfl := Except.ok.inj hsecret
      obtain ⟨hok, rfl⟩ := htext.mpr hstr
      exact ⟨⟨hok, isValid_keyData key⟩, getKey_keyData hkey ret⟩

/-- The key 1, compressed. -/
def keyOne : Bip32.CKey := Bip32.CKey.new.set (List.replicate 31 0 ++ [1]) true

/-- Its text on the main network, if every checksum is zero. -/
def keyOneText : Bytes :=
  [82, 90, 70, 102, 117, 110, 112, 76, 52, 88, 53, 112, 107, 117, 67, 87, 111, 97, 88, 70, 57, 116, 104,
    114, 75, 56, 77, 72, 97, 85, 49, 103, 50, 76, 81, 100, 116, 81, 87, 105, 87, 83, 55, 57, 107, 84, 49,
    117, 87, 89, 78, 84]

theorem secret_text_keyOne : ∃ secret,
    setString mainPrefixes (fun _ => 0) (32 :: keyOneText) = .ok (true, secret) ∧
      getKey .new secret = .ok keyOne := by
  obtain ⟨fOk, secret, hread, hkey⟩ :=
    (secret_text mainPrefixes fun _ => 0).2 (32 :: keyOneText) (by decide)
  obtain ⟨rfl, hget⟩ := (hkey keyOne rfl .new).mpr ⟨keyData mainPrefixes keyOne, rfl, by decide +kernel⟩
  exact ⟨secret, hread, hget⟩

end CBitcoinSecret

end GC
