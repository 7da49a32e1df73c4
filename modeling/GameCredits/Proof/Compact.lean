import GameCredits.Framework.Leading
import GameCredits.Model.Pow
import Mathlib.Algebra.Order.Floor.Semifield
import Mathlib.Data.Nat.Bitwise
import Mathlib.Data.Rat.Floor

/-!
# The compact form of targets

`GetCompact` writes the number of bytes of a target and its leading 23 bits (`getCompact_toNat`).
Decoding gives these back, with no flag (`setCompact_getCompact`, `getCompact_flags`), so that the
number that comes out is not above the one that went in (`setCompact_getCompact_le`), and a larger
target has a larger compact form (`getCompact_mono`).

`compact_faithful` is about all compact forms, also those that `GetCompact` does not write: a mantissa
of 23 bits and an exponent stand for a rational number, and decoding rounds it down or overflows.
-/

namespace GC

open Framework

/-- The unit of the compact form: a power of 256 such that three bytes are left, of which the first
bit is not used. -/
def compactUnit (s : Nat) : Nat := 2 ^ (8 * (s / 8 - 2))

theorem compactUnit_coarsening : Coarsening compactUnit := by
  intro s t hst
  rcases Nat.eq_or_lt_of_le (Nat.div_le_div_right (c := 8) hst.le) with h | h
  · exact .inl (by rw [compactUnit, compactUnit, h])
  · exact .inr ⟨8 * (t / 8) - 1, by omega, by omega, pow_dvd_pow 2 (by omega)⟩

/-! ## Encoding -/

/-- The bytes that a number takes, one more where the first bit of the first byte is set. -/
def compactSize (n : Nat) : Nat := if n = 0 then 0 else n.size / 8 + 1

/-- The leading 23 bits of a number, in whole bytes. -/
def compactWord (n : Nat) : Nat := n * 2 ^ 24 / 2 ^ (8 * (n.size / 8 + 1))

theorem compactWord_lt (n : Nat) : compactWord n < 2 ^ 23 := by
  rw [compactWord, Nat.div_lt_iff_lt_mul (Nat.two_pow_pos _), ← pow_add]
  calc n * 2 ^ 24 < 2 ^ n.size * 2 ^ 24 :=
        Nat.mul_lt_mul_of_pos_right (Nat.lt_size_self n) (Nat.two_pow_pos 24)
    _ = 2 ^ (n.size + 24) := (pow_add 2 _ _).symm
    _ ≤ 2 ^ (23 + 8 * (n.size / 8 + 1)) := Nat.pow_le_pow_right (by decide) (by omega)

theorem compactSize_lt {n : Nat} (hn : n < 2 ^ 256) : compactSize n < 34 := by
  have := Nat.size_le.mpr hn
  unfold compactSize
  split_ifs <;> omega

/-- A power of two that two bounds on a number share. -/
theorem shift_eq {n a b c : Nat} (h : a = b + c) : n * 2 ^ b / 2 ^ a = n / 2 ^ c := by
  rw [h, pow_add, Nat.mul_comm n, Nat.mul_div_mul_left _ _ (Nat.two_pow_pos b)]

/-- The three bytes that `GetCompact` looks at first. -/
theorem getCompact_word {n : Nat} :
    (if (n.size + 7) / 8 ≤ 3 then n <<< (8 * (3 - (n.size + 7) / 8))
      else n >>> (8 * ((n.size + 7) / 8 - 3))) = n * 2 ^ 24 / 2 ^ (8 * ((n.size + 7) / 8)) := by
  split_ifs with h
  · rw [Nat.shiftLeft_eq, show 24 = 8 * (3 - (n.size + 7) / 8) + 8 * ((n.size + 7) / 8) by omega,
      pow_add, ← Nat.mul_assoc, Nat.mul_div_cancel _ (Nat.two_pow_pos _)]
  · rw [Nat.shiftRight_eq_div_pow]
    exact (shift_eq (by omega)).symm

theorem and_two_pow_eq_zero {v k : Nat} : v &&& 2 ^ k = 0 ↔ v / 2 ^ k % 2 = 0 := by
  rw [Nat.and_two_pow, Nat.testBit_eq_decide_div_mod_eq, Nat.mul_eq_zero, Bool.toNat_eq_zero,
    decide_eq_false_iff_not]
  have h2 : v / 2 ^ k % 2 < 2 := Nat.mod_lt _ (by decide)
  have hpow := Nat.two_pow_pos k
  omega

/-- The first of the three bytes has its first bit set where the size is a number of whole bytes. -/
theorem word_sign {n : Nat} (hpos : 0 < n) :
    2 ^ 23 ≤ n * 2 ^ 24 / 2 ^ (8 * ((n.size + 7) / 8)) ↔ n.size % 8 = 0 := by
  have hsize : 0 < n.size := Nat.size_pos.mpr hpos
  rw [Nat.le_div_iff_mul_le (Nat.two_pow_pos _), ← pow_add]
  constructor
  · intro h
    by_contra hne
    have hlt : n * 2 ^ 24 < 2 ^ (n.size + 24) := by
      rw [pow_add]
      exact Nat.mul_lt_mul_of_pos_right (Nat.lt_size_self n) (Nat.two_pow_pos 24)
    exact absurd (h.trans_lt hlt) (Nat.not_lt.mpr (Nat.pow_le_pow_right (by decide) (by omega)))
  · intro h
    calc 2 ^ (23 + 8 * ((n.size + 7) / 8)) = 2 ^ (n.size - 1) * 2 ^ 24 := by
          rw [← pow_add]
          congr 1
          omega
      _ ≤ n * 2 ^ 24 := Nat.mul_le_mul_right _ (Nat.lt_size.mp (by omega))

/-- The three bytes and the number of bytes, put together. -/
theorem toNat_or_shiftLeft {a b : Nat} (ha : a < 2 ^ 24) (hb : b < 2 ^ 8) :
    (UInt32.ofNat (a ||| b <<< 24)).toNat = b * 2 ^ 24 + a := by
  rw [Nat.or_comm, ← Nat.shiftLeft_add_eq_or_of_lt ha, Nat.shiftLeft_eq, UInt32.toNat_ofNat']
  exact Nat.mod_eq_of_lt (by omega)

theorem getCompact_toNat {n : Nat} (hn : n < 2 ^ 256) :
    (getCompact n).toNat = compactSize n * 2 ^ 24 + compactWord n := by
  rcases Nat.eq_zero_or_pos n with rfl | hpos
  · decide
  have hsize : 0 < n.size := Nat.size_pos.mpr hpos
  have h256 : n.size ≤ 256 := Nat.size_le.mpr hn
  have hsign := word_sign hpos
  have hword := @getCompact_word n
  have hw : compactWord n = n * 2 ^ 24 / 2 ^ (8 * ((n.size / 8 + 1))) := rfl
  have hv24 : n * 2 ^ 24 / 2 ^ (8 * ((n.size + 7) / 8)) < 2 ^ 24 := by
    rw [Nat.div_lt_iff_lt_mul (Nat.two_pow_pos _), Nat.mul_comm]
    exact Nat.mul_lt_mul_of_pos_left
      ((Nat.lt_size_self n).trans_le (Nat.pow_le_pow_right (by decide) (by omega))) (Nat.two_pow_pos 24)
  have hdiv : n * 2 ^ 24 / 2 ^ (8 * ((n.size + 7) / 8)) / 2 ^ 8 =
      n * 2 ^ 24 / 2 ^ (8 * ((n.size + 7) / 8) + 8) := by
    rw [Nat.div_div_eq_div_mul, ← pow_add]
  have hbytes : (n.size + 7) / 8 = if n.size % 8 = 0 then n.size / 8 else n.size / 8 + 1 := by
    split_ifs <;> omega
  rw [compactSize, if_neg hpos.ne', getCompact, hword]
  generalize hv : n * 2 ^ 24 / 2 ^ (8 * ((n.size + 7) / 8)) = v at *
  have hmod : v % 2 ^ 32 = v := Nat.mod_eq_of_lt (by omega)
  have hbit : v &&& 0x00800000 = 0 ↔ ¬ 2 ^ 23 ≤ v := by
    refine (and_two_pow_eq_zero (k := 23)).trans ?_
    omega
  rw [hmod]
  by_cases h8 : n.size % 8 = 0
  · rw [if_pos (fun h => hbit.mp h (hsign.mpr h8))]
    dsimp only
    rw [Nat.shiftRight_eq_div_pow, toNat_or_shiftLeft (by omega) (by omega), hdiv, hw, hbytes, if_pos h8,
      Nat.mul_add]
  · rw [if_neg (fun h => h (hbit.mpr (fun h' => h8 (hsign.mp h'))))]
    dsimp only
    rw [toNat_or_shiftLeft hv24 (by omega), ← hv, hw, hbytes, if_neg h8]

/-! ## Decoding -/

/-- What `SetCompact` takes apart. -/
theorem getCompact_parts {n : Nat} (hn : n < 2 ^ 256) :
    (getCompact n).toNat >>> 24 = compactSize n ∧
      (getCompact n).toNat &&& 0x007FFFFF = compactWord n ∧
      (getCompact n).toNat &&& 0x00800000 = 0 := by
  have hw := compactWord_lt n
  rw [getCompact_toNat hn]
  refine ⟨?_, ?_, ?_⟩
  · rw [Nat.shiftRight_eq_div_pow]
    omega
  · rw [show 0x007FFFFF = 2 ^ 23 - 1 from rfl, Nat.and_two_pow_sub_one_eq_mod]
    omega
  · exact (and_two_pow_eq_zero (k := 23)).mpr (by omega)

theorem setCompact_getCompact {n : Nat} (hn : n < 2 ^ 256) :
    setCompact (getCompact n) = leading compactUnit n := by
  obtain ⟨hs, hw, -⟩ := getCompact_parts hn
  have hle := leading_le compactUnit n
  rw [setCompact, hs, hw]
  rcases Nat.eq_zero_or_pos n with rfl | hpos
  · decide
  rw [compactSize, if_neg hpos.ne', compactWord]
  rcases Nat.lt_or_ge 3 (n.size / 8 + 1) with h3 | h3
  · have hlead : n * 2 ^ 24 / 2 ^ (8 * (n.size / 8 + 1)) * 2 ^ (8 * (n.size / 8 + 1 - 3)) =
        leading compactUnit n := by
      rw [shift_eq (c := 8 * (n.size / 8 - 2)) (by omega), leading, compactUnit]
      congr 2
    rw [if_neg (by omega), Nat.shiftLeft_eq, hlead]
    exact Nat.mod_eq_of_lt (hle.trans_lt hn)
  · -- up to two bytes, nothing is lost
    have hunit : compactUnit n.size = 1 := by
      rw [compactUnit, show n.size / 8 - 2 = 0 by omega]
      rfl
    have hword : n * 2 ^ 24 / 2 ^ (8 * (n.size / 8 + 1)) = n * 2 ^ (8 * (3 - (n.size / 8 + 1))) := by
      rw [show 24 = 8 * (3 - (n.size / 8 + 1)) + 8 * (n.size / 8 + 1) by omega, pow_add,
        ← Nat.mul_assoc, Nat.mul_div_cancel _ (Nat.two_pow_pos _)]
    rw [if_pos h3, Nat.shiftRight_eq_div_pow, hword, Nat.mul_div_cancel _ (Nat.two_pow_pos _), leading,
      hunit, Nat.div_one, Nat.mul_one]
    exact Nat.mod_eq_of_lt hn

theorem setCompact_getCompact_le {n : Nat} (hn : n < 2 ^ 256) : setCompact (getCompact n) ≤ n :=
  setCompact_getCompact hn ▸ leading_le compactUnit n

theorem getCompact_flags {n : Nat} (hn : n < 2 ^ 256) :
    setCompactNegative (getCompact n) = false ∧ setCompactOverflow (getCompact n) = false := by
  obtain ⟨hs, hw, hsign⟩ := getCompact_parts hn
  have hsize := Nat.size_le.mpr hn
  have hcs := compactSize_lt hn
  constructor
  · simp only [setCompactNegative, hsign, bne_self_eq_false, Bool.and_false]
  · simp only [setCompactOverflow, hs, hw]
    -- with 33 bytes, the size is 256 bits and the word has two bytes
    have hword : 32 < compactSize n → compactWord n ≤ 0xFFFF := by
      intro h
      have h256 : n.size / 8 + 1 = 33 := by
        unfold compactSize at h
        split_ifs at h <;> omega
      rw [compactWord, h256, ← Nat.lt_succ_iff, Nat.div_lt_iff_lt_mul (Nat.two_pow_pos _)]
      omega
    have h34 : ¬ 34 < compactSize n := by omega
    have h33 : ¬ 33 < compactSize n := by omega
    rcases Nat.lt_or_ge 32 (compactSize n) with h | h
    · have hw' : ¬ 0xFFFF < compactWord n := Nat.not_lt.mpr (hword h)
      have h3 : ¬ compactSize n ≤ 3 := by omega
      simp only [h34, h33, h3, hw', if_false, decide_false, Bool.and_false, Bool.false_and,
        Bool.or_false]
    · have h32 : ¬ 32 < compactSize n := by omega
      simp only [h34, h33, h32, decide_false, Bool.and_false, Bool.or_false]

/-! ## Order -/

theorem compactSize_mono {m n : Nat} (h : m ≤ n) : compactSize m ≤ compactSize n := by
  have := Nat.size_le_size h
  unfold compactSize
  split_ifs <;> omega

theorem getCompact_mono {m n : Nat} (hmn : m ≤ n) (hn : n < 2 ^ 256) :
    getCompact m ≤ getCompact n := by
  have hm : m < 2 ^ 256 := hmn.trans_lt hn
  have hwm := compactWord_lt m
  rw [UInt32.le_iff_toNat_le, getCompact_toNat hm, getCompact_toNat hn]
  rcases Nat.eq_or_lt_of_le (compactSize_mono hmn) with h | h
  · rcases Nat.eq_zero_or_pos m with rfl | hpos
    · have h0 : compactWord 0 = 0 := by rw [compactWord, Nat.zero_mul, Nat.zero_div]
      rw [h, h0]
      omega
    · have hw : compactWord m ≤ compactWord n := by
        have hs : m.size / 8 + 1 = n.size / 8 + 1 := by
          rwa [compactSize, compactSize, if_neg (by omega), if_neg (by omega)] at h
        rw [compactWord, compactWord, hs]
        exact Nat.div_le_div_right (Nat.mul_le_mul_right _ hmn)
      omega
  · omega

theorem setCompact_getCompact_mono {m n : Nat} (hmn : m ≤ n) (hn : n < 2 ^ 256) :
    setCompact (getCompact m) ≤ setCompact (getCompact n) := by
  rw [setCompact_getCompact (hmn.trans_lt hn), setCompact_getCompact hn]
  exact leading_mono compactUnit_coarsening hmn

/-! ## Precision -/

theorem compactUnit_pos (s : Nat) : 0 < compactUnit s := Nat.two_pow_pos _

theorem compactUnit_dvd {s : Nat} : compactUnit s ∣ 2 ^ (s - 1) := pow_dvd_pow 2 (by omega)

/-- The error is below one part in `2 ^ 15`. -/
theorem setCompact_getCompact_error {n : Nat} (hn : n < 2 ^ 256) (h0 : n ≠ 0) :
    (n - setCompact (getCompact n)) * 2 ^ 15 < n := by
  have hlt := lt_leading_add (compactUnit_pos n.size)
  rw [setCompact_getCompact hn]
  rcases Nat.lt_or_ge (n.size / 8) 2 with h8 | h8
  · -- up to 15 bits, nothing is lost
    have hunit : compactUnit n.size = 1 := by
      rw [compactUnit, show n.size / 8 - 2 = 0 by omega]
      rfl
    omega
  · have hfirst : 2 ^ (n.size - 1) ≤ n := Nat.lt_size.mp (by omega)
    have hunit : compactUnit n.size * 2 ^ 15 ≤ 2 ^ (n.size - 1) := by
      rw [compactUnit, ← pow_add]
      exact Nat.pow_le_pow_right (by decide) (by omega)
    omega

/-- What is decoded is encoded as it was. -/
theorem getCompact_setCompact_getCompact {n : Nat} (hn : n < 2 ^ 256) :
    getCompact (setCompact (getCompact n)) = getCompact n := by
  rw [setCompact_getCompact hn]
  rcases Nat.eq_zero_or_pos n with rfl | hpos
  · rfl
  have hlead : leading compactUnit n < 2 ^ 256 := (leading_le compactUnit n).trans_lt hn
  have hsize : (leading compactUnit n).size = n.size := size_leading hpos.ne' compactUnit_dvd
  have hne : leading compactUnit n ≠ 0 := fun h => by
    rw [h, Nat.size_zero] at hsize
    exact absurd hsize.symm (Nat.size_pos.mpr hpos).ne'
  have hword : compactWord (leading compactUnit n) = compactWord n := by
    have hdiv := leading_div hpos.ne' (compactUnit_pos n.size) compactUnit_dvd
    rw [hsize] at hdiv
    rcases Nat.lt_or_ge (n.size / 8) 2 with h8 | h8
    · have hunit : compactUnit n.size = 1 := by
        rw [compactUnit, show n.size / 8 - 2 = 0 by omega]
        rfl
      rw [hunit, Nat.div_one, Nat.div_one] at hdiv
      rw [hdiv]
    · rw [compactWord, compactWord, hsize, shift_eq (c := 8 * (n.size / 8 - 2)) (by omega),
        shift_eq (c := 8 * (n.size / 8 - 2)) (by omega)]
      exact hdiv
  refine UInt32.toNat_inj.mp ?_
  rw [getCompact_toNat hlead, getCompact_toNat hn, hword, compactSize, compactSize, if_neg hne,
    if_neg hpos.ne', hsize]

/-! ## All compact forms -/

/-- The bits of the mantissa, without the sign. -/
def compactMantissa (nCompact : UInt32) : Nat := nCompact.toNat &&& 0x007FFFFF

def compactExponent (nCompact : UInt32) : Nat := nCompact.toNat >>> 24

/-- The number that a compact form stands for, but for the sign. -/
def compactValue (nCompact : UInt32) : ℚ :=
  compactMantissa nCompact * 256 ^ ((compactExponent nCompact : ℤ) - 3)

theorem compactMantissa_lt (nCompact : UInt32) : compactMantissa nCompact < 2 ^ 23 := by
  rw [compactMantissa, show 0x007FFFFF = 2 ^ 23 - 1 from rfl, Nat.and_two_pow_sub_one_eq_mod]
  exact Nat.mod_lt _ (Nat.two_pow_pos 23)

/-- The number as a fraction. -/
theorem compactValue_eq (nCompact : UInt32) : compactValue nCompact =
    ((compactMantissa nCompact * 2 ^ (8 * compactExponent nCompact) : ℕ) : ℚ) / (2 ^ 24 : ℕ) := by
  have h256 : (256 : ℚ) ^ compactExponent nCompact = 2 ^ (8 * compactExponent nCompact) := by
    rw [pow_mul]
    norm_num
  rw [compactValue, zpow_sub₀ (by norm_num), zpow_natCast, h256]
  push_cast
  ring

theorem floor_compactValue (nCompact : UInt32) : ⌊compactValue nCompact⌋₊ =
    compactMantissa nCompact * 2 ^ (8 * compactExponent nCompact) / 2 ^ 24 := by
  rw [compactValue_eq, Nat.floor_div_eq_div]

theorem le_compactValue {nCompact : UInt32} : 2 ^ 256 ≤ compactValue nCompact ↔
    2 ^ 256 * 2 ^ 24 ≤ compactMantissa nCompact * 2 ^ (8 * compactExponent nCompact) := by
  rw [compactValue_eq, le_div_iff₀ (by norm_num)]
  norm_cast

/-- The three thresholds of `SetCompact`, one for each number of bytes of the mantissa. -/
theorem overflow_iff {w s : Nat} (hw : w < 2 ^ 23) :
    w ≠ 0 ∧ (34 < s ∨ 0xFF < w ∧ 33 < s ∨ 0xFFFF < w ∧ 32 < s) ↔
      2 ^ 256 * 2 ^ 24 ≤ w * 2 ^ (8 * s) := by
  rcases Nat.lt_or_ge 34 s with h | h
  · obtain ⟨k, rfl⟩ : ∃ k, s = 35 + k := ⟨s - 35, by omega⟩
    have hpow : 2 ^ (8 * (35 + k)) = 2 ^ 256 * 2 ^ 24 * 2 ^ (8 * k) := by
      rw [← pow_add, ← pow_add]
      congr 1
      omega
    have hpos := Nat.two_pow_pos (8 * k)
    rw [hpow, Nat.mul_left_comm]
    constructor
    · exact fun ⟨hne, _⟩ => Nat.le_mul_of_pos_right _ (Nat.mul_pos (Nat.pos_of_ne_zero hne) hpos)
    · intro hle
      refine ⟨fun h0 => ?_, .inl (by omega)⟩
      rw [h0, Nat.zero_mul, Nat.mul_zero] at hle
      exact absurd hle (by norm_num)
  rcases Nat.lt_or_ge 32 s with h' | h'
  · obtain rfl | rfl : s = 33 ∨ s = 34 := by omega
    · rw [← pow_add, show 256 + 24 = 16 + 8 * 33 by decide, pow_add,
        Nat.mul_le_mul_right_iff (Nat.two_pow_pos _)]
      omega
    · rw [← pow_add, show 256 + 24 = 8 + 8 * 34 by decide, pow_add,
        Nat.mul_le_mul_right_iff (Nat.two_pow_pos _)]
      omega
  · have hlt : w * 2 ^ (8 * s) < 2 ^ 256 * 2 ^ 24 := by
      calc w * 2 ^ (8 * s) < 2 ^ 23 * 2 ^ (8 * s) := Nat.mul_lt_mul_of_pos_right hw (by positivity)
        _ ≤ 2 ^ 23 * 2 ^ 256 :=
          Nat.mul_le_mul_left _ (Nat.pow_le_pow_right (by decide) (by omega))
        _ ≤ 2 ^ 256 * 2 ^ 24 := by norm_num
    exact iff_of_false (by omega) (Nat.not_le.mpr hlt)

theorem setCompactOverflow_iff (nCompact : UInt32) :
    setCompactOverflow nCompact = true ↔ 2 ^ 256 ≤ compactValue nCompact := by
  rw [le_compactValue, ← overflow_iff (compactMantissa_lt nCompact)]
  by_cases h3 : compactExponent nCompact ≤ 3
  · -- a short mantissa never overflows
    refine iff_of_false ?_ (by omega)
    have h3' : nCompact.toNat >>> 24 ≤ 3 := h3
    simp only [setCompactOverflow, show ¬ 34 < nCompact.toNat >>> 24 by omega,
      show ¬ 33 < nCompact.toNat >>> 24 by omega, show ¬ 32 < nCompact.toNat >>> 24 by omega,
      decide_false, Bool.and_false, Bool.or_false]
    exact Bool.false_ne_true
  · have h3' : ¬ nCompact.toNat >>> 24 ≤ 3 := h3
    simp only [setCompactOverflow, h3', if_false, Bool.and_eq_true, Bool.or_eq_true, bne_iff_ne,
      decide_eq_true_eq, or_assoc]
    rfl

/-- Without overflow, decoding rounds down. -/
theorem setCompact_eq_floor {nCompact : UInt32} (h : setCompactOverflow nCompact = false) :
    setCompact nCompact = ⌊compactValue nCompact⌋₊ := by
  have hlt : compactMantissa nCompact * 2 ^ (8 * compactExponent nCompact) < 2 ^ 256 * 2 ^ 24 := by
    rw [← Nat.not_le, ← le_compactValue, ← setCompactOverflow_iff, h]
    decide
  have hdef : setCompact nCompact = (if compactExponent nCompact ≤ 3 then
      compactMantissa nCompact >>> (8 * (3 - compactExponent nCompact)) else
        compactMantissa nCompact <<< (8 * (compactExponent nCompact - 3))) % 2 ^ 256 := rfl
  have hfloor := floor_compactValue nCompact
  have hfit : ⌊compactValue nCompact⌋₊ < 2 ^ 256 := by
    rw [hfloor]
    rwa [Nat.div_lt_iff_lt_mul (Nat.two_pow_pos 24)]
  have hparts : (if compactExponent nCompact ≤ 3 then
      compactMantissa nCompact >>> (8 * (3 - compactExponent nCompact)) else
        compactMantissa nCompact <<< (8 * (compactExponent nCompact - 3))) =
      ⌊compactValue nCompact⌋₊ := by
    rw [hfloor]
    split_ifs with h3
    · rw [Nat.shiftRight_eq_div_pow]
      exact (shift_eq (by omega)).symm
    · rw [Nat.shiftLeft_eq, show 8 * compactExponent nCompact =
        8 * (compactExponent nCompact - 3) + 24 by omega, pow_add, ← Nat.mul_assoc,
        Nat.mul_div_cancel _ (Nat.two_pow_pos 24)]
  rw [hdef, hparts, Nat.mod_eq_of_lt hfit]

/-- Compact forms decode to the number that they stand for, rounded down, unless that has more than
256 bits; what is encoded loses less than one part in `2 ^ 15`, decodes without a flag and in the
order of the numbers, and is encoded again as it was. -/
theorem compact_faithful :
    (∀ nCompact : UInt32,
      (setCompactOverflow nCompact = true ↔ 2 ^ 256 ≤ compactValue nCompact) ∧
      (setCompactOverflow nCompact = false → setCompact nCompact = ⌊compactValue nCompact⌋₊)) ∧
    ∀ n < 2 ^ 256, setCompact (getCompact n) ≤ n ∧
      (n ≠ 0 → (n - setCompact (getCompact n)) * 2 ^ 15 < n) ∧
      setCompactNegative (getCompact n) = false ∧ setCompactOverflow (getCompact n) = false ∧
      getCompact (setCompact (getCompact n)) = getCompact n ∧
      ∀ m ≤ n, setCompact (getCompact m) ≤ setCompact (getCompact n) := by
  refine ⟨fun nCompact => ⟨setCompactOverflow_iff nCompact, setCompact_eq_floor⟩, fun n hn => ?_⟩
  obtain ⟨hneg, hover⟩ := getCompact_flags hn
  exact ⟨setCompact_getCompact_le hn, setCompact_getCompact_error hn, hneg, hover,
    getCompact_setCompact_getCompact hn, fun m hm => setCompact_getCompact_mono hm hn⟩

/-- The limit of the proof of work, of which 27 bytes are dropped. -/
theorem compact_faithful_limit :
    (mainParams.powLimit - setCompact (getCompact mainParams.powLimit)) * 2 ^ 15 <
      mainParams.powLimit :=
  (compact_faithful.2 mainParams.powLimit (by decide)).2.1 (by decide)

end GC
