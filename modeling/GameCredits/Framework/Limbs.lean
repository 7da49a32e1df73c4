import GameCredits.Framework.Radix
import Mathlib.Data.Nat.Bitwise
import Mathlib.Data.Nat.Size
import Mathlib.Tactic.Ring

/-!
# Arithmetic on limbs

A number in limbs of some base, the lowest first, is `Nat.ofDigits base`. `ripple` is the loop that
adds a carry to one term after the other, keeps the lowest digit of the sum and passes the rest on;
what it leaves is the sum of the terms, each at its place, modulo the power of the base
(`ofDigits_ripple`), whatever the size of the terms. Sums, products, increments and decrements are
ripples of their terms. `rippleSums` are the sums on the way; they stay below the square of the base
(`rippleSums_lt`). `testBit_ofDigits` finds the bits of a number in its limbs; the highest digit orders
numbers and gives their bit length (`value_lt_value`, `size_value`). `restoring` is the division that
subtracts the divisor from the highest place downwards (`restoring_eq`).
-/

namespace GC.Framework.Limbs

open Nat (ofDigits)

variable {base carry : Nat} {ds es ts : List Nat}

/-! ## Carries -/

/-- The digits that are kept while a carry goes through the terms. -/
def ripple (base : Nat) : Nat → List Nat → List Nat
  | _, [] => []
  | carry, t :: ts => (carry + t) % base :: ripple base ((carry + t) / base) ts

/-- The sums of carry and term on the way. -/
def rippleSums (base : Nat) : Nat → List Nat → List Nat
  | _, [] => []
  | carry, t :: ts => (carry + t) :: rippleSums base ((carry + t) / base) ts

/-- The digits are those of the sum of all terms, each at its place. -/
theorem ofDigits_ripple (hb : 0 < base) (carry : Nat) (ts : List Nat) :
    ofDigits base (ripple base carry ts) = (carry + ofDigits base ts) % base ^ ts.length := by
  induction ts generalizing carry with
  | nil => rw [List.length_nil, pow_zero, Nat.mod_one]; rfl
  | cons t ts ih =>
    have hlow : (carry + (t + base * ofDigits base ts)) % base = (carry + t) % base := by
      rw [← Nat.add_assoc, Nat.add_mul_mod_self_left]
    have hhigh : (carry + (t + base * ofDigits base ts)) / base =
        (carry + t) / base + ofDigits base ts := by
      rw [← Nat.add_assoc, Nat.add_mul_div_left _ _ hb]
    rw [ripple, Nat.ofDigits_cons, Nat.ofDigits_cons, ih, List.length_cons, pow_succ', Nat.mod_mul,
      hlow, hhigh]

/-- With terms that leave room for a carry, the sums are below the square of the base. -/
theorem rippleSums_lt (hc : carry < base) (hts : ∀ t ∈ ts, t + base ≤ base * base) :
    ∀ n ∈ rippleSums base carry ts, n < base * base := by
  induction ts generalizing carry with
  | nil => exact fun n hn => absurd hn List.not_mem_nil
  | cons t ts ih =>
    obtain ⟨ht, hts⟩ := List.forall_mem_cons.mp hts
    have hsum : carry + t < base * base := by omega
    refine List.forall_mem_cons.mpr ⟨hsum, ih ?_ hts⟩
    exact Nat.div_lt_of_lt_mul hsum

/-- Digits are kept as they are without a carry. -/
theorem ripple_zero (hds : ∀ d ∈ ds, d < base) : ripple base 0 ds = ds := by
  induction ds with
  | nil => rfl
  | cons d ds ih =>
    obtain ⟨hd, hds⟩ := List.forall_mem_cons.mp hds
    rw [ripple, Nat.zero_add, Nat.mod_eq_of_lt hd, Nat.div_eq_of_lt hd, ih hds]

/-- One less than the base at each place, with a carry, keeps the digits as they are. -/
theorem ripple_one_pred (hds : ∀ d ∈ ds, d < base) :
    ripple base 1 (ds.map (· + (base - 1))) = ds := by
  induction ds with
  | nil => rfl
  | cons d ds ih =>
    obtain ⟨hd, hds⟩ := List.forall_mem_cons.mp hds
    have hsum : 1 + (d + (base - 1)) = d + base := by omega
    rw [List.map_cons, ripple, hsum, Nat.add_mod_right, Nat.mod_eq_of_lt hd,
      Nat.add_div_right _ (by omega), Nat.div_eq_of_lt hd, ih hds]

/-! ## Terms -/

theorem ofDigits_zipWith_add (h : ds.length = es.length) :
    ofDigits base (List.zipWith (· + ·) ds es) = ofDigits base ds + ofDigits base es :=
  (Nat.ofDigits_add_ofDigits_eq_ofDigits_zipWith_of_length_eq h).symm

/-- One less than the base at each place is one less than the power of the base. -/
theorem ofDigits_map_pred (hb : 0 < base) (ds : List Nat) :
    ofDigits base (ds.map (· + (base - 1))) + 1 = ofDigits base ds + base ^ ds.length := by
  induction ds with
  | nil => rfl
  | cons d ds ih =>
    obtain ⟨b, rfl⟩ : ∃ b, base = b + 1 := ⟨base - 1, by omega⟩
    rw [List.map_cons, Nat.ofDigits_cons, Nat.ofDigits_cons, List.length_cons, pow_succ']
    rw [Nat.add_sub_cancel] at ih ⊢
    calc d + b + (b + 1) * ofDigits (b + 1) (ds.map (· + b)) + 1
        = d + (b + 1) * (ofDigits (b + 1) (ds.map (· + b)) + 1) := by ring
      _ = d + (b + 1) * ofDigits (b + 1) ds + (b + 1) * (b + 1) ^ ds.length := by
        rw [ih]
        ring

/-- The complement of each digit. -/
theorem ofDigits_complement (hds : ∀ d ∈ ds, d < base) :
    ofDigits base (ds.map (base - 1 - ·)) + ofDigits base ds + 1 = base ^ ds.length := by
  induction ds with
  | nil => rfl
  | cons d ds ih =>
    obtain ⟨hd, hds⟩ := List.forall_mem_cons.mp hds
    have hdigit : base - 1 - d + d + 1 = base := by omega
    rw [List.map_cons, Nat.ofDigits_cons, Nat.ofDigits_cons, List.length_cons, pow_succ', ← ih hds]
    calc base - 1 - d + base * ofDigits base (ds.map (base - 1 - ·)) +
          (d + base * ofDigits base ds) + 1
        = (base - 1 - d + d + 1) +
          base * (ofDigits base (ds.map (base - 1 - ·)) + ofDigits base ds) := by ring
      _ = base * (ofDigits base (ds.map (base - 1 - ·)) + ofDigits base ds + 1) := by
        rw [hdigit]
        ring

/-! ## Rows of a product -/

theorem ofDigits_take_modEq (base : Nat) (es : List Nat) (m : Nat) :
    ofDigits base (es.take m) ≡ ofDigits base es [MOD base ^ m] := by
  rcases Nat.le_total es.length m with hle | hle
  · rw [List.take_of_length_le hle]
  · conv_rhs => rw [← List.take_append_drop m es, Nat.ofDigits_append, List.length_take_of_le hle]
    exact (Nat.add_mul_mod_self_left _ _ _).symm

/-- A ripple from the place `j` on adds a multiple of a number there. -/
theorem ofDigits_row (hb : 1 < base) (hds : ∀ d ∈ ds, d < base) {j : Nat} (hj : j ≤ ds.length)
    (hlen : es.length = ds.length) (c : Nat) :
    ofDigits base (ds.take j ++
        ripple base 0 (List.zipWith (fun x y => x + c * y) (ds.drop j) es)) =
      (ofDigits base ds + base ^ j * (c * ofDigits base es)) % base ^ ds.length := by
  obtain ⟨m, hm⟩ := Nat.exists_eq_add_of_le hj
  have htake : (ds.take j).length = j := List.length_take_of_le hj
  have hdrop : (ds.drop j).length = m := by rw [List.length_drop]; omega
  have hes : (es.take m).length = m := List.length_take_of_le (by omega)
  -- only the first `m` digits of the other factor are read
  have hterms : List.zipWith (fun x y => x + c * y) (ds.drop j) es =
      List.zipWith (· + ·) (ds.drop j) ((es.take m).map (c * ·)) := by
    rw [List.zipWith_map_right, List.zipWith_eq_zipWith_take_min, hdrop, hlen, hm,
      Nat.min_eq_left (by omega), List.take_of_length_le hdrop.le]
  have hlow : ofDigits base (ds.take j) < base ^ j := by
    conv_rhs => rw [← htake]
    exact Nat.ofDigits_lt_base_pow_length hb fun d hd => hds d (List.mem_of_mem_take hd)
  have hsplit : ofDigits base ds =
      ofDigits base (ds.take j) + base ^ j * ofDigits base (ds.drop j) := by
    conv_lhs => rw [← List.take_append_drop j ds, Nat.ofDigits_append, htake]
  have hfactor : base ^ j * (c * ofDigits base (es.take m)) ≡
      base ^ j * (c * ofDigits base es) [MOD base ^ ds.length] := by
    rw [hm, pow_add]
    exact ((ofDigits_take_modEq base es m).mul_left c).mul_left' _
  rw [Nat.ofDigits_append, htake, hterms, ofDigits_ripple (by omega), Nat.zero_add,
    ofDigits_zipWith_add (by rw [List.length_map, hdrop, hes]), ← Nat.mul_ofDigits,
    List.length_zipWith, List.length_map, hdrop, hes, Nat.min_self]
  calc ofDigits base (ds.take j) + base ^ j *
        ((ofDigits base (ds.drop j) + c * ofDigits base (es.take m)) % base ^ m)
      = (ofDigits base (ds.take j) + base ^ j *
        (ofDigits base (ds.drop j) + c * ofDigits base (es.take m))) % base ^ ds.length := by
        rw [hm, pow_add, Nat.mod_mul, Nat.add_mul_mod_self_left, Nat.mod_eq_of_lt hlow,
          Nat.add_mul_div_left _ _ (Nat.pow_pos (by omega)), Nat.div_eq_of_lt hlow, Nat.zero_add]
    _ = (ofDigits base ds + base ^ j * (c * ofDigits base (es.take m))) % base ^ ds.length := by
        rw [Nat.mul_add, ← Nat.add_assoc, ← hsplit]
    _ = (ofDigits base ds + base ^ j * (c * ofDigits base es)) % base ^ ds.length :=
        hfactor.add_left _

/-! ## Bits -/

theorem testBit_ofDigits {w : Nat} (hds : ∀ d ∈ ds, d < 2 ^ w) (m : Nat) {t : Nat} (ht : t < w) :
    (ofDigits (2 ^ w) ds).testBit (w * m + t) = (ds.getD m 0).testBit t := by
  induction ds generalizing m with
  | nil => rw [Nat.ofDigits_nil, List.getD_nil, Nat.zero_testBit, Nat.zero_testBit]
  | cons d ds ih =>
    obtain ⟨hd, hds⟩ := List.forall_mem_cons.mp hds
    rw [Nat.ofDigits_cons, Nat.add_comm, Nat.testBit_two_pow_mul_add _ hd]
    cases m with
    | zero => rw [Nat.mul_zero, Nat.zero_add, if_pos ht, List.getD_cons_zero]
    | succ m =>
      rw [if_neg (by rw [Nat.mul_succ]; omega), List.getD_cons_succ, ← ih hds,
        show w * (m + 1) + t - w = w * m + t by rw [Nat.mul_succ]; omega]

/-! ## The highest digit -/

/-- The highest digit decides. -/
theorem value_lt_value {d e : Nat} (hlen : ds.length = es.length) (hds : ∀ x ∈ ds, x < base)
    (hlt : d < e) : value base (d :: ds) < value base (e :: es) := by
  calc value base (d :: ds) = d * base ^ ds.length + value base ds := value_cons _ _ _
    _ < d * base ^ ds.length + base ^ ds.length := Nat.add_lt_add_left (value_lt hds) _
    _ = (d + 1) * base ^ ds.length := (Nat.succ_mul _ _).symm
    _ ≤ e * base ^ es.length := by
      rw [hlen]
      exact Nat.mul_le_mul_right _ hlt
    _ ≤ value base (e :: es) := by
      rw [value_cons]
      exact Nat.le_add_right _ _

/-- The bit length of a number is that of its highest digit and of the places below. -/
theorem size_value {w d : Nat} (hd : d ≠ 0) (hds : ∀ x ∈ ds, x < 2 ^ w) :
    (value (2 ^ w) (d :: ds)).size = w * ds.length + d.size := by
  have hvalue : value (2 ^ w) (d :: ds) = 2 ^ (w * ds.length) * d + value (2 ^ w) ds := by
    rw [value_cons, ← pow_mul, Nat.mul_comm]
  have hrest : value (2 ^ w) ds < 2 ^ (w * ds.length) := by
    rw [pow_mul]
    exact value_lt hds
  have hpos : 0 < d.size := Nat.size_pos.mpr (Nat.pos_of_ne_zero hd)
  refine le_antisymm (Nat.size_le.mpr ?_) ?_
  · have hlt : d + 1 ≤ 2 ^ d.size := Nat.lt_size_self d
    calc value (2 ^ w) (d :: ds) < 2 ^ (w * ds.length) * d + 2 ^ (w * ds.length) := by
          rw [hvalue]
          exact Nat.add_lt_add_left hrest _
      _ = 2 ^ (w * ds.length) * (d + 1) := rfl
      _ ≤ 2 ^ (w * ds.length) * 2 ^ d.size := Nat.mul_le_mul_left _ hlt
      _ = 2 ^ (w * ds.length + d.size) := (pow_add _ _ _).symm
  · have hle : 2 ^ (d.size - 1) ≤ d := Nat.lt_size.mp (by omega)
    have hlow : 2 ^ (w * ds.length + (d.size - 1)) ≤ value (2 ^ w) (d :: ds) := by
      rw [hvalue, pow_add]
      exact le_trans (Nat.mul_le_mul_left _ hle) (Nat.le_add_right _ _)
    have := Nat.lt_size.mpr hlow
    omega

/-! ## Division -/

/-- Restoring division: from the highest place downwards, the divisor at that place is subtracted
where it is not more than what is left. -/
def restoring (d : Nat) : Nat → Nat → Nat → Nat × Nat
  | 0, q, n => (q, n)
  | s + 1, q, n =>
    if d * 2 ^ s ≤ n then restoring d s (q + 2 ^ s) (n - d * 2 ^ s) else restoring d s q n

theorem restoring_eq {d s n : Nat} (hd : 0 < d) (h : n < d * 2 ^ s) (q : Nat) :
    restoring d s q n = (q + n / d, n % d) := by
  induction s generalizing q n with
  | zero =>
    rw [pow_zero, Nat.mul_one] at h
    rw [restoring, Nat.div_eq_of_lt h, Nat.mod_eq_of_lt h, Nat.add_zero]
  | succ s ih =>
    rw [pow_succ, ← Nat.mul_assoc] at h
    rw [restoring]
    split_ifs with hle
    · obtain ⟨r, rfl⟩ := Nat.exists_eq_add_of_le hle
      rw [Nat.add_sub_cancel_left, ih (by omega), Nat.add_comm (d * 2 ^ s) r,
        Nat.add_mul_div_left _ _ hd, Nat.add_mul_mod_self_left]
      congr 1
      omega
    · exact ih (not_le.mp hle) q

end GC.Framework.Limbs
