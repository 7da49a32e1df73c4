import GameCredits.Framework.Leading
import GameCredits.Framework.Limbs
import GameCredits.Model.ArithUint256

/-!
# 256-bit integers

What the operators of `base_uint` do to the number in the limbs (`value`): the carry loops are ripples
over digits of 32 bits whose sums never reach `2 ^ 64` (`map_carryLoop`), the shifts move bits
(`value_of_moves`), and `operator/=` is restoring division (`value_divLoop`). `integerArithmetic` puts
them together for `arith_uint256`.
-/

namespace GC

open Framework Framework.Limbs
open Nat (ofDigits)

/-! ## Carry loops -/

/-- The digits of limbs. -/
theorem map_toNat_lt (pn : List UInt32) : ∀ d ∈ pn.map UInt32.toNat, d < 2 ^ 32 := by
  intro d hd
  obtain ⟨x, -, rfl⟩ := List.mem_map.mp hd
  exact x.toNat_lt

/-- Where no sum wraps, a carry loop is a ripple. -/
theorem map_carryLoop {carry : UInt64} {ts : List UInt64}
    (h : ∀ n ∈ rippleSums (2 ^ 32) carry.toNat (ts.map UInt64.toNat), n < 2 ^ 64) :
    (carryLoop carry ts).map UInt32.toNat =
      ripple (2 ^ 32) carry.toNat (ts.map UInt64.toNat) := by
  induction ts generalizing carry with
  | nil => rfl
  | cons t ts ih =>
    rw [List.map_cons, rippleSums] at h
    obtain ⟨hsum, h⟩ := List.forall_mem_cons.mp h
    have hn : (carry + t).toNat = carry.toNat + t.toNat := by
      rw [UInt64.toNat_add, Nat.mod_eq_of_lt hsum]
    have hcarry : ((carry + t) >>> 32).toNat = (carry.toNat + t.toNat) / 2 ^ 32 := by
      rw [UInt64.toNat_shiftRight, hn, ← Nat.shiftRight_eq_div_pow]
      rfl
    rw [carryLoop, List.map_cons, List.map_cons, ripple, ih (by rw [hcarry]; exact h), hcarry,
      UInt64.toNat_toUInt32, hn]

/-- A carry loop whose terms are exact and leave room for a carry. -/
theorem map_carryLoop_zero {ts : List UInt64} {exact : List Nat}
    (hterms : ts.map UInt64.toNat = exact)
    (h : ∀ n ∈ rippleSums (2 ^ 32) 0 exact, n < 2 ^ 64) :
    (carryLoop 0 ts).map UInt32.toNat = ripple (2 ^ 32) 0 exact := by
  subst hterms
  have hzero : (0 : UInt64).toNat = 0 := rfl
  rw [← hzero] at h ⊢
  exact map_carryLoop h

/-- A product of two digits and a third digit leave room for a carry. -/
theorem mul_add_digit_le {x c y : Nat} (hx : x < 2 ^ 32) (hc : c < 2 ^ 32) (hy : y < 2 ^ 32) :
    x + c * y + 2 ^ 32 ≤ 2 ^ 32 * 2 ^ 32 := by
  have hmul : c * y ≤ (2 ^ 32 - 1) * (2 ^ 32 - 1) :=
    Nat.mul_le_mul (Nat.le_sub_one_of_lt hc) (Nat.le_sub_one_of_lt hy)
  omega

theorem toNat_rowTerm (x c y : UInt32) :
    (x.toUInt64 + c.toUInt64 * y.toUInt64).toNat = x.toNat + c.toNat * y.toNat := by
  have hle := mul_add_digit_le x.toNat_lt c.toNat_lt y.toNat_lt
  rw [UInt64.toNat_add, UInt64.toNat_mul, UInt32.toNat_toUInt64, UInt32.toNat_toUInt64,
    UInt32.toNat_toUInt64, Nat.add_mod_mod, Nat.mod_eq_of_lt]
  omega

theorem toNat_sumTerm (x y : UInt32) :
    (x.toUInt64 + y.toUInt64).toNat = x.toNat + y.toNat := by
  have hx := x.toNat_lt
  have hy := y.toNat_lt
  rw [UInt64.toNat_add, UInt32.toNat_toUInt64, UInt32.toNat_toUInt64, Nat.mod_eq_of_lt]
  omega

theorem toNat_productTerm (c x : UInt32) :
    (c.toUInt64 * x.toUInt64).toNat = c.toNat * x.toNat := by
  have hle := mul_add_digit_le (x := 0) (by decide) c.toNat_lt x.toNat_lt
  rw [UInt64.toNat_mul, UInt32.toNat_toUInt64, UInt32.toNat_toUInt64, Nat.mod_eq_of_lt]
  omega

/-- The sums of a carry loop, where the terms leave room for a carry. -/
theorem carrySums_lt {ts : List Nat} (h : ∀ t ∈ ts, t + 2 ^ 32 ≤ 2 ^ 32 * 2 ^ 32) :
    ∀ n ∈ rippleSums (2 ^ 32) 0 ts, n < 2 ^ 64 :=
  rippleSums_lt (Nat.two_pow_pos 32) h

theorem map_incrementLoop (pn : List UInt32) :
    (incrementLoop pn).map UInt32.toNat = ripple (2 ^ 32) 1 (pn.map UInt32.toNat) := by
  induction pn with
  | nil => rfl
  | cons x pn ih =>
    have hx := x.toNat_lt
    have hlimb : (x + 1).toNat = (1 + x.toNat) % 2 ^ 32 := by
      rw [UInt32.toNat_add, Nat.add_comm]
      rfl
    rw [incrementLoop, List.map_cons, List.map_cons, ripple, hlimb]
    split_ifs with hwrap
    · -- the limb wraps, and the carry is one
      have hzero : (1 + x.toNat) % 2 ^ 32 = 0 := by rw [← hlimb, hwrap]; rfl
      have hcarry : (1 + x.toNat) / 2 ^ 32 = 1 := by omega
      rw [ih, hcarry]
    · have hne : (1 + x.toNat) % 2 ^ 32 ≠ 0 := fun heq =>
        hwrap (UInt32.toNat.inj (hlimb.trans heq))
      have hcarry : (1 + x.toNat) / 2 ^ 32 = 0 := by omega
      rw [hcarry, ripple_zero (map_toNat_lt pn)]

theorem map_decrementLoop (pn : List UInt32) :
    (decrementLoop pn).map UInt32.toNat =
      ripple (2 ^ 32) 0 ((pn.map UInt32.toNat).map (· + (2 ^ 32 - 1))) := by
  induction pn with
  | nil => rfl
  | cons x pn ih =>
    have hx := x.toNat_lt
    have hlimb : (x - 1).toNat = (0 + (x.toNat + (2 ^ 32 - 1))) % 2 ^ 32 := by
      rw [UInt32.toNat_sub, Nat.zero_add, Nat.add_comm x.toNat]
      rfl
    rw [decrementLoop, List.map_cons, List.map_cons, List.map_cons, ripple, hlimb]
    split_ifs with hwrap
    · -- the limb was zero, and there is no carry
      have hlast : (0 + (x.toNat + (2 ^ 32 - 1))) % 2 ^ 32 = 2 ^ 32 - 1 := by
        rw [← hlimb, hwrap]
        rfl
      have hcarry : (0 + (x.toNat + (2 ^ 32 - 1))) / 2 ^ 32 = 0 := by omega
      rw [ih, hcarry]
    · have hne : (0 + (x.toNat + (2 ^ 32 - 1))) % 2 ^ 32 ≠ 2 ^ 32 - 1 := fun heq =>
        hwrap (UInt32.toNat.inj (hlimb.trans heq))
      have hcarry : (0 + (x.toNat + (2 ^ 32 - 1))) / 2 ^ 32 = 1 := by omega
      rw [hcarry, ripple_one_pred (map_toNat_lt pn)]

namespace BaseUint

variable {WIDTH : Nat} {a b self num div : BaseUint WIDTH}

/-! ## The number -/

theorem length_digits (a : BaseUint WIDTH) : (a.pn.map UInt32.toNat).length = WIDTH := by
  rw [List.length_map, a.length_pn]

theorem value_lt (a : BaseUint WIDTH) : a.value < 2 ^ (32 * WIDTH) := by
  have h := Nat.ofDigits_lt_base_pow_length (b := 2 ^ 32) (by decide) (map_toNat_lt a.pn)
  rwa [length_digits, ← pow_mul] at h

@[simp] theorem value_zero : (zero : BaseUint WIDTH).value = 0 := by
  rw [value, zero, List.map_replicate]
  exact Nat.ofDigits_replicate_zero

/-! ## Sums and differences -/

/-- The sums in the loop of `operator+=`, over the integers. -/
def addSums (a b : BaseUint WIDTH) : List Nat :=
  rippleSums (2 ^ 32) 0 (List.zipWith (fun x y => x.toNat + y.toNat) a.pn b.pn)

theorem addSums_lt (a b : BaseUint WIDTH) : ∀ n ∈ addSums a b, n < 2 ^ 64 := by
  refine carrySums_lt fun t ht => ?_
  rw [← List.map_uncurry_zip_eq_zipWith] at ht
  obtain ⟨⟨x, y⟩, -, rfl⟩ := List.mem_map.mp ht
  have hx := x.toNat_lt
  have hy := y.toNat_lt
  show x.toNat + y.toNat + 2 ^ 32 ≤ 2 ^ 32 * 2 ^ 32
  omega

theorem value_addAssign (a b : BaseUint WIDTH) :
    (a.addAssign b).value = (a.value + b.value) % 2 ^ (32 * WIDTH) := by
  have hterms : (List.zipWith (fun x y => x.toUInt64 + y.toUInt64) a.pn b.pn).map UInt64.toNat =
      List.zipWith (fun x y => x.toNat + y.toNat) a.pn b.pn := by
    rw [List.map_zipWith]
    simp only [toNat_sumTerm]
  rw [value, addAssign, map_carryLoop_zero hterms (addSums_lt a b),
    ofDigits_ripple (Nat.two_pow_pos 32), List.length_zipWith, a.length_pn, b.length_pn, Nat.min_self,
    Nat.zero_add, ← pow_mul, value, value,
    ← ofDigits_zipWith_add ((length_digits a).trans (length_digits b).symm), List.zipWith_map]

theorem value_complement (a : BaseUint WIDTH) :
    a.complement.value + a.value + 1 = 2 ^ (32 * WIDTH) := by
  have hmap : a.complement.pn.map UInt32.toNat =
      (a.pn.map UInt32.toNat).map (2 ^ 32 - 1 - ·) := by
    rw [complement, List.map_map, List.map_map]
    exact List.map_congr_left fun x _ => UInt32.toNat_not x
  have h := ofDigits_complement (map_toNat_lt a.pn)
  rwa [← hmap, length_digits, ← pow_mul] at h

theorem value_preIncrement (a : BaseUint WIDTH) :
    a.preIncrement.value = (a.value + 1) % 2 ^ (32 * WIDTH) := by
  rw [value, preIncrement, map_incrementLoop, ofDigits_ripple (Nat.two_pow_pos 32), length_digits,
    ← pow_mul, Nat.add_comm]
  rfl

theorem value_preDecrement (a : BaseUint WIDTH) :
    (a.preDecrement.value : Int) = ((a.value : Int) - 1) % 2 ^ (32 * WIDTH) := by
  have hterms := ofDigits_map_pred (Nat.two_pow_pos 32) (a.pn.map UInt32.toNat)
  rw [length_digits, ← pow_mul] at hterms
  have hvalue : a.preDecrement.value =
      ofDigits (2 ^ 32) ((a.pn.map UInt32.toNat).map (· + (2 ^ 32 - 1))) % 2 ^ (32 * WIDTH) := by
    rw [value, preDecrement, map_decrementLoop, ofDigits_ripple (Nat.two_pow_pos 32), List.length_map,
      length_digits, ← pow_mul, Nat.zero_add]
  generalize ofDigits (2 ^ 32) ((a.pn.map UInt32.toNat).map (· + (2 ^ 32 - 1))) = sum at hterms hvalue
  have hint : (sum : Int) = (a.value : Int) - 1 + 2 ^ (32 * WIDTH) := by
    have : (sum : Int) + 1 = (a.value : Int) + 2 ^ (32 * WIDTH) := mod_cast hterms
    linarith
  rw [hvalue, Int.natCast_mod, hint, Nat.cast_pow, Nat.cast_ofNat, Int.add_emod_right]

theorem value_neg (a : BaseUint WIDTH) :
    (a.neg.value : Int) = -(a.value : Int) % 2 ^ (32 * WIDTH) := by
  have h : (a.complement.value : Int) + 1 = -(a.value : Int) + 2 ^ (32 * WIDTH) := by
    have : (a.complement.value : Int) + a.value + 1 = 2 ^ (32 * WIDTH) := mod_cast value_complement a
    linarith
  rw [neg, postIncrement, value_preIncrement, Int.natCast_mod, Nat.cast_add, Nat.cast_one, h,
    Nat.cast_pow, Nat.cast_ofNat, Int.add_emod_right]

theorem value_subAssign (a b : BaseUint WIDTH) :
    ((a.subAssign b).value : Int) = ((a.value : Int) - b.value) % 2 ^ (32 * WIDTH) := by
  rw [subAssign, value_addAssign, Int.natCast_mod, Nat.cast_add, value_neg, Nat.cast_pow,
    Nat.cast_ofNat, Int.add_emod_emod, sub_eq_add_neg]

/-- Where it is not below zero, the difference is exact. -/
theorem value_subAssign_of_le (h : b.value ≤ a.value) :
    (a.subAssign b).value = a.value - b.value := by
  have hlt : a.value - b.value < 2 ^ (32 * WIDTH) := lt_of_le_of_lt (Nat.sub_le _ _) (value_lt a)
  have hint := value_subAssign a b
  rw [← Nat.cast_sub h, Int.emod_eq_of_lt (Int.natCast_nonneg _) (mod_cast hlt)] at hint
  exact mod_cast hint

/-! ## Products -/

/-- The sums in the loop of `operator*=(uint32_t)`, over the integers. -/
def mulWordSums (a : BaseUint WIDTH) (b32 : UInt32) : List Nat :=
  rippleSums (2 ^ 32) 0 (a.pn.map fun x => b32.toNat * x.toNat)

theorem mulWordSums_lt (a : BaseUint WIDTH) (b32 : UInt32) :
    ∀ n ∈ mulWordSums a b32, n < 2 ^ 64 := by
  refine carrySums_lt fun t ht => ?_
  obtain ⟨x, -, rfl⟩ := List.mem_map.mp ht
  have hle := mul_add_digit_le (x := 0) (by decide) b32.toNat_lt x.toNat_lt
  omega

theorem value_mulAssignWord (a : BaseUint WIDTH) (b32 : UInt32) :
    (a.mulAssignWord b32).value = a.value * b32.toNat % 2 ^ (32 * WIDTH) := by
  have hterms : (a.pn.map fun x => b32.toUInt64 * x.toUInt64).map UInt64.toNat =
      a.pn.map fun x => b32.toNat * x.toNat := by
    rw [List.map_map]
    exact List.map_congr_left fun x _ => toNat_productTerm b32 x
  rw [value, mulAssignWord, map_carryLoop_zero hterms (mulWordSums_lt a b32),
    ofDigits_ripple (Nat.two_pow_pos 32), List.length_map, a.length_pn, Nat.zero_add, ← pow_mul, value,
    Nat.mul_comm (ofDigits _ _), Nat.mul_ofDigits, List.map_map]
  rfl

/-- The sums in a row of `operator*=`, over the integers. -/
def mulRowSums (limb : UInt32) (b : BaseUint WIDTH) (j : Nat) (self : BaseUint WIDTH) : List Nat :=
  rippleSums (2 ^ 32) 0
    (List.zipWith (fun x y => x.toNat + limb.toNat * y.toNat) (self.pn.drop j) b.pn)

theorem mulRowSums_lt (limb : UInt32) (b : BaseUint WIDTH) (j : Nat) (self : BaseUint WIDTH) :
    ∀ n ∈ mulRowSums limb b j self, n < 2 ^ 64 := by
  refine carrySums_lt fun t ht => ?_
  rw [← List.map_uncurry_zip_eq_zipWith] at ht
  obtain ⟨⟨x, y⟩, -, rfl⟩ := List.mem_map.mp ht
  exact mul_add_digit_le x.toNat_lt limb.toNat_lt y.toNat_lt

theorem value_mulRow (limb : UInt32) (b : BaseUint WIDTH) {j : Nat} (hj : j ≤ WIDTH)
    (self : BaseUint WIDTH) :
    (mulRow limb b j self).value =
      (self.value + 2 ^ (32 * j) * (limb.toNat * b.value)) % 2 ^ (32 * WIDTH) := by
  have hterms : (List.zipWith (fun x y => x.toUInt64 + limb.toUInt64 * y.toUInt64)
      (self.pn.drop j) b.pn).map UInt64.toNat =
      List.zipWith (fun x y => x.toNat + limb.toNat * y.toNat) (self.pn.drop j) b.pn := by
    rw [List.map_zipWith]
    simp only [toNat_rowTerm]
  have hj : j ≤ (self.pn.map UInt32.toNat).length := by rw [length_digits]; exact hj
  have hrow := ofDigits_row (show 1 < 2 ^ 32 by decide) (map_toNat_lt self.pn) hj
    ((length_digits b).trans (length_digits self).symm) limb.toNat
  rw [← List.map_drop, List.zipWith_map, ← List.map_take, length_digits, ← pow_mul, ← pow_mul] at hrow
  rw [value, mulRow, List.map_append, map_carryLoop_zero hterms (mulRowSums_lt limb b j self)]
  exact hrow

/-- After some rows the number is the product with the limbs so far. -/
theorem value_mulRows (a b : BaseUint WIDTH) {n : Nat} (hn : n ≤ WIDTH) :
    (mulRows a b n).value =
      ofDigits (2 ^ 32) ((a.pn.map UInt32.toNat).take n) * b.value % 2 ^ (32 * WIDTH) := by
  induction n with
  | zero =>
    rw [List.take_zero, Nat.ofDigits_nil, Nat.zero_mul, Nat.zero_mod]
    exact value_zero
  | succ n ih =>
    have hlt : n < (a.pn.map UInt32.toNat).length := by rw [length_digits]; exact hn
    have hlimb : (a.pn.map UInt32.toNat)[n] = (a.limb n).toNat := by
      rw [List.getElem_map, limb, List.getD_eq_getElem?_getD, List.getElem?_eq_getElem,
        Option.getD_some]
    have hdigits : ofDigits (2 ^ 32) ((a.pn.map UInt32.toNat).take (n + 1)) =
        ofDigits (2 ^ 32) ((a.pn.map UInt32.toNat).take n) + 2 ^ (32 * n) * (a.limb n).toNat := by
      rw [← List.take_concat_get' _ _ hlt, Nat.ofDigits_append, Nat.ofDigits_singleton,
        List.length_take_of_le hlt.le, hlimb, ← pow_mul]
    have hrows : mulRows a b (n + 1) = mulRow (a.limb n) b n (mulRows a b n) := by
      rw [mulRows, List.range_succ, List.foldl_append]
      rfl
    rw [hrows, value_mulRow _ _ (by omega), ih (by omega), Nat.mod_add_mod, hdigits, Nat.add_mul,
      Nat.mul_assoc]

theorem value_mulAssign (a b : BaseUint WIDTH) :
    (a.mulAssign b).value = a.value * b.value % 2 ^ (32 * WIDTH) := by
  rw [mulAssign, value_mulRows a b (le_refl _), List.take_of_length_le (length_digits a).le]
  rfl

/-! ## Bits -/

theorem toNat_shiftLeft_ofNat (x : UInt32) {s : Nat} (hs : s < 32) :
    (x <<< UInt32.ofNat s).toNat = x.toNat <<< s % 2 ^ 32 := by
  rw [UInt32.toNat_shiftLeft, UInt32.toNat_ofNat', Nat.mod_eq_of_lt (a := s) (by omega),
    Nat.mod_eq_of_lt hs]

theorem toNat_shiftRight_ofNat (x : UInt32) {s : Nat} (hs : s < 32) :
    (x >>> UInt32.ofNat s).toNat = x.toNat >>> s := by
  rw [UInt32.toNat_shiftRight, UInt32.toNat_ofNat', Nat.mod_eq_of_lt (a := s) (by omega),
    Nat.mod_eq_of_lt hs]

theorem toNat_one_shiftLeft {s : Nat} (hs : s < 32) :
    ((1 : UInt32) <<< UInt32.ofNat s).toNat = 2 ^ s := by
  rw [toNat_shiftLeft_ofNat _ hs, UInt32.toNat_one, Nat.one_shiftLeft,
    Nat.mod_eq_of_lt (Nat.pow_lt_pow_right (by decide) hs)]

/-- A bit of a limb. -/
def bitAt (a : BaseUint WIDTH) (m t : Nat) : Bool := (a.limb m).toNat.testBit t

theorem testBit_value (a : BaseUint WIDTH) (m : Nat) {t : Nat} (ht : t < 32) :
    a.value.testBit (32 * m + t) = a.bitAt m t := by
  have hlimb : (a.pn.map UInt32.toNat).getD m 0 = (a.limb m).toNat := by
    rw [limb, List.getD_eq_getElem?_getD, List.getD_eq_getElem?_getD, List.getElem?_map]
    cases a.pn[m]? with
    | none => rfl
    | some x => rfl
  rw [value, testBit_ofDigits (map_toNat_lt _) m ht, hlimb, bitAt]

/-- The number, from the bits of the limbs. -/
theorem value_eq_of_bitAt {n : Nat} (hn : n < 2 ^ (32 * WIDTH))
    (h : ∀ m t, m < WIDTH → t < 32 → a.bitAt m t = n.testBit (32 * m + t)) : a.value = n := by
  refine Nat.eq_of_testBit_eq fun i => ?_
  have hi : 32 * (i / 32) + i % 32 = i := Nat.div_add_mod i 32
  have ht : i % 32 < 32 := Nat.mod_lt _ (by decide)
  rcases Nat.lt_or_ge (i / 32) WIDTH with hm | hm
  · rw [← hi, testBit_value _ _ ht, h _ _ hm ht]
  · have hle : 2 ^ (32 * WIDTH) ≤ 2 ^ i := Nat.pow_le_pow_right (by decide) (by omega)
    rw [Nat.testBit_lt_two_pow (lt_of_lt_of_le (value_lt a) hle),
      Nat.testBit_lt_two_pow (lt_of_lt_of_le hn hle)]

@[simp] theorem bitAt_zero (m t : Nat) : (zero : BaseUint WIDTH).bitAt m t = false := by
  have hlimb : (zero : BaseUint WIDTH).limb m = 0 := by
    rw [limb, zero, List.getD_eq_getElem?_getD, List.getElem?_replicate]
    split_ifs
    · rfl
    · rfl
  rw [bitAt, hlimb]
  exact Nat.zero_testBit t

theorem bitAt_orAt (a : BaseUint WIDTH) {i : Nat} (hi : i < WIDTH) (x : UInt32) (m t : Nat) :
    (a.orAt i x).bitAt m t = (a.bitAt m t || (decide (i = m) && x.toNat.testBit t)) := by
  have hlen : i < a.pn.length := by rw [a.length_pn]; exact hi
  rw [bitAt, bitAt, limb, limb, orAt, List.getD_eq_getElem?_getD, List.getD_eq_getElem?_getD,
    List.getElem?_modify]
  by_cases heq : i = m
  · subst heq
    rw [List.getElem?_eq_getElem hlen, decide_eq_true rfl, Bool.true_and]
    simp only [if_true, Option.map_eq_map, Option.map_some, Option.getD_some, UInt32.toNat_or,
      Nat.testBit_or]
  · rw [decide_eq_false heq, Bool.false_and, Bool.or_false]
    simp only [heq, if_false, Option.map_eq_map, Option.map_id_fun', id]

theorem value_orAt (a : BaseUint WIDTH) {i : Nat} (hi : i < 32 * WIDTH) :
    (a.orAt (i / 32) (1 <<< UInt32.ofNat (i &&& 31))).value = a.value ||| 2 ^ i := by
  have hand : i &&& 31 = i % 32 := Nat.and_two_pow_sub_one_eq_mod i 5
  have hlt : i % 32 < 32 := Nat.mod_lt _ (by decide)
  have hword := hand ▸ toNat_one_shiftLeft hlt
  refine value_eq_of_bitAt (Nat.or_lt_two_pow (value_lt a) (Nat.pow_lt_pow_right (by decide) hi)) ?_
  intro m t hm ht
  rw [bitAt_orAt _ (by omega), Nat.testBit_or, testBit_value _ _ ht, hword, Nat.testBit_two_pow,
    Nat.testBit_two_pow, ← Bool.decide_and]
  congr 2
  exact propext ⟨fun h => by omega, fun h => by omega⟩

/-! ## Shifts -/

theorem lt_of_bitAt {m t : Nat} (h : a.bitAt m t = true) : t < 32 := by
  by_contra hge
  have hlt : (a.limb m).toNat < 2 ^ t :=
    lt_of_lt_of_le (a.limb m).toNat_lt (Nat.pow_le_pow_right (by decide) (not_lt.mp hge))
  rw [bitAt, Nat.testBit_lt_two_pow hlt] at h
  cases h

theorem testBit_limb_shiftLeft (a : BaseUint WIDTH) (i : Nat) {s t : Nat} (hs : s < 32)
    (ht : t < 32) :
    (a.limb i <<< UInt32.ofNat s).toNat.testBit t = true ↔ s ≤ t ∧ a.bitAt i (t - s) = true := by
  rw [toNat_shiftLeft_ofNat _ hs, Nat.testBit_mod_two_pow, decide_eq_true ht, Bool.true_and,
    Nat.testBit_shiftLeft, Bool.and_eq_true, decide_eq_true_iff, bitAt]

theorem testBit_limb_shiftRight (a : BaseUint WIDTH) (i : Nat) {s : Nat} (hs : s < 32) (t : Nat) :
    (a.limb i >>> UInt32.ofNat s).toNat.testBit t = a.bitAt i (s + t) := by
  rw [toNat_shiftRight_ofNat _ hs, Nat.testBit_shiftRight, bitAt]

theorem bitAt_ite_orAt (a : BaseUint WIDTH) {p : Prop} [Decidable p] {i : Nat} (hp : p → i < WIDTH)
    (x : UInt32) (m t : Nat) :
    (if p then a.orAt i x else a).bitAt m t = true ↔
      a.bitAt m t = true ∨ p ∧ i = m ∧ x.toNat.testBit t = true := by
  split_ifs with h
  · rw [bitAt_orAt _ (hp h), Bool.or_eq_true, Bool.and_eq_true, decide_eq_true_iff]
    exact or_congr_right (and_iff_right h).symm
  · exact (or_iff_left fun hand => h hand.1).symm

/-- A loop over the limbs that moves each bit to where `moves` says. -/
theorem value_of_moves (moves : Nat → Nat → Prop) {step : BaseUint WIDTH → Nat → BaseUint WIDTH}
    {n : Nat} (hn : n < 2 ^ (32 * WIDTH))
    (hstep : ∀ self i m t, i < WIDTH → m < WIDTH → t < 32 → ((step self i).bitAt m t = true ↔
      self.bitAt m t = true ∨ ∃ u, moves (32 * i + u) (32 * m + t) ∧ a.bitAt i u = true))
    (hbits : ∀ p, p < 32 * WIDTH →
      (n.testBit p = true ↔ ∃ q, moves q p ∧ a.value.testBit q = true)) :
    ((List.range WIDTH).foldl step zero).value = n := by
  -- after some limbs, the bits that come from them
  have hloop : ∀ k m t, k ≤ WIDTH → m < WIDTH → t < 32 →
      (((List.range k).foldl step zero).bitAt m t = true ↔
        ∃ i < k, ∃ u, moves (32 * i + u) (32 * m + t) ∧ a.bitAt i u = true) := by
    intro k m t hk hm ht
    induction k with
    | zero =>
      rw [List.range_zero, List.foldl_nil, bitAt_zero]
      exact ⟨fun h => absurd h (by decide), fun ⟨i, hi, _⟩ => absurd hi (Nat.not_lt_zero i)⟩
    | succ k ih =>
      rw [List.range_succ, List.foldl_append, List.foldl_cons, List.foldl_nil,
        hstep _ _ _ _ hk hm ht, ih (by omega)]
      constructor
      · rintro (⟨i, hi, h⟩ | h)
        · exact ⟨i, by omega, h⟩
        · exact ⟨k, by omega, h⟩
      · rintro ⟨i, hi, h⟩
        rcases Nat.lt_succ_iff_lt_or_eq.mp hi with hlt | rfl
        · exact .inl ⟨i, hlt, h⟩
        · exact .inr h
  refine value_eq_of_bitAt hn fun m t hm ht => Bool.eq_iff_iff.mpr ?_
  rw [hloop WIDTH m t (le_refl _) hm ht, hbits _ (by omega)]
  constructor
  · rintro ⟨i, -, u, hmoves, hbit⟩
    exact ⟨_, hmoves, (testBit_value a i (lt_of_bitAt hbit)).trans hbit⟩
  · rintro ⟨q, hmoves, hbit⟩
    have hq : q < 32 * WIDTH := (Nat.pow_lt_pow_iff_right (by decide)).mp
      (lt_of_le_of_lt (Nat.ge_two_pow_of_testBit hbit) (value_lt a))
    have hdiv : 32 * (q / 32) + q % 32 = q := Nat.div_add_mod q 32
    refine ⟨q / 32, by omega, q % 32, by rw [hdiv]; exact hmoves, ?_⟩
    rw [← testBit_value a _ (Nat.mod_lt _ (by decide)), hdiv]
    exact hbit

theorem bitAt_shiftLeftStep (a self : BaseUint WIDTH) (k : Nat) {s i m t : Nat} (hs : s < 32)
    (hm : m < WIDTH) (ht : t < 32) :
    (a.shiftLeftStep k s self i).bitAt m t = true ↔ self.bitAt m t = true ∨
      ∃ u, 32 * i + u + (32 * k + s) = 32 * m + t ∧ a.bitAt i u = true := by
  rw [shiftLeftStep, bitAt_ite_orAt _ id, bitAt_ite_orAt _ And.left,
    testBit_limb_shiftLeft a i hs ht, or_assoc]
  refine or_congr_right ⟨?_, ?_⟩
  · rintro (⟨⟨-, hne⟩, rfl, hbit⟩ | ⟨-, rfl, hle, hbit⟩)
    · rw [testBit_limb_shiftRight a i (by omega)] at hbit
      have := lt_of_bitAt hbit
      exact ⟨_, by omega, hbit⟩
    · exact ⟨_, by omega, hbit⟩
  · rintro ⟨u, hu, hbit⟩
    have hlt := lt_of_bitAt hbit
    rcases Nat.lt_or_ge t s with hts | hts
    · -- the bit crosses into the next limb
      refine .inl ⟨⟨by omega, by omega⟩, by omega, ?_⟩
      rw [testBit_limb_shiftRight a i (by omega), show 32 - s + t = u by omega]
      exact hbit
    · refine .inr ⟨by omega, by omega, hts, ?_⟩
      rw [show t - s = u by omega]
      exact hbit

theorem bitAt_shiftRightStep (a self : BaseUint WIDTH) (k : Nat) {s i m t : Nat} (hs : s < 32)
    (hi : i < WIDTH) (ht : t < 32) :
    (a.shiftRightStep k s self i).bitAt m t = true ↔ self.bitAt m t = true ∨
      ∃ u, 32 * i + u = 32 * m + t + (32 * k + s) ∧ a.bitAt i u = true := by
  rw [shiftRightStep, bitAt_ite_orAt _ fun _ => by omega, bitAt_ite_orAt _ fun _ => by omega,
    testBit_limb_shiftRight a i hs, or_assoc]
  refine or_congr_right ⟨?_, ?_⟩
  · rintro (⟨⟨hk, hne⟩, rfl, hbit⟩ | ⟨hk, rfl, hbit⟩)
    · obtain ⟨hle, hbit⟩ := (testBit_limb_shiftLeft a i (by omega) ht).mp hbit
      exact ⟨_, by omega, hbit⟩
    · exact ⟨_, by omega, hbit⟩
  · rintro ⟨u, hu, hbit⟩
    have hlt := lt_of_bitAt hbit
    rcases Nat.lt_or_ge u s with hus | hus
    · -- the bit crosses into the limb below
      refine .inl ⟨⟨by omega, by omega⟩, by omega, ?_⟩
      rw [testBit_limb_shiftLeft a i (by omega) ht, show t - (32 - s) = u by omega]
      exact ⟨by omega, hbit⟩
    · refine .inr ⟨by omega, by omega, ?_⟩
      rw [show s + t = u by omega]
      exact hbit

theorem value_shiftLeftAssign (a : BaseUint WIDTH) (shift : Nat) :
    (a.shiftLeftAssign shift).value = a.value * 2 ^ shift % 2 ^ (32 * WIDTH) := by
  have hshift : 32 * (shift / 32) + shift % 32 = shift := Nat.div_add_mod shift 32
  refine value_of_moves (a := a) (fun q p => q + shift = p)
    (Nat.mod_lt _ (Nat.two_pow_pos _)) (fun self i m t hi hm ht => ?_) fun p hp => ?_
  · have h := bitAt_shiftLeftStep a self (shift / 32) (i := i) (Nat.mod_lt shift (by decide)) hm ht
    rwa [hshift] at h
  · rw [Nat.testBit_mod_two_pow, decide_eq_true hp, Bool.true_and, Nat.testBit_mul_two_pow,
      Bool.and_eq_true, decide_eq_true_iff]
    constructor
    · rintro ⟨hle, hbit⟩
      exact ⟨_, by omega, hbit⟩
    · rintro ⟨q, rfl, hbit⟩
      rw [Nat.add_sub_cancel]
      exact ⟨by omega, hbit⟩

theorem value_shiftRightAssign (a : BaseUint WIDTH) (shift : Nat) :
    (a.shiftRightAssign shift).value = a.value / 2 ^ shift := by
  have hshift : 32 * (shift / 32) + shift % 32 = shift := Nat.div_add_mod shift 32
  refine value_of_moves (a := a) (fun q p => q = p + shift)
    (lt_of_le_of_lt (Nat.div_le_self _ _) (value_lt a)) (fun self i m t hi hm ht => ?_) fun p hp => ?_
  · have h := bitAt_shiftRightStep a self (shift / 32) (i := i) (m := m)
      (Nat.mod_lt shift (by decide)) hi ht
    rwa [hshift] at h
  · rw [Nat.testBit_div_two_pow, Nat.add_comm]
    constructor
    · intro hbit
      exact ⟨_, rfl, hbit⟩
    · rintro ⟨q, rfl, hbit⟩
      exact hbit

/-! ## Comparison -/

/-- The highest limb that differs decides. -/
theorem compareLoop_eq (l : List (UInt32 × UInt32)) :
    compareLoop l =
      if Framework.value (2 ^ 32) (l.map fun p => p.1.toNat) <
        Framework.value (2 ^ 32) (l.map fun p => p.2.toNat) then -1
      else if Framework.value (2 ^ 32) (l.map fun p => p.2.toNat) <
        Framework.value (2 ^ 32) (l.map fun p => p.1.toNat) then 1 else 0 := by
  induction l with
  | nil => rfl
  | cons p l ih =>
    obtain ⟨x, y⟩ := p
    have hlen : (l.map fun p => p.1.toNat).length = (l.map fun p => p.2.toNat).length := by
      rw [List.length_map, List.length_map]
    have hfst : ∀ d ∈ l.map (fun p => p.1.toNat), d < 2 ^ 32 := by
      intro d hd
      obtain ⟨p, -, rfl⟩ := List.mem_map.mp hd
      exact p.1.toNat_lt
    have hsnd : ∀ d ∈ l.map (fun p => p.2.toNat), d < 2 ^ 32 := by
      intro d hd
      obtain ⟨p, -, rfl⟩ := List.mem_map.mp hd
      exact p.2.toNat_lt
    rw [List.map_cons, List.map_cons, compareLoop]
    simp only [gt_iff_lt, UInt32.lt_iff_toNat_lt]
    rcases lt_trichotomy x.toNat y.toNat with hlt | heq | hgt
    · rw [if_pos hlt, if_pos (value_lt_value hlen hfst hlt)]
    · rw [heq, if_neg (lt_irrefl _), if_neg (lt_irrefl _), ih, value_cons, value_cons, hlen]
      simp only [Nat.add_lt_add_iff_left]
    · have hvalue := value_lt_value hlen.symm hsnd hgt
      rw [if_neg (not_lt_of_gt hgt), if_pos hgt, if_neg (not_lt_of_gt hvalue), if_pos hvalue]

theorem value_eq_reverse (a : BaseUint WIDTH) :
    a.value = Framework.value (2 ^ 32) (a.pn.reverse.map UInt32.toNat) := by
  rw [Framework.value, List.map_reverse, List.reverse_reverse, value]

theorem compareTo_eq (a b : BaseUint WIDTH) :
    a.compareTo b = if a.value < b.value then -1 else if b.value < a.value then 1 else 0 := by
  have hlen : a.pn.length = b.pn.length := a.length_pn.trans b.length_pn.symm
  have hfst : ((a.pn.zip b.pn).reverse.map fun p => p.1.toNat) = a.pn.reverse.map UInt32.toNat := by
    conv_rhs => rw [← List.map_fst_zip hlen.le]
    rw [List.map_reverse, List.map_reverse, List.map_map]
    rfl
  have hsnd : ((a.pn.zip b.pn).reverse.map fun p => p.2.toNat) = b.pn.reverse.map UInt32.toNat := by
    conv_rhs => rw [← List.map_snd_zip hlen.ge]
    rw [List.map_reverse, List.map_reverse, List.map_map]
    rfl
  rw [compareTo, compareLoop_eq, hfst, hsnd, ← value_eq_reverse, ← value_eq_reverse]

theorem compareTo_nonneg : a.compareTo b ≥ 0 ↔ b.value ≤ a.value := by
  rw [compareTo_eq]
  split_ifs with hlt hgt
  · exact ⟨fun h => absurd h (by decide), fun h => absurd hlt (not_lt.mpr h)⟩
  · exact ⟨fun _ => hgt.le, fun _ => by decide⟩
  · exact ⟨fun _ => not_lt.mp hlt, fun _ => by decide⟩

/-! ## Bit length -/

theorem limbBits_eq {x : UInt32} (hx : x ≠ 0) {bits : Nat} (hbits : bits < 32)
    (hlt : x.toNat < 2 ^ (bits + 1)) : limbBits x bits = x.toNat.size := by
  have hpos : 0 < x.toNat := Nat.pos_of_ne_zero fun h => hx (UInt32.toNat.inj h)
  induction bits with
  | zero => exact (size_eq_succ (k := 0) hpos hlt).symm
  | succ bits ih =>
    have hword : (x &&& 1 <<< UInt32.ofNat (bits + 1)).toNat =
        2 ^ (bits + 1) * (x.toNat.testBit (bits + 1)).toNat := by
      rw [UInt32.toNat_and, toNat_one_shiftLeft hbits, Nat.and_two_pow, Nat.mul_comm]
    rw [limbBits]
    split_ifs with hset
    · refine (size_eq_succ (k := bits + 1) (Nat.ge_two_pow_of_testBit ?_) hlt).symm
      by_contra hbit
      rw [Bool.not_eq_true] at hbit
      rw [hbit] at hword
      exact hset (UInt32.toNat.inj hword)
    · refine ih (by omega) (not_le.mp fun hge => ?_)
      rw [not_not.mp hset, Nat.testBit_of_two_pow_le_and_two_pow_add_one_gt hge hlt,
        Bool.toNat_true, Nat.mul_one] at hword
      exact absurd hword.symm (Nat.two_pow_pos _).ne'

theorem bitsLoop_eq (pn : List UInt32) :
    bitsLoop pn = (Framework.value (2 ^ 32) (pn.map UInt32.toNat)).size := by
  induction pn with
  | nil => exact Nat.size_zero.symm
  | cons x pn ih =>
    rw [bitsLoop, List.map_cons]
    split_ifs with hx
    · have hne : x.toNat ≠ 0 := fun h => hx (UInt32.toNat.inj h)
      rw [size_value hne (map_toNat_lt pn), List.length_map, limbBits_eq hx (by decide) x.toNat_lt]
    · rw [not_not.mp hx, value_cons, UInt32.toNat_zero, Nat.zero_mul, Nat.zero_add, ih]

theorem bits_eq (a : BaseUint WIDTH) : a.bits = a.value.size := by
  rw [bits, bitsLoop_eq, ← value_eq_reverse]

/-! ## Division -/

/-- The loop of `operator/=` is restoring division. -/
theorem value_divLoop {d n : Nat} (hn : n ≤ 32 * WIDTH) (hdiv : n ≠ 0 → div.value = d * 2 ^ (n - 1))
    (hself : 2 ^ n ∣ self.value) :
    (divLoop n self num div).value = (restoring d n self.value num.value).1 := by
  induction n generalizing self num div with
  | zero => rfl
  | succ shift ih =>
    have hdiv : div.value = d * 2 ^ shift := hdiv (Nat.succ_ne_zero shift)
    have hback : shift ≠ 0 → (div.shiftRightAssign 1).value = d * 2 ^ (shift - 1) := by
      intro hne
      obtain ⟨s, rfl⟩ := Nat.exists_eq_succ_of_ne_zero hne
      rw [value_shiftRightAssign, hdiv, Nat.succ_eq_add_one, Nat.add_sub_cancel, pow_succ, pow_one,
        ← Nat.mul_assoc, Nat.mul_div_cancel _ (by decide)]
    rw [divLoop, restoring]
    have hge : num.compareTo div ≥ 0 ↔ d * 2 ^ shift ≤ num.value := by rw [compareTo_nonneg, hdiv]
    by_cases hle : d * 2 ^ shift ≤ num.value
    · -- the bits of the quotient from here down are not set yet
      have hset : (self.orAt (shift / 32) (1 <<< UInt32.ofNat (shift &&& 31))).value =
          self.value + 2 ^ shift := by
        obtain ⟨c, hc⟩ := hself
        rw [value_orAt _ (by omega), hc, Nat.two_pow_add_eq_or_of_lt]
        exact Nat.pow_lt_pow_right (by decide) (Nat.lt_succ_self shift)
      have hdvd : 2 ^ shift ∣ self.value + 2 ^ shift :=
        Nat.dvd_add ((pow_dvd_pow 2 (Nat.le_succ shift)).trans hself) (dvd_refl _)
      rw [if_pos (hge.mpr hle), if_pos hle, ih (by omega) hback (by rw [hset]; exact hdvd), hset,
        value_subAssign_of_le (by rw [hdiv]; exact hle), hdiv]
    · rw [if_neg (mt hge.mp hle), if_neg hle,
        ih (by omega) hback ((pow_dvd_pow 2 (Nat.le_succ shift)).trans hself)]

theorem bits_eq_zero : b.bits = 0 ↔ b.value = 0 := by
  rw [bits_eq, Nat.size_eq_zero]

theorem divAssign_zero (h : b.value = 0) : a.divAssign b = .error ⟨"Division by zero", zero⟩ := by
  rw [divAssign, if_pos (bits_eq_zero.mpr h)]

theorem divAssign_ok (h : b.value ≠ 0) :
    ∃ quotient, a.divAssign b = .ok quotient ∧ quotient.value = a.value / b.value := by
  have hpos : 0 < b.value := Nat.pos_of_ne_zero h
  have hbits : 0 < b.bits := Nat.pos_of_ne_zero (mt bits_eq_zero.mp h)
  rw [divAssign, if_neg hbits.ne']
  split_ifs with hlt
  · -- a shorter number is smaller
    refine ⟨zero, rfl, ?_⟩
    rw [bits_eq, bits_eq] at hlt
    rw [value_zero, Nat.div_eq_of_lt]
    exact lt_of_lt_of_le (Nat.lt_size_self _) (Nat.lt_size.mp hlt)
  · have hle : b.bits ≤ a.bits := not_lt.mp hlt
    refine ⟨_, rfl, ?_⟩
    have hwidth : a.bits ≤ 32 * WIDTH := by
      rw [bits_eq]
      exact Nat.size_le.mpr (value_lt a)
    have haligned : (b.shiftLeftAssign (a.bits - b.bits)).value =
        b.value * 2 ^ (a.bits - b.bits) := by
      rw [value_shiftLeftAssign, Nat.mod_eq_of_lt]
      calc b.value * 2 ^ (a.bits - b.bits)
          < 2 ^ b.bits * 2 ^ (a.bits - b.bits) :=
            Nat.mul_lt_mul_of_pos_right (by rw [bits_eq]; exact Nat.lt_size_self _) (Nat.two_pow_pos _)
        _ = 2 ^ a.bits := by rw [← pow_add, Nat.add_sub_cancel' hle]
        _ ≤ 2 ^ (32 * WIDTH) := Nat.pow_le_pow_right (by decide) hwidth
    have hnum : a.value < b.value * 2 ^ (a.bits - b.bits + 1) := by
      have hhigh : 2 ^ (b.bits - 1) ≤ b.value := Nat.lt_size.mp (by rw [← bits_eq]; omega)
      calc a.value < 2 ^ a.bits := by rw [bits_eq]; exact Nat.lt_size_self _
        _ = 2 ^ (b.bits - 1) * 2 ^ (a.bits - b.bits + 1) := by
          rw [← pow_add]
          congr 1
          omega
        _ ≤ b.value * 2 ^ (a.bits - b.bits + 1) := Nat.mul_le_mul_right _ hhigh
    have hself : 2 ^ (a.bits - b.bits + 1) ∣ (zero : BaseUint WIDTH).value := by
      rw [value_zero]
      exact dvd_zero _
    rw [value_divLoop (d := b.value) (by omega) (fun _ => haligned) hself, restoring_eq hpos hnum,
      value_zero, Nat.zero_add]

end BaseUint

/-! ## arith_uint256 -/

open BaseUint

/-- What the operators do to the numbers in the limbs: the operations on integers modulo `2 ^ 256`,
and no sum of a carry and its terms reaches `2 ^ 64`. -/
structure IntegerArithmetic (a b : ArithUint256) (w : UInt32) (s : Nat) : Prop where
  addAssign : (a.addAssign b).value = (a.value + b.value) % 2 ^ 256
  subAssign : ((a.subAssign b).value : Int) = ((a.value : Int) - b.value) % 2 ^ 256
  neg : (a.neg.value : Int) = -(a.value : Int) % 2 ^ 256
  preIncrement : a.preIncrement.value = (a.value + 1) % 2 ^ 256
  postIncrement : a.postIncrement.1 = a ∧ a.postIncrement.2.value = (a.value + 1) % 2 ^ 256
  preDecrement : (a.preDecrement.value : Int) = ((a.value : Int) - 1) % 2 ^ 256
  postDecrement : a.postDecrement.1 = a ∧
    (a.postDecrement.2.value : Int) = ((a.value : Int) - 1) % 2 ^ 256
  mulAssignWord : (a.mulAssignWord w).value = a.value * w.toNat % 2 ^ 256
  mulAssign : (a.mulAssign b).value = a.value * b.value % 2 ^ 256
  shiftLeftAssign : (a.shiftLeftAssign s).value = a.value * 2 ^ s % 2 ^ 256
  shiftRightAssign : (a.shiftRightAssign s).value = a.value / 2 ^ s
  compareTo : (a.compareTo b < 0 ↔ a.value < b.value) ∧ (a.compareTo b = 0 ↔ a.value = b.value) ∧
    (a.compareTo b > 0 ↔ b.value < a.value)
  bits : a.bits = a.value.size
  divAssign : b.value ≠ 0 →
    ∃ quotient, a.divAssign b = .ok quotient ∧ quotient.value = a.value / b.value
  throws : (∃ error, a.divAssign b = .error error) ↔ b.value = 0
  addSums : ∀ n ∈ addSums a b, n < 2 ^ 64
  mulWordSums : ∀ n ∈ mulWordSums a w, n < 2 ^ 64
  mulRowSums : ∀ j < 8, ∀ n ∈ mulRowSums (a.limb j) b j (mulRows a b j), n < 2 ^ 64

/-- **The operators of `arith_uint256` are those of the integers modulo `2 ^ 256`.** -/
theorem integerArithmetic (a b : ArithUint256) (w : UInt32) (s : Nat) :
    IntegerArithmetic a b w s where
  addAssign := value_addAssign a b
  subAssign := value_subAssign a b
  neg := value_neg a
  preIncrement := value_preIncrement a
  postIncrement := ⟨rfl, value_preIncrement a⟩
  preDecrement := value_preDecrement a
  postDecrement := ⟨rfl, value_preDecrement a⟩
  mulAssignWord := value_mulAssignWord a w
  mulAssign := value_mulAssign a b
  shiftLeftAssign := value_shiftLeftAssign a s
  shiftRightAssign := value_shiftRightAssign a s
  compareTo := by
    rw [compareTo_eq]
    split_ifs with hlt hgt
    · exact ⟨iff_of_true (by decide) hlt, iff_of_false (by decide) hlt.ne,
        iff_of_false (by decide) (not_lt_of_gt hlt)⟩
    · exact ⟨iff_of_false (by decide) hlt, iff_of_false (by decide) hgt.ne',
        iff_of_true (by decide) hgt⟩
    · exact ⟨iff_of_false (by decide) hlt,
        iff_of_true rfl (le_antisymm (not_lt.mp hgt) (not_lt.mp hlt)), iff_of_false (by decide) hgt⟩
  bits := bits_eq a
  divAssign := divAssign_ok
  throws := by
    refine ⟨fun ⟨error, herror⟩ => ?_, fun hzero => ⟨_, divAssign_zero hzero⟩⟩
    by_contra hne
    obtain ⟨quotient, hok, -⟩ := divAssign_ok (a := a) hne
    rw [hok] at herror
    cases herror
  addSums := addSums_lt a b
  mulWordSums := mulWordSums_lt a w
  mulRowSums := fun j _ => mulRowSums_lt _ _ _ _

end GC
