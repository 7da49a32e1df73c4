import Mathlib.Data.Nat.Digits.Lemmas

/-!
# Numbers in a buffer of digits

`value base ds` is the number whose digits in some base are `ds`, the highest first. `mulAdd` is the
loop that multiplies a number in a buffer of fixed length by a factor and adds to it, carrying from
the lowest digit upwards; it is exact, and what does not fit is the carry that is left
(`mulAdd_exact`). Where the result fits there is none (`mulAdd_fits`), and whether it fits follows
from a ratio of two exponents (`pow_le_pow_of_ratio`). A number has one expansion
without leading zeros (`strip_eq`), which makes conversions between two bases inverse to each other.
-/

namespace GC.Framework

/-- The number with the digits `ds`, the highest one first. -/
def value (base : Nat) (ds : List Nat) : Nat := Nat.ofDigits base ds.reverse

@[simp] theorem value_nil (base : Nat) : value base [] = 0 := rfl

theorem value_cons (base d : Nat) (ds : List Nat) :
    value base (d :: ds) = d * base ^ ds.length + value base ds := by
  rw [value, List.reverse_cons, Nat.ofDigits_append, Nat.ofDigits_singleton, List.length_reverse,
    value, Nat.add_comm, Nat.mul_comm]

@[simp] theorem value_replicate_zero (base n : Nat) : value base (List.replicate n 0) = 0 := by
  induction n with
  | zero => rfl
  | succ n ih => rw [List.replicate_succ, value_cons, ih, Nat.zero_mul]

theorem value_append (base : Nat) (ds es : List Nat) :
    value base (ds ++ es) = value base ds * base ^ es.length + value base es := by
  rw [value, List.reverse_append, Nat.ofDigits_append, List.length_reverse, value, value, Nat.add_comm,
    Nat.mul_comm]

/-- A number has one expansion of each length. -/
theorem value_inj {base : Nat} {ds es : List Nat} (hb : 1 < base) (hlen : ds.length = es.length)
    (hds : ∀ d ∈ ds, d < base) (hes : ∀ e ∈ es, e < base) (h : value base ds = value base es) :
    ds = es := by
  refine List.reverse_injective (Nat.ofDigits_inj_of_len_eq hb ?_ ?_ ?_ h)
  · rw [List.length_reverse, List.length_reverse, hlen]
  · exact fun d hd => hds d (List.mem_reverse.mp hd)
  · exact fun e he => hes e (List.mem_reverse.mp he)

theorem value_lt {base : Nat} {ds : List Nat} (h : ∀ d ∈ ds, d < base) :
    value base ds < base ^ ds.length := by
  induction ds with
  | nil => exact Nat.one_pos
  | cons d ds ih =>
    obtain ⟨hd, hds⟩ := List.forall_mem_cons.mp h
    calc value base (d :: ds) = d * base ^ ds.length + value base ds := value_cons _ _ _
      _ < d * base ^ ds.length + base ^ ds.length := Nat.add_lt_add_left (ih hds) _
      _ = (d + 1) * base ^ ds.length := (Nat.succ_mul _ _).symm
      _ ≤ base * base ^ ds.length := Nat.mul_le_mul_right _ hd
      _ = base ^ (d :: ds).length := (pow_succ' _ _).symm

/-- `y` digits in the base `b` suffice for `x` digits in the base `a`, if `q` suffice for `p` and `y`
is at least in that ratio to `x`. -/
theorem pow_le_pow_of_ratio {a b p q x y : Nat} (hb : 0 < b) (hp : p ≠ 0) (hpq : a ^ p ≤ b ^ q)
    (hxy : q * x ≤ p * y) : a ^ x ≤ b ^ y := by
  refine le_of_pow_le_pow_left₀ hp (Nat.zero_le _) ?_
  calc (a ^ x) ^ p = (a ^ p) ^ x := by rw [← pow_mul, ← pow_mul, Nat.mul_comm]
    _ ≤ (b ^ q) ^ x := Nat.pow_le_pow_left hpq x
    _ = b ^ (q * x) := (pow_mul _ _ _).symm
    _ ≤ b ^ (p * y) := Nat.pow_le_pow_right hb hxy
    _ = (b ^ y) ^ p := by rw [← pow_mul, Nat.mul_comm]

/-! ## Leading zeros -/

/-- The digits from the first one that is not zero. -/
def strip (ds : List Nat) : List Nat := ds.dropWhile (· == 0)

theorem strip_head (ds : List Nat) : (strip ds).head? ≠ some 0 := by
  intro h
  have hp := List.head?_dropWhile_not (· == 0) ds
  rw [strip] at h
  rw [h] at hp
  exact absurd hp (by decide)

theorem mem_of_mem_strip {d : Nat} {ds : List Nat} (h : d ∈ strip ds) : d ∈ ds :=
  (List.dropWhile_sublist _).subset h

theorem strip_of_head {ds : List Nat} (h : ds.head? ≠ some 0) : strip ds = ds := by
  cases ds with
  | nil => rfl
  | cons d ds =>
    have hd : ¬ (d == 0) = true := fun hd => h (by rw [eq_of_beq hd]; rfl)
    exact List.dropWhile_cons_of_neg hd

@[simp] theorem value_strip (base : Nat) (ds : List Nat) : value base (strip ds) = value base ds := by
  induction ds with
  | nil => rfl
  | cons d ds ih =>
    cases d with
    | zero =>
      rw [value_cons, Nat.zero_mul, Nat.zero_add]
      exact ih
    | succ d => rfl

/-- A list of digits is its leading zeros and the rest. -/
theorem replicate_strip (ds : List Nat) :
    List.replicate (ds.takeWhile (· == 0)).length 0 ++ strip ds = ds := by
  have hzeros : ds.takeWhile (· == 0) = List.replicate (ds.takeWhile (· == 0)).length 0 :=
    List.eq_replicate_of_mem fun d hd =>
      eq_of_beq (List.all_eq_true.mp List.all_takeWhile d hd)
  rw [← hzeros]
  exact List.takeWhile_append_dropWhile

/-- A number has one expansion without leading zeros. -/
theorem strip_eq {base : Nat} {ds es : List Nat} (hb : 1 < base) (hds : ∀ d ∈ ds, d < base)
    (hes : ∀ e ∈ es, e < base) (hhead : es.head? ≠ some 0) (h : value base ds = value base es) :
    strip ds = es := by
  have hdigits : ∀ ls : List Nat, (∀ d ∈ ls, d < base) → ls.head? ≠ some 0 →
      Nat.digits base (value base ls) = ls.reverse := by
    intro ls hls hhead
    refine Nat.digits_ofDigits base hb ls.reverse (fun d hd => hls d (List.mem_reverse.mp hd)) ?_
    intro hne hlast
    refine hhead ?_
    rw [List.getLast_reverse] at hlast
    rw [List.head?_eq_some_head (List.reverse_eq_nil_iff.not.mp hne), hlast]
  have hrev : (strip ds).reverse = es.reverse := by
    rw [← hdigits es hes hhead, ← h, ← value_strip,
      hdigits _ (fun d hd => hds d (mem_of_mem_strip hd)) (strip_head ds)]
  exact List.reverse_injective hrev

/-! ## Multiplying and adding in place -/

/-- One digit of `mulAdd`: the new digit and the carry. -/
def mulAddDigit (base mul d : Nat) (done : List Nat × Nat) : List Nat × Nat :=
  let carry := done.2 + mul * d
  (carry % base :: done.1, carry / base)

/-- `digits * mul + carry` in place, from the lowest digit upwards: the digits, and the carry that
is left. -/
def mulAdd (base mul carry : Nat) (digits : List Nat) : List Nat × Nat :=
  digits.foldr (mulAddDigit base mul) ([], carry)

variable {base mul carry : Nat}

@[simp] theorem mulAdd_nil : mulAdd base mul carry [] = ([], carry) := rfl

theorem mulAdd_cons (d : Nat) (ds : List Nat) :
    mulAdd base mul carry (d :: ds) = mulAddDigit base mul d (mulAdd base mul carry ds) := rfl

@[simp] theorem length_mulAdd (ds : List Nat) : (mulAdd base mul carry ds).1.length = ds.length := by
  induction ds with
  | nil => rfl
  | cons d ds ih => rw [mulAdd_cons, mulAddDigit, List.length_cons, ih, List.length_cons]

theorem mulAdd_digits (hb : 0 < base) (ds : List Nat) :
    ∀ d ∈ (mulAdd base mul carry ds).1, d < base := by
  induction ds with
  | nil => exact fun d hd => absurd hd List.not_mem_nil
  | cons d ds ih => exact List.forall_mem_cons.mpr ⟨Nat.mod_lt _ hb, ih⟩

/-- Nothing is lost: the digits and the carry that is left make up the result. -/
theorem mulAdd_exact (ds : List Nat) :
    value base (mulAdd base mul carry ds).1 + (mulAdd base mul carry ds).2 * base ^ ds.length =
      value base ds * mul + carry := by
  induction ds with
  | nil => rw [mulAdd_nil, value_nil, Nat.zero_mul, List.length_nil, pow_zero, Nat.mul_one]
  | cons d ds ih =>
    have hdiv := Nat.mod_add_div ((mulAdd base mul carry ds).2 + mul * d) base
    rw [mulAdd_cons, mulAddDigit, value_cons, length_mulAdd, value_cons, List.length_cons, pow_succ]
    generalize hq : ((mulAdd base mul carry ds).2 + mul * d) / base = q at hdiv ⊢
    generalize hr : ((mulAdd base mul carry ds).2 + mul * d) % base = r at hdiv ⊢
    calc r * base ^ ds.length + value base (mulAdd base mul carry ds).1 + q * (base ^ ds.length * base)
        = (r + base * q) * base ^ ds.length + value base (mulAdd base mul carry ds).1 := by ring
      _ = mul * d * base ^ ds.length + (value base (mulAdd base mul carry ds).1 +
            (mulAdd base mul carry ds).2 * base ^ ds.length) := by rw [hdiv]; ring
      _ = (d * base ^ ds.length + value base ds) * mul + carry := by rw [ih]; ring

/-- Where the result fits the buffer, no carry is left. -/
theorem mulAdd_fits {ds : List Nat} (h : value base ds * mul + carry < base ^ ds.length) :
    (mulAdd base mul carry ds).2 = 0 ∧
      value base (mulAdd base mul carry ds).1 = value base ds * mul + carry := by
  have hexact : value base (mulAdd base mul carry ds).1 +
      (mulAdd base mul carry ds).2 * base ^ ds.length = value base ds * mul + carry := mulAdd_exact ds
  have hzero : (mulAdd base mul carry ds).2 = 0 := by
    by_contra hne
    have hle : base ^ ds.length ≤ (mulAdd base mul carry ds).2 * base ^ ds.length :=
      Nat.le_mul_of_pos_left _ (Nat.pos_of_ne_zero hne)
    omega
  rw [hzero, Nat.zero_mul, Nat.add_zero] at hexact
  exact ⟨hzero, hexact⟩

/-- A further digit in the base `mul`, where one more of them fits the buffer. -/
theorem mulAdd_grow {ds : List Nat} {j : Nat} (hds : value base ds < mul ^ j) (hc : carry < mul)
    (hfit : mul ^ (j + 1) ≤ base ^ ds.length) :
    (mulAdd base mul carry ds).2 = 0 ∧
      value base (mulAdd base mul carry ds).1 = value base ds * mul + carry ∧
      value base (mulAdd base mul carry ds).1 < mul ^ (j + 1) := by
  have hlt : value base ds * mul + carry < mul ^ (j + 1) := by
    calc value base ds * mul + carry < value base ds * mul + mul := Nat.add_lt_add_left hc _
      _ = (value base ds + 1) * mul := (Nat.succ_mul _ _).symm
      _ ≤ mul ^ j * mul := Nat.mul_le_mul_right _ hds
      _ = mul ^ (j + 1) := (pow_succ _ _).symm
  obtain ⟨hzero, hvalue⟩ := mulAdd_fits (lt_of_lt_of_le hlt hfit)
  exact ⟨hzero, hvalue, by rwa [hvalue]⟩

end GC.Framework
