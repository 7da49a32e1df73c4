import GameCredits.Model.Text
import GameCredits.Framework.Scan
import GameCredits.Framework.Outcome

/-!
# Money strings are exact

`MoneyText` is the grammar of money strings: white space, at most ten digits, optionally a point and
at most eight digits, white space. `ParseMoney` accepts these strings and no others
(`parseMoney_text`, `parseMoney_cases`), returns the decimal number times `COIN`, and none of its
operations overflows. What `FormatMoney` writes is such a string for the same amount
(`formatMoney_text`): it trims zeros at the end only, and leaves two decimals.
-/

namespace GC

open Framework

/-! ## Digits -/

/-- The number that a string of digits stands for. -/
def digitsValue (ds : Bytes) : Nat := value 10 (ds.map fun c => c.toNat - 48)

theorem isdigit_iff {c : UInt8} : isdigit c = true ↔ 48 ≤ c.toNat ∧ c.toNat ≤ 57 := by
  rw [isdigit, Bool.and_eq_true, decide_eq_true_iff, decide_eq_true_iff, UInt8.le_iff_toNat_le,
    UInt8.le_iff_toNat_le]
  exact Iff.rfl

theorem digitOf_eq {c : UInt8} (hc : isdigit c = true) : digitOf c = ((c.toNat - 48 : Nat) : Int) := by
  obtain ⟨hlow, -⟩ := isdigit_iff.mp hc
  unfold digitOf
  omega

theorem isdigit_digitChar {d : Nat} (hd : d < 10) : isdigit (digitChar d) = true := by
  have h : ∀ d < 10, isdigit (digitChar d) = true := by decide
  exact h d hd

theorem toNat_digitChar {d : Nat} (hd : d < 10) : (digitChar d).toNat - 48 = d := by
  have h : ∀ d < 10, (digitChar d).toNat - 48 = d := by decide
  exact h d hd

theorem digit_not_space {c : UInt8} (hc : isdigit c = true) : isspace c = false := by
  obtain ⟨hlow, hhigh⟩ := isdigit_iff.mp hc
  have h : ∀ n < 58, 48 ≤ n → isspace (UInt8.ofNat n) = false := by decide
  have := h c.toNat (by omega) hlow
  rwa [UInt8.ofNat_toNat] at this

theorem digit_ne {c x : UInt8} (hc : isdigit c = true) (hx : isdigit x = false) : (c == x) = false :=
  beq_eq_false_iff_ne.mpr fun h => by
    rw [h, hx] at hc
    cases hc

theorem digitsValue_lt {ds : Bytes} (h : ∀ c ∈ ds, isdigit c = true) :
    digitsValue ds < 10 ^ ds.length := by
  have hdigits : ∀ d ∈ ds.map fun c => c.toNat - 48, d < 10 := fun d hd => by
    obtain ⟨c, hc, rfl⟩ := List.mem_map.mp hd
    have := isdigit_iff.mp (h c hc)
    omega
  have hlt := value_lt hdigits
  rwa [List.length_map] at hlt

theorem digitsValue_cons (c : UInt8) (ds : Bytes) :
    digitsValue (c :: ds) = (c.toNat - 48) * 10 ^ ds.length + digitsValue ds := by
  rw [digitsValue, List.map_cons, value_cons, List.length_map]
  rfl

theorem checkedInt64_ok {x : Int} (h₀ : 0 ≤ x) (h₁ : x < 2 ^ 63) : checkedInt64 x = .ok x :=
  if_pos ⟨by omega, h₁⟩

/-- `atoi64` of at most ten digits. -/
theorem atoi64_digits {ds : Bytes} (h : ∀ c ∈ ds, isdigit c = true) (hlen : ds.length ≤ 10) :
    atoi64 ds = digitsValue ds := by
  have hfold : ∀ (ls : Bytes) (a : Nat), (∀ c ∈ ls, isdigit c = true) →
      ls.foldl (fun n c => 10 * n + digitOf c) (a : Int) =
        ((a * 10 ^ ls.length + digitsValue ls : Nat) : Int) := by
    intro ls
    induction ls with
    | nil => intro a _; simp [digitsValue]
    | cons c ls ih =>
      intro a hls
      obtain ⟨hc, hls⟩ := List.forall_mem_cons.mp hls
      have hstep : 10 * (a : Int) + digitOf c = ((10 * a + (c.toNat - 48) : Nat) : Int) := by
        rw [digitOf_eq hc]
        push_cast
        rfl
      rw [List.foldl_cons, hstep, ih _ hls, digitsValue_cons, List.length_cons, pow_succ]
      congr 1
      ring
  have hhead : ∀ x, isdigit x = false → (ds.head? == some x) = false := by
    intro x hx
    cases ds with
    | nil => rfl
    | cons c ds =>
      rw [List.head?_cons]
      exact digit_ne (h c List.mem_cons_self) hx
  have hspace : ds.dropWhile isspace = ds := dropWhile_of_none fun c s hl =>
    digit_not_space (h c (by rw [hl]; exact List.mem_cons_self))
  have hlt := digitsValue_lt h
  have hten : 10 ^ ds.length ≤ 10 ^ 10 := Nat.pow_le_pow_right (by decide) hlen
  have hvalue := hfold ds 0 h
  rw [Nat.zero_mul, Nat.zero_add] at hvalue
  rw [atoi64]
  simp only [hspace, hhead '-'.toUInt8 rfl, hhead '+'.toUInt8 rfl, Bool.or_false, Bool.false_eq_true,
    if_false, takeWhile_of_all h]
  rw [Nat.cast_zero] at hvalue
  rw [hvalue]
  omega

/-! ## The grammar -/

/-- A money string by its parts. -/
structure MoneyText where
  lead : Bytes
  whole : Bytes
  decimals : Option Bytes
  trail : Bytes
  lead_space : ∀ c ∈ lead, isspace c = true
  whole_digits : ∀ c ∈ whole, isdigit c = true
  whole_length : whole.length ≤ 10
  decimals_digits : ∀ ds ∈ decimals, ∀ c ∈ ds, isdigit c = true
  decimals_length : ∀ ds ∈ decimals, ds.length ≤ 8
  trail_space : ∀ c ∈ trail, isspace c = true

/-- The point and the decimals after it, if there is one. -/
def pointText : Option Bytes → Bytes
  | none => []
  | some ds => '.'.toUInt8 :: ds

/-- The string. -/
def MoneyText.text (t : MoneyText) : Bytes := t.lead ++ (t.whole ++ (pointText t.decimals ++ t.trail))

/-- The decimal number that is written. -/
def MoneyText.number (t : MoneyText) : ℚ :=
  digitsValue t.whole + (t.decimals.elim 0 fun ds => (digitsValue ds : ℚ) / 10 ^ ds.length)

/-- The decimals in units of `1 / COIN`. -/
def decimalUnits : Option Bytes → Nat
  | none => 0
  | some ds => digitsValue ds * 10 ^ (8 - ds.length)

/-- The amount in units of `1 / COIN`. -/
def MoneyText.units (t : MoneyText) : Int := digitsValue t.whole * COIN + decimalUnits t.decimals

theorem decimalUnits_lt {decimals : Option Bytes}
    (h : ∀ ds ∈ decimals, ∀ c ∈ ds, isdigit c = true) (hlen : ∀ ds ∈ decimals, ds.length ≤ 8) :
    decimalUnits decimals < 10 ^ 8 := by
  cases decimals with
  | none => decide
  | some ds =>
    have h8 : ds.length + (8 - ds.length) = 8 := Nat.add_sub_cancel' (hlen ds rfl)
    calc digitsValue ds * 10 ^ (8 - ds.length) < 10 ^ ds.length * 10 ^ (8 - ds.length) :=
          Nat.mul_lt_mul_of_pos_right (digitsValue_lt (h ds rfl)) (Nat.pow_pos (by decide))
      _ = 10 ^ 8 := by rw [← pow_add, h8]

theorem MoneyText.number_mul (t : MoneyText) : t.number * (COIN : ℚ) = (t.units : ℚ) := by
  have hcoin : ((COIN : Int) : ℚ) = 10 ^ 8 := by norm_num [COIN]
  rw [MoneyText.number, MoneyText.units, Int.cast_add, Int.cast_mul, hcoin, add_mul]
  congr 1
  cases hdec : t.decimals with
  | none => simp [decimalUnits]
  | some ds =>
    have h8 : ds.length + (8 - ds.length) = 8 := Nat.add_sub_cancel' (t.decimals_length ds hdec)
    have hpow : (10 : ℚ) ^ 8 = 10 ^ ds.length * 10 ^ (8 - ds.length) := by rw [← pow_add, h8]
    rw [Option.elim_some, hpow, decimalUnits, ← mul_assoc, div_mul_cancel₀ _ (by positivity)]
    push_cast
    rfl

/-! ## Parsing -/

/-- The loop over the decimals while there is room for `k` more: the next ones go below the units
that are there. -/
theorem parseDecimals_digits {ds : Bytes} {k u : Nat} (rest : Bytes)
    (h : ∀ c ∈ ds, isdigit c = true) (hk : ds.length ≤ k) (hu : u + 10 ^ k ≤ 10 ^ 8) :
    parseDecimals (ds ++ rest) u ((10 ^ k / 10 : Nat) : Int) =
      parseDecimals rest ((u + digitsValue ds * 10 ^ (k - ds.length) : Nat) : Int)
        ((10 ^ (k - ds.length) / 10 : Nat) : Int) := by
  induction ds generalizing k u with
  | nil => simp [digitsValue]
  | cons c ds ih =>
    obtain ⟨hc, hds⟩ := List.forall_mem_cons.mp h
    cases k with
    | zero => exact absurd hk (Nat.not_succ_le_zero _)
    | succ k =>
      have hd : c.toNat - 48 < 10 := by
        have := isdigit_iff.mp hc
        omega
      have hpos : 0 < 10 ^ k := Nat.pow_pos (by decide)
      have hmult : 10 ^ (k + 1) / 10 = 10 ^ k := by
        rw [pow_succ, Nat.mul_div_cancel _ (by decide)]
      have hle : 10 ^ k * (c.toNat - 48) + 10 ^ k ≤ 10 ^ (k + 1) := by
        calc 10 ^ k * (c.toNat - 48) + 10 ^ k = 10 ^ k * (c.toNat - 48 + 1) := (Nat.mul_succ _ _).symm
          _ ≤ 10 ^ k * 10 := Nat.mul_le_mul_left _ hd
          _ = 10 ^ (k + 1) := (pow_succ _ _).symm
      have hprod : checkedInt64 (((10 ^ k : Nat) : Int) * digitOf c) =
          .ok ((10 ^ k * (c.toNat - 48) : Nat) : Int) := by
        rw [digitOf_eq hc, ← Nat.cast_mul]
        exact checkedInt64_ok (by omega) (by omega)
      have hsum : checkedInt64 ((u : Int) + ((10 ^ k * (c.toNat - 48) : Nat) : Int)) =
          .ok ((u + 10 ^ k * (c.toNat - 48) : Nat) : Int) := by
        rw [← Nat.cast_add]
        exact checkedInt64_ok (by omega) (by omega)
      have hrest : k + 1 - (c :: ds).length = k - ds.length := by
        rw [List.length_cons]
        omega
      have hlen : ds.length ≤ k := Nat.le_of_succ_le_succ hk
      have hvalue : u + digitsValue (c :: ds) * 10 ^ (k - ds.length) =
          u + 10 ^ k * (c.toNat - 48) + digitsValue ds * 10 ^ (k - ds.length) := by
        have hpow : 10 ^ k = 10 ^ ds.length * 10 ^ (k - ds.length) := by
          rw [← pow_add, Nat.add_sub_cancel' hlen]
        rw [digitsValue_cons, hpow]
        ring
      rw [List.cons_append, parseDecimals, hmult, if_pos ⟨hc, by exact_mod_cast hpos⟩, hprod,
        ok_bind, hsum, ok_bind, hrest, hvalue, ← ih hds hlen (by omega)]
      rfl

/-- The loop ends where no digit follows, or after eight. -/
theorem parseDecimals_stop {p : Bytes} (u m : Int)
    (hp : m = 0 ∨ ∀ c s, p = c :: s → isdigit c = false) : parseDecimals p u m = .ok (u, p) := by
  cases p with
  | nil => rfl
  | cons c s =>
    rw [parseDecimals, if_neg]
    rintro ⟨hc, hm⟩
    rcases hp with rfl | hp
    · exact absurd hm (by decide)
    · rw [hp c s rfl] at hc
      cases hc

theorem parseWhole_digits {ws : Bytes} (h : ∀ c ∈ ws, isdigit c = true) (rest acc : Bytes) :
    parseWhole (ws ++ rest) acc = parseWhole rest (acc ++ ws) := by
  induction ws generalizing acc with
  | nil => rw [List.nil_append, List.append_nil]
  | cons c ws ih =>
    obtain ⟨hc, hws⟩ := List.forall_mem_cons.mp h
    rw [List.cons_append, parseWhole, digit_ne hc (by rfl : isdigit '.'.toUInt8 = false),
      digit_not_space hc, hc]
    simp only [Bool.false_eq_true, if_false, Bool.not_true]
    rw [ih hws, List.append_assoc, List.singleton_append]

/-- The first loop on whole digits and white space. -/
theorem parseWhole_whole {ws p : Bytes} (hws : ∀ c ∈ ws, isdigit c = true)
    (hp : ∀ c s, p = c :: s → isspace c = true) :
    parseWhole (ws ++ p) [] = .ok (ws, (decimalUnits none : Int), p) := by
  rw [parseWhole_digits hws, List.nil_append]
  cases p with
  | nil => rfl
  | cons c s =>
    have hc := hp c s rfl
    have hpoint : (c == '.'.toUInt8) = false := beq_eq_false_iff_ne.mpr fun h => by
      rw [h] at hc
      exact absurd hc (by decide)
    rw [parseWhole, hpoint, hc]
    rfl

/-- The first loop on whole digits, decimals, and something that does not continue them. -/
theorem parseWhole_eq {ws p : Bytes} {decimals : Option Bytes} (hws : ∀ c ∈ ws, isdigit c = true)
    (hdigits : ∀ ds ∈ decimals, ∀ c ∈ ds, isdigit c = true)
    (hlen : ∀ ds ∈ decimals, ds.length ≤ 8)
    (hnone : decimals = none → ∀ c s, p = c :: s → isspace c = true)
    (hsome : ∀ ds ∈ decimals, ds.length = 8 ∨ ∀ c s, p = c :: s → isdigit c = false) :
    parseWhole (ws ++ (pointText decimals ++ p)) [] = .ok (ws, (decimalUnits decimals : Int), p) := by
  cases decimals with
  | none => exact parseWhole_whole hws (hnone rfl)
  | some ds =>
    have hmult : CENT * 10 = ((10 ^ 8 / 10 : Nat) : Int) := by decide
    have hloop := parseDecimals_digits (k := 8) (u := 0) p (hdigits ds rfl) (hlen ds rfl) (by decide)
    rw [parseDecimals_stop _ _ ((hsome ds rfl).imp_left fun h8 => by rw [h8]; rfl)] at hloop
    rw [parseWhole_digits hws, List.nil_append, pointText, List.cons_append, parseWhole,
      beq_self_eq_true, if_pos rfl, hmult]
    rw [Nat.cast_zero, Nat.zero_add] at hloop
    rw [hloop]
    rfl

/-- `ParseMoney` on a string that is a number after white space. -/
theorem parseMoney_eq {psz ws p : Bytes} {decimals : Option Bytes}
    (hpsz : psz.dropWhile isspace = ws ++ (pointText decimals ++ p))
    (hws : ∀ c ∈ ws, isdigit c = true) (hten : ws.length ≤ 10)
    (hdigits : ∀ ds ∈ decimals, ∀ c ∈ ds, isdigit c = true)
    (hlen : ∀ ds ∈ decimals, ds.length ≤ 8) (hp : ∀ c ∈ p, isspace c = true) :
    parseMoney psz = .ok (digitsValue ws * COIN + decimalUnits decimals) := by
  have hspace : ∀ c s, p = c :: s → isspace c = true := fun c s h =>
    hp c (by rw [h]; exact List.mem_cons_self)
  have hnot : ∀ c s, p = c :: s → isdigit c = false := fun c s h => by
    by_contra hd
    rw [Bool.not_eq_false] at hd
    have := hspace c s h
    rw [digit_not_space hd] at this
    cases this
  have hany : p.any (!isspace ·) = false := List.any_eq_false.mpr fun c hc => by
    rw [hp c hc]
    decide
  have hlt := digitsValue_lt hws
  have hpow : 10 ^ ws.length ≤ 10 ^ 10 := Nat.pow_le_pow_right (by decide) hten
  have hunits := decimalUnits_lt hdigits hlen
  have hcoin : COIN = 10 ^ 8 := rfl
  rw [parseMoney, hpsz, parseWhole_eq hws hdigits hlen (fun _ => hspace) fun ds _ => .inr hnot, ok_bind]
  simp only [hany, Bool.false_eq_true, if_false]
  rw [if_neg (by omega), if_neg (by rw [hcoin]; omega), atoi64_digits hws hten,
    checkedInt64_ok (by rw [hcoin]; omega) (by rw [hcoin]; omega), ok_bind,
    checkedInt64_ok (by rw [hcoin]; omega) (by rw [hcoin]; omega)]

/-- A money string is accepted, and stands for its amount. -/
theorem parseMoney_text (t : MoneyText) : parseMoney t.text = .ok t.units := by
  have hlead : t.text.dropWhile isspace =
      (t.whole ++ (pointText t.decimals ++ t.trail)).dropWhile isspace :=
    List.dropWhile_append_of_pos t.lead_space
  by_cases hcore : t.whole ++ pointText t.decimals = []
  · -- white space only
    obtain ⟨hwhole, hpoint⟩ := List.append_eq_nil_iff.mp hcore
    have hnone : t.decimals = none := by
      cases hd : t.decimals with
      | none => rfl
      | some ds => rw [hd] at hpoint; cases hpoint
    have hdrop : t.text.dropWhile isspace = t.whole ++ (pointText t.decimals ++ []) := by
      rw [hlead, hwhole, hpoint, List.nil_append, List.nil_append]
      exact List.dropWhile_eq_nil_iff.mpr t.trail_space
    exact parseMoney_eq hdrop t.whole_digits t.whole_length t.decimals_digits t.decimals_length nofun
  · have hdrop : t.text.dropWhile isspace = t.whole ++ (pointText t.decimals ++ t.trail) := by
      rw [hlead]
      refine dropWhile_of_none fun c s hl => ?_
      cases hw : t.whole with
      | cons c' ws =>
        rw [hw] at hl
        obtain ⟨rfl, -⟩ := List.cons.inj hl
        exact digit_not_space (t.whole_digits c' (by rw [hw]; exact List.mem_cons_self))
      | nil =>
        cases hd : t.decimals with
        | none => rw [hw, hd] at hcore; exact absurd rfl hcore
        | some ds =>
          rw [hw, hd] at hl
          obtain ⟨rfl, -⟩ := List.cons.inj hl
          rfl
    exact parseMoney_eq hdrop t.whole_digits t.whole_length t.decimals_digits t.decimals_length
      t.trail_space

/-- A string whose loop leaves something that is not white space is refused. -/
theorem parseMoney_refused {psz ws p : Bytes} {u : Int}
    (h : parseWhole (psz.dropWhile isspace) [] = .ok (ws, u, p))
    (hp : (∃ c ∈ p, isspace c = false) ∨ 10 < ws.length) : parseMoney psz = .error .refused := by
  rw [parseMoney, h, ok_bind]
  by_cases hany : p.any (!isspace ·) = true
  · simp only [hany, if_true]
  · simp only [hany, Bool.false_eq_true, if_false]
    refine if_pos (hp.resolve_left ?_)
    rintro ⟨c, hc, hnot⟩
    exact hany (List.any_eq_true.mpr ⟨c, hc, by rw [hnot]; rfl⟩)

/-- The decimals that are read: the digits after the point, of which there are at most eight. -/
theorem exists_decimals (q : Bytes) : ∃ ds p, q = ds ++ p ∧ (∀ c ∈ ds, isdigit c = true) ∧
    ds.length ≤ 8 ∧ (ds.length = 8 ∨ ∀ c s, p = c :: s → isdigit c = false) := by
  obtain ⟨ds, p, hq, hds, hp⟩ := exists_span isdigit q
  by_cases h8 : ds.length ≤ 8
  · exact ⟨ds, p, hq, hds, h8, .inr hp⟩
  · have htake : (ds.take 8).length = 8 := List.length_take_of_le (Nat.le_of_not_le h8)
    refine ⟨ds.take 8, ds.drop 8 ++ p, ?_, fun c hc => hds c (List.mem_of_mem_take hc),
      Nat.le_of_eq htake, .inl htake⟩
    rw [← List.append_assoc, List.take_append_drop, hq]

/-- Every other string is refused. -/
theorem parseMoney_cases (psz : Bytes) :
    parseMoney psz = .error .refused ∨ ∃ t : MoneyText, t.text = psz := by
  obtain ⟨lead, t, hpsz, hlead, ht⟩ := exists_span isspace psz
  have hdrop : psz.dropWhile isspace = t := by rw [hpsz]; exact (span_append hlead ht).2
  obtain ⟨ws, rest, hrest, hws, hstop⟩ := exists_span isdigit t
  -- the number, from its parts and what follows them
  have hparts : ∀ (decimals : Option Bytes) (p : Bytes),
      (∀ ds ∈ decimals, ∀ c ∈ ds, isdigit c = true) → (∀ ds ∈ decimals, ds.length ≤ 8) →
      rest = pointText decimals ++ p →
      parseWhole (psz.dropWhile isspace) [] = .ok (ws, (decimalUnits decimals : Int), p) →
      parseMoney psz = .error .refused ∨ ∃ t : MoneyText, t.text = psz := by
    intro decimals p hdigits hlen hp hparse
    by_cases hspace : ∀ c ∈ p, isspace c = true
    · by_cases hten : ws.length ≤ 10
      · refine .inr ⟨⟨lead, ws, decimals, p, hlead, hws, hten, hdigits, hlen, hspace⟩, ?_⟩
        rw [MoneyText.text, ← hp, ← hrest, ← hpsz]
      · exact .inl (parseMoney_refused hparse (.inr (Nat.not_le.mp hten)))
    · obtain ⟨c, hspace⟩ := not_forall.mp hspace
      obtain ⟨hc, hnot⟩ := Classical.not_imp.mp hspace
      exact .inl (parseMoney_refused hparse (.inl ⟨c, hc, Bool.not_eq_true _ ▸ hnot⟩))
  cases rest with
  | nil =>
    refine hparts none [] (by simp) (by simp) rfl ?_
    rw [hdrop, hrest]
    exact parseWhole_whole hws (by simp)
  | cons c q =>
    by_cases hpoint : c = '.'.toUInt8
    · subst hpoint
      obtain ⟨ds, p, rfl, hds, hlen, hmore⟩ := exists_decimals q
      have hdigits : ∀ ds' ∈ some ds, ∀ c ∈ ds', isdigit c = true := by
        rintro ds' ⟨⟩
        exact hds
      have hlen' : ∀ ds' ∈ some ds, ds'.length ≤ 8 := by
        rintro ds' ⟨⟩
        exact hlen
      refine hparts (some ds) p hdigits hlen' rfl ?_
      rw [hdrop, hrest]
      refine parseWhole_eq hws hdigits hlen' nofun ?_
      rintro ds' ⟨⟩
      exact hmore
    · by_cases hspace : isspace c = true
      · refine hparts none (c :: q) (by simp) (by simp) rfl ?_
        rw [hdrop, hrest]
        refine parseWhole_whole hws fun c' s h => ?_
        obtain ⟨rfl, -⟩ := List.cons.inj h
        exact hspace
      · refine .inl ?_
        rw [parseMoney, hdrop, hrest, parseWhole_digits hws, parseWhole,
          beq_eq_false_iff_ne.mpr hpoint, hstop c q rfl]
        simp only [hspace, Bool.false_eq_true, if_false, Bool.not_false, if_true]
        rfl

/-! ## Formatting -/

theorem printDecimal_digits (n : Nat) : ∀ c ∈ printDecimal n, isdigit c = true := by
  intro c hc
  rw [printDecimal] at hc
  split_ifs at hc
  · rw [List.mem_singleton.mp hc]
    rfl
  · obtain ⟨d, hd, rfl⟩ := List.mem_map.mp hc
    exact isdigit_digitChar (Nat.digits_lt_base (by decide) (List.mem_reverse.mp hd))

theorem digitsValue_map {ds : List Nat} (h : ∀ d ∈ ds, d < 10) :
    digitsValue (ds.map digitChar) = value 10 ds := by
  rw [digitsValue, List.map_map]
  congr 1
  exact (List.map_congr_left fun d hd => toNat_digitChar (h d hd)).trans (List.map_id ds)

theorem digitsValue_printDecimal (n : Nat) : digitsValue (printDecimal n) = n := by
  rw [printDecimal]
  split_ifs with hn
  · rw [hn]
    rfl
  · rw [digitsValue_map fun d hd => Nat.digits_lt_base (by decide) (List.mem_reverse.mp hd), value,
      List.reverse_reverse, Nat.ofDigits_digits]

theorem length_printDecimal {n k : Nat} (hk : 0 < k) (hn : n < 10 ^ k) :
    (printDecimal n).length ≤ k := by
  rw [printDecimal]
  split_ifs
  · exact hk
  · rw [List.length_map, List.length_reverse]
    exact (Nat.digits_length_le_iff (by decide) n).mpr hn

/-- Zeros in front do not change the number. -/
theorem digitsValue_leftpad (n : Nat) (ds : Bytes) :
    digitsValue (ds.leftpad n (digitChar 0)) = digitsValue ds := by
  rw [List.leftpad]
  induction n - ds.length with
  | zero => rfl
  | succ k ih =>
    rw [List.replicate_succ, List.cons_append, digitsValue_cons, toNat_digitChar (by decide),
      Nat.zero_mul, Nat.zero_add, ih]

/-- What is trimmed are zeros at the end of the decimals, of which two are left. -/
theorem countTrim_decimals {ds : Bytes} (q : Bytes) (h : ∀ c ∈ ds, isdigit c = true)
    (hlen : 2 ≤ ds.length) : ∃ t ds', countTrim (ds ++ '.'.toUInt8 :: q) = t ∧
      ds = List.replicate t (digitChar 0) ++ ds' ∧ 2 ≤ ds'.length := by
  induction ds with
  | nil => exact absurd hlen (by decide)
  | cons c ds ih =>
    obtain ⟨-, hds⟩ := List.forall_mem_cons.mp h
    match ds, hds, ih with
    | [], _, _ => exact absurd hlen (Nat.not_succ_le_self 1)
    | [c₁], _, _ =>
      have hpoint : isdigit '.'.toUInt8 = false := rfl
      exact ⟨0, [c, c₁], by simp [countTrim, hpoint], rfl, hlen⟩
    | c₁ :: c₂ :: ds, hds, ih =>
      by_cases hc : c = digitChar 0
      · obtain ⟨t, ds', ht, hds', hlen'⟩ := ih hds (by simp)
        refine ⟨t + 1, ds', ?_, by rw [List.replicate_succ, List.cons_append, ← hds', hc], hlen'⟩
        have hc₂ := hds c₂ (by simp)
        rw [← ht]
        simp [countTrim, hc, hc₂]
      · exact ⟨0, c :: c₁ :: c₂ :: ds, by simp [countTrim, hc], rfl, hlen⟩

/-- Zeros at the end of the decimals do not change the units. -/
theorem digitsValue_append_zeros (ds : Bytes) (t : Nat) :
    digitsValue (ds ++ List.replicate t (digitChar 0)) = digitsValue ds * 10 ^ t := by
  induction ds with
  | nil =>
    rw [List.nil_append, digitsValue, List.map_replicate, toNat_digitChar (by decide),
      value_replicate_zero]
    exact (Nat.zero_mul _).symm
  | cons c ds ih =>
    rw [List.cons_append, digitsValue_cons, digitsValue_cons, ih, List.length_append,
      List.length_replicate, pow_add]
    ring

/-- What `FormatMoney` writes is a money string for the same amount. -/
theorem formatMoney_text {n : Int} (h₀ : 0 ≤ n) (h₁ : n < 10 ^ 18) :
    ∃ t : MoneyText, t.text = formatMoney n false ∧ t.units = n := by
  obtain ⟨m, rfl⟩ := Int.eq_ofNat_of_zero_le h₀
  have hm : m < 10 ^ 18 := by exact_mod_cast h₁
  have habs : (if 0 < (m : Int) then (m : Int) else -m) = m := by split_ifs <;> omega
  have hquot : ((m : Int) / COIN).toNat = m / 10 ^ 8 := by unfold COIN; omega
  have hrem : ((m : Int) % COIN).toNat = m % 10 ^ 8 := by unfold COIN; omega
  -- eight decimals, of which the zeros at the end are trimmed
  let F := (printDecimal (m % 10 ^ 8)).leftpad 8 (digitChar 0)
  have hFlen : F.length = 8 := by
    have := length_printDecimal (n := m % 10 ^ 8) (k := 8) (by decide) (Nat.mod_lt _ (by decide))
    rw [List.length_leftpad]
    omega
  have hFdigits : ∀ c ∈ F.reverse, isdigit c = true := by
    intro c hc
    rcases List.mem_append.mp (List.mem_reverse.mp hc) with hc | hc
    · rw [List.eq_of_mem_replicate hc]
      rfl
    · exact printDecimal_digits _ c hc
  obtain ⟨t, ds', ht, hds', -⟩ := countTrim_decimals (printDecimal (m / 10 ^ 8)).reverse hFdigits
    (by rw [List.length_reverse, hFlen]; decide)
  have hF : F = ds'.reverse ++ List.replicate t (digitChar 0) := by
    rw [← List.reverse_reverse F, hds', List.reverse_append, List.reverse_replicate]
  have hlen : ds'.reverse.length + t = 8 := by
    rw [← hFlen, hF, List.length_append, List.length_replicate]
  have hvalue : digitsValue ds'.reverse * 10 ^ t = m % 10 ^ 8 := by
    rw [← digitsValue_append_zeros, ← hF]
    exact (digitsValue_leftpad _ _).trans (digitsValue_printDecimal _)
  refine ⟨⟨[], printDecimal (m / 10 ^ 8), some ds'.reverse, [], nofun, printDecimal_digits _,
    length_printDecimal (by decide) (by omega), ?_, ?_, nofun⟩, ?_, ?_⟩
  · rintro _ ⟨⟩ c hc
    refine hFdigits c ?_
    rw [hds']
    exact List.mem_append_right _ (List.mem_reverse.mp hc)
  · rintro _ ⟨⟩
    omega
  · have hstr : printDecimal (m / 10 ^ 8) ++ '.'.toUInt8 :: F =
        (printDecimal (m / 10 ^ 8) ++ '.'.toUInt8 :: ds'.reverse) ++
          List.replicate t (digitChar 0) := by
      rw [hF, List.append_assoc, List.cons_append]
    have hrev : (printDecimal (m / 10 ^ 8) ++ '.'.toUInt8 :: F).reverse =
        F.reverse ++ '.'.toUInt8 :: (printDecimal (m / 10 ^ 8)).reverse := by
      rw [List.reverse_append, List.reverse_cons, List.append_assoc, List.singleton_append]
    rw [formatMoney]
    simp only [habs, hquot, hrem]
    rw [if_neg (by omega), Bool.false_and, if_neg (by decide), hrev, ht, hstr, List.length_append,
      List.length_replicate, Nat.add_sub_cancel, List.take_left]
    simp [MoneyText.text, pointText]
  · have ht8 : 8 - ds'.reverse.length = t := by omega
    show (digitsValue (printDecimal (m / 10 ^ 8)) : Int) * COIN +
      ((digitsValue ds'.reverse * 10 ^ (8 - ds'.reverse.length) : Nat) : Int) = m
    rw [digitsValue_printDecimal, ht8, hvalue]
    unfold COIN
    omega

/-- Money strings are exact: what is formatted is read back, and a string is accepted if and only if
it is a money string, with the number it stands for as the result and no overflow. -/
theorem money_exact :
    (∀ n : Int, 0 ≤ n → n < 10 ^ 18 → parseMoney (formatMoney n false) = .ok n) ∧
    (∀ psz n, parseMoney psz = .ok n ↔
      ∃ t : MoneyText, t.text = psz ∧ (n : ℚ) = t.number * (COIN : ℚ)) ∧
    ∀ psz, parseMoney psz ≠ .error .overflow := by
  refine ⟨fun n h₀ h₁ => ?_, fun psz n => ⟨fun h => ?_, ?_⟩, fun psz h => ?_⟩
  · obtain ⟨t, ht, hunits⟩ := formatMoney_text h₀ h₁
    rw [← ht, parseMoney_text, hunits]
  · rcases parseMoney_cases psz with hrefused | ⟨t, rfl⟩
    · rw [hrefused] at h
      cases h
    · rw [parseMoney_text] at h
      cases h
      exact ⟨t, rfl, t.number_mul.symm⟩
  · rintro ⟨t, rfl, hn⟩
    rw [t.number_mul] at hn
    rw [parseMoney_text, Int.cast_injective hn]
  · rcases parseMoney_cases psz with hrefused | ⟨t, rfl⟩
    · rw [hrefused] at h
      cases h
    · rw [parseMoney_text] at h
      cases h

end GC
