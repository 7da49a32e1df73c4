import GameCredits.Model.Compressor

/-!
# Amounts that are compressed and back

The checked runs of `CompressAmount` and `DecompressAmount` agree with the plain ones where they end
(`compressAmount_of_checked`, `decompressAmount_of_checked`). Compressing never overflows on an amount
of money (`compressAmountChecked_some`), and each direction undoes the other
(`compressAmount_bijective`).
-/

namespace GC

/-! ## Checked results -/

theorem checked_eq_some {n m : Nat} : checked n = some m ↔ n = m ∧ n < 2 ^ 64 := by
  unfold checked
  split_ifs with h
  · exact ⟨fun e => ⟨Option.some.inj e, h⟩, fun e => congrArg some e.1⟩
  · exact ⟨fun e => (by cases e), fun e => absurd e.2 h⟩

theorem checked_of_lt {n : Nat} (h : n < 2 ^ 64) : checked n = some n := if_pos h

theorem checkedPred_eq_some {n m : Nat} : checkedPred n = some m ↔ m + 1 = n := by
  unfold checkedPred
  split_ifs with h
  · exact ⟨fun e => by have := Option.some.inj e; omega, fun e => congrArg some (by omega)⟩
  · exact ⟨fun e => (by cases e), fun e => by omega⟩

theorem lastDigit_eq_some {n d : Nat} : lastDigit n = some d ↔ n % 10 = d ∧ d ≠ 0 := by
  unfold lastDigit
  split_ifs with h
  · exact ⟨fun e => by have := Option.some.inj e; omega, fun e => congrArg some e.1⟩
  · exact ⟨fun e => (by cases e), fun e => by omega⟩

theorem scaleChecked_eq_some {e n m : Nat} (hn : n < 2 ^ 64) :
    scaleChecked e n = some m ↔ n * 10 ^ e = m ∧ m < 2 ^ 64 := by
  induction e generalizing n with
  | zero =>
    simp only [scaleChecked, Option.some.injEq, pow_zero, Nat.mul_one]
    exact ⟨fun h => ⟨h, h ▸ hn⟩, And.left⟩
  | succ e ih =>
    have hpow : n * 10 * 10 ^ e = n * 10 ^ (e + 1) := by rw [pow_succ]; ring
    simp only [scaleChecked, Option.bind_eq_bind, Option.bind_eq_some_iff, checked_eq_some]
    constructor
    · rintro ⟨_, ⟨rfl, hlt⟩, h⟩
      rwa [ih hlt, hpow] at h
    · rintro ⟨hm, hlt⟩
      have hle : n * 10 ≤ n * 10 * 10 ^ e := Nat.le_mul_of_pos_right _ (pow_pos (by decide) e)
      have h10 : n * 10 < 2 ^ 64 := by omega
      exact ⟨_, ⟨rfl, h10⟩, (ih h10).mpr ⟨hpow.trans hm, hlt⟩⟩

/-! ## Encodings

`Encodes x m e`: the number `x` stands for the amount `m * 10 ^ e`. -/

/-- What a compressed amount other than 0 says: `e` zeros after `m`, the last digit of which is not
zero unless `e` is 9. -/
inductive Encodes : (x m e : Nat) → Prop
  | digit {q d e} (hd : d < 9) (he : e < 9) : Encodes (1 + (q * 9 + d) * 10 + e) (q * 10 + (d + 1)) e
  | nine {q} : Encodes (1 + q * 10 + 9) (q + 1) 9

/-- Every number other than 0 stands for one amount. -/
theorem Encodes.exists {x : Nat} (hx : x ≠ 0) :
    ∃ m, Encodes x m ((x - 1) % 10) := by
  have he : (x - 1) % 10 < 10 := Nat.mod_lt _ (by decide)
  rcases Nat.lt_or_ge ((x - 1) % 10) 9 with h9 | h9
  · have hx' : 1 + ((x - 1) / 10 / 9 * 9 + (x - 1) / 10 % 9) * 10 + (x - 1) % 10 = x := by omega
    have h := Encodes.digit (q := (x - 1) / 10 / 9) (Nat.mod_lt ((x - 1) / 10) (by decide : 0 < 9)) h9
    rw [hx'] at h
    exact ⟨_, h⟩
  · have h9 : (x - 1) % 10 = 9 := by omega
    have hx' : 1 + (x - 1) / 10 * 10 + 9 = x := by omega
    have h := Encodes.nine (q := (x - 1) / 10)
    rw [hx', ← h9] at h
    exact ⟨_, h⟩

/-- Every amount other than 0 has an encoding. -/
theorem Encodes.of_stripZeros {n : Nat} (hn : n ≠ 0) :
    ∃ x, Encodes x (stripZeros 9 n).1 (stripZeros 9 n).2 := by
  obtain ⟨hm, he, hd⟩ := stripZeros_spec 9 n
  generalize stripZeros 9 n = me at hm he hd
  obtain ⟨m, e⟩ := me
  simp only at hm he hd ⊢
  have hmpos : m ≠ 0 := by
    rintro rfl
    exact hn (by rw [← hm, Nat.zero_mul])
  rcases Nat.lt_or_ge e 9 with h9 | h9
  · have hdig : m % 10 ≠ 0 := hd h9
    have h := Encodes.digit (q := m / 10) (d := m % 10 - 1) (e := e) (by omega) h9
    rw [show m / 10 * 10 + (m % 10 - 1 + 1) = m by omega] at h
    exact ⟨_, h⟩
  · obtain rfl : e = 9 := by omega
    have h := Encodes.nine (q := m - 1)
    rw [show m - 1 + 1 = m by omega] at h
    exact ⟨_, h⟩

/-- Stripping undoes scaling. -/
theorem stripZeros_mul_pow {k e m : Nat} (he : e ≤ k) (hm : e < k → m % 10 ≠ 0) :
    stripZeros k (m * 10 ^ e) = (m, e) := by
  induction e generalizing k with
  | zero =>
    rw [pow_zero, Nat.mul_one]
    cases k with
    | zero => rfl
    | succ k => rw [stripZeros, if_neg (hm (Nat.succ_pos k))]
  | succ e ih =>
    obtain ⟨k, rfl⟩ : ∃ j, k = j + 1 := ⟨k - 1, by omega⟩
    have hpow : m * 10 ^ (e + 1) = m * 10 ^ e * 10 := by rw [pow_succ]; ring
    have hstrip := ih (k := k) (by omega) fun h => hm (by omega)
    rw [hpow, stripZeros, if_pos (Nat.mul_mod_left _ _), Nat.mul_div_cancel _ (by decide), hstrip]

namespace Encodes

variable {x m e : Nat}

theorem pos (h : Encodes x m e) : 0 < x ∧ 0 < m := by
  cases h <;> omega

theorem stripZeros (h : Encodes x m e) : GC.stripZeros 9 (m * 10 ^ e) = (m, e) := by
  cases h with
  | digit hd he => exact stripZeros_mul_pow he.le fun _ => by omega
  | nine => exact stripZeros_mul_pow (le_refl 9) fun h => absurd h (Nat.lt_irrefl 9)

theorem le (h : Encodes x m e) : m ≤ x := by
  cases h <;> omega

theorem le_mul (h : Encodes x m e) : x ≤ m * 10 := by
  cases h <;> omega

/-- The checked compression of the amount is the number that stands for it. -/
theorem compress (h : Encodes x m e) (hx : x < 2 ^ 64) :
    compressAmountChecked (m * 10 ^ e) = some x := by
  have hpos : m * 10 ^ e ≠ 0 := (Nat.mul_pos h.pos.2 (pow_pos (by decide) e)).ne'
  rw [compressAmountChecked, if_neg hpos, h.stripZeros]
  cases h with
  | @digit q d e hd he =>
    have hdigit : lastDigit (q * 10 + (d + 1)) = some (d + 1) :=
      lastDigit_eq_some.mpr ⟨by omega, by omega⟩
    have hpred : checkedPred (q * 9 + (d + 1)) = some (q * 9 + d) := checkedPred_eq_some.mpr rfl
    have hq : (q * 10 + (d + 1)) / 10 = q := by omega
    simp only [he, if_true, hdigit, hq, Option.bind_eq_bind, Option.bind_some]
    rw [checked_of_lt (by omega), Option.bind_some, checked_of_lt (by omega), Option.bind_some, hpred,
      Option.bind_some, checked_of_lt (by omega), Option.bind_some, checked_of_lt (by omega),
      Option.bind_some, checked_of_lt hx]
  | @nine q =>
    have hpred : checkedPred (q + 1) = some q := checkedPred_eq_some.mpr rfl
    simp only [Nat.lt_irrefl, if_false, hpred, Option.bind_eq_bind, Option.bind_some]
    rw [checked_of_lt (by omega), Option.bind_some, checked_of_lt (by omega), Option.bind_some,
      checked_of_lt hx]

/-- The checked decompression of the number is the amount, unless that is too large. -/
theorem decompress (h : Encodes x m e) (hx : x < 2 ^ 64) :
    decompressAmountChecked x = scaleChecked e m := by
  rw [decompressAmountChecked, if_neg h.pos.1.ne']
  cases h with
  | @digit q d e hd he =>
    have hx' : 1 + (q * 9 + d) * 10 + e - 1 = (q * 9 + d) * 10 + e := by omega
    have he' : ((q * 9 + d) * 10 + e) % 10 = e := by omega
    have hq : ((q * 9 + d) * 10 + e) / 10 = q * 9 + d := by omega
    have hq9 : (q * 9 + d) / 9 = q := by omega
    have hd9 : (q * 9 + d) % 9 = d := by omega
    simp only [hx', he', hq, he, if_true, hq9, hd9, Option.bind_eq_bind]
    rw [checked_of_lt (by omega), Option.bind_some, checked_of_lt (by omega), Option.bind_some]
  | @nine q =>
    have hx' : 1 + q * 10 + 9 - 1 = q * 10 + 9 := by omega
    have he' : (q * 10 + 9) % 10 = 9 := by omega
    have hq : (q * 10 + 9) / 10 = q := by omega
    simp only [hx', he', hq, Nat.lt_irrefl, if_false, Option.bind_eq_bind]
    rw [checked_of_lt (by omega), Option.bind_some]

end Encodes

/-! ## The two directions -/

/-- Where the checked run ends, nothing wrapped around. -/
theorem compressAmount_of_checked {n x : Nat} (h : compressAmountChecked n = some x) :
    compressAmount n = x := by
  rw [compressAmountChecked] at h
  rw [compressAmount]
  rcases eq_or_ne n 0 with rfl | h0
  · exact Option.some.inj h
  rw [if_neg h0] at h ⊢
  generalize stripZeros 9 n = me at h ⊢
  obtain ⟨m, e⟩ := me
  rcases Nat.lt_or_ge e 9 with h9 | h9
  · simp only [h9, if_true, Option.bind_eq_bind, Option.bind_eq_some_iff, checked_eq_some,
      checkedPred_eq_some, lastDigit_eq_some] at h ⊢
    obtain ⟨_, ⟨rfl, -⟩, _, ⟨rfl, -⟩, _, ⟨rfl, -⟩, p, hp, _, ⟨rfl, -⟩, _, ⟨rfl, -⟩, rfl, hlt⟩ := h
    rw [← hp, Nat.add_sub_cancel]
    exact Nat.mod_eq_of_lt hlt
  · simp only [Nat.not_lt.mpr h9, if_false, Option.bind_eq_bind, Option.bind_eq_some_iff,
      checked_eq_some, checkedPred_eq_some] at h ⊢
    obtain ⟨p, rfl, _, ⟨rfl, -⟩, _, ⟨rfl, -⟩, rfl, hlt⟩ := h
    rw [Nat.add_sub_cancel]
    exact Nat.mod_eq_of_lt hlt

theorem decompressAmount_of_checked {x n : Nat} (h : decompressAmountChecked x = some n) :
    decompressAmount x = n := by
  rw [decompressAmountChecked] at h
  rw [decompressAmount]
  rcases eq_or_ne x 0 with rfl | h0
  · exact Option.some.inj h
  rw [if_neg h0] at h ⊢
  generalize (x - 1) % 10 = e at h ⊢
  generalize (x - 1) / 10 = q at h ⊢
  simp only [Option.bind_eq_bind, Option.bind_eq_some_iff] at h
  obtain ⟨m, hm, hscale⟩ := h
  have hm' : (if e < 9 then q / 9 * 10 + (q % 9 + 1) else q + 1) = m ∧ m < 2 ^ 64 := by
    split_ifs at hm ⊢
    · simp only [Option.bind_eq_some_iff, checked_eq_some] at hm
      obtain ⟨_, ⟨rfl, -⟩, rfl, hlt⟩ := hm
      exact ⟨rfl, hlt⟩
    · obtain ⟨rfl, hlt⟩ := checked_eq_some.mp hm
      exact ⟨rfl, hlt⟩
  obtain ⟨hn, hlt⟩ := (scaleChecked_eq_some hm'.2).mp hscale
  simp only [hm'.1, hn]
  exact Nat.mod_eq_of_lt hlt

/-- Compressing an amount below `2 ^ 60` does not overflow, and neither does the way back. -/
theorem compressAmountChecked_some {n : Nat} (hn : n < 2 ^ 60) :
    ∃ x, x < 2 ^ 64 ∧ compressAmountChecked n = some x ∧ decompressAmountChecked x = some n := by
  rcases eq_or_ne n 0 with rfl | hpos
  · exact ⟨0, by decide, rfl, rfl⟩
  obtain ⟨x, hx⟩ := Encodes.of_stripZeros hpos
  obtain ⟨hm, -, -⟩ := stripZeros_spec 9 n
  have hmn : (stripZeros 9 n).1 ≤ n := by
    conv => rhs; rw [← hm]
    exact Nat.le_mul_of_pos_right _ (pow_pos (by decide) _)
  have hlt : x < 2 ^ 64 := by have := hx.le_mul; omega
  have hcomp := hx.compress hlt
  rw [hm] at hcomp
  refine ⟨x, hlt, hcomp, ?_⟩
  rw [hx.decompress hlt, scaleChecked_eq_some (by omega)]
  exact ⟨hm, by omega⟩

/-- A number that decompresses without overflow is what its amount compresses to. -/
theorem compressAmountChecked_decompress {x n : Nat} (hx : x < 2 ^ 64)
    (h : decompressAmountChecked x = some n) : compressAmountChecked n = some x := by
  rcases eq_or_ne x 0 with rfl | hpos
  · cases h
    rfl
  obtain ⟨m, henc⟩ := Encodes.exists hpos
  have hmlt : m < 2 ^ 64 := henc.le.trans_lt hx
  rw [henc.decompress hx, scaleChecked_eq_some hmlt] at h
  rw [← h.1]
  exact henc.compress hx

/-- On amounts of money the two directions undo each other and no operation overflows; a number that
decompresses to an amount of money without overflow is the compression of that amount. -/
theorem compressAmount_bijective :
    (∀ n : Nat, moneyRange n = true →
      decompressAmount (compressAmount n) = n ∧
      compressAmountChecked n = some (compressAmount n) ∧
      decompressAmountChecked (compressAmount n) = some n) ∧
    ∀ x n : Nat, x < 2 ^ 64 → decompressAmountChecked x = some n → moneyRange n = true →
      decompressAmount x = n ∧ compressAmount n = x ∧ compressAmountChecked n = some x := by
  constructor
  · intro n hn
    have hmax := MAX_MONEY_eq
    obtain ⟨-, hle⟩ := moneyRange_iff.mp hn
    obtain ⟨x, -, hcomp, hdecomp⟩ := compressAmountChecked_some (n := n) (by omega)
    rw [compressAmount_of_checked hcomp]
    exact ⟨decompressAmount_of_checked hdecomp, hcomp, hdecomp⟩
  · intro x n hx hdecomp _
    have hcomp := compressAmountChecked_decompress hx hdecomp
    exact ⟨decompressAmount_of_checked hdecomp, compressAmount_of_checked hcomp, hcomp⟩

theorem compressAmount_bijective_coin :
    compressAmount 100000000 = 9 ∧ decompressAmount 9 = 100000000 :=
  ⟨(compressAmount_bijective.2 9 100000000 (by decide) (by decide) (by decide)).2.1,
    (compressAmount_bijective.2 9 100000000 (by decide) (by decide) (by decide)).1⟩

end GC
