import Mathlib.Algebra.BigOperators.Intervals
import Mathlib.Tactic.Linarith
import GameCredits.Proof.Inflation

/-!
# The emission of coins

The subsidy is halved every `nSubsidyHalvingInterval` blocks by a shift, which the language defines
up to 63 only. Up to there the emission is bounded by what it would be with exact halves
(`emitted_add_le`).
-/

namespace GC

open Finset (range)

/-- The subsidy after a number of halvings. -/
def halved (halvings : Nat) : Int := (50 * COIN) >>> halvings

theorem halved_eq (n : Nat) : halved n = 50 * COIN / 2 ^ n := by
  rw [halved, Int.shiftRight_eq_div_pow]
  norm_cast

theorem halved_zero : halved 0 = 50 * COIN := rfl

theorem halved_nonneg (n : Nat) : 0 ≤ halved n := by
  rw [halved_eq]
  exact Int.ediv_nonneg (by decide) (by positivity)

theorem two_mul_halved_succ (n : Nat) : 2 * halved (n + 1) ≤ halved n := by
  rw [halved_eq, halved_eq, pow_succ, ← Int.ediv_ediv_of_nonneg (by positivity)]
  omega

theorem halved_antitone {m n : Nat} (h : m ≤ n) : halved n ≤ halved m := by
  induction h with
  | refl => exact le_refl _
  | @step n _ ih =>
    have hnext := two_mul_halved_succ n
    have hpos := halved_nonneg (n + 1)
    show halved (n + 1) ≤ halved m
    omega

/-- The emission of the blocks below height `n`, with what is still to come if every subsidy lasts
for its interval and the ones after it add up to as much. -/
theorem emitted_add_le {interval : Nat} (hpos : 0 < interval) (n : Nat) :
    (range n).sum (fun h => halved (h / interval)) +
        (2 * interval - (n % interval : Nat)) * halved (n / interval) ≤
      2 * interval * (50 * COIN) := by
  induction n with
  | zero => simp [halved_zero]
  | succ n ih =>
    rw [Finset.sum_range_succ]
    rcases Nat.lt_or_ge (n % interval + 1) interval with hlt | hge
    · -- within an interval the block takes its own subsidy from what is to come
      have hmod : (n + 1) % interval = n % interval + 1 := by
        rw [Nat.add_mod, Nat.mod_eq_of_lt (show 1 < interval by omega), Nat.mod_eq_of_lt hlt]
      have hdiv : (n + 1) / interval = n / interval := by
        rw [Nat.succ_div, if_neg]
        · rfl
        · rw [Nat.dvd_iff_mod_eq_zero]; omega
      rw [hmod, hdiv, Nat.cast_succ]
      linarith
    · -- the last block of an interval leaves one interval's worth, the double of the next subsidy
      have hlast : n % interval + 1 = interval := by
        have := Nat.mod_lt n hpos
        omega
      have hmod : (n + 1) % interval = 0 := by
        have hn := Nat.div_add_mod n interval
        rw [show n + 1 = interval * (n / interval + 1) by rw [Nat.mul_succ]; omega]
        exact Nat.mul_mod_right ..
      have hdiv : (n + 1) / interval = n / interval + 1 := by
        rw [Nat.succ_div, if_pos (Nat.dvd_iff_mod_eq_zero.mpr hmod)]
      have hcast : ((n % interval : Nat) : Int) = interval - 1 := by omega
      have hnext := two_mul_halved_succ (n / interval)
      rw [hmod, hdiv]
      rw [hcast] at ih
      have := mul_le_mul_of_nonneg_left hnext (Int.natCast_nonneg interval)
      rw [Nat.cast_zero]
      linarith

section

variable (env : Env)

/-- The subsidy of a height does not depend on what an undefined shift gives. -/
def ShiftDefined (nHeight : Nat) : Prop := ∀ u u' : Nat → Int64,
  getBlockSubsidy { env with undefinedShift := u } nHeight =
    getBlockSubsidy { env with undefinedShift := u' } nHeight

/-- What is asked of the emission up to a height. -/
structure Emission (nHeight : Nat) : Prop where
  defined : ShiftDefined env nHeight
  range : 0 ≤ getBlockSubsidy env nHeight ∧ getBlockSubsidy env nHeight ≤ 50 * COIN
  antitone : ∀ h ≤ nHeight, getBlockSubsidy env nHeight ≤ getBlockSubsidy env h
  total : env.nSubsidyHalvingInterval = 840000 →
    (Finset.range (nHeight + 1)).sum (fun h => getBlockSubsidy env h) ≤ MAX_MONEY

variable {env}

theorem getBlockSubsidy_eq {nHeight : Nat} (h : nHeight < 64 * env.nSubsidyHalvingInterval) :
    getBlockSubsidy env nHeight = halved (nHeight / env.nSubsidyHalvingInterval) :=
  if_pos (Nat.div_lt_of_lt_mul (by rwa [Nat.mul_comm] at h))

theorem shiftDefined_iff (hpos : 0 < env.nSubsidyHalvingInterval) (nHeight : Nat) :
    ShiftDefined env nHeight ↔ nHeight < 64 * env.nSubsidyHalvingInterval := by
  constructor
  · intro h
    by_contra hge
    have hnot : ¬ nHeight / env.nSubsidyHalvingInterval < 64 := by
      rw [Nat.div_lt_iff_lt_mul hpos]
      exact hge
    have := h (fun _ => 0) fun _ => 1
    unfold getBlockSubsidy at this
    simp only [if_neg hnot] at this
    exact absurd this (by decide)
  · intro h u u'
    have hlt : nHeight / env.nSubsidyHalvingInterval < 64 :=
      Nat.div_lt_of_lt_mul (by rwa [Nat.mul_comm] at h)
    unfold getBlockSubsidy
    simp only [if_pos hlt]

/-- The emission is as intended exactly up to the height at which the shift is no longer defined. -/
theorem emission_iff (hpos : 0 < env.nSubsidyHalvingInterval) (nHeight : Nat) :
    Emission env nHeight ↔ nHeight < 64 * env.nSubsidyHalvingInterval := by
  refine ⟨fun h => (shiftDefined_iff hpos nHeight).mp h.defined, fun h => ?_⟩
  have hle : ∀ h' ≤ nHeight,
      getBlockSubsidy env h' = halved (h' / env.nSubsidyHalvingInterval) := fun h' hh =>
    getBlockSubsidy_eq (by omega)
  refine ⟨(shiftDefined_iff hpos nHeight).mpr h, ?_, fun h' hh => ?_, fun hmain => ?_⟩
  · rw [hle _ (le_refl _)]
    exact ⟨halved_nonneg _, halved_antitone (Nat.zero_le _)⟩
  · rw [hle _ (le_refl _), hle _ hh]
    exact halved_antitone (Nat.div_le_div_right hh)
  · have hsum : (Finset.range (nHeight + 1)).sum (fun h => getBlockSubsidy env h) =
        (Finset.range (nHeight + 1)).sum fun h => halved (h / env.nSubsidyHalvingInterval) :=
      Finset.sum_congr rfl fun h' hh => hle h' (Nat.le_of_lt_succ (Finset.mem_range.mp hh))
    have hbound := emitted_add_le hpos (nHeight + 1)
    have hmod := Nat.mod_lt (nHeight + 1) hpos
    have hrest : 0 ≤ (2 * (env.nSubsidyHalvingInterval : Int) -
        ((nHeight + 1) % env.nSubsidyHalvingInterval : Nat)) *
          halved ((nHeight + 1) / env.nSubsidyHalvingInterval) :=
      mul_nonneg (by omega) (halved_nonneg _)
    rw [hsum]
    rw [hmain] at hbound hrest ⊢
    have : (2 * ((840000 : Nat) : Int)) * (50 * COIN) = MAX_MONEY := by decide
    linarith

/-- The emission of the main network's interval at a height of its last halving. -/
theorem sampleEmission :
    Emission { sampleEnv with nSubsidyHalvingInterval := 840000 } 53000000 :=
  (emission_iff (by decide) 53000000).mpr (by decide)

/-- With the interval of the regression test network the shift is undefined from height 9600 on. -/
theorem sampleEmission_undefined :
    ¬ ∀ env : Env, 0 < env.nSubsidyHalvingInterval → ∀ nHeight < 2 ^ 31, Emission env nHeight := by
  intro h
  have := (shiftDefined_iff (by decide) 9600).mp
    (h { sampleEnv with nSubsidyHalvingInterval := 150 } (by decide) 9600 (by decide)).defined
  exact absurd this (by decide)

end

end GC
