import Mathlib.Data.Nat.Size
import Mathlib.Algebra.Group.Nat.Defs

/-!
# Leading digits

A number format that keeps the leading digits of a number: what is kept is the number rounded down to
a multiple of a unit that depends on the number's size in bits (`leading`). Rounding never goes up
(`leading_le`), loses less than a unit (`lt_leading_add`), and keeps the order of numbers where the
unit divides a power of two between the sizes on which it changes (`leading_mono`). The size of the
number is kept where the unit divides its first digit (`size_leading`).
-/

namespace GC.Framework

/-- `n` rounded down to a multiple of the unit for its size. -/
def leading (unit : Nat → Nat) (n : Nat) : Nat := n / unit n.size * unit n.size

/-- Between two sizes with different units, there is a power of two that the larger unit divides. -/
def Coarsening (unit : Nat → Nat) : Prop :=
  ∀ s t, s < t → unit s = unit t ∨ ∃ j, s ≤ j ∧ j < t ∧ unit t ∣ 2 ^ j

/-- The size of a number between two powers of two. -/
theorem size_eq_succ {n k : Nat} (hk : 2 ^ k ≤ n) (hn : n < 2 ^ (k + 1)) : n.size = k + 1 :=
  Nat.le_antisymm (Nat.size_le.mpr hn) (Nat.lt_size.mpr hk)

variable {unit : Nat → Nat} {m n : Nat}

theorem leading_le (unit : Nat → Nat) (n : Nat) : leading unit n ≤ n := Nat.div_mul_le_self n _

theorem lt_leading_add (h : 0 < unit n.size) : n < leading unit n + unit n.size := by
  have hdiv := Nat.div_add_mod n (unit n.size)
  have hmod := Nat.mod_lt n h
  rw [Nat.mul_comm] at hdiv
  unfold leading
  omega

/-- What is kept is the largest multiple of the unit that is not above the number. -/
theorem le_leading (hd : unit n.size ∣ m) (hm : m ≤ n) : m ≤ leading unit n := by
  obtain ⟨q, rfl⟩ := hd
  rcases Nat.eq_zero_or_pos (unit n.size) with h0 | hpos
  · rw [h0, Nat.zero_mul]
    exact Nat.zero_le _
  · rw [Nat.mul_comm] at hm ⊢
    exact Nat.mul_le_mul_right _ ((Nat.le_div_iff_mul_le hpos).mpr hm)

theorem leading_mono (h : Coarsening unit) (hmn : m ≤ n) : leading unit m ≤ leading unit n := by
  rcases Nat.eq_or_lt_of_le (Nat.size_le_size hmn) with hs | hs
  · unfold leading
    rw [hs]
    exact Nat.mul_le_mul_right _ (Nat.div_le_div_right hmn)
  rcases h _ _ hs with hu | ⟨j, hj, hjn, hd⟩
  · unfold leading
    rw [hu]
    exact Nat.mul_le_mul_right _ (Nat.div_le_div_right hmn)
  · -- the power of two between the sizes is above `m` and kept in `n`
    calc leading unit m ≤ m := leading_le unit m
      _ ≤ 2 ^ j := Nat.le_of_lt (Nat.size_le.mp hj)
      _ ≤ leading unit n := le_leading hd (Nat.lt_size.mp hjn)

/-- Rounding keeps the size, where the unit divides the first digit. -/
theorem size_leading (hn : n ≠ 0) (hd : unit n.size ∣ 2 ^ (n.size - 1)) :
    (leading unit n).size = n.size := by
  have hpos : 0 < n.size := Nat.size_pos.mpr (Nat.pos_of_ne_zero hn)
  refine Nat.le_antisymm (Nat.size_le_size (leading_le unit n)) ?_
  have hfirst : 2 ^ (n.size - 1) ≤ leading unit n := le_leading hd (Nat.lt_size.mp (by omega))
  have := Nat.lt_size.mpr hfirst
  omega

/-- What has been rounded is kept as it is. -/
theorem leading_div (hn : n ≠ 0) (hpos : 0 < unit n.size) (hd : unit n.size ∣ 2 ^ (n.size - 1)) :
    leading unit n / unit (leading unit n).size = n / unit n.size := by
  rw [size_leading hn hd, leading, Nat.mul_div_cancel _ hpos]

end GC.Framework
