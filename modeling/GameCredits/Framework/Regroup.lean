import GameCredits.Framework.Radix

/-!
# Regrouping bits

Digits of `v` bits are read and digits of `w` bits written, with some bits that are left over in
between. `Flow` says that no bit is lost: from `k` bits `r` and the digits `xs` come the digits `ys` and
the `k'` bits `r'`. A loop that keeps the bits in a state (`regroup`) does so if each step does
(`Flow.regroup`). What is written, with fewer bits left over than a digit has, is determined by what is
read (`Flow.unique`).
-/

namespace GC.Framework

theorem mul_pow_add_lt {r x k v : Nat} (hr : r < 2 ^ k) (hx : x < 2 ^ v) :
    r * 2 ^ v + x < 2 ^ (k + v) := by
  calc r * 2 ^ v + x < (r + 1) * 2 ^ v := by
        rw [Nat.succ_mul]
        omega
    _ ≤ 2 ^ k * 2 ^ v := Nat.mul_le_mul_right _ hr
    _ = 2 ^ (k + v) := (pow_add 2 k v).symm

/-- The bits of `r` and of `xs` are those of `ys` and of `r'`. -/
structure Flow (v w k r : Nat) (xs ys : List Nat) (k' r' : Nat) : Prop where
  value_eq : r * (2 ^ v) ^ xs.length + value (2 ^ v) xs = value (2 ^ w) ys * 2 ^ k' + r'
  length_eq : k + v * xs.length = w * ys.length + k'
  lt : r' < 2 ^ k'
  digits : ∀ y ∈ ys, y < 2 ^ w

namespace Flow

variable {v w k r k₁ r₁ k' r' : Nat} {xs xs' ys ys' : List Nat}

theorem nil (h : r < 2 ^ k) : Flow v w k r [] [] k r where
  value_eq := by simp
  length_eq := by simp
  lt := h
  digits := nofun

theorem append (h : Flow v w k r xs ys k₁ r₁) (h' : Flow v w k₁ r₁ xs' ys' k' r') :
    Flow v w k r (xs ++ xs') (ys ++ ys') k' r' where
  value_eq := by
    have hpow : 2 ^ k₁ * (2 ^ v) ^ xs'.length = (2 ^ w) ^ ys'.length * 2 ^ k' := by
      rw [← pow_mul, ← pow_mul, ← pow_add, ← pow_add, h'.length_eq]
    calc r * (2 ^ v) ^ (xs ++ xs').length + value (2 ^ v) (xs ++ xs')
        = (r * (2 ^ v) ^ xs.length + value (2 ^ v) xs) * (2 ^ v) ^ xs'.length +
            value (2 ^ v) xs' := by
          rw [value_append, List.length_append, pow_add]
          ring
      _ = value (2 ^ w) ys * (2 ^ k₁ * (2 ^ v) ^ xs'.length) +
            (r₁ * (2 ^ v) ^ xs'.length + value (2 ^ v) xs') := by
          rw [h.value_eq]
          ring
      _ = value (2 ^ w) (ys ++ ys') * 2 ^ k' + r' := by
          rw [h'.value_eq, hpow, value_append]
          ring
  length_eq := by
    have h₁ := h.length_eq
    have h₂ := h'.length_eq
    rw [List.length_append, List.length_append, Nat.mul_add, Nat.mul_add]
    omega
  lt := h'.lt
  digits y hy := by
    rcases List.mem_append.mp hy with hy | hy
    · exact h.digits y hy
    · exact h'.digits y hy

/-! A digit that is read is kept with the bits before it, or its first bits end one digit, or two. -/

theorem keep {x : Nat} (hr : r < 2 ^ k) (hx : x < 2 ^ v) : Flow v w k r [x] [] (k + v) (r * 2 ^ v + x) where
  value_eq := by simp [value_cons]
  length_eq := by simp
  lt := mul_pow_add_lt hr hx
  digits := nofun

theorem one {x s : Nat} (hr : r < 2 ^ k) (hx : x < 2 ^ v) (hk : k ≤ w) (hs : k + v = w + s) :
    Flow v w k r [x] [r * 2 ^ (w - k) + x / 2 ^ s] s (x % 2 ^ s) where
  value_eq := by
    have hpow : 2 ^ v = 2 ^ (w - k) * 2 ^ s := by
      rw [← pow_add]
      congr 1
      omega
    simp only [value_cons, value_nil, List.length_singleton, List.length_nil, pow_one, pow_zero,
      Nat.mul_one, Nat.add_zero]
    rw [hpow, Nat.add_mul, Nat.add_assoc, Nat.div_add_mod', Nat.mul_assoc]
  length_eq := by
    rw [List.length_singleton, List.length_singleton]
    omega
  lt := Nat.mod_lt _ (Nat.two_pow_pos s)
  digits := by
    have hdiv : x / 2 ^ s < 2 ^ (w - k) := by
      refine Nat.div_lt_of_lt_mul ?_
      rw [← pow_add, show s + (w - k) = v by omega]
      exact hx
    have hlt := mul_pow_add_lt hr hdiv
    rw [Nat.add_sub_cancel' hk] at hlt
    simpa using hlt

theorem two {x s : Nat} (hr : r < 2 ^ k) (hx : x < 2 ^ v) (hk : k ≤ w) (hs : k + v = w + (w + s)) :
    Flow v w k r [x] [r * 2 ^ (w - k) + x / 2 ^ (w + s), x / 2 ^ s % 2 ^ w] s (x % 2 ^ s) where
  value_eq := by
    have h := (one hr hx hk hs).value_eq
    have hsplit : x % 2 ^ (w + s) = x / 2 ^ s % 2 ^ w * 2 ^ s + x % 2 ^ s := by
      rw [Nat.add_comm w s, pow_add, Nat.mod_mul, Nat.mul_comm (2 ^ s), Nat.add_comm]
    simp only [value_cons, value_nil, List.length_singleton, List.length_nil, pow_one, pow_zero,
      Nat.mul_one, Nat.add_zero] at h ⊢
    rw [h, hsplit, pow_add 2 w s]
    ring
  length_eq := by
    simp only [List.length_cons, List.length_nil]
    omega
  lt := Nat.mod_lt _ (Nat.two_pow_pos s)
  digits := by
    have h := (one hr hx hk hs).digits
    simp only [List.forall_mem_cons, List.not_mem_nil, IsEmpty.forall_iff, implies_true, and_true] at h ⊢
    exact ⟨h, Nat.mod_lt _ (Nat.two_pow_pos w)⟩

/-- The bits that are left over, filled up with zeros to a last digit, give the way back. -/
theorem pad (h : Flow v w 0 0 xs ys k r) (hxs : ∀ x ∈ xs, x < 2 ^ v) (hk : k < w) :
    Flow w v 0 0 (ys ++ [r * 2 ^ (w - k)]) xs (w - k) 0 := by
  have hvalue := h.value_eq
  have hlength := h.length_eq
  refine ⟨?_, ?_, Nat.two_pow_pos _, hxs⟩
  · have hpow : 2 ^ w = 2 ^ k * 2 ^ (w - k) := by rw [← pow_add, Nat.add_sub_cancel' hk.le]
    rw [Nat.zero_mul, Nat.zero_add] at hvalue ⊢
    rw [value_append, List.length_singleton, pow_one, hvalue, value_cons, value_nil]
    simp only [List.length_nil, pow_zero, Nat.mul_one, Nat.add_zero]
    rw [hpow]
    ring
  · rw [List.length_append, List.length_singleton, Nat.mul_add]
    omega

/-- Where no bits are left over, what is written gives back what is read. -/
theorem symm (h : Flow v w 0 0 xs ys 0 r) (hxs : ∀ x ∈ xs, x < 2 ^ v) : Flow w v 0 0 ys xs 0 0 := by
  have hvalue := h.value_eq
  have hr : r = 0 := Nat.lt_one_iff.mp h.lt
  rw [hr, Nat.zero_mul, Nat.zero_add, pow_zero, Nat.mul_one, Nat.add_zero] at hvalue
  refine ⟨?_, ?_, Nat.one_pos, hxs⟩
  · rw [hvalue, Nat.zero_mul, Nat.zero_add, pow_zero, Nat.mul_one, Nat.add_zero]
  · have := h.length_eq
    omega

/-- What is written is determined by what is read. -/
theorem unique (h : Flow v w 0 0 xs ys k r) (h' : Flow v w 0 0 xs ys' k' r') (hk : k < w)
    (hk' : k' < w) : ys = ys' ∧ k = k' ∧ r = r' := by
  have hw : 0 < w := by omega
  have hlen := h.length_eq.symm.trans h'.length_eq
  have hlength : ys.length = ys'.length := by
    have hdiv := congrArg (· / w) hlen
    simpa only [Nat.mul_add_div hw, Nat.div_eq_of_lt hk, Nat.div_eq_of_lt hk', Nat.add_zero] using hdiv
  have hbits : k = k' := by
    rw [hlength] at hlen
    omega
  subst hbits
  have hvalue := h.value_eq.symm.trans h'.value_eq
  have hr : r = r' := by
    have hmod := congrArg (· % 2 ^ k) hvalue
    simpa only [Nat.mul_add_mod_self_right, Nat.mod_eq_of_lt h.lt, Nat.mod_eq_of_lt h'.lt] using hmod
  subst hr
  have heq : value (2 ^ w) ys = value (2 ^ w) ys' :=
    Nat.eq_of_mul_eq_mul_right (Nat.two_pow_pos k) (Nat.add_right_cancel hvalue)
  exact ⟨value_inj (Nat.one_lt_two_pow hw.ne') hlength h.digits h'.digits heq, rfl, rfl⟩

/-- What is read is determined by what is written, where no bits that are not zero are left. -/
theorem unique_source (h : Flow v w 0 0 xs ys k 0) (h' : Flow v w 0 0 xs' ys k' 0) (hk : k < v)
    (hk' : k' < v) (hxs : ∀ x ∈ xs, x < 2 ^ v) (hxs' : ∀ x ∈ xs', x < 2 ^ v) :
    xs = xs' ∧ k = k' := by
  have hv : 0 < v := by omega
  have hlen := h.length_eq
  have hlen' := h'.length_eq
  have hbits : k = k' := by
    have hmod : (v * xs.length + k') % v = (v * xs'.length + k) % v := by
      congr 1
      omega
    simpa only [Nat.mul_add_mod, Nat.mod_eq_of_lt hk, Nat.mod_eq_of_lt hk', eq_comm] using hmod
  subst hbits
  have hlength : xs.length = xs'.length := by
    refine Nat.eq_of_mul_eq_mul_left hv ?_
    omega
  have hvalue := h.value_eq
  rw [← h'.value_eq, Nat.zero_mul, Nat.zero_mul, Nat.zero_add, Nat.zero_add] at hvalue
  exact ⟨value_inj (Nat.one_lt_two_pow hv.ne') hlength hxs hxs' hvalue, rfl⟩

end Flow

/-! ## Loops -/

/-- A step of a loop: the mode, the bits that are left over, and a digit give the digits that are
written, the mode and the bits that are left over. -/
abbrev RegroupStep := Nat → Nat → Nat → List Nat × Nat × Nat

/-- The loop over the digits. -/
def regroup (step : RegroupStep) : (mode left : Nat) → List Nat → List Nat × Nat × Nat
  | mode, left, [] => ([], mode, left)
  | mode, left, x :: xs =>
    let (out, mode, left) := step mode left x
    let (rest, mode, left) := regroup step mode left xs
    (out ++ rest, mode, left)

/-- Each step loses no bit, where `pending` says which bits a mode has left over. -/
def Regroups (v w : Nat) (step : RegroupStep) (pending : (mode left k r : Nat) → Prop) : Prop :=
  ∀ mode left k r x, pending mode left k r → x < 2 ^ v →
    ∃ k' r', pending (step mode left x).2.1 (step mode left x).2.2 k' r' ∧
      Flow v w k r [x] (step mode left x).1 k' r'

theorem Flow.regroup {v w k r mode left : Nat} {step : RegroupStep}
    {pending : (mode left k r : Nat) → Prop} (hstep : Regroups v w step pending) {xs : List Nat}
    (hr : r < 2 ^ k) (h : pending mode left k r) (hxs : ∀ x ∈ xs, x < 2 ^ v) :
    ∃ k' r', pending (regroup step mode left xs).2.1 (regroup step mode left xs).2.2 k' r' ∧
      Flow v w k r xs (regroup step mode left xs).1 k' r' := by
  induction xs generalizing mode left k r with
  | nil => exact ⟨k, r, h, .nil hr⟩
  | cons x xs ih =>
    obtain ⟨hx, hxs⟩ := List.forall_mem_cons.mp hxs
    obtain ⟨k₁, r₁, h₁, hflow₁⟩ := hstep mode left k r x h hx
    obtain ⟨k', r', h', hflow⟩ := ih hflow₁.lt h₁ hxs
    exact ⟨k', r', h', hflow₁.append hflow⟩

end GC.Framework
