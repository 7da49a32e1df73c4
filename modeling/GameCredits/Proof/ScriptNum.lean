import GameCredits.Model.Interpreter

/-!
# Script numbers

`CScriptNum` writes the shortest form of a number: the bytes of the absolute value, least significant
first, with the sign in the first bit of the last byte, which takes a byte of its own where that bit
is in use. `set_vch` reads it back (`setVch_scriptNumBytes`), and the forms that pass the minimality
check are those that are written (`nonMinimal_scriptNumBytes`, `scriptNumBytes_setVch`).

`scriptNum_canonical` puts the two directions together with the bounds of operands.
-/

namespace GC

open Framework

/-! ## Bytes of the absolute value -/

theorem leNat_append (bs cs : Bytes) :
    leNat (bs ++ cs) = leNat bs + 256 ^ bs.length * leNat cs := by
  induction bs with
  | nil => rw [List.nil_append, leNat, List.length_nil, pow_zero, Nat.one_mul, Nat.zero_add]
  | cons b bs ih =>
    rw [List.cons_append, leNat, leNat, ih, List.length_cons, pow_succ]
    ring

theorem leNat_concat (bs : Bytes) (b : UInt8) :
    leNat (bs ++ [b]) = leNat bs + 256 ^ bs.length * b.toNat := by
  rw [leNat_append, leNat, leNat, Nat.mul_zero, Nat.add_zero]

theorem absBytes_succ {len n : Nat} (h : n ≠ 0) :
    absBytes (len + 1) n = UInt8.ofNat (n % 256) :: absBytes len (n / 256) := by
  rw [absBytes, if_neg h, show n &&& 0xff = n % 256 from Nat.and_two_pow_sub_one_eq_mod n 8,
    Nat.shiftRight_eq_div_pow]

theorem absBytes_zero (len : Nat) : absBytes len 0 = [] := by
  cases len with
  | zero => rfl
  | succ len => rfl

theorem leNat_absBytes {len n : Nat} (h : n < 256 ^ len) : leNat (absBytes len n) = n := by
  induction len generalizing n with
  | zero => exact (Nat.lt_one_iff.mp h).symm
  | succ len ih =>
    rcases Nat.eq_zero_or_pos n with rfl | hpos
    · rw [absBytes_zero, leNat]
    · rw [pow_succ] at h
      rw [absBytes_succ hpos.ne', leNat, ih (by omega), UInt8.toNat_ofNat',
        Nat.mod_eq_of_lt (by omega)]
      omega

theorem length_absBytes_le {len n k : Nat} (h : n < 256 ^ k) : (absBytes len n).length ≤ k := by
  induction len generalizing n k with
  | zero => exact Nat.zero_le k
  | succ len ih =>
    rcases Nat.eq_zero_or_pos n with rfl | hpos
    · rw [absBytes_zero]
      exact Nat.zero_le k
    · cases k with
      | zero => omega
      | succ k =>
        rw [pow_succ] at h
        rw [absBytes_succ hpos.ne', List.length_cons]
        exact Nat.succ_le_succ (ih (by omega))

/-- The last byte is not null. -/
theorem absBytes_concat {len n : Nat} (h : n < 256 ^ len) (hpos : 0 < n) :
    ∃ bs b, absBytes len n = bs ++ [b] ∧ b ≠ 0 := by
  induction len generalizing n with
  | zero => omega
  | succ len ih =>
    rw [pow_succ] at h
    rw [absBytes_succ hpos.ne']
    rcases Nat.eq_zero_or_pos (n / 256) with h0 | h1
    · refine ⟨[], UInt8.ofNat (n % 256), by rw [h0, absBytes_zero]; rfl, fun hb => ?_⟩
      have := congrArg UInt8.toNat hb
      rw [UInt8.toNat_ofNat', Nat.mod_eq_of_lt (by omega)] at this
      change n % 256 = 0 at this
      omega
    · obtain ⟨bs, b, hbs, hb⟩ := ih (by omega) h1
      exact ⟨_ :: bs, b, by rw [hbs]; rfl, hb⟩

theorem leNat_pos {bs : Bytes} {b : UInt8} (hb : b ≠ 0) : 0 < leNat (bs ++ [b]) := by
  have hpos : 0 < b.toNat := Nat.pos_of_ne_zero fun h => hb (UInt8.toNat_inj.mp h)
  rw [leNat_concat]
  exact Nat.add_pos_right _ (Nat.mul_pos (Nat.pow_pos (by decide)) hpos)

/-- Bytes of which the last one is not null are those of their number. -/
theorem absBytes_leNat {len : Nat} {bs : Bytes} {b : UInt8} (hb : b ≠ 0) (hlen : bs.length < len) :
    absBytes len (leNat (bs ++ [b])) = bs ++ [b] := by
  induction bs generalizing len with
  | nil =>
    cases len with
    | zero => exact absurd hlen (Nat.not_lt_zero _)
    | succ len =>
      have hne : b.toNat ≠ 0 := fun h => hb (UInt8.toNat_inj.mp h)
      have hlt := b.toNat_lt
      rw [List.nil_append, leNat, leNat, Nat.mul_zero, Nat.add_zero b.toNat, absBytes_succ hne,
        Nat.mod_eq_of_lt hlt, Nat.div_eq_of_lt hlt, absBytes_zero, UInt8.ofNat_toNat]
  | cons c bs ih =>
    cases len with
    | zero => exact absurd hlen (Nat.not_lt_zero _)
    | succ len =>
      have hpos : 0 < leNat (bs ++ [b]) := leNat_pos hb
      have hlt := c.toNat_lt
      rw [List.cons_append, leNat, absBytes_succ (by omega), Nat.add_mul_mod_self_left,
        Nat.mod_eq_of_lt hlt, Nat.add_mul_div_left _ _ (by decide), Nat.div_eq_of_lt hlt,
        Nat.zero_add, ih (by simpa using hlen), UInt8.ofNat_toNat]

/-! ## The sign -/

theorem and_80_ne_zero (b : UInt8) : (b &&& 0x80 != 0) = decide (128 ≤ b.toNat) := by
  have h : (b &&& 0x80 = 0) ↔ b.toNat < 128 := by
    rw [← UInt8.toNat_inj, UInt8.toNat_and, show (0x80 : UInt8).toNat = 0x80 from rfl,
      show (0 : UInt8).toNat = 0 from rfl]
    rcases Nat.lt_or_ge b.toNat 128 with h | h
    · exact iff_of_true (and_80_low h) h
    · obtain ⟨d, hd⟩ := Nat.exists_eq_add_of_le' h
      have hlt := b.toNat_lt
      rw [hd]
      exact iff_of_false (and_80_high (by omega)) (by omega)
  rw [Bool.eq_iff_iff, bne_iff_ne, decide_eq_true_eq, ne_eq, h, Nat.not_lt]

theorem and_7f_eq_zero (b : UInt8) : (b &&& 0x7f == 0) = decide (b.toNat % 128 = 0) := by
  rw [Bool.eq_iff_iff, beq_iff_eq, decide_eq_true_eq, ← UInt8.toNat_inj, UInt8.toNat_and]
  exact iff_of_eq (congrArg (· = 0) (Nat.and_two_pow_sub_one_eq_mod b.toNat 7))

theorem toNat_or_80 {b : UInt8} (h : b.toNat < 128) : (b ||| 0x80).toNat = b.toNat + 128 := by
  rw [UInt8.toNat_or]
  exact or_80 h

/-- Clearing the first bit of a number of 64 bits. -/
theorem clear_bit {k m : Nat} (hk : k < 64) (hm : m < 2 ^ k) :
    (2 ^ k + m) &&& ((2 ^ 64 - 1) ^^^ 2 ^ k) = m := by
  apply Nat.eq_of_testBit_eq
  intro i
  rw [Nat.testBit_and, Nat.testBit_xor, Nat.testBit_two_pow_sub_one, Nat.testBit_two_pow]
  rcases Nat.lt_trichotomy i k with h | rfl | h
  · rw [Nat.testBit_two_pow_add_gt h, decide_eq_true (by omega : i < 64),
      decide_eq_false (by omega : ¬ k = i)]
    exact Bool.and_true _
  · rw [decide_eq_true hk, decide_eq_true rfl, Nat.testBit_lt_two_pow hm]
    exact Bool.and_false _
  · have hlt : 2 ^ k + m < 2 ^ i := by
      calc 2 ^ k + m < 2 ^ k + 2 ^ k := Nat.add_lt_add_left hm _
        _ = 2 ^ (k + 1) := by rw [pow_succ]; omega
        _ ≤ 2 ^ i := Nat.pow_le_pow_right (by decide) h
    rw [Nat.testBit_lt_two_pow hlt, Bool.false_and, Nat.testBit_lt_two_pow
      (hm.trans (Nat.pow_lt_pow_right (by decide) h))]

/-- The value of bytes with the last one split into its sign and the rest. -/
theorem setVch_concat {bs : Bytes} (b : UInt8) (hlen : bs.length < 8) : setVch (bs ++ [b]) =
    if 128 ≤ b.toNat then -((leNat bs + 256 ^ bs.length * (b.toNat - 128) : Nat) : Int)
    else ((leNat bs + 256 ^ bs.length * b.toNat : Nat) : Int) := by
  have hback : (bs ++ [b]).getLast? = some b := List.getLast?_concat
  simp only [setVch, hback, and_80_ne_zero, decide_eq_true_eq]
  split_ifs with h
  · have hlt := b.toNat_lt
    have hlow := leNat_lt bs
    have hpow : 256 ^ bs.length = 2 ^ (8 * bs.length) := by rw [pow_mul]; norm_num
    have hshift : 0x80 <<< (8 * ((bs ++ [b]).length - 1)) = 2 ^ (8 * bs.length + 7) := by
      rw [Nat.shiftLeft_eq, List.length_append, List.length_singleton, Nat.add_sub_cancel,
        pow_add, Nat.mul_comm]
      norm_num
    have hm : leNat bs + 256 ^ bs.length * (b.toNat - 128) < 2 ^ (8 * bs.length + 7) := by
      calc leNat bs + 256 ^ bs.length * (b.toNat - 128)
          < 256 ^ bs.length + 256 ^ bs.length * (b.toNat - 128) := Nat.add_lt_add_right hlow _
        _ = 256 ^ bs.length * (b.toNat - 127) := by
          rw [show b.toNat - 127 = b.toNat - 128 + 1 by omega, Nat.mul_succ, Nat.add_comm]
        _ ≤ 256 ^ bs.length * 2 ^ 7 := Nat.mul_le_mul_left _ (by omega)
        _ = 2 ^ (8 * bs.length + 7) := by rw [hpow, ← pow_add]
    have hn : leNat (bs ++ [b]) =
        2 ^ (8 * bs.length + 7) + (leNat bs + 256 ^ bs.length * (b.toNat - 128)) := by
      rw [leNat_concat, pow_add, ← hpow, Nat.add_left_comm, ← Nat.mul_add,
        show 2 ^ 7 + (b.toNat - 128) = b.toNat by omega]
    rw [hshift, hn, clear_bit (by omega) hm]
  · rw [leNat_concat]

/-! ## Writing -/

/-- How a number is written: the sign has a byte of its own, or the first bit of the last byte. -/
inductive Written (n : Int) : Bytes → Prop
  | zero (h : n = 0) : Written n []
  | carried {bs : Bytes} {b : UInt8} (h : leNat (bs ++ [b]) = n.natAbs) (hb : 128 ≤ b.toNat) :
      Written n (bs ++ [b] ++ [if n < 0 then 0x80 else 0])
  | inside {bs : Bytes} {b c : UInt8} (h : leNat (bs ++ [b]) = n.natAbs) (h0 : b ≠ 0)
      (hb : b.toNat < 128) (hc : c.toNat = if n < 0 then b.toNat + 128 else b.toNat) :
      Written n (bs ++ [c])

/-- The bound of `int64_t`, without its least number. -/
theorem scriptNumBytes_written {n : Int} (hn : n.natAbs < 2 ^ 63) : Written n (scriptNumBytes n) := by
  rcases Nat.eq_zero_or_pos n.natAbs with h0 | hpos
  · obtain rfl := Int.natAbs_eq_zero.mp h0
    exact .zero rfl
  have hlt : n.natAbs < 256 ^ 8 := by omega
  obtain ⟨bs, b, hbs, hb⟩ := absBytes_concat hlt hpos
  have hval : leNat (bs ++ [b]) = n.natAbs := by rw [← hbs, leNat_absBytes hlt]
  have hback : (bs ++ [b]).getLast? = some b := List.getLast?_concat
  simp only [scriptNumBytes, hbs, hback, and_80_ne_zero, decide_eq_true_eq]
  split_ifs with h128 hneg hneg
  · have := Written.carried (n := n) hval h128
    rwa [if_pos hneg] at this
  · have := Written.carried (n := n) hval h128
    rwa [if_neg hneg] at this
  · rw [List.dropLast_concat]
    exact .inside hval hb (by omega) (by rw [if_pos hneg, toNat_or_80 (by omega)])
  · exact .inside hval hb (by omega) (by rw [if_neg hneg])

theorem pow_le_leNat {bs : Bytes} {b : UInt8} {k : Nat} (hb : 2 ^ k ≤ b.toNat) :
    2 ^ (8 * bs.length + k) ≤ leNat (bs ++ [b]) := by
  have hpow : 2 ^ (8 * bs.length) = 256 ^ bs.length := by rw [pow_mul]; norm_num
  rw [pow_add, hpow, leNat_concat]
  exact (Nat.mul_le_mul_left _ hb).trans (Nat.le_add_left _ _)

theorem pow_zero_le {b : UInt8} (h : b ≠ 0) : 2 ^ 0 ≤ b.toNat :=
  Nat.pos_of_ne_zero fun h' => h (UInt8.toNat_inj.mp h')

/-- The bytes that a number takes, with the bit of the sign. -/
theorem Written.length_le {n : Int} {vch : Bytes} (h : Written n vch) {k : Nat}
    (hn : n.natAbs < 2 ^ (8 * k - 1)) : vch.length ≤ k := by
  have hexp : ∀ {a}, 2 ^ a ≤ n.natAbs → a < 8 * k - 1 := fun ha =>
    (Nat.pow_lt_pow_iff_right (by decide)).mp (ha.trans_lt hn)
  cases h with
  | zero _ => exact Nat.zero_le k
  | carried hval hb =>
    have := hexp (hval ▸ pow_le_leNat (k := 7) hb)
    simp only [List.length_append, List.length_singleton]
    omega
  | inside hval h0 _ _ =>
    have := hexp (hval ▸ pow_le_leNat (pow_zero_le h0))
    rw [List.length_append, List.length_singleton]
    omega

/-- Reading inverts writing. -/
theorem Written.setVch {n : Int} {vch : Bytes} (h : Written n vch) (hn : n.natAbs < 2 ^ 63) :
    setVch vch = n := by
  have hlen := h.length_le (k := 8) hn
  cases h with
  | zero h => exact h.symm
  | carried hval hb =>
    rw [List.length_append, List.length_singleton] at hlen
    rw [setVch_concat _ (by omega), hval]
    split_ifs with hneg h128 h128
    · rw [show (0x80 : UInt8).toNat - 128 = 0 from rfl, Nat.mul_zero]
      omega
    · exact absurd (by decide : 128 ≤ (0x80 : UInt8).toNat) h128
    · exact absurd h128 (by decide)
    · rw [show (0 : UInt8).toNat = 0 from rfl, Nat.mul_zero]
      omega
  | inside hval h0 hb hc =>
    rename_i bs b c
    rw [List.length_append, List.length_singleton] at hlen
    rw [setVch_concat _ (by omega), hc]
    rw [leNat_concat] at hval
    split_ifs with hneg h128 h128
    · rw [Nat.add_sub_cancel, hval]
      omega
    · omega
    · omega
    · rw [hval]
      omega

theorem setVch_scriptNumBytes {n : Int} (hn : n.natAbs < 2 ^ 63) : setVch (scriptNumBytes n) = n :=
  (scriptNumBytes_written hn).setVch hn

/-! ## The shortest form -/

theorem nonMinimal_concat (bs : Bytes) (b : UInt8) : nonMinimal (bs ++ [b]) = true ↔
    b.toNat % 128 = 0 ∧ ∀ c, bs.getLast? = some c → c.toNat < 128 := by
  have hback : (bs ++ [b]).getLast? = some b := List.getLast?_concat
  simp only [nonMinimal, hback, and_7f_eq_zero, Bool.and_eq_true, decide_eq_true_eq,
    Bool.or_eq_true]
  refine and_congr_right fun _ => ?_
  rcases List.eq_nil_or_concat bs with rfl | ⟨bs, c, rfl⟩
  · exact iff_of_true (.inl (Nat.le_refl 1)) fun c hc => by cases hc
  · have hc : (bs ++ [c] ++ [b]).getD ((bs ++ [c] ++ [b]).length - 2) 0 = c := by
      simp [List.getD_eq_getElem?_getD]
    have h80 : (c &&& 0x80 == 0) = true ↔ c.toNat < 128 := by
      have := and_80_ne_zero c
      rw [bne, Bool.not_eq_eq_eq_not, ← decide_not] at this
      rw [this, decide_eq_true_eq, Nat.not_le]
    rw [List.concat_eq_append, hc, h80, List.getLast?_concat]
    simp

theorem Written.minimal {n : Int} {vch : Bytes} (h : Written n vch) : nonMinimal vch = false := by
  cases h with
  | zero _ => rfl
  | carried hval hb =>
    rw [← Bool.not_eq_true, nonMinimal_concat]
    rintro ⟨-, hlast⟩
    exact absurd (hlast _ List.getLast?_concat) (Nat.not_lt.mpr hb)
  | inside hval h0 hb hc =>
    rename_i bs b c
    rw [← Bool.not_eq_true, nonMinimal_concat]
    have := pow_zero_le h0
    rintro ⟨hmod, -⟩
    rw [hc] at hmod
    split_ifs at hmod <;> omega

/-- The forms that pass the check are written for their value. -/
theorem scriptNumBytes_setVch {vch : Bytes} (hlen : vch.length < 8) (hmin : nonMinimal vch = false) :
    scriptNumBytes (setVch vch) = vch := by
  rcases List.eq_nil_or_concat vch with rfl | ⟨bs, b, rfl⟩
  · rfl
  rw [List.concat_eq_append] at *
  rw [← Bool.not_eq_true, nonMinimal_concat] at hmin
  rw [List.length_append, List.length_singleton] at hlen
  have hlt := b.toNat_lt
  obtain ⟨m, hm⟩ : ∃ m : UInt8, m.toNat = b.toNat % 128 :=
    ⟨UInt8.ofNat (b.toNat % 128), by rw [UInt8.toNat_ofNat']; omega⟩
  -- the value without its sign
  have habs : (setVch (bs ++ [b])).natAbs = leNat (bs ++ [m]) := by
    rw [setVch_concat _ (by omega), leNat_concat, hm]
    split_ifs with h
    · rw [Int.natAbs_neg, Int.natAbs_natCast, show b.toNat % 128 = b.toNat - 128 by omega]
    · rw [Int.natAbs_natCast, Nat.mod_eq_of_lt (by omega)]
  have hneg : 0 < leNat (bs ++ [m]) → (setVch (bs ++ [b]) < 0 ↔ 128 ≤ b.toNat) := by
    intro hpos
    rw [← habs] at hpos
    rw [setVch_concat _ (by omega)] at hpos ⊢
    split_ifs at hpos ⊢ with h
    · rw [Int.natAbs_neg, Int.natAbs_natCast] at hpos
      exact iff_of_true (by omega) h
    · exact iff_of_false (by omega) h
  by_cases h0 : m = 0
  · -- the last byte holds the sign only
    have hb0 : b.toNat % 128 = 0 := by rw [← hm, h0]; rfl
    rcases List.eq_nil_or_concat bs with rfl | ⟨bs', c, rfl⟩
    · exact absurd ⟨hb0, fun c hc => by cases hc⟩ hmin
    rw [List.concat_eq_append] at *
    have hc : 128 ≤ c.toNat := by
      refine Nat.le_of_not_lt fun hc => hmin ⟨hb0, fun d hd => ?_⟩
      rw [List.getLast?_concat, Option.some.injEq] at hd
      rwa [← hd]
    have hc0 : c ≠ 0 := fun h => absurd (h ▸ hc) (by decide)
    have hval : leNat (bs' ++ [c] ++ [m]) = leNat (bs' ++ [c]) := by
      rw [leNat_concat, h0, show (0 : UInt8).toNat = 0 from rfl, Nat.mul_zero, Nat.add_zero]
    rw [List.length_append, List.length_singleton] at hlen
    have hneg := hneg (hval ▸ leNat_pos hc0)
    have hback : (bs' ++ [c]).getLast? = some c := List.getLast?_concat
    simp only [scriptNumBytes, habs, hval, absBytes_leNat hc0 (show bs'.length < 8 by omega), hback,
      and_80_ne_zero, hc, decide_true, if_true, hneg, decide_eq_true_eq]
    congr 2
    refine UInt8.toNat_inj.mp ?_
    split_ifs
    · show 128 = b.toNat
      omega
    · show 0 = b.toNat
      omega
  · have hneg := hneg (leNat_pos h0)
    have hback : (bs ++ [m]).getLast? = some m := List.getLast?_concat
    have hm128 : ¬ 128 ≤ m.toNat := by omega
    simp only [scriptNumBytes, habs, absBytes_leNat h0 (show bs.length < 8 by omega), hback,
      and_80_ne_zero, hm128, decide_false, Bool.false_eq_true, if_false, hneg, decide_eq_true_eq,
      List.dropLast_concat]
    split_ifs
    · congr 2
      refine UInt8.toNat_inj.mp ?_
      rw [toNat_or_80 (by omega)]
      omega
    · congr 2
      refine UInt8.toNat_inj.mp ?_
      omega

/-! ## Operands -/

/-- A form of at most four bytes has a value below `2 ^ 31`. -/
theorem setVch_lt {vch : Bytes} (hlen : vch.length ≤ 4) : (setVch vch).natAbs < 2 ^ 31 := by
  rcases List.eq_nil_or_concat vch with rfl | ⟨bs, b, rfl⟩
  · decide
  rw [List.concat_eq_append, List.length_append, List.length_singleton] at hlen
  have hlow := leNat_lt bs
  have hlt := b.toNat_lt
  have hbound : ∀ d < 128, leNat bs + 256 ^ bs.length * d < 2 ^ 31 := fun d hd => by
    calc leNat bs + 256 ^ bs.length * d < 256 ^ bs.length + 256 ^ bs.length * d :=
          Nat.add_lt_add_right hlow _
      _ = 256 ^ bs.length * (d + 1) := by rw [Nat.mul_succ, Nat.add_comm]
      _ ≤ 256 ^ 3 * 2 ^ 7 := Nat.mul_le_mul (Nat.pow_le_pow_right (by decide) (by omega)) (by omega)
      _ = 2 ^ 31 := by norm_num
  rw [List.concat_eq_append, setVch_concat b (by omega)]
  split_ifs with h
  · rw [Int.natAbs_neg, Int.natAbs_natCast]
    exact hbound _ (by omega)
  · rw [Int.natAbs_natCast]
    exact hbound _ (by omega)

theorem scriptNum_eq_ok {fRequireMinimal : Bool} {vch : Bytes} {n : Int} :
    scriptNum fRequireMinimal vch = .ok n ↔
      vch.length ≤ 4 ∧ (fRequireMinimal = true → nonMinimal vch = false) ∧ setVch vch = n := by
  unfold scriptNum
  split_ifs with h4 hmin
  · exact iff_of_false (fun h => by cases h) fun h => absurd h.1 (Nat.not_le.mpr h4)
  · rw [Bool.and_eq_true] at hmin
    exact iff_of_false (fun h => by cases h) fun h => by
      rw [h.2.1 hmin.1] at hmin
      exact Bool.false_ne_true hmin.2
  · have hreq : fRequireMinimal = true → nonMinimal vch = false := fun h => by
      rwa [h, Bool.true_and, Bool.not_eq_true] at hmin
    rw [Except.ok.injEq]
    exact ⟨fun h => ⟨Nat.le_of_not_lt h4, hreq, h⟩, fun h => h.2.2⟩

theorem scriptNum_scriptNumBytes {fRequireMinimal : Bool} {n : Int} (hn : n.natAbs < 2 ^ 31) :
    scriptNum fRequireMinimal (scriptNumBytes n) = .ok n := by
  have hw := scriptNumBytes_written (n := n) (by omega)
  exact scriptNum_eq_ok.mpr ⟨hw.length_le (by omega), fun _ => hw.minimal, hw.setVch (by omega)⟩

/-- The operations on two operands are exact. -/
structure Exactly (a b : Int) : Prop where
  int64 : ∀ c ∈ [a + b, a - b, -a, -b], -2 ^ 63 < c ∧ c < 2 ^ 63
  add : addNum a b = .ok (a + b)
  sub : subNum a b = .ok (a - b)
  neg : negNum a = .ok (-a) ∧ negNum b = .ok (-b)
  bytes : ∀ c ∈ [a + b, a - b, -a, -b], (scriptNumBytes c).length ≤ 5 ∧ setVch (scriptNumBytes c) = c

theorem Exactly.of_lt {a b : Int} (ha : a.natAbs < 2 ^ 31) (hb : b.natAbs < 2 ^ 31) :
    Exactly a b := by
  have hlt : ∀ c ∈ [a + b, a - b, -a, -b], c.natAbs < 2 ^ 32 := by
    simp only [List.forall_mem_cons, List.not_mem_nil, IsEmpty.forall_iff, implies_true, and_true]
    omega
  refine ⟨fun c hc => ?_, ?_, ?_, ⟨?_, ?_⟩, fun c hc => ⟨?_, ?_⟩⟩
  · have := hlt c hc
    omega
  · have hassert : (b == 0 || (decide (0 < b) && decide (a ≤ 2 ^ 63 - 1 - b)) ||
        (decide (b < 0) && decide (-2 ^ 63 - b ≤ a))) = true := by
      simp only [Bool.or_eq_true, Bool.and_eq_true, beq_iff_eq, decide_eq_true_eq]
      omega
    rw [addNum, hassert]
    rfl
  · have hassert : (b == 0 || (decide (0 < b) && decide (-2 ^ 63 + b ≤ a)) ||
        (decide (b < 0) && decide (a ≤ 2 ^ 63 - 1 + b))) = true := by
      simp only [Bool.or_eq_true, Bool.and_eq_true, beq_iff_eq, decide_eq_true_eq]
      omega
    rw [subNum, hassert]
    rfl
  · have hassert : (a != -2 ^ 63) = true := bne_iff_ne.mpr (by omega)
    rw [negNum, hassert]
    rfl
  · have hassert : (b != -2 ^ 63) = true := bne_iff_ne.mpr (by omega)
    rw [negNum, hassert]
    rfl
  · have := hlt c hc
    exact (scriptNumBytes_written (by omega)).length_le (by omega)
  · have := hlt c hc
    exact setVch_scriptNumBytes (by omega)

/-- Script numbers are a canonical encoding of the integers below `2 ^ 31` in absolute value, and the
operations on them are exact. -/
theorem scriptNum_canonical :
    (∀ n : Int, n.natAbs < 2 ^ 31 → scriptNum true (scriptNumBytes n) = .ok n) ∧
    (∀ vch, (∃ n, scriptNum true vch = .ok n) ↔
      vch.length ≤ 4 ∧ scriptNumBytes (setVch vch) = vch) ∧
    (∀ vch : Bytes, vch.length ≤ 4 →
      ∃ n, scriptNum false vch = .ok n ∧ n = setVch vch ∧ n.natAbs < 2 ^ 31) ∧
    ∀ f g vch vch' a b, scriptNum f vch = .ok a → scriptNum g vch' = .ok b → Exactly a b := by
  refine ⟨fun n hn => ?_, fun vch => ⟨?_, ?_⟩, fun vch hlen => ?_, ?_⟩
  · exact scriptNum_scriptNumBytes hn
  · rintro ⟨n, hn⟩
    obtain ⟨hlen, hmin, -⟩ := scriptNum_eq_ok.mp hn
    exact ⟨hlen, scriptNumBytes_setVch (by omega) (hmin rfl)⟩
  · rintro ⟨hlen, hvch⟩
    have hlt := setVch_lt hlen
    have hw := scriptNumBytes_written (n := setVch vch) (by omega)
    rw [hvch] at hw
    exact ⟨_, scriptNum_eq_ok.mpr ⟨hlen, fun _ => hw.minimal, rfl⟩⟩
  · exact ⟨_, scriptNum_eq_ok.mpr ⟨hlen, fun h => (by cases h), rfl⟩, rfl, setVch_lt hlen⟩
  · intro f g vch vch' a b ha hb
    obtain ⟨hlena, -, rfl⟩ := scriptNum_eq_ok.mp ha
    obtain ⟨hlenb, -, rfl⟩ := scriptNum_eq_ok.mp hb
    exact .of_lt (setVch_lt hlena) (setVch_lt hlenb)

/-- The largest operand, and its sum with itself, which takes five bytes. -/
theorem scriptNum_canonical_max :
    scriptNum true (scriptNumBytes (2 ^ 31 - 1)) = .ok (2 ^ 31 - 1) ∧
      Exactly (2 ^ 31 - 1) (2 ^ 31 - 1) ∧
      scriptNumBytes (2 ^ 31 - 1 + (2 ^ 31 - 1)) = [254, 255, 255, 255, 0] :=
  ⟨scriptNum_canonical.1 _ (by decide),
    scriptNum_canonical.2.2.2 true false [255, 255, 255, 127] [255, 255, 255, 127] _ _ (by decide)
      (by decide), by decide⟩

end GC
