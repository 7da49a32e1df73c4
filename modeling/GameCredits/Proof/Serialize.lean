import GameCredits.Model.Serialize

/-!
# Variable-length integers are one to one (serialize.h)

What `WriteVarInt` and `WriteCompactSize` write is read back, has the announced size and fits the
buffer, and no other bytes are read as the same number (`varInt_bijection`). The loop of
`ReadVarInt` is compared with the same loop on unbounded numbers (`decodeVarIntFrom`): as long as
that one stays within the type's range, both return the same number (`readVarIntFrom_eq`), and the
bytes are the ones `WriteVarInt` writes (`decodeVarIntFrom_eq_some`).
-/

namespace GC

open Framework

/-! ## The size and the buffer -/

theorem getSizeOfVarInt_pos (n : Nat) : 0 < getSizeOfVarInt n := by
  rw [getSizeOfVarInt]
  split_ifs <;> omega

/-- A buffer of `len` digits is large enough for every number below `128 ^ len`. -/
theorem getSizeOfVarInt_le {len n : Nat} (hn : n < 128 ^ len) (hpos : 0 < len) :
    getSizeOfVarInt n ≤ len := by
  induction len generalizing n with
  | zero => omega
  | succ len ih =>
    rw [getSizeOfVarInt]
    split_ifs with h
    · omega
    · rw [pow_succ] at hn
      have h0 : 0 < len := by
        rcases Nat.eq_zero_or_pos len with rfl | h0
        · omega
        · exact h0
      have hrest := ih (n := (n >>> 7) - 1) (by rw [shiftRight_7]; omega) h0
      omega

/-- With room for the digits, the loop stores those of `varIntTmp`. -/
theorem fillVarIntTmp_eq {room : Nat} (tmp : Bytes) {n : Nat} (hroom : getSizeOfVarInt n ≤ room) :
    fillVarIntTmp room tmp n =
      some ((varIntTmp room (if tmp.length = 0 then 0x00 else 0x80) n).reverse ++ tmp) := by
  induction room generalizing tmp n with
  | zero => exact absurd hroom (Nat.not_le.mpr (getSizeOfVarInt_pos n))
  | succ room ih =>
    rw [fillVarIntTmp, varIntTmp]
    by_cases h : n ≤ 0x7F
    · simp only [if_pos h, List.reverse_cons, List.reverse_nil, List.nil_append,
        List.singleton_append]
    · rw [getSizeOfVarInt, if_neg h] at hroom
      simp only [if_neg h]
      rw [ih _ (by omega), List.length_cons, if_neg (Nat.succ_ne_zero _), List.reverse_cons,
        List.append_assoc, List.singleton_append]

/-- More room than digits changes nothing. -/
theorem varIntTmp_room {room room' high n : Nat} (h : getSizeOfVarInt n ≤ room)
    (h' : getSizeOfVarInt n ≤ room') : varIntTmp room high n = varIntTmp room' high n := by
  induction room generalizing room' high n with
  | zero => exact absurd h (Nat.not_le.mpr (getSizeOfVarInt_pos n))
  | succ room ih =>
    cases room' with
    | zero => exact absurd h' (Nat.not_le.mpr (getSizeOfVarInt_pos n))
    | succ room' =>
      rw [varIntTmp, varIntTmp]
      by_cases hn : n ≤ 0x7F
      · rw [if_pos hn, if_pos hn]
      · rw [getSizeOfVarInt, if_neg hn] at h h'
        rw [if_neg hn, if_neg hn, ih (Nat.le_of_succ_le_succ h) (Nat.le_of_succ_le_succ h')]

/-- `WriteVarInt` never stores past the end of `tmp`, for a type of at most 64 bits. -/
theorem fillVarIntTmp_write {w n : Nat} (hw : w ≤ 64)
    (hsize : getSizeOfVarInt n ≤ varIntTmpSize w) :
    fillVarIntTmp (varIntTmpSize w) [] n = some (writeVarInt n) := by
  have hten : getSizeOfVarInt n ≤ 10 := by
    unfold varIntTmpSize at hsize
    omega
  rw [fillVarIntTmp_eq [] hsize, varIntTmp_room hsize hten, List.append_nil]
  rfl

/-! ## Reading -/

/-- Every digit brings the number to at least 128 times the accumulator. -/
theorem decodeVarIntFrom_ge {acc n : Nat} {s s' : Bytes}
    (h : decodeVarIntFrom acc s = some (n, s')) : 128 * acc ≤ n := by
  induction s generalizing acc with
  | nil => cases h
  | cons chData s ih =>
    have hd : chData.toNat &&& 0x7F < 128 := by rw [and_7F]; exact Nat.mod_lt _ (by decide)
    rw [decodeVarIntFrom] at h
    simp only [shiftLeft_7_or acc hd] at h
    split_ifs at h with hmore
    · have := ih h
      omega
    · obtain ⟨rfl, -⟩ := Prod.mk.inj (Option.some.inj h)
      omega

/-- Within the range of the type nothing wraps around. -/
theorem readVarIntFrom_eq {w acc n : Nat} {s s' : Bytes}
    (h : decodeVarIntFrom acc s = some (n, s')) (hn : n < 2 ^ w) :
    readVarIntFrom w acc s = some (n, s') := by
  induction s generalizing acc with
  | nil => cases h
  | cons chData s ih =>
    have hd : chData.toNat &&& 0x7F < 128 := by rw [and_7F]; exact Nat.mod_lt _ (by decide)
    rw [decodeVarIntFrom] at h
    simp only [shiftLeft_7_or acc hd] at h
    rw [readVarIntFrom]
    simp only [shiftLeft_7_or acc hd]
    split_ifs at h with hmore
    · have hge := decodeVarIntFrom_ge h
      have hmod : (128 * acc + (chData.toNat &&& 0x7F)) % 2 ^ w =
          128 * acc + (chData.toNat &&& 0x7F) := Nat.mod_eq_of_lt (by omega)
      rw [if_pos hmore, hmod, Nat.mod_eq_of_lt (by omega)]
      exact ih h
    · obtain ⟨rfl, rfl⟩ := Prod.mk.inj (Option.some.inj h)
      rw [if_neg hmore, Nat.mod_eq_of_lt hn]

/-- A byte is its seven low bits and the bit `0x80`. -/
theorem byte_or_80 (b : UInt8) : UInt8.ofNat ((b.toNat &&& 0x7F) |||
    if b.toNat &&& 0x80 ≠ 0 then 0x80 else 0x00) = b := by
  have hb : b.toNat < 256 := b.toNat_lt
  rw [and_7F]
  rcases Nat.lt_or_ge b.toNat 128 with hlow | hhigh
  · rw [if_neg (by rw [and_80_low hlow]; decide), Nat.mod_eq_of_lt hlow, Nat.or_zero,
      UInt8.ofNat_toNat]
  · obtain ⟨d, hd⟩ := Nat.exists_eq_add_of_le hhigh
    have hmod : b.toNat % 128 = d := by omega
    have hhigh80 : b.toNat &&& 0x80 ≠ 0 := by
      rw [hd, Nat.add_comm]
      exact and_80_high (by omega)
    rw [if_pos hhigh80, hmod, or_80 (by omega), Nat.add_comm, ← hd, UInt8.ofNat_toNat]

/-- The digits read when the accumulator is `acc`, all with the bit `0x80`. -/
def digitsRead (acc : Nat) : Bytes := if acc = 0 then [] else (varIntTmp 9 0x80 (acc - 1)).reverse

/-- The digits up to one with the seven low bits `d`, over an accumulator `acc`. -/
theorem varIntTmp_digitsRead {len acc d high : Nat} (hd : d < 128) (hacc : acc ≤ 2 ^ 57)
    (hlen : getSizeOfVarInt (acc - 1) ≤ len) :
    (varIntTmp (len + 1) high (128 * acc + d)).reverse =
      digitsRead acc ++ [UInt8.ofNat (d ||| high)] := by
  have hlow : (128 * acc + d) % 128 = d := by omega
  rw [varIntTmp, and_7F, hlow, List.reverse_cons, digitsRead]
  by_cases h0 : acc = 0
  · rw [if_pos (by omega), if_pos h0, List.reverse_nil]
  · have hrest : (128 * acc + d) / 128 - 1 = acc - 1 := by omega
    rw [if_neg (by omega), if_neg h0, shiftRight_7, hrest,
      varIntTmp_room hlen (show getSizeOfVarInt (acc - 1) ≤ 9 from
        getSizeOfVarInt_le (by omega) (by decide))]

/-- The bytes that decode to a number of at most 64 bits are the ones `WriteVarInt` writes: the
invariant of the loop is that the digits read so far are those of the accumulator. -/
theorem decodeVarIntFrom_eq_some {acc n : Nat} {s s' : Bytes}
    (h : decodeVarIntFrom acc s = some (n, s')) (hn : n < 2 ^ 64) :
    digitsRead acc ++ s = writeVarInt n ++ s' := by
  induction s generalizing acc with
  | nil => cases h
  | cons chData s ih =>
    have hd : chData.toNat &&& 0x7F < 128 := by rw [and_7F]; exact Nat.mod_lt _ (by decide)
    have hb := byte_or_80 chData
    rw [decodeVarIntFrom] at h
    simp only [shiftLeft_7_or acc hd] at h
    split_ifs at h with hmore
    · -- the digits of the next accumulator end in this byte
      have hge := decodeVarIntFrom_ge h
      rw [if_pos hmore] at hb
      have hdigits : digitsRead (128 * acc + (chData.toNat &&& 0x7F) + 1) =
          digitsRead acc ++ [chData] := by
        rw [digitsRead, if_neg (Nat.succ_ne_zero _), Nat.add_sub_cancel,
          varIntTmp_digitsRead hd (by omega) (getSizeOfVarInt_le (by omega) (by decide)), hb]
      have hrest := ih h
      rwa [hdigits, List.append_assoc, List.singleton_append] at hrest
    · obtain ⟨rfl, rfl⟩ := Prod.mk.inj (Option.some.inj h)
      rw [if_neg hmore] at hb
      rw [writeVarInt, varIntTmp_digitsRead hd (by omega) (getSizeOfVarInt_le (by omega) (by decide)),
        hb, List.append_assoc, List.singleton_append]

/-- `ReadVarInt` decodes `s` without exceeding the range of a type of `w` bits. -/
def FitsVarInt (w : Nat) (s : Bytes) : Prop :=
  ∀ n s', decodeVarIntFrom 0 s = some (n, s') → n < 2 ^ w

/-- Whatever `ReadVarInt` returns, the unbounded loop ends at the same byte. -/
theorem decodeVarIntFrom_isSome {w acc n : Nat} {s s' : Bytes} (acc' : Nat)
    (h : readVarIntFrom w acc s = some (n, s')) :
    ∃ m, decodeVarIntFrom acc' s = some (m, s') := by
  induction s generalizing acc acc' with
  | nil => cases h
  | cons chData s ih =>
    rw [readVarIntFrom] at h
    rw [decodeVarIntFrom]
    by_cases hmore : chData.toNat &&& 0x80 ≠ 0
    · simp only [if_pos hmore] at h ⊢
      exact ih _ h
    · simp only [if_neg hmore] at h ⊢
      obtain ⟨-, rfl⟩ := Prod.mk.inj (Option.some.inj h)
      exact ⟨_, rfl⟩

theorem readVarInt_eq_some {w n : Nat} {s s' : Bytes} (hw : w ≤ 64)
    (h : (readVarInt w).run s = some (n, s')) (hs : FitsVarInt w s) :
    n < 2 ^ w ∧ s = writeVarInt n ++ s' := by
  obtain ⟨m, hm⟩ := decodeVarIntFrom_isSome 0 h
  have hlt := hs m s' hm
  have heq : readVarIntFrom w 0 s = some (n, s') := h
  rw [readVarIntFrom_eq hm hlt] at heq
  obtain ⟨rfl, -⟩ := Prod.mk.inj (Option.some.inj heq)
  exact ⟨hlt, decodeVarIntFrom_eq_some hm (lt_of_lt_of_le hlt (Nat.pow_le_pow_right (by decide) hw))⟩

/-- The bytes of a non-negative `int`. -/
theorem readVarIntSigned_eq_some {n : Int} {s s' : Bytes}
    (h : readVarIntSigned.run s = some (n, s')) (hs : FitsVarInt 31 s) :
    (0 ≤ n ∧ n < 2 ^ 31) ∧ s = writeVarIntSigned n ++ s' := by
  obtain ⟨m, s₁, hread, h⟩ := Get.run_bind_eq_some.mp h
  obtain ⟨rfl, rfl⟩ := Prod.mk.inj (Option.some.inj h)
  obtain ⟨k, hk⟩ := decodeVarIntFrom_isSome 0 hread
  have hlt := hs k s₁ hk
  obtain ⟨-, hwrite⟩ := readVarInt_eq_some (by decide) hread fun a b hab => by
    have := hs a b hab
    omega
  have heq : readVarIntFrom 32 0 s = some (m, s₁) := hread
  rw [readVarIntFrom_eq hk (by omega)] at heq
  obtain ⟨rfl, -⟩ := Prod.mk.inj (Option.some.inj heq)
  have hb : Int.bmod (k : Int) (2 ^ 32) = k := Int.bmod_eq_of_le (by omega) (by omega)
  rw [hb, writeVarIntSigned, if_neg (by omega), Int.toNat_natCast]
  exact ⟨⟨by omega, by omega⟩, hwrite⟩

/-! ## CompactSize -/

theorem length_writeCompactSize (n : Nat) :
    (writeCompactSize n).length = getSizeOfCompactSize n := by
  unfold writeCompactSize getSizeOfCompactSize
  split_ifs <;> simp only [List.length_cons, length_leBytes]

/-! ## The bijections -/

section OneToOne

variable {α : Type}

/-- On the values satisfying `P`, `get` reads back what `put` writes, `size` is the number of bytes
written, and the strings that `get` decodes without overflow (`fits`) are the ones `put` writes. -/
structure OneToOne (put : α → Bytes) (get : Get α) (size : α → Nat) (fits : Bytes → Prop)
    (P : α → Prop) : Prop where
  read_write : RoundTrip put get P
  length_eq : ∀ n, P n → (put n).length = size n
  unique : ∀ s n s', fits s → get.run s = some (n, s') → P n ∧ s = put n ++ s'

/-- `WriteVarInt` for a type of `w` bits stores the digits of `put` without exceeding `tmp`. -/
def WithinTmp (w : Nat) (put : α → Bytes) (size : α → Nat) (number : α → Nat) (P : α → Prop) : Prop :=
  ∀ n, P n → fillVarIntTmp (varIntTmpSize w) [] (number n) = some (put n) ∧ size n ≤ varIntTmpSize w

end OneToOne

theorem oneToOne_varInt {w : Nat} (hw : w ≤ 64) :
    OneToOne writeVarInt (readVarInt w) getSizeOfVarInt (FitsVarInt w) (· < 2 ^ w) where
  read_write := readVarInt_write hw
  length_eq := fun _ hn =>
    length_writeVarInt (lt_of_lt_of_le hn (Nat.pow_le_pow_right (by decide) hw))
  unique := fun _ _ _ hs h => readVarInt_eq_some hw h hs

theorem withinTmp_varInt {w : Nat} (hw : w ≤ 64) (hpos : 0 < w) :
    WithinTmp w writeVarInt getSizeOfVarInt id (· < 2 ^ w) := by
  intro n hn
  have hroom : n < 128 ^ varIntTmpSize w := by
    have hbits : w ≤ 7 * varIntTmpSize w := by
      unfold varIntTmpSize
      omega
    calc n < 2 ^ w := hn
      _ ≤ 2 ^ (7 * varIntTmpSize w) := Nat.pow_le_pow_right (by decide) hbits
      _ = 128 ^ varIntTmpSize w := pow_mul 2 7 _
  have hsize := getSizeOfVarInt_le hroom (by unfold varIntTmpSize; omega)
  exact ⟨fillVarIntTmp_write hw hsize, hsize⟩

theorem oneToOne_varIntSigned : OneToOne writeVarIntSigned readVarIntSigned getSizeOfVarIntSigned
    (FitsVarInt 31) fun n => 0 ≤ n ∧ n < 2 ^ 31 where
  read_write := readVarIntSigned_write
  length_eq := fun _ hn => length_writeVarIntSigned hn.2
  unique := fun _ _ _ hs h => readVarIntSigned_eq_some h hs

theorem withinTmp_varIntSigned : WithinTmp 32 writeVarIntSigned getSizeOfVarIntSigned Int.toNat
    fun n => 0 ≤ n ∧ n < 2 ^ 31 := by
  rintro n ⟨h₀, h₁⟩
  obtain ⟨hfill, hsize⟩ := withinTmp_varInt (w := 32) (by decide) (by decide) n.toNat (by omega)
  refine ⟨by rw [writeVarIntSigned, if_neg (by omega)]; exact hfill, ?_⟩
  rw [getSizeOfVarIntSigned]
  split_ifs
  · decide
  · exact hsize

theorem oneToOne_compactSize : OneToOne writeCompactSize readCompactSize getSizeOfCompactSize
    (fun _ => True) (· ≤ MAX_SIZE) where
  read_write := readCompactSize_write
  length_eq := fun n _ => length_writeCompactSize n
  unique := fun _ _ _ _ h => readCompactSize_eq_some h

/-- VARINT is one to one for 32 and 64 bits and for the non-negative `int`s, and its digits fit the
buffer; CompactSize is one to one on the counts up to `MAX_SIZE`. -/
theorem varInt_bijection :
    (OneToOne writeVarInt (readVarInt 32) getSizeOfVarInt (FitsVarInt 32) (· < 2 ^ 32) ∧
      WithinTmp 32 writeVarInt getSizeOfVarInt id (· < 2 ^ 32)) ∧
    (OneToOne writeVarInt (readVarInt 64) getSizeOfVarInt (FitsVarInt 64) (· < 2 ^ 64) ∧
      WithinTmp 64 writeVarInt getSizeOfVarInt id (· < 2 ^ 64)) ∧
    (OneToOne writeVarIntSigned readVarIntSigned getSizeOfVarIntSigned (FitsVarInt 31)
        (fun n => 0 ≤ n ∧ n < 2 ^ 31) ∧
      WithinTmp 32 writeVarIntSigned getSizeOfVarIntSigned Int.toNat
        fun n => 0 ≤ n ∧ n < 2 ^ 31) ∧
    OneToOne writeCompactSize readCompactSize getSizeOfCompactSize (fun _ => True) (· ≤ MAX_SIZE) :=
  ⟨⟨oneToOne_varInt (by decide), withinTmp_varInt (by decide) (by decide)⟩,
    ⟨oneToOne_varInt (by decide), withinTmp_varInt (by decide) (by decide)⟩,
    ⟨oneToOne_varIntSigned, withinTmp_varIntSigned⟩, oneToOne_compactSize⟩

end GC
