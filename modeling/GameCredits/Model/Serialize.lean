import GameCredits.Framework.Codec

/-!
# Sizes and variable-length integers (serialize.h)

`WriteCompactSize`/`ReadCompactSize` for counts, and `WriteVarInt`/`ReadVarInt` for the compact
on-disk records, with the proofs that reading inverts writing (`exact_compactSize`,
`readVarInt_write`). Readers return `none` where the source throws.
-/

namespace GC

open Framework

/-- The largest count that `ReadCompactSize` accepts. -/
def MAX_SIZE : Nat := 0x02000000

/-- `WriteCompactSize`. -/
def writeCompactSize (nSize : Nat) : Bytes :=
  if nSize < 253 then leBytes 1 nSize
  else if nSize ≤ 0xFFFF then 253 :: leBytes 2 nSize
  else if nSize ≤ 0xFFFFFFFF then 254 :: leBytes 4 nSize
  else 255 :: leBytes 8 nSize

/-- `GetSizeOfCompactSize`. -/
def getSizeOfCompactSize (nSize : Nat) : Nat :=
  if nSize < 253 then 1
  else if nSize ≤ 0xFFFF then 1 + 2
  else if nSize ≤ 0xFFFFFFFF then 1 + 4
  else 1 + 8

/-- A little-endian number of `n` bytes that is at least `least` (else the encoding is not
canonical). -/
def readCanonical (n least : Nat) : Get Nat := do
  let nSizeRet ← getLE n
  if nSizeRet < least then Get.fail else pure nSizeRet

/-- `ReadCompactSize`: rejects a longer encoding than needed, and counts above `MAX_SIZE`. -/
def readCompactSize : Get Nat := do
  let chSize ← getByte
  let nSizeRet ←
    if chSize < 253 then pure chSize.toNat
    else if chSize = 253 then readCanonical 2 253
    else if chSize = 254 then readCanonical 4 0x10000
    else readCanonical 8 0x100000000
  if MAX_SIZE < nSizeRet then Get.fail else pure nSizeRet

theorem readCanonical_append {n least x : Nat} (hx : x < 256 ^ n) (hl : least ≤ x) (s : Bytes) :
    (readCanonical n least).run (leBytes n x ++ s) = some (x, s) := by
  rw [readCanonical, Get.run_bind_some (roundTrip_le n x hx s), if_neg (Nat.not_lt.mpr hl), Get.run_pure]

theorem readCompactSize_write : RoundTrip writeCompactSize readCompactSize (· ≤ MAX_SIZE) := by
  intro n hn s
  have hmax : n ≤ 0x02000000 := hn
  have hsz : ¬ MAX_SIZE < n := Nat.not_lt.mpr hn
  unfold writeCompactSize
  split_ifs with h₁ h₂ h₃
  · have hn8 : (UInt8.ofNat (n % 256)).toNat = n := by
      rw [UInt8.toNat_ofNat', Nat.mod_eq_of_lt (by omega), Nat.mod_eq_of_lt (by omega)]
    have hlt : UInt8.ofNat (n % 256) < 253 := by
      rw [UInt8.lt_iff_toNat_lt, hn8]; exact h₁
    rw [leBytes, leBytes, List.singleton_append, readCompactSize,
      Get.run_bind_some (getByte_cons _ _), if_pos hlt, Get.run_bind_some (Get.run_pure _ _), hn8]
    simp only [hsz, if_false, Get.run_pure]
  · rw [List.cons_append, readCompactSize, Get.run_bind_some (getByte_cons _ _),
      if_neg (by decide), if_pos rfl,
      Get.run_bind_some (readCanonical_append (by omega) (by omega) s)]
    simp only [hsz, if_false, Get.run_pure]
  · rw [List.cons_append, readCompactSize, Get.run_bind_some (getByte_cons _ _),
      if_neg (by decide), if_neg (by decide), if_pos rfl,
      Get.run_bind_some (readCanonical_append (by omega) (by omega) s)]
    simp only [hsz, if_false, Get.run_pure]
  · omega

theorem readCanonical_eq_some {n least x : Nat} {s s' : Bytes}
    (h : (readCanonical n least).run s = some (x, s')) :
    least ≤ x ∧ x < 256 ^ n ∧ s = leBytes n x ++ s' := by
  obtain ⟨nSizeRet, s₁, hread, hcheck⟩ := Get.run_bind_eq_some.mp h
  obtain ⟨hlt, hs⟩ := getLE_eq_some hread
  by_cases hleast : nSizeRet < least
  · rw [if_pos hleast] at hcheck
    cases hcheck
  · rw [if_neg hleast] at hcheck
    obtain ⟨rfl, rfl⟩ := Prod.mk.inj (Option.some.inj hcheck)
    exact ⟨Nat.not_lt.mp hleast, hlt, hs⟩

/-- Only the shortest encoding of a count is read. -/
theorem readCompactSize_eq_some {n : Nat} {s s' : Bytes}
    (h : readCompactSize.run s = some (n, s')) : n ≤ MAX_SIZE ∧ s = writeCompactSize n ++ s' := by
  let limit (nSizeRet : Nat) : Get Nat := if MAX_SIZE < nSizeRet then Get.fail else pure nSizeRet
  have hsize : ∀ {get : Get Nat} {s₁ : Bytes}, (get >>= limit).run s₁ = some (n, s') →
      n ≤ 0x02000000 ∧ get.run s₁ = some (n, s') := fun {get s₁} h => by
    obtain ⟨nSizeRet, s₂, hread, h⟩ := Get.run_bind_eq_some.mp h
    by_cases hmax : MAX_SIZE < nSizeRet
    · rw [show limit nSizeRet = Get.fail from if_pos hmax] at h
      cases h
    · rw [show limit nSizeRet = pure nSizeRet from if_neg hmax] at h
      obtain ⟨rfl, rfl⟩ := Prod.mk.inj (Option.some.inj h)
      exact ⟨Nat.not_lt.mp hmax, hread⟩
  obtain ⟨chSize, s₁, hch, h⟩ := Get.run_bind_eq_some.mp h
  obtain rfl := getByte_eq_some.mp hch
  change (if chSize < 253 then pure chSize.toNat >>= limit
    else if chSize = 253 then readCanonical 2 253 >>= limit
    else if chSize = 254 then readCanonical 4 0x10000 >>= limit
    else readCanonical 8 0x100000000 >>= limit).run s₁ = _ at h
  split_ifs at h with h₁ h₂ h₃ <;> obtain ⟨hmax, hread⟩ := hsize h <;> refine ⟨hmax, ?_⟩
  · obtain ⟨rfl, rfl⟩ := Prod.mk.inj (Option.some.inj hread)
    have hlt : chSize.toNat < 253 := UInt8.lt_iff_toNat_lt.mp h₁
    rw [writeCompactSize, if_pos hlt, leBytes, leBytes, Nat.mod_eq_of_lt chSize.toNat_lt,
      UInt8.ofNat_toNat]
    rfl
  · obtain ⟨hleast, hlt, rfl⟩ := readCanonical_eq_some hread
    rw [writeCompactSize, if_neg (by omega), if_pos (by omega), h₂]
    rfl
  · obtain ⟨hleast, hlt, rfl⟩ := readCanonical_eq_some hread
    rw [writeCompactSize, if_neg (by omega), if_neg (by omega), if_pos (by omega), h₃]
    rfl
  · -- a count of eight bytes would exceed `MAX_SIZE`
    obtain ⟨hleast, -, -⟩ := readCanonical_eq_some hread
    omega

theorem exact_compactSize : Exact writeCompactSize readCompactSize (· ≤ MAX_SIZE) := fun s n s' =>
  ⟨readCompactSize_eq_some, fun ⟨hn, hs⟩ => by rw [hs, readCompactSize_write n hn s']⟩

/-! ## VARINT -/

/-- The digits that `WriteVarInt` collects in `tmp`, least significant first; every digit but the
first carries the bit `0x80`. `tmp` holds at most ten digits. -/
def varIntTmp : (len : Nat) → (high : Nat) → Nat → Bytes
  | 0, _, _ => []
  | len + 1, high, n =>
    UInt8.ofNat ((n &&& 0x7F) ||| high) ::
      if n ≤ 0x7F then [] else varIntTmp len 0x80 ((n >>> 7) - 1)

/-- `WriteVarInt` of an unsigned number. -/
def writeVarInt (n : Nat) : Bytes := (varIntTmp 10 0 n).reverse

/-- The size of the buffer `tmp` of `WriteVarInt` for a type of `w` bits. -/
def varIntTmpSize (w : Nat) : Nat := (w + 6) / 7

/-- The loop of `WriteVarInt` with its stores into `tmp` checked, with `room` places left: the
digits stored, the last one first, or `none` where it would store past the end of `tmp`. -/
def fillVarIntTmp : (room : Nat) → (tmp : Bytes) → Nat → Option Bytes
  | 0, _, _ => none
  | room + 1, tmp, n =>
    let tmp := UInt8.ofNat ((n &&& 0x7F) ||| if tmp.length = 0 then 0x00 else 0x80) :: tmp
    if n ≤ 0x7F then some tmp else fillVarIntTmp room tmp ((n >>> 7) - 1)

/-- `GetSizeOfVarInt` of an unsigned number. -/
def getSizeOfVarInt (n : Nat) : Nat :=
  if n ≤ 0x7F then 1 else getSizeOfVarInt ((n >>> 7) - 1) + 1
termination_by n
decreasing_by
  rw [Nat.shiftRight_eq_div_pow]
  omega

/-- The loop of `ReadVarInt` for a type of `w` bits, from the accumulator `n`. -/
def readVarIntFrom (w n : Nat) : Bytes → Option (Nat × Bytes)
  | [] => none
  | chData :: s =>
    let n := ((n <<< 7) ||| (chData.toNat &&& 0x7F)) % 2 ^ w
    if chData.toNat &&& 0x80 ≠ 0 then readVarIntFrom w ((n + 1) % 2 ^ w) s else some (n, s)

/-- `ReadVarInt` for an unsigned type of `w` bits. -/
def readVarInt (w : Nat) : Get Nat := ⟨readVarIntFrom w 0⟩

/-- The number that the loop of `ReadVarInt` would return for a type without a largest value. -/
def decodeVarIntFrom (n : Nat) : Bytes → Option (Nat × Bytes)
  | [] => none
  | chData :: s =>
    let n := (n <<< 7) ||| (chData.toNat &&& 0x7F)
    if chData.toNat &&& 0x80 ≠ 0 then decodeVarIntFrom (n + 1) s else some (n, s)

/-- `WriteVarInt` of a signed number: a negative one ends after its first digit. -/
def writeVarIntSigned (n : Int) : Bytes :=
  if n < 0 then [UInt8.ofNat ((n % 128).toNat)] else writeVarInt n.toNat

/-- `GetSizeOfVarInt` of a signed number. -/
def getSizeOfVarIntSigned (n : Int) : Nat := if n ≤ 0x7F then 1 else getSizeOfVarInt n.toNat

/-- `ReadVarInt` for `int`. -/
def readVarIntSigned : Get Int := do
  let n ← readVarInt 32
  return Int.bmod n (2 ^ 32)

theorem and_7F (n : Nat) : n &&& 0x7F = n % 128 := Nat.and_two_pow_sub_one_eq_mod n 7

theorem shiftRight_7 (n : Nat) : n >>> 7 = n / 128 := Nat.shiftRight_eq_div_pow n 7

theorem or_80 {d : Nat} (hd : d < 128) : d ||| 0x80 = d + 128 := by
  have h := Nat.two_pow_add_eq_or_of_lt (i := 7) hd 1
  rw [Nat.mul_one] at h
  rw [Nat.or_comm, ← h, Nat.add_comm]

theorem shiftLeft_7_or (n : Nat) {d : Nat} (hd : d < 128) : n <<< 7 ||| d = 128 * n + d := by
  have h := Nat.two_pow_add_eq_or_of_lt (i := 7) hd n
  rw [Nat.shiftLeft_eq, Nat.mul_comm, ← h]

theorem and_80_low {d : Nat} (hd : d < 128) : d &&& 0x80 = 0 := by
  have h : ∀ d < 128, d &&& 0x80 = 0 := by decide
  exact h d hd

theorem and_80_high {d : Nat} (hd : d < 128) : (d + 128) &&& 0x80 ≠ 0 := by
  have h : ∀ d < 128, (d + 128) &&& 0x80 ≠ 0 := by decide
  exact h d hd

/-- Reading a digit with the bit `0x80`. -/
theorem readVarIntFrom_high (w n : Nat) {d : Nat} (hd : d < 128) (hn : 128 * n + d + 1 < 2 ^ w)
    (s : Bytes) : readVarIntFrom w n (UInt8.ofNat (d + 128) :: s) =
      readVarIntFrom w (128 * n + d + 1) s := by
  have hb : (UInt8.ofNat (d + 128)).toNat = d + 128 := by
    rw [UInt8.toNat_ofNat', Nat.mod_eq_of_lt (by omega)]
  have hlow : (d + 128) &&& 0x7F = d := by rw [and_7F]; omega
  have hmod : (128 * n + d) % 2 ^ w = 128 * n + d := Nat.mod_eq_of_lt (by omega)
  simp only [readVarIntFrom, hb, hlow, shiftLeft_7_or n hd, hmod]
  rw [if_pos (and_80_high hd), Nat.mod_eq_of_lt hn]

/-- Reading the last digit. -/
theorem readVarIntFrom_low (w n : Nat) {d : Nat} (hd : d < 128) (hn : 128 * n + d < 2 ^ w)
    (s : Bytes) : readVarIntFrom w n (UInt8.ofNat d :: s) = some (128 * n + d, s) := by
  have hb : (UInt8.ofNat d).toNat = d := by
    rw [UInt8.toNat_ofNat', Nat.mod_eq_of_lt (by omega)]
  have hlow : d &&& 0x7F = d := by rw [and_7F]; omega
  simp only [readVarIntFrom, hb, hlow, shiftLeft_7_or n hd, Nat.mod_eq_of_lt hn]
  rw [if_neg (by rw [and_80_low hd]; decide)]

/-- Reading digits that all carry the bit `0x80` brings the accumulator to one more than the number
they encode. -/
theorem readVarIntFrom_tmp {w : Nat} (len n : Nat) (hlen : n < 128 ^ len) (hn : n + 1 < 2 ^ w)
    (hpos : 0 < len) (s : Bytes) :
    readVarIntFrom w 0 ((varIntTmp len 0x80 n).reverse ++ s) = readVarIntFrom w (n + 1) s := by
  induction len generalizing n s with
  | zero => omega
  | succ len ih =>
    have hd : n % 128 < 128 := Nat.mod_lt _ (by decide)
    rw [varIntTmp, and_7F, or_80 hd, List.reverse_cons, List.append_assoc, List.singleton_append]
    split_ifs with h
    · rw [List.reverse_nil, List.nil_append, readVarIntFrom_high w 0 hd (by omega)]
      congr 1; omega
    · have hlen' : n / 128 - 1 < 128 ^ len := by
        rw [pow_succ] at hlen; omega
      have h0 : 0 < len := by
        rcases Nat.eq_zero_or_pos len with rfl | h0
        · omega
        · exact h0
      rw [shiftRight_7, ih _ hlen' (by omega) h0, readVarIntFrom_high w _ hd (by omega)]
      congr 1; omega

theorem readVarInt_write {w : Nat} (hw : w ≤ 64) :
    RoundTrip writeVarInt (readVarInt w) (· < 2 ^ w) := by
  intro n hn s
  have hn : n < 2 ^ w := hn
  have h64 : n < 2 ^ 64 := lt_of_lt_of_le hn (Nat.pow_le_pow_right (by decide) hw)
  have hd : n % 128 < 128 := Nat.mod_lt _ (by decide)
  show readVarIntFrom w 0 _ = _
  rw [writeVarInt, varIntTmp, and_7F, Nat.or_zero, List.reverse_cons,
    List.append_assoc, List.singleton_append]
  split_ifs with h
  · rw [List.reverse_nil, List.nil_append, readVarIntFrom_low w 0 hd (by omega)]
    congr 2; omega
  · rw [shiftRight_7, readVarIntFrom_tmp 9 _ (by omega) (by omega) (by decide),
      readVarIntFrom_low w _ hd (by omega)]
    congr 2; omega

theorem length_varIntTmp (high : Nat) {len n : Nat} (hlen : n < 128 ^ len) (hpos : 0 < len) :
    (varIntTmp len high n).length = getSizeOfVarInt n := by
  induction len generalizing high n with
  | zero => omega
  | succ len ih =>
    rw [varIntTmp, getSizeOfVarInt, List.length_cons]
    split_ifs with h
    · rfl
    · rw [pow_succ] at hlen
      have h0 : 0 < len := by
        rcases Nat.eq_zero_or_pos len with rfl | h0
        · omega
        · exact h0
      rw [shiftRight_7, ih 0x80 (by omega) h0]

/-- `GetSizeOfVarInt` is the number of bytes that `WriteVarInt` writes. -/
theorem length_writeVarInt {n : Nat} (h : n < 2 ^ 64) : (writeVarInt n).length = getSizeOfVarInt n := by
  rw [writeVarInt, List.length_reverse, length_varIntTmp 0 (by omega) (by decide)]

theorem length_writeVarIntSigned {n : Int} (h : n < 2 ^ 31) :
    (writeVarIntSigned n).length = getSizeOfVarIntSigned n := by
  rw [writeVarIntSigned, getSizeOfVarIntSigned]
  split_ifs with h₀ h₁ h₁
  · rfl
  · omega
  · rw [length_writeVarInt (by omega), getSizeOfVarInt, if_pos (by omega)]
  · exact length_writeVarInt (by omega)

theorem readVarIntSigned_write :
    RoundTrip writeVarIntSigned readVarIntSigned fun n => 0 ≤ n ∧ n < 2 ^ 31 := by
  rintro n ⟨h₀, h₁⟩ s
  have hw : n.toNat < 2 ^ 32 := by omega
  rw [writeVarIntSigned, if_neg (by omega), readVarIntSigned,
    Get.run_bind_some (readVarInt_write (w := 32) (by decide) _ hw s)]
  have hb : Int.bmod (n.toNat : Int) (2 ^ 32) = n := by
    rw [Int.toNat_of_nonneg h₀]
    exact Int.bmod_eq_of_le (by omega) (by omega)
  rw [hb, Get.run_pure]

/-- A version as it is read back: of a negative one the seven lowest bits are written. -/
def storedVersion (n : Int) : Int := if n < 0 then n % 128 else n

theorem storedVersion_nonneg (n : Int) : 0 ≤ storedVersion n := by
  unfold storedVersion; split_ifs <;> omega

theorem storedVersion_lt {n : Int} (h : n < 2 ^ 31) : storedVersion n < 2 ^ 31 := by
  unfold storedVersion; split_ifs <;> omega

theorem storedVersion_eq {n : Int} (h : 0 ≤ n) : storedVersion n = n := if_neg (by omega)

theorem writeVarIntSigned_stored (n : Int) :
    writeVarIntSigned (storedVersion n) = writeVarIntSigned n := by
  unfold storedVersion
  split_ifs with h
  · obtain ⟨k, hk⟩ := Int.eq_ofNat_of_zero_le (show 0 ≤ n % 128 by omega)
    have hlt : k ≤ 0x7F := by omega
    rw [writeVarIntSigned, writeVarIntSigned, if_pos h, hk, if_neg (by omega), Int.toNat_natCast,
      writeVarInt, varIntTmp, if_pos hlt, and_7F, Nat.mod_eq_of_lt (by omega), Nat.or_zero]
    rfl
  · rfl

end GC
