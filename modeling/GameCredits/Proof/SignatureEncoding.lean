import GameCredits.Model.Interpreter

/-!
# The encoding of signatures

`IsValidSignatureEncoding` accepts the strings of a grammar and no others, and reads no byte outside
of the string (`isValidSignatureEncoding_iff`).

* `isValidSignatureEncodingChecked_eq`: the reads are in range.
* `exists_parts`: where the lengths add up, the string has the parts of the grammar.
* `isValidSignatureEncoding_parts`: what is asked of the parts.
-/

namespace GC

open Framework (Bytes)

/-- `sig[i]`, with the index checked. -/
def byteAt (sig : Bytes) (i : Nat) : Option Nat := sig[i]?.map UInt8.toNat

/-- Whether an integer of `len` bytes at `pos` is padded with a null byte. -/
def paddedChecked (sig : Bytes) (len pos : Nat) : Option Bool :=
  if 1 < len then do
    if (← byteAt sig pos) = 0 then return decide ((← byteAt sig (pos + 1)) &&& 0x80 = 0)
    else return false
  else some false

/-- `IsValidSignatureEncoding` with every index checked: `none` where one is out of range. -/
def isValidSignatureEncodingChecked (sig : Bytes) : Option Bool := do
  if sig.length < 9 then return false
  if 73 < sig.length then return false
  if (← byteAt sig 0) ≠ 0x30 then return false
  if (← byteAt sig 1) ≠ sig.length - 3 then return false
  let lenR ← byteAt sig 3
  if sig.length ≤ 5 + lenR then return false
  let lenS ← byteAt sig (5 + lenR)
  if lenR + lenS + 7 ≠ sig.length then return false
  if (← byteAt sig 2) ≠ 0x02 then return false
  if lenR = 0 then return false
  if (← byteAt sig 4) &&& 0x80 ≠ 0 then return false
  if ← paddedChecked sig lenR 4 then return false
  if (← byteAt sig (lenR + 4)) ≠ 0x02 then return false
  if lenS = 0 then return false
  if (← byteAt sig (lenR + 6)) &&& 0x80 ≠ 0 then return false
  if ← paddedChecked sig lenS (lenR + 6) then return false
  return true

variable {sig : Bytes}

theorem byteAt_eq {i : Nat} (h : i < sig.length) : byteAt sig i = some (sig.getD i 0).toNat := by
  rw [byteAt, List.getD_eq_getElem?_getD, List.getElem?_eq_getElem h]
  rfl

/-- A read in range goes on with the byte. -/
theorem byteAt_bind {i : Nat} {f : Nat → Option Bool} {b : Bool} (hi : i < sig.length)
    (h : f (sig.getD i 0).toNat = some b) : (byteAt sig i >>= f) = some b := by
  rw [byteAt_eq hi]
  exact h

/-- A test that both functions make. -/
theorem test_eq {c : Prop} [Decidable c] {x : Option Bool} {b : Bool} (h : ¬ c → x = some b) :
    (if c then pure false else x) = some (if c then false else b) := by
  split_ifs with hc
  · rfl
  · exact h hc

/-- The second byte is read only where the integer has one. -/
theorem paddedChecked_bind {len pos : Nat} {x : Option Bool} {b : Bool}
    (h : pos + len < sig.length) (hx : x = some b) :
    (paddedChecked sig len pos >>= fun padded => if padded then pure false else x) =
      some (if 1 < len ∧ (sig.getD pos 0).toNat = 0 ∧ (sig.getD (pos + 1) 0).toNat &&& 0x80 = 0 then
        false else b) := by
  unfold paddedChecked
  by_cases hlen : 1 < len
  · rw [if_pos hlen, byteAt_eq (by omega), byteAt_eq (by omega), hx]
    by_cases h0 : (sig.getD pos 0).toNat = 0
    · by_cases h1 : (sig.getD (pos + 1) 0).toNat &&& 0x80 = 0
      · rw [if_pos ⟨hlen, h0, h1⟩, h0]
        show (if decide _ = true then _ else _) = _
        rw [if_pos (by simpa using h1)]
        rfl
      · rw [if_neg fun h => h1 h.2.2, h0]
        show (if decide _ = true then _ else _) = _
        rw [if_neg (by simpa using h1)]
    · rw [if_neg fun h => h0 h.2.1]
      show ((if _ then _ else _ : Option Bool) >>= _) = _
      rw [if_neg h0]
      rfl
  · rw [if_neg hlen, if_neg fun h => hlen h.1, hx]
    rfl

/-- No read is out of range. -/
theorem isValidSignatureEncodingChecked_eq (sig : Bytes) :
    isValidSignatureEncodingChecked sig = some (isValidSignatureEncoding sig) := by
  unfold isValidSignatureEncodingChecked isValidSignatureEncoding
  refine test_eq fun h9 => test_eq fun h73 => ?_
  refine byteAt_bind (by omega) (test_eq fun _ => ?_)
  refine byteAt_bind (by omega) (test_eq fun _ => ?_)
  refine byteAt_bind (by omega) (test_eq fun hR => ?_)
  refine byteAt_bind (by omega) (test_eq fun hS => ?_)
  -- the lengths add up, so that the reads below are in range
  refine byteAt_bind (by omega) (test_eq fun _ => test_eq fun _ => ?_)
  refine byteAt_bind (by omega) (test_eq fun _ => paddedChecked_bind (by omega) ?_)
  refine byteAt_bind (by omega) (test_eq fun _ => test_eq fun _ => ?_)
  refine byteAt_bind (by omega) (test_eq fun _ => paddedChecked_bind (by omega) rfl)

/-! ## The grammar -/

/-- An integer of a signature: big-endian, not empty, not negative, and with a leading null byte only
where the next byte has its first bit set. -/
structure DerInteger (v : Bytes) : Prop where
  nonempty : v ≠ []
  nonneg : ∀ b rest, v = b :: rest → b < 0x80
  minimal : ∀ b rest, v = 0 :: b :: rest → 0x80 ≤ b

/-- The strings `0x30 L 0x02 |R| R 0x02 |S| S hashtype`. -/
inductive StrictDer : Bytes → Prop
  | mk {sig R S : Bytes} {L lenR lenS hashtype : UInt8}
      (parts : sig = 0x30 :: L :: 0x02 :: lenR :: (R ++ 0x02 :: lenS :: (S ++ [hashtype])))
      (least : 9 ≤ sig.length) (most : sig.length ≤ 73) (total : L.toNat = sig.length - 3)
      (sizeR : lenR.toNat = R.length) (sizeS : lenS.toNat = S.length)
      (integerR : DerInteger R) (integerS : DerInteger S) : StrictDer sig

theorem and_80_eq_zero (b : UInt8) : b.toNat &&& 0x80 = 0 ↔ b < 0x80 := by
  rw [UInt8.lt_iff_toNat_lt, show (0x80 : UInt8).toNat = 128 from rfl]
  rcases Nat.lt_or_ge b.toNat 128 with h | h
  · exact iff_of_true (and_80_low h) h
  · obtain ⟨d, hd⟩ := Nat.exists_eq_add_of_le' h
    have hlt := b.toNat_lt
    rw [hd]
    exact iff_of_false (and_80_high (by omega)) (by omega)

/-- What is tested of an integer in the string. -/
theorem derInteger_iff {v r : Bytes} : DerInteger v ↔ v.length ≠ 0 ∧
    ((v ++ r).getD 0 0).toNat &&& 0x80 = 0 ∧
    ¬ (1 < v.length ∧ ((v ++ r).getD 0 0).toNat = 0 ∧
      ((v ++ r).getD 1 0).toNat &&& 0x80 = 0) := by
  match v with
  | [] => exact ⟨fun h => absurd rfl h.nonempty, fun h => absurd rfl h.1⟩
  | [b] =>
    constructor
    · exact fun h => ⟨by simp, (and_80_eq_zero b).mpr (h.nonneg b [] rfl), fun h => by simp at h⟩
    · exact fun ⟨_, h, _⟩ => ⟨by simp, fun _ _ heq => by cases heq; exact (and_80_eq_zero b).mp h,
        fun _ _ heq => by cases heq⟩
  | b :: c :: v =>
    have hzero : b.toNat = 0 ↔ b = 0 := by rw [← UInt8.toNat_inj]; rfl
    show _ ↔ _ ∧ b.toNat &&& 0x80 = 0 ∧ ¬ (_ ∧ b.toNat = 0 ∧ c.toNat &&& 0x80 = 0)
    rw [and_80_eq_zero, and_80_eq_zero, hzero]
    constructor
    · exact fun h => ⟨by simp, h.nonneg b _ rfl, fun ⟨_, h0, hc⟩ =>
        absurd (h.minimal c v (by rw [h0])) (UInt8.not_le.mpr hc)⟩
    · refine fun ⟨_, hb, hpad⟩ => ⟨by simp, fun _ _ heq => by cases heq; exact hb,
        fun _ _ heq => ?_⟩
      cases heq
      exact UInt8.not_lt.mp fun hc => hpad ⟨by simp, rfl, hc⟩

/-- Where the lengths add up, the string has the parts of the grammar. -/
theorem exists_parts (h4 : 4 ≤ sig.length) (hR : 5 + (sig.getD 3 0).toNat < sig.length)
    (hS : (sig.getD 3 0).toNat + (sig.getD (5 + (sig.getD 3 0).toNat) 0).toNat + 7 = sig.length) :
    ∃ a L b lenR c lenS hashtype, ∃ R S : Bytes,
      sig = a :: L :: b :: lenR :: (R ++ c :: lenS :: (S ++ [hashtype])) ∧
      lenR.toNat = R.length ∧ lenS.toNat = S.length := by
  match sig, h4 with
  | a :: L :: b :: lenR :: rest, _ =>
    have hR : 5 + lenR.toNat < rest.length + 4 := hR
    have hS : lenR.toNat + ((a :: L :: b :: lenR :: rest).getD (5 + lenR.toNat) 0).toNat + 7 =
      rest.length + 4 := hS
    have hlen : (rest.drop lenR.toNat).length = rest.length - lenR.toNat := List.length_drop
    obtain ⟨c, lenS, tail, htail⟩ : ∃ c lenS tail, rest.drop lenR.toNat = c :: lenS :: tail :=
      match rest.drop lenR.toNat, hlen with
      | [], hlen => by simp at hlen; omega
      | [_], hlen => by simp at hlen; omega
      | c :: lenS :: tail, _ => ⟨c, lenS, tail, rfl⟩
    have hbyte : (a :: L :: b :: lenR :: rest).getD (5 + lenR.toNat) 0 = lenS := by
      have hdrop : (rest.drop lenR.toNat)[1]? = some lenS := by rw [htail]; rfl
      rw [List.getElem?_drop] at hdrop
      rw [Nat.add_comm, List.getD_eq_getElem?_getD]
      exact congrArg (Option.getD · 0) hdrop
    rw [hbyte] at hS
    rw [htail, List.length_cons, List.length_cons] at hlen
    have hne : tail ≠ [] := List.ne_nil_of_length_pos (by omega)
    refine ⟨a, L, b, lenR, c, lenS, tail.getLast hne, rest.take lenR.toNat, tail.dropLast, ?_, ?_, ?_⟩
    · rw [List.dropLast_append_getLast, ← htail, List.take_append_drop]
    · rw [List.length_take]
      omega
    · rw [List.length_dropLast]
      omega

/-- A test that is passed. -/
theorem test_true {c : Prop} [Decidable c] {x : Bool} :
    (if c then false else x) = true ↔ ¬ c ∧ x = true := by
  split_ifs with hc
  · exact iff_of_false id fun h => h.1 hc
  · exact (and_iff_right hc).symm

/-- What is asked of a string with the parts of the grammar. -/
theorem isValidSignatureEncoding_parts {a L b lenR c lenS hashtype : UInt8} {R S : Bytes}
    (hR : lenR.toNat = R.length) (hS : lenS.toNat = S.length) :
    isValidSignatureEncoding (a :: L :: b :: lenR :: (R ++ c :: lenS :: (S ++ [hashtype]))) = true ↔
      9 ≤ R.length + S.length + 7 ∧ R.length + S.length + 7 ≤ 73 ∧ a = 0x30 ∧
        L.toNat = R.length + S.length + 4 ∧ b = 0x02 ∧ DerInteger R ∧ c = 0x02 ∧ DerInteger S := by
  generalize hsig : a :: L :: b :: lenR :: (R ++ c :: lenS :: (S ++ [hashtype])) = sig
  have hlen : sig.length = R.length + S.length + 7 := by rw [← hsig]; simp; omega
  have hbyte : ∀ i, sig.getD (4 + i) 0 = (R ++ c :: lenS :: (S ++ [hashtype])).getD i 0 := fun i => by
    rw [← hsig, Nat.add_comm]
    rfl
  have hafter : ∀ i, sig.getD (R.length + 4 + i) 0 = (c :: lenS :: (S ++ [hashtype])).getD i 0 :=
    fun i => by
      rw [Nat.add_comm R.length, Nat.add_assoc, hbyte, List.getD_eq_getElem?_getD,
        List.getElem?_append_right (by omega), Nat.add_sub_cancel_left]
      rfl
  have h₀ : sig.getD 0 0 = a := by rw [← hsig]; rfl
  have h₁ : sig.getD 1 0 = L := by rw [← hsig]; rfl
  have h₂ : sig.getD 2 0 = b := by rw [← hsig]; rfl
  have h₃ : sig.getD 3 0 = lenR := by rw [← hsig]; rfl
  have hc : sig.getD (R.length + 4) 0 = c := hafter 0
  have hlenS : sig.getD (5 + R.length) 0 = lenS := by
    rw [Nat.add_comm]
    exact hafter 1
  have hfirst : ∀ x : UInt8, ∀ n < 256, (¬ x.toNat ≠ n) ↔ x = UInt8.ofNat n := fun x n hn => by
    rw [not_not, ← UInt8.toNat_inj, UInt8.toNat_ofNat', Nat.mod_eq_of_lt hn]
  unfold isValidSignatureEncoding
  simp only [test_true, hlen, h₀, h₁, h₂, h₃, hR, hlenS, hS, hc, hbyte 0, hbyte 1, hafter 2, hafter 3,
    hfirst a 0x30 (by decide), hfirst b 0x02 (by decide), hfirst c 0x02 (by decide)]
  rw [derInteger_iff (v := R) (r := c :: lenS :: (S ++ [hashtype])),
    derInteger_iff (v := S) (r := [hashtype])]
  constructor
  · rintro ⟨h9, h73, ha, hL, -, -, hb, hR₀, hR₁, hR₂, hc, hS₀, hS₁, hS₂, -⟩
    exact ⟨by omega, by omega, ha, by omega, hb, ⟨hR₀, not_not.mp hR₁, hR₂⟩, hc, hS₀,
      not_not.mp hS₁, hS₂⟩
  · rintro ⟨h9, h73, ha, hL, hb, ⟨hR₀, hR₁, hR₂⟩, hc, hS₀, hS₁, hS₂⟩
    exact ⟨by omega, by omega, ha, by omega, by omega, by omega, hb, hR₀, not_not.mpr hR₁, hR₂, hc,
      hS₀, not_not.mpr hS₁, hS₂, trivial⟩

theorem StrictDer.isValid (h : StrictDer sig) : isValidSignatureEncoding sig = true := by
  obtain ⟨rfl, least, most, total, sizeR, sizeS, integerR, integerS⟩ := h
  have hlen := least
  simp only [List.length_cons, List.length_append, List.length_nil] at hlen most total
  exact (isValidSignatureEncoding_parts sizeR sizeS).mpr
    ⟨by omega, by omega, rfl, by omega, rfl, integerR, rfl, integerS⟩

theorem strictDer_of_isValid (h : isValidSignatureEncoding sig = true) : StrictDer sig := by
  have h' := h
  unfold isValidSignatureEncoding at h'
  simp only [test_true] at h'
  obtain ⟨h9, h73, -, -, hR, hS, -⟩ := h'
  obtain ⟨a, L, b, lenR, c, lenS, hashtype, R, S, rfl, sizeR, sizeS⟩ :=
    exists_parts (by omega) (Nat.lt_of_not_le hR) (not_not.mp hS)
  obtain ⟨-, -, rfl, hL, rfl, integerR, rfl, integerS⟩ :=
    (isValidSignatureEncoding_parts sizeR sizeS).mp h
  refine ⟨rfl, Nat.le_of_not_lt h9, Nat.le_of_not_lt h73, ?_, sizeR, sizeS, integerR, integerS⟩
  simp only [List.length_cons, List.length_append, List.length_nil]
  omega

/-- `IsValidSignatureEncoding` reads no byte out of range and accepts the strings of the grammar. -/
theorem isValidSignatureEncoding_iff (sig : Bytes) :
    isValidSignatureEncodingChecked sig = some (isValidSignatureEncoding sig) ∧
      (isValidSignatureEncoding sig = true ↔ StrictDer sig) :=
  ⟨isValidSignatureEncodingChecked_eq sig, strictDer_of_isValid, StrictDer.isValid⟩

/-- The shortest signature. -/
example : isValidSignatureEncoding [0x30, 6, 0x02, 1, 1, 0x02, 1, 1, 1] = true := by decide

end GC
