import GameCredits.Framework.Scan
import GameCredits.Model.Base64

/-!
# Base64 and Base32

The loops of the encoders and decoders lose no bit (`encodes64`, `decodes64`, `encodes32`, `decodes32`),
and the tables are inverse to the alphabets, so that both encodings are lawful (`TextEncoding.Lawful`).
For a lawful encoding the decoder gives back what was encoded (`decode_encode`), and what it accepts is
the encoding of the result (`encode_prefix`).
-/

namespace GC

open Framework (Bytes Flow Regroups RegroupStep regroup)

/-! ## Bits -/

theorem mul_or {r y j : Nat} (h : y < 2 ^ j) : r * 2 ^ j ||| y = r * 2 ^ j + y := by
  rw [Nat.mul_comm, ← Nat.two_pow_add_eq_or_of_lt h]

theorem shl_or {r y j : Nat} (h : y < 2 ^ j) : (r <<< j) ||| y = r * 2 ^ j + y := by
  rw [Nat.shiftLeft_eq, mul_or h]

theorem and_low (x m j : Nat) (hm : m = 2 ^ j - 1) : x &&& m = x % 2 ^ j := by
  rw [hm, Nat.and_two_pow_sub_one_eq_mod]

/-- The first bits of `x` follow the bits `r`. -/
theorem or_shiftRight {r x j s v : Nat} (hx : x < 2 ^ v) (hv : s + j = v) :
    r * 2 ^ j ||| (x >>> s) = r * 2 ^ j + x / 2 ^ s := by
  rw [Nat.shiftRight_eq_div_pow]
  refine mul_or (Nat.div_lt_of_lt_mul ?_)
  rwa [← pow_add, hv]

/-- The same in a byte. -/
theorem shl_or_shiftRight {r x j k s v : Nat} (hr : r < 2 ^ k) (hx : x < 2 ^ v) (hv : s + j = v)
    (hk : k + j = 8) : ((r <<< j) ||| (x >>> s)) % 256 = r * 2 ^ j + x / 2 ^ s := by
  have hdiv : x / 2 ^ s < 2 ^ j := by
    refine Nat.div_lt_of_lt_mul ?_
    rwa [← pow_add, hv]
  have hlt := Framework.mul_pow_add_lt hr hdiv
  rw [hk] at hlt
  rw [Nat.shiftLeft_eq, or_shiftRight hx hv]
  exact Nat.mod_eq_of_lt hlt

/-- The bits that are left over in a mode: how many there are, and the unit in which they are kept. -/
def Pending (bits : List Nat) (unit : Nat → Nat) (mode left k r : Nat) : Prop :=
  bits[mode]? = some k ∧ r < 2 ^ k ∧ (mode ≠ 0 → left = r * unit k)

section

variable {bits : List Nat} {unit : Nat → Nat} {step : RegroupStep}
  {v w mode mode' left left' k r x s y : Nat}

/-- A step that keeps all bits. -/
theorem regroups_keep (hstep : step mode left x = ([], mode', left')) (hbits : bits[mode']? = some (k + v))
    (hleft : mode' ≠ 0 → left' = (r * 2 ^ v + x) * unit (k + v)) (hr : r < 2 ^ k) (hx : x < 2 ^ v) :
    ∃ k' r', Pending bits unit (step mode left x).2.1 (step mode left x).2.2 k' r' ∧
      Flow v w k r [x] (step mode left x).1 k' r' := by
  rw [hstep]
  exact ⟨k + v, r * 2 ^ v + x, ⟨hbits, Framework.mul_pow_add_lt hr hx, hleft⟩, .keep hr hx⟩

/-- A step that writes a digit. -/
theorem regroups_one (hstep : step mode left x = ([y], mode', left'))
    (hy : y = r * 2 ^ (w - k) + x / 2 ^ s) (hbits : bits[mode']? = some s)
    (hleft : mode' ≠ 0 → left' = x % 2 ^ s * unit s) (hr : r < 2 ^ k) (hx : x < 2 ^ v) (hk : k ≤ w)
    (hs : k + v = w + s) :
    ∃ k' r', Pending bits unit (step mode left x).2.1 (step mode left x).2.2 k' r' ∧
      Flow v w k r [x] (step mode left x).1 k' r' := by
  rw [hstep, hy]
  exact ⟨s, x % 2 ^ s, ⟨hbits, Nat.mod_lt _ (Nat.two_pow_pos s), hleft⟩, .one hr hx hk hs⟩

/-- A step that writes two digits. -/
theorem regroups_two {y' : Nat} (hstep : step mode left x = ([y, y'], mode', left'))
    (hy : y = r * 2 ^ (w - k) + x / 2 ^ (w + s)) (hy' : y' = x / 2 ^ s % 2 ^ w)
    (hbits : bits[mode']? = some s) (hleft : mode' ≠ 0 → left' = x % 2 ^ s * unit s) (hr : r < 2 ^ k)
    (hx : x < 2 ^ v) (hk : k ≤ w) (hs : k + v = w + (w + s)) :
    ∃ k' r', Pending bits unit (step mode left x).2.1 (step mode left x).2.2 k' r' ∧
      Flow v w k r [x] (step mode left x).1 k' r' := by
  rw [hstep, hy, hy']
  exact ⟨s, x % 2 ^ s, ⟨hbits, Nat.mod_lt _ (Nat.two_pow_pos s), hleft⟩, .two hr hx hk hs⟩

end

/-! ## The loops of Base64 -/

theorem encodes64 : Regroups 8 6 encodeStep64 (Pending [0, 2, 4] fun k => 2 ^ (6 - k)) := by
  rintro mode left k r x ⟨hbits, hr, hleft⟩ hx
  match mode with
  | 0 =>
    cases hbits
    obtain rfl : r = 0 := Nat.lt_one_iff.mp hr
    refine regroups_one (s := 2) rfl ?_ rfl (fun _ => ?_) hr hx (by decide) rfl
    · rw [Nat.zero_mul, Nat.zero_add, Nat.shiftRight_eq_div_pow]
    · rw [and_low x 3 2 rfl, Nat.shiftLeft_eq]
  | 1 =>
    cases hbits
    cases hleft (by decide)
    refine regroups_one (s := 4) rfl (or_shiftRight hx rfl) rfl (fun _ => ?_) hr hx (by decide) rfl
    rw [and_low x 15 4 rfl, Nat.shiftLeft_eq]
  | 2 =>
    cases hbits
    cases hleft (by decide)
    refine regroups_two (s := 0) rfl (or_shiftRight hx rfl) ?_ rfl (fun h => absurd rfl h) hr hx
      (by decide) rfl
    rw [and_low x 63 6 rfl, pow_zero, Nat.div_one]
  | n + 3 => cases hbits

theorem decodes64 : Regroups 6 8 decodeStep64 (Pending [0, 6, 4, 2] fun _ => 1) := by
  rintro mode left k r x ⟨hbits, hr, hleft⟩ hx
  rw [Nat.mul_one] at hleft
  match mode with
  | 0 =>
    cases hbits
    obtain rfl : r = 0 := Nat.lt_one_iff.mp hr
    exact regroups_keep rfl rfl (fun _ => by rw [Nat.zero_mul, Nat.zero_add, Nat.mul_one]) hr hx
  | 1 =>
    cases hbits
    cases hleft (by decide)
    exact regroups_one (s := 4) rfl (shl_or_shiftRight hr hx rfl rfl) rfl
      (fun _ => by rw [and_low x 15 4 rfl, Nat.mul_one]) hr hx (by decide) rfl
  | 2 =>
    cases hbits
    cases hleft (by decide)
    exact regroups_one (s := 2) rfl (shl_or_shiftRight hr hx rfl rfl) rfl
      (fun _ => by rw [and_low x 3 2 rfl, Nat.mul_one]) hr hx (by decide) rfl
  | 3 =>
    cases hbits
    cases hleft (by decide)
    exact regroups_one (s := 0) rfl (shl_or_shiftRight (s := 0) hr hx rfl rfl) rfl
      (fun h => absurd rfl h) hr hx (by decide) rfl
  | n + 4 => cases hbits

/-! ## The loops of Base32 -/

theorem encodes32 : Regroups 8 5 encodeStep32 (Pending [0, 3, 1, 4, 2] fun k => 2 ^ (5 - k)) := by
  rintro mode left k r x ⟨hbits, hr, hleft⟩ hx
  match mode with
  | 0 =>
    cases hbits
    obtain rfl : r = 0 := Nat.lt_one_iff.mp hr
    refine regroups_one (s := 3) rfl ?_ rfl (fun _ => ?_) hr hx (by decide) rfl
    · rw [Nat.zero_mul, Nat.zero_add, Nat.shiftRight_eq_div_pow]
    · rw [and_low x 7 3 rfl, Nat.shiftLeft_eq]
  | 1 =>
    cases hbits
    cases hleft (by decide)
    refine regroups_two (s := 1) rfl (or_shiftRight hx rfl) ?_ rfl (fun _ => ?_) hr hx (by decide) rfl
    · rw [and_low _ 31 5 rfl, Nat.shiftRight_eq_div_pow]
    · rw [and_low x 1 1 rfl, Nat.shiftLeft_eq]
  | 2 =>
    cases hbits
    cases hleft (by decide)
    refine regroups_one (s := 4) rfl (or_shiftRight hx rfl) rfl (fun _ => ?_) hr hx (by decide) rfl
    rw [and_low x 15 4 rfl, Nat.shiftLeft_eq]
  | 3 =>
    cases hbits
    cases hleft (by decide)
    refine regroups_two (s := 2) rfl (or_shiftRight hx rfl) ?_ rfl (fun _ => ?_) hr hx (by decide) rfl
    · rw [and_low _ 31 5 rfl, Nat.shiftRight_eq_div_pow]
    · rw [and_low x 3 2 rfl, Nat.shiftLeft_eq]
  | 4 =>
    cases hbits
    cases hleft (by decide)
    refine regroups_two (s := 0) rfl (or_shiftRight hx rfl) ?_ rfl (fun h => absurd rfl h) hr hx
      (by decide) rfl
    rw [and_low x 31 5 rfl, pow_zero, Nat.div_one]
  | n + 5 => cases hbits

theorem decodes32 : Regroups 5 8 decodeStep32 (Pending [0, 5, 2, 7, 4, 1, 6, 3] fun _ => 1) := by
  rintro mode left k r x ⟨hbits, hr, hleft⟩ hx
  rw [Nat.mul_one] at hleft
  match mode with
  | 0 =>
    cases hbits
    obtain rfl : r = 0 := Nat.lt_one_iff.mp hr
    exact regroups_keep rfl rfl (fun _ => by rw [Nat.zero_mul, Nat.zero_add, Nat.mul_one]) hr hx
  | 1 =>
    cases hbits
    cases hleft (by decide)
    exact regroups_one (s := 2) rfl (shl_or_shiftRight hr hx rfl rfl) rfl
      (fun _ => by rw [and_low x 3 2 rfl, Nat.mul_one]) hr hx (by decide) rfl
  | 2 =>
    cases hbits
    cases hleft (by decide)
    exact regroups_keep rfl rfl (fun _ => by rw [shl_or hx, Nat.mul_one]) hr hx
  | 3 =>
    cases hbits
    cases hleft (by decide)
    exact regroups_one (s := 4) rfl (shl_or_shiftRight hr hx rfl rfl) rfl
      (fun _ => by rw [and_low x 15 4 rfl, Nat.mul_one]) hr hx (by decide) rfl
  | 4 =>
    cases hbits
    cases hleft (by decide)
    exact regroups_one (s := 1) rfl (shl_or_shiftRight hr hx rfl rfl) rfl
      (fun _ => by rw [and_low x 1 1 rfl, Nat.mul_one]) hr hx (by decide) rfl
  | 5 =>
    cases hbits
    cases hleft (by decide)
    exact regroups_keep rfl rfl (fun _ => by rw [shl_or hx, Nat.mul_one]) hr hx
  | 6 =>
    cases hbits
    cases hleft (by decide)
    exact regroups_one (s := 3) rfl (shl_or_shiftRight hr hx rfl rfl) rfl
      (fun _ => by rw [and_low x 7 3 rfl, Nat.mul_one]) hr hx (by decide) rfl
  | 7 =>
    cases hbits
    cases hleft (by decide)
    exact regroups_one (s := 0) rfl (shl_or_shiftRight (s := 0) hr hx rfl rfl) rfl
      (fun h => absurd rfl h) hr hx (by decide) rfl
  | n + 8 => cases hbits

/-! ## Lawful encodings -/

/-- The two loops are inverse to each other, the table to the alphabet up to `fold`, and the decoder
requires the padding of the encoder. -/
structure TextEncoding.Lawful (e : TextEncoding) (w : Nat) (bits bits' : List Nat)
    (fold : UInt8 → UInt8) : Prop where
  width : 0 < w ∧ w < 8
  encodes : Regroups 8 w e.encodeStep (Pending bits fun k => 2 ^ (w - k))
  decodes : Regroups w 8 e.decodeStep (Pending bits' fun _ => 1)
  start : bits[0]? = some 0 ∧ bits'[0]? = some 0
  nodup : bits.Nodup
  bits_lt : ∀ mode k, bits[mode]? = some k → k < w ∧ (mode ≠ 0 → 0 < k)
  bits_lt' : ∀ mode k, bits'[mode]? = some k → k < 8 ∧ (mode ≠ 0 → 0 < k)
  required_eq : ∀ mode k, mode ≠ 0 → bits'[mode]? = some k →
    if k < w then ∃ m, bits[m]? = some (w - k) ∧ e.required mode = some (e.nPadding m)
    else e.required mode = none
  lookup_digit : ∀ d < 2 ^ w, e.lookup (e.digit d) = d
  digit_lookup : ∀ c, e.lookup c ≠ -1 → ∃ d : Nat, d < 2 ^ w ∧ e.lookup c = d ∧ e.digit d = fold c
  lookup_pad : e.lookup '='.toUInt8 = -1
  lookup_zero : e.lookup 0 = -1
  fold_pad : fold '='.toUInt8 = '='.toUInt8

namespace TextEncoding

variable {e : TextEncoding} {w : Nat} {bits bits' : List Nat} {fold : UInt8 → UInt8}

/-- How many `=` there are after digits with `p` zero bits at the end. -/
def Padding (e : TextEncoding) (w : Nat) (bits : List Nat) (p n : Nat) : Prop :=
  if p = 0 then n = 0 else ∃ mode, bits[mode]? = some (w - p) ∧ n = e.nPadding mode

theorem toNat_lt_of_mem {x : Nat} {pch : Bytes} (h : x ∈ pch.map UInt8.toNat) : x < 2 ^ 8 := by
  obtain ⟨c, -, rfl⟩ := List.mem_map.mp h
  exact c.toNat_lt

/-- What the encoder returns: digits with the bits of the bytes, and the padding. -/
theorem encode_eq (L : Lawful e w bits bits' fold) (pch : Bytes) :
    ∃ ds p n, e.encode pch = ds.map e.digit ++ List.replicate n '='.toUInt8 ∧
      (∀ d ∈ ds, d < 2 ^ w) ∧ Flow w 8 0 0 ds (pch.map UInt8.toNat) p 0 ∧ p < w ∧
      Padding e w bits p n := by
  have hxs : ∀ x ∈ pch.map UInt8.toNat, x < 2 ^ 8 := fun x => toNat_lt_of_mem
  have hstart : Pending bits (fun k => 2 ^ (w - k)) 0 0 0 0 :=
    ⟨L.start.1, Nat.one_pos, fun h => absurd rfl h⟩
  obtain ⟨k, r, ⟨hk, hr, hleft⟩, hflow⟩ := Flow.regroup L.encodes Nat.one_pos hstart hxs
  unfold encode
  generalize regroup e.encodeStep 0 0 (pch.map UInt8.toNat) = result at hk hleft hflow ⊢
  obtain ⟨ds, mode, left⟩ := result
  by_cases hmode : mode = 0
  · subst hmode
    cases L.start.1.symm.trans hk
    refine ⟨ds, 0, 0, by simp, hflow.digits, hflow.symm hxs, L.width.1, ?_⟩
    rw [Padding, if_pos rfl]
  · obtain ⟨hkw, hkpos⟩ := L.bits_lt mode k hk
    have hkpos := hkpos hmode
    have hleft : left = r * 2 ^ (w - k) := hleft hmode
    refine ⟨ds ++ [left], w - k, e.nPadding mode, by simp [hmode], ?_, ?_, by omega, ?_⟩
    · rw [List.forall_mem_append, List.forall_mem_singleton]
      refine ⟨hflow.digits, ?_⟩
      calc left = r * 2 ^ (w - k) := hleft
        _ < 2 ^ k * 2 ^ (w - k) := Nat.mul_lt_mul_of_pos_right hr (Nat.two_pow_pos _)
        _ = 2 ^ w := by rw [← pow_add, Nat.add_sub_cancel' hkw.le]
    · rw [hleft]
      exact hflow.pad hxs hkw
    · rw [Padding, if_neg (by omega), Nat.sub_sub_self hkw.le]
      exact ⟨mode, hk, rfl⟩

/-- The loop of the decoder goes over the characters of the alphabet. -/
theorem decodeLoop_eq {c : UInt8} {t : Bytes} (hc : e.lookup c = -1) {q : Bytes}
    (hq : ∀ x ∈ q, e.lookup x ≠ -1) (mode left : Nat) :
    e.decodeLoop mode left (q ++ c :: t) =
      let (out, mode, left) := regroup e.decodeStep mode left (q.map fun x => (e.lookup x).toNat)
      some (out, mode, left, c :: t) := by
  induction q generalizing mode left with
  | nil => simp [decodeLoop, hc, regroup]
  | cons x q ih =>
    obtain ⟨hx, hq⟩ := List.forall_mem_cons.mp hq
    simp only [List.cons_append, decodeLoop, if_neg hx, ih hq, Option.map_some, List.map_cons, regroup]

theorem paddingInvalid_replicate (L : Lawful e w bits bits' fold) (n : Nat) :
    e.paddingInvalid n (List.replicate n '='.toUInt8 ++ [0]) = some false := by
  induction n with
  | zero => simp [paddingInvalid, L.lookup_zero]
  | succ n ih =>
    rw [List.replicate_succ, List.cons_append, paddingInvalid, if_neg (by simp), ih]

theorem invalid_of_zero {mode left n : Nat} (hmode : mode ≠ 0) (hn : e.required mode = some n)
    (hleft : left = 0) (p : Bytes) : e.invalid mode left p = e.paddingInvalid n p := by
  rw [invalid, if_neg hmode, hn]
  exact if_neg (not_not.mpr hleft)

/-- The look-ahead stays before the end, and accepts only the padding. -/
theorem exists_paddingInvalid (e : TextEncoding) (n : Nat) (l : Bytes) :
    ∃ b, e.paddingInvalid n (l ++ [0]) = some b ∧
      (b = false → List.replicate n '='.toUInt8 <+: l) := by
  induction n generalizing l with
  | zero =>
    cases l with
    | nil => exact ⟨_, rfl, fun _ => List.nil_prefix⟩
    | cons c l => exact ⟨_, rfl, fun _ => List.nil_prefix⟩
  | succ n ih =>
    cases l with
    | nil => exact ⟨true, rfl, nofun⟩
    | cons c l =>
      by_cases hc : c = '='.toUInt8
      · obtain ⟨b, hb, hpad⟩ := ih l
        refine ⟨b, by rw [List.cons_append, paddingInvalid, if_neg (not_not.mpr hc), hb], fun h => ?_⟩
        rw [List.replicate_succ, hc, List.cons_prefix_cons]
        exact ⟨rfl, hpad h⟩
      · exact ⟨true, by rw [List.cons_append, paddingInvalid, if_pos hc], nofun⟩

/-- What the decoder returns: bytes with the bits of the characters of the alphabet in front, and what
follows them. -/
theorem decode_eq (L : Lawful e w bits bits' fold) {ds : List Nat} {c : UInt8} {p q t : Bytes}
    (hp : p ++ [0] = q ++ c :: t) (hq : ∀ x ∈ q, e.lookup x ≠ -1) (hc : e.lookup c = -1)
    (hds : q.map (fun x => (e.lookup x).toNat) = ds) (hlt : ∀ d ∈ ds, d < 2 ^ w) :
    ∃ out mode left k r, Pending bits' (fun _ => 1) mode left k r ∧ Flow w 8 0 0 ds out k r ∧
      e.decode p = (e.invalid mode left (c :: t)).map fun b => (out.map UInt8.ofNat, b) := by
  have hstart : Pending bits' (fun _ => 1) 0 0 0 0 :=
    ⟨L.start.2, Nat.one_pos, fun h => absurd rfl h⟩
  obtain ⟨k, r, hpending, hflow⟩ := Flow.regroup L.decodes Nat.one_pos hstart hlt
  refine ⟨_, _, _, k, r, hpending, hflow, ?_⟩
  simp only [decode, hp, decodeLoop_eq hc hq, hds]
  cases hinvalid : e.invalid (regroup e.decodeStep 0 0 ds).2.1 (regroup e.decodeStep 0 0 ds).2.2 (c :: t)
  · simp [hinvalid]
  · simp [hinvalid]

/-- The decoder gives back what was encoded. -/
theorem Lawful.decode_encode (L : Lawful e w bits bits' fold) (pch : Bytes) :
    e.decode (e.encode pch) = some (pch, false) := by
  obtain ⟨ds, p, n, hencode, hlt, hflow, hpw, hn⟩ := encode_eq L pch
  obtain ⟨c, t, hct, hc⟩ : ∃ c t, List.replicate n '='.toUInt8 ++ [0] = c :: t ∧ e.lookup c = -1 := by
    cases n with
    | zero => exact ⟨0, [], rfl, L.lookup_zero⟩
    | succ n => exact ⟨_, _, rfl, L.lookup_pad⟩
  have hq : ∀ x ∈ ds.map e.digit, e.lookup x ≠ -1 := fun x hx => by
    obtain ⟨d, hd, rfl⟩ := List.mem_map.mp hx
    rw [L.lookup_digit d (hlt d hd)]
    omega
  have hds : (ds.map e.digit).map (fun x => (e.lookup x).toNat) = ds := by
    rw [List.map_map]
    refine (List.map_congr_left fun d hd => ?_).trans (List.map_id ds)
    rw [Function.comp_apply, L.lookup_digit d (hlt d hd), Int.toNat_natCast, id]
  have hmemory : e.encode pch ++ [0] = ds.map e.digit ++ c :: t := by
    rw [hencode, List.append_assoc, hct]
  obtain ⟨out, mode, left, k, r, ⟨hk, -, hleft⟩, hflow', hdecode⟩ := decode_eq L hmemory hq hc hds hlt
  obtain ⟨hk8, hkpos⟩ := L.bits_lt' mode k hk
  have hw := L.width
  obtain ⟨rfl, rfl, rfl⟩ := hflow.unique hflow' (by omega) hk8
  have hbytes : (pch.map UInt8.toNat).map UInt8.ofNat = pch := by
    rw [List.map_map]
    exact (List.map_congr_left fun c _ => UInt8.ofNat_toNat).trans (List.map_id pch)
  have hvalid : e.invalid mode left (c :: t) = some false := by
    by_cases hmode : mode = 0
    · exact if_pos hmode
    · have hpos := hkpos hmode
      have hrequired := L.required_eq mode p hmode hk
      rw [if_pos hpw] at hrequired
      obtain ⟨m, hm, hrequired⟩ := hrequired
      rw [Padding, if_neg (by omega)] at hn
      obtain ⟨m', hm', rfl⟩ := hn
      have hsame : m = m' := by
        obtain ⟨hlt, hget⟩ := List.getElem?_eq_some_iff.mp hm
        obtain ⟨hlt', hget'⟩ := List.getElem?_eq_some_iff.mp hm'
        exact (L.nodup.getElem_inj_iff).mp (hget.trans hget'.symm)
      have hzero : left = 0 := (hleft hmode).trans (Nat.zero_mul _)
      rw [invalid_of_zero hmode hrequired hzero, hsame, ← hct]
      exact paddingInvalid_replicate L _
  rw [hdecode, hvalid, Option.map_some, hbytes]

/-- The decoder never reads behind the terminating zero, and what it accepts starts with the encoding of
the result. -/
theorem Lawful.encode_prefix (L : Lawful e w bits bits' fold) (p : Bytes) :
    ∃ v b, e.decode p = some (v, b) ∧ (b = false → e.encode v <+: p.map fold) := by
  obtain ⟨q, l, rfl, hq, hl⟩ := Framework.exists_span (fun c => decide (e.lookup c ≠ -1)) p
  have hq : ∀ x ∈ q, e.lookup x ≠ -1 := fun x hx => of_decide_eq_true (hq x hx)
  obtain ⟨c, t, hct, hc⟩ : ∃ c t, l ++ [0] = c :: t ∧ e.lookup c = -1 := by
    cases l with
    | nil => exact ⟨0, [], rfl, L.lookup_zero⟩
    | cons c l => exact ⟨c, l ++ [0], rfl, by simpa using hl c l rfl⟩
  -- the digits of the characters of the alphabet
  have hdigits : ∀ x ∈ q, (e.lookup x).toNat < 2 ^ w ∧ e.digit (e.lookup x).toNat = fold x := fun x hx => by
    obtain ⟨d, hd, hlookup, hdigit⟩ := L.digit_lookup x (hq x hx)
    rw [hlookup, Int.toNat_natCast]
    exact ⟨hd, hdigit⟩
  have hlt : ∀ d ∈ q.map (fun x => (e.lookup x).toNat), d < 2 ^ w := fun d hd => by
    obtain ⟨x, hx, rfl⟩ := List.mem_map.mp hd
    exact (hdigits x hx).1
  have hfold : (q.map fun x => (e.lookup x).toNat).map e.digit = q.map fold := by
    rw [List.map_map]
    exact List.map_congr_left fun x hx => (hdigits x hx).2
  obtain ⟨out, mode, left, k, r, ⟨hk, hr, hleft⟩, hflow, hdecode⟩ :=
    decode_eq L (by rw [List.append_assoc, hct]) hq hc rfl hlt
  have hbytes : (out.map UInt8.ofNat).map UInt8.toNat = out := by
    rw [List.map_map]
    refine (List.map_congr_left fun x hx => ?_).trans (List.map_id out)
    exact UInt8.toNat_ofNat_of_lt' (hflow.digits x hx)
  obtain ⟨ds', p', n', hencode, hlt', hflow', hpw', hn'⟩ := encode_eq L (out.map UInt8.ofNat)
  rw [hbytes] at hflow'
  -- with as few bits left over as the encoder, and zeros only, the digits are those of the encoder
  have hmain : ∀ n, k < w → r = 0 → Padding e w bits k n → List.replicate n '='.toUInt8 <+: l →
      e.encode (out.map UInt8.ofNat) <+: (q ++ l).map fold := by
    rintro n hkw rfl hn ⟨l', rfl⟩
    obtain ⟨hds, rfl⟩ := hflow.unique_source hflow' hkw hpw' hlt hlt'
    have hsame : n = n' := by
      unfold Padding at hn hn'
      split_ifs at hn hn' with hk0
      · rw [hn, hn']
      · obtain ⟨m, hm, rfl⟩ := hn
        obtain ⟨m', hm', rfl⟩ := hn'
        obtain ⟨hmlt, hget⟩ := List.getElem?_eq_some_iff.mp hm
        obtain ⟨hmlt', hget'⟩ := List.getElem?_eq_some_iff.mp hm'
        rw [L.nodup.getElem_inj_iff.mp (hget.trans hget'.symm)]
    refine ⟨l'.map fold, ?_⟩
    rw [hencode, ← hds, hfold, List.map_append, List.map_append, List.map_replicate, L.fold_pad, hsame,
      List.append_assoc]
  by_cases hmode : mode = 0
  · subst hmode
    cases L.start.2.symm.trans hk
    have hnone : Padding e w bits 0 0 := by rw [Padding, if_pos rfl]
    refine ⟨_, false, by rw [hdecode, invalid, if_pos rfl]; rfl, fun _ => ?_⟩
    exact hmain 0 L.width.1 (Nat.lt_one_iff.mp hr) hnone List.nil_prefix
  · have hrequired := L.required_eq mode k hmode hk
    split_ifs at hrequired with hkw
    · obtain ⟨m, hm, hrequired⟩ := hrequired
      by_cases hzero : left = 0
      · obtain ⟨b, hb, hpad⟩ := exists_paddingInvalid e (e.nPadding m) l
        have hinvalid : e.invalid mode left (c :: t) = some b := by
          rw [invalid_of_zero hmode hrequired hzero, ← hct, hb]
        refine ⟨_, b, by rw [hdecode, hinvalid]; rfl, fun hfalse => ?_⟩
        have hr0 : r = 0 := by
          have := (hleft hmode).symm.trans hzero
          rwa [Nat.mul_one] at this
        refine hmain _ hkw hr0 ?_ (hpad hfalse)
        rw [Padding, if_neg ((L.bits_lt' mode k hk).2 hmode).ne']
        exact ⟨m, hm, rfl⟩
      · have hinvalid : e.invalid mode left (c :: t) = some true := by
          rw [invalid, if_neg hmode, hrequired]
          exact if_pos hzero
        exact ⟨_, true, by rw [hdecode, hinvalid]; rfl, nofun⟩
    · have hinvalid : e.invalid mode left (c :: t) = some true := by
        rw [invalid, if_neg hmode, hrequired]
      exact ⟨_, true, by rw [hdecode, hinvalid]; rfl, nofun⟩

end TextEncoding

/-! ## Both encodings -/

/-- A letter in lower case. -/
def foldCase (c : UInt8) : UInt8 := if 'A'.toUInt8 ≤ c ∧ c ≤ 'Z'.toUInt8 then c + 32 else c

/-- What the table says of a character, checked for all characters. -/
theorem digit_lookup_of_forall {e : TextEncoding} {w : Nat} {fold : UInt8 → UInt8}
    (h : ∀ n < 256, e.lookup (UInt8.ofNat n) ≠ -1 → 0 ≤ e.lookup (UInt8.ofNat n) ∧
      (e.lookup (UInt8.ofNat n)).toNat < 2 ^ w ∧
      e.digit (e.lookup (UInt8.ofNat n)).toNat = fold (UInt8.ofNat n))
    (c : UInt8) (hc : e.lookup c ≠ -1) :
    ∃ d : Nat, d < 2 ^ w ∧ e.lookup c = d ∧ e.digit d = fold c := by
  have hn := h c.toNat c.toNat_lt
  rw [UInt8.ofNat_toNat] at hn
  obtain ⟨hpos, hlt, hdigit⟩ := hn hc
  exact ⟨_, hlt, (Int.toNat_of_nonneg hpos).symm, hdigit⟩

theorem lawful64 : base64.Lawful 6 [0, 2, 4] [0, 6, 4, 2] id where
  width := by decide
  encodes := encodes64
  decodes := decodes64
  start := ⟨rfl, rfl⟩
  nodup := by decide
  bits_lt mode k h := by
    match mode with
    | 0 | 1 | 2 => cases h; decide
    | n + 3 => cases h
  bits_lt' mode k h := by
    match mode with
    | 0 | 1 | 2 | 3 => cases h; decide
    | n + 4 => cases h
  required_eq mode k hmode h := by
    match mode with
    | 0 => exact absurd rfl hmode
    | 1 => cases h; rfl
    | 2 => cases h; exact ⟨1, rfl, rfl⟩
    | 3 => cases h; exact ⟨2, rfl, rfl⟩
    | n + 4 => cases h
  lookup_digit := by decide +kernel
  digit_lookup := digit_lookup_of_forall (by decide +kernel)
  lookup_pad := by decide +kernel
  lookup_zero := by decide +kernel
  fold_pad := rfl

theorem lawful32 : base32.Lawful 5 [0, 3, 1, 4, 2] [0, 5, 2, 7, 4, 1, 6, 3] foldCase where
  width := by decide
  encodes := encodes32
  decodes := decodes32
  start := ⟨rfl, rfl⟩
  nodup := by decide
  bits_lt mode k h := by
    match mode with
    | 0 | 1 | 2 | 3 | 4 => cases h; decide
    | n + 5 => cases h
  bits_lt' mode k h := by
    match mode with
    | 0 | 1 | 2 | 3 | 4 | 5 | 6 | 7 => cases h; decide
    | n + 8 => cases h
  required_eq mode k hmode h := by
    match mode with
    | 0 => exact absurd rfl hmode
    | 1 | 3 | 6 => cases h; rfl
    | 2 => cases h; exact ⟨1, rfl, rfl⟩
    | 4 => cases h; exact ⟨2, rfl, rfl⟩
    | 5 => cases h; exact ⟨3, rfl, rfl⟩
    | 7 => cases h; exact ⟨4, rfl, rfl⟩
    | n + 8 => cases h
  lookup_digit := by decide +kernel
  digit_lookup := digit_lookup_of_forall (by decide +kernel)
  lookup_pad := by decide +kernel
  lookup_zero := by decide +kernel
  fold_pad := by decide

/-- What is encoded has no zero in it, so that `c_str` gives all of it. -/
theorem cStr_encode {e : TextEncoding} {w : Nat} {bits bits' : List Nat} {fold : UInt8 → UInt8}
    (L : e.Lawful w bits bits' fold) (v : Bytes) : cStr (e.encode v) = e.encode v := by
  obtain ⟨ds, p, n, hencode, hlt, -⟩ := TextEncoding.encode_eq L v
  refine Framework.takeWhile_of_all fun c hc => decide_eq_true ?_
  rw [hencode] at hc
  rintro rfl
  rcases List.mem_append.mp hc with hc | hc
  · obtain ⟨d, hd, hzero⟩ := List.mem_map.mp hc
    have hlookup := L.lookup_digit d (hlt d hd)
    rw [hzero, L.lookup_zero] at hlookup
    omega
  · exact absurd (List.eq_of_mem_replicate hc) (by decide)

/-- Base64 and Base32 decode what they encode; and the decoders, which never read behind the
terminating zero, accept only strings that start with the encoding of the result, in lower case for
Base32. -/
theorem base64_base32_strict :
    (∀ v, decodeBase64 (cStr (encodeBase64 v)) = some (v, false)) ∧
      (∀ v, decodeBase32 (cStr (encodeBase32 v)) = some (v, false)) ∧
      (∀ p, ∃ v invalid, decodeBase64 p = some (v, invalid) ∧
        (invalid = false → encodeBase64 v <+: p)) ∧
      ∀ p, ∃ v invalid, decodeBase32 p = some (v, invalid) ∧
        (invalid = false → encodeBase32 v <+: p.map foldCase) := by
  refine ⟨fun v => ?_, fun v => ?_, fun p => ?_, fun p => lawful32.encode_prefix p⟩
  · rw [encodeBase64, cStr_encode lawful64]
    exact lawful64.decode_encode v
  · rw [encodeBase32, cStr_encode lawful32]
    exact lawful32.decode_encode v
  · have hpad := lawful64.encode_prefix p
    rwa [List.map_id] at hpad

end GC
