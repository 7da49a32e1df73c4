import GameCredits.Model.CoinsDB

/-!
# Stored records read back

`CCoins::Unserialize` inverts `CCoins::Serialize` on a record with an available output whose fields
fit the encoding (`readCoins_write`), up to trailing nulls, which it drops, and a negative version.

* `readMaskFrom_write`: the mask ends where its count of non-zero bytes is reached.
* `availBits_eq`: the first two bits and the mask are the availability of the outputs.
* `getSerializeSize_eq`: the size that `GetSerializeSize` gives is that of what is written.
* `unserialize_serialize`: what the database reads is what was written, within the limits of the
  widths (`FitsUInt`); past them it is not (`longRecord_unserialize`).
-/

namespace GC

open Framework

/-! ## Bits -/

/-- The number with the first `n` bits of `f`. -/
theorem testBit_bits (f : Nat → Bool) (n : Nat) :
    ((List.range n).map fun i => if f i then 2 ^ i else 0).sum < 2 ^ n ∧
      ∀ i < n, ((List.range n).map fun i => if f i then 2 ^ i else 0).sum.testBit i = f i := by
  induction n with
  | zero => exact ⟨Nat.one_pos, fun i hi => absurd hi (Nat.not_lt_zero i)⟩
  | succ n ih =>
    obtain ⟨hlt, hbits⟩ := ih
    simp only [List.range_succ, List.map_append, List.sum_append, List.map_cons, List.map_nil,
      List.sum_singleton]
    generalize ((List.range n).map fun i => if f i then 2 ^ i else 0).sum = x at hlt hbits
    have htop : x.testBit n = false := Nat.testBit_lt_two_pow hlt
    cases hf : f n with
    | false =>
      refine ⟨by rw [pow_succ]; simp; omega, fun i hi => ?_⟩
      rcases Nat.lt_succ_iff_lt_or_eq.mp hi with hi | rfl
      · simpa using hbits i hi
      · simpa [hf] using htop
    | true =>
      rw [if_pos rfl, Nat.add_comm]
      refine ⟨by rw [pow_succ]; omega, fun i hi => ?_⟩
      rcases Nat.lt_succ_iff_lt_or_eq.mp hi with hi | rfl
      · rw [Nat.testBit_two_pow_add_gt hi]
        exact hbits i hi
      · rw [Nat.testBit_two_pow_add_eq, htop, hf]
        rfl

/-- The bits of a byte, least significant first. -/
def bitsOf (b : Nat) : List Bool := (List.range 8).map fun p => b.testBit p

/-- A mask whose last byte is not zero is read to its end. -/
theorem readMaskFrom_write {l : List Nat} (hlt : ∀ b ∈ l, b < 256)
    (hlast : ∀ h : l ≠ [], l.getLast h ≠ 0) (s : Bytes) :
    readMaskFrom (l.countP (· != 0)) (l.map UInt8.ofNat ++ s) = some (l.flatMap bitsOf, s) := by
  induction l with
  | nil => cases s <;> rfl
  | cons b l ih =>
    have hb : (UInt8.ofNat b).toNat = b := by
      rw [UInt8.toNat_ofNat', Nat.mod_eq_of_lt (hlt b (List.mem_cons_self ..))]
    have hzero : UInt8.ofNat b = 0 ↔ b = 0 := by
      rw [← UInt8.toNat_inj, hb]
      rfl
    have hrest := ih (fun b hb => hlt b (List.mem_cons_of_mem _ hb)) fun h => by
      rw [← List.getLast_cons h (a := b)]
      exact hlast _
    have hpos : (b :: l).countP (· != 0) ≠ 0 := by
      rw [Ne, List.countP_eq_zero]
      intro hall
      have h0 := hall _ (List.getLast_mem (List.cons_ne_nil b l))
      exact hlast (List.cons_ne_nil b l) (by simpa using h0)
    have hcount : (if UInt8.ofNat b = 0 then (b :: l).countP (· != 0)
        else (b :: l).countP (· != 0) - 1) = l.countP (· != 0) := by
      by_cases h0 : b = 0
      · rw [if_pos (hzero.mpr h0), List.countP_cons_of_neg (by simp [h0])]
      · rw [if_neg (mt hzero.mp h0), List.countP_cons_of_pos (by simp [h0])]
        rfl
    rw [List.map_cons, List.cons_append, readMaskFrom, if_neg hpos, hcount, hrest, hb]
    rfl

/-! ## Outputs -/

/-- Outputs are read back by their availability. -/
theorem readAvailable_write {ops : PubKeyOps} (hops : ops.Lawful) (outs : List (Option CTxOut))
    (h : ∀ out, some out ∈ outs → out.Compressible) (s : Bytes) :
    (readAvailable ops (outs.map Option.isSome)).run
        ((outs.filterMap id).flatMap (writeTxOut ops) ++ s) = some (outs, s) := by
  induction outs with
  | nil => rfl
  | cons o outs ih =>
    have hrest := ih fun out hout => h out (List.mem_cons_of_mem _ hout)
    cases o with
    | none =>
      show (readAvailable ops (false :: outs.map Option.isSome)).run _ = _
      rw [readAvailable, if_neg (by decide), Get.run_bind_some (Get.run_pure _ _),
        List.filterMap_cons_none (by rfl), Get.run_bind_some hrest, Get.run_pure]
      rfl
    | some out =>
      have hout := h out (List.mem_cons_self ..)
      have hnull : out.unlessNull = some out := by
        have hpos := (moneyRange_iff.mp hout.1).1
        rw [CTxOut.unlessNull, CTxOut.isNull, if_neg (by simp; omega)]
      have hread : (some <$> readTxOut ops).run (writeTxOut ops out ++
          ((outs.filterMap id).flatMap (writeTxOut ops) ++ s)) =
          some (some out, (outs.filterMap id).flatMap (writeTxOut ops) ++ s) := by
        show ((readTxOut ops).run _).bind _ = _
        rw [readTxOut_write hops out hout]
        rfl
      show (readAvailable ops (true :: outs.map Option.isSome)).run _ = _
      have hfilter : (some out :: outs).filterMap id = out :: outs.filterMap id := rfl
      rw [readAvailable, if_pos rfl, hfilter, List.flatMap_cons, List.append_assoc, Get.run_bind_some hread, Get.run_bind_some hrest, Get.run_pure,
        Option.bind_some, hnull]

namespace CCoins

variable {coins : CCoins}

theorem availByte_lt (coins : CCoins) (b : Nat) : coins.availByte b < 256 :=
  (testBit_bits _ 8).1

theorem bitsOf_availByte (coins : CCoins) (b : Nat) :
    bitsOf (coins.availByte b) = (List.range 8).map fun p => coins.isAvailable (2 + b * 8 + p) :=
  List.map_congr_left fun p hp => (testBit_bits _ 8).2 p (List.mem_range.mp hp)

theorem maskBytes_eq (coins : CCoins) :
    coins.maskBytes = (List.range coins.maskBytes.length).map coins.availByte := by
  have hpre : coins.maskBytes <+: coins.availBytes := List.rdropWhile_prefix _ _
  rw [availBytes] at hpre
  have htake := List.prefix_iff_eq_take.mp hpre
  have hlen := hpre.length_le
  rw [List.length_map, List.length_range] at hlen
  rwa [← List.map_take, List.take_range, Nat.min_eq_left hlen] at htake

/-- No output after those of the mask is available. -/
theorem output?_of_mask_le {p : Nat} (h : 2 + coins.maskBytes.length * 8 ≤ p) :
    coins.output? p = none := by
  by_contra hne
  obtain ⟨out, hout⟩ := Option.ne_none_iff_exists'.mp hne
  have hlt := lt_of_output? hout
  have hsplit : coins.maskBytes ++ coins.availBytes.rtakeWhile (· == 0) = coins.availBytes :=
    List.rdropWhile_append_rtakeWhile
  have hk : (p - 2) / 8 < coins.availBytes.length := by
    rw [availBytes, List.length_map, List.length_range]
    omega
  have hget : coins.availBytes[(p - 2) / 8]? = some (coins.availByte ((p - 2) / 8)) := by
    rw [availBytes, List.length_map, List.length_range] at hk
    rw [availBytes, List.getElem?_map, List.getElem?_range hk]
    rfl
  rw [← hsplit, List.getElem?_append_right (by omega)] at hget
  have hzero := List.mem_rtakeWhile_imp (List.mem_of_getElem? hget)
  have hbit := (testBit_bits (fun i => coins.isAvailable (2 + (p - 2) / 8 * 8 + i)) 8).2
    ((p - 2) % 8) (Nat.mod_lt _ (by decide))
  have hpos : 2 + (p - 2) / 8 * 8 + (p - 2) % 8 = p := by omega
  rw [show (List.sum _ : Nat) = 0 from beq_iff_eq.mp hzero, Nat.zero_testBit, hpos, isAvailable,
    hout] at hbit
  cases hbit

/-- The bits that are written: the availability of the outputs up to the end of the mask. -/
theorem availBits_eq (coins : CCoins) :
    coins.isAvailable 0 :: coins.isAvailable 1 :: coins.maskBytes.flatMap bitsOf =
      (List.range (2 + coins.maskBytes.length * 8)).map coins.isAvailable := by
  have hmask : ∀ k, ((List.range k).map coins.availByte).flatMap bitsOf =
      (List.range (k * 8)).map fun p => coins.isAvailable (2 + p) := by
    intro k
    induction k with
    | zero => rfl
    | succ k ih =>
      rw [List.range_succ, List.map_append, List.flatMap_append, ih, List.map_singleton,
        List.flatMap_singleton, bitsOf_availByte, Nat.add_mul, List.range_add, List.map_append,
        List.map_map]
      simp only [Nat.add_assoc]
      rfl
  rw [maskBytes_eq coins, hmask, List.length_map, List.length_range, List.range_add, List.map_append,
    List.map_map]
  rfl

/-- The available outputs, from any range of positions that has all of them. -/
theorem filterMap_output? {n : Nat} (h : ∀ p, n ≤ p → coins.output? p = none) :
    (List.range n).filterMap coins.output? = coins.vout.filterMap id := by
  have hmore : ∀ k d, (∀ p, k ≤ p → coins.output? p = none) →
      (List.range (k + d)).filterMap coins.output? = (List.range k).filterMap coins.output? := by
    intro k d hk
    have hnil : (List.range d).filterMap (coins.output? ∘ (k + ·)) = [] :=
      List.filterMap_eq_nil_iff.mpr fun p _ => hk _ (Nat.le_add_right k p)
    rw [List.range_add, List.filterMap_append, List.filterMap_map, hnil, List.append_nil]
  have hvout : (List.range coins.vout.length).map coins.output? = coins.vout := by
    refine List.ext_getElem (by simp) fun i h₁ h₂ => ?_
    simp [output?, h₂]
  calc (List.range n).filterMap coins.output?
      = (List.range (coins.vout.length + n)).filterMap coins.output? := by
        rw [Nat.add_comm, hmore n _ h]
    _ = (List.range coins.vout.length).filterMap coins.output? :=
        hmore _ n fun p => output?_of_le
    _ = ((List.range coins.vout.length).map coins.output?).filterMap id :=
        by rw [List.filterMap_map]; rfl
    _ = coins.vout.filterMap id := by rw [hvout]

/-- A record made of the outputs of another, from a range of positions that has all of them. -/
theorem output?_range {n : Nat} (h : ∀ p, n ≤ p → coins.output? p = none) (p : Nat) :
    ((List.range n).map coins.output?)[p]?.join = coins.output? p := by
  rw [List.getElem?_map]
  rcases Nat.lt_or_ge p n with hp | hp
  · rw [List.getElem?_range hp]
    rfl
  · rw [List.getElem?_eq_none (by simpa using hp), h p hp]
    rfl

/-! ## The header code -/

/-- A record that the encoding keeps, up to trailing nulls and a negative version. -/
structure Encodable (coins : CCoins) : Prop where
  unspent : coins.isPruned = false
  height : coins.nHeight < 2 ^ 31
  version : coins.nVersion < 2 ^ 31
  outs : ∀ n out, coins.output? n = some out → n < 2 ^ 31 ∧ out.Compressible

/-- As `Encodable`, with a bound on the mask in place of one on the positions: the code counts its
bytes in an `unsigned int`, next to three flags. -/
structure Storable (coins : CCoins) : Prop where
  unspent : coins.isPruned = false
  height : coins.nHeight < 2 ^ 31
  version : coins.nVersion < 2 ^ 31
  mask : coins.maskBytes.length < 2 ^ 29
  outs : ∀ n out, coins.output? n = some out → out.Compressible

theorem nonzeroBytes_eq (coins : CCoins) :
    coins.nonzeroBytes = coins.maskBytes.countP (· != 0) := by
  have hsplit : coins.maskBytes ++ coins.availBytes.rtakeWhile (· == 0) = coins.availBytes :=
    List.rdropWhile_append_rtakeWhile
  have hzero : (coins.availBytes.rtakeWhile (· == 0)).countP (· != 0) = 0 :=
    List.countP_eq_zero.mpr fun b hb => by simpa using List.mem_rtakeWhile_imp hb
  rw [nonzeroBytes, ← hsplit, List.countP_append, hzero, Nat.add_zero]

/-- The last byte of the mask has a bit. -/
theorem maskBytes_last {k : Nat} (hk : coins.maskBytes.length = k + 1) :
    coins.availByte k ≠ 0 ∧ ∃ p out, coins.output? (2 + k * 8 + p) = some out := by
  have hne : coins.maskBytes ≠ [] := fun h => by rw [h] at hk; cases hk
  have hlast : coins.maskBytes.getLast hne = coins.availByte k := by
    have hget : coins.maskBytes[k]? = some (coins.availByte k) := by
      rw [maskBytes_eq coins, List.getElem?_map, List.getElem?_range (by omega)]
      rfl
    rw [List.getLast_eq_getElem, ← Option.some_inj, ← hget, List.getElem?_eq_getElem (by omega)]
    simp [hk]
  have hnot := List.rdropWhile_last_not (· == 0) coins.availBytes hne
  have hnz : coins.availByte k ≠ 0 := fun h0 => hnot (beq_iff_eq.mpr (hlast.trans h0))
  refine ⟨hnz, ?_⟩
  by_contra hnone
  have hzero : ∀ i ∈ List.range 8,
      (if coins.isAvailable (2 + k * 8 + i) then 2 ^ i else 0) = 0 := fun i _ => by
    have hout : coins.output? (2 + k * 8 + i) = none := by
      by_contra hne'
      exact hnone ⟨i, Option.ne_none_iff_exists'.mp hne'⟩
    rw [isAvailable, hout]
    rfl
  exact hnz (by rw [availByte, List.map_congr_left hzero]; rfl)

theorem Encodable.storable (h : coins.Encodable) : coins.Storable where
  unspent := h.unspent
  height := h.height
  version := h.version
  mask := by
    rcases hk : coins.maskBytes.length with _ | k
    · exact Nat.two_pow_pos 29
    · obtain ⟨-, p, out, hout⟩ := maskBytes_last hk
      have := (h.outs _ _ hout).1
      omega
  outs n out hout := (h.outs n out hout).2

/-- What is read of the header code: the coinbase flag, the availability of the first two outputs
and the number of non-zero bytes of the mask. -/
theorem nCode_spec (h : coins.Storable) :
    coins.nCode < 2 ^ 32 ∧ coins.nCode.testBit 0 = coins.fCoinBase ∧
      coins.nCode.testBit 1 = coins.isAvailable 0 ∧ coins.nCode.testBit 2 = coins.isAvailable 1 ∧
      (coins.nCode / 8 + if coins.isAvailable 0 || coins.isAvailable 1 then 0 else 1) =
        coins.maskBytes.countP (· != 0) := by
  have hle : coins.maskBytes.countP (· != 0) ≤ coins.maskBytes.length := List.countP_le_length
  have hsmall := h.mask
  have hpos : coins.isAvailable 0 = false → coins.isAvailable 1 = false →
      0 < coins.maskBytes.countP (· != 0) := by
    intro h0 h1
    rcases hk : coins.maskBytes.length with _ | k
    · have hpruned : coins.isPruned = true := isPruned_iff.mpr fun p => by
        rcases p with _ | _ | p
        · simpa [isAvailable] using h0
        · simpa [isAvailable] using h1
        · exact output?_of_mask_le (by rw [hk]; omega)
      rw [h.unspent] at hpruned
      cases hpruned
    · rw [List.countP_pos_iff]
      refine ⟨coins.availByte k, ?_, by simpa using (maskBytes_last hk).1⟩
      rw [maskBytes_eq coins, hk]
      exact List.mem_map_of_mem (List.mem_range.mpr (Nat.lt_succ_self k))
  rw [nCode, nonzeroBytes_eq]
  simp only [Nat.testBit_eq_decide_div_mod_eq]
  generalize coins.maskBytes.countP (· != 0) = nz at hle hpos ⊢
  cases coins.fCoinBase <;> cases h0 : coins.isAvailable 0 <;> cases h1 : coins.isAvailable 1 <;>
    simp [h0, h1] at hpos ⊢ <;> omega

/-! ## Round trip -/

/-- A record as it is read back: without trailing nulls, and without a negative version. -/
def stored (coins : CCoins) : CCoins :=
  cleanup { coins with nVersion := storedVersion coins.nVersion }

theorem readCoins_storable {ops : PubKeyOps} (hops : ops.Lawful) (h : coins.Storable) (s : Bytes) :
    (readCoins ops).run (coins.write ops ++ s) = some (coins.stored, s) := by
  obtain ⟨hlt, hcb, hfirst, hsecond, hmask⟩ := nCode_spec h
  have hversion := readVarIntSigned_write (storedVersion coins.nVersion)
    ⟨storedVersion_nonneg _, storedVersion_lt h.version⟩
  have hheight := readVarIntSigned_write (coins.nHeight : Int) ⟨by omega, by have := h.height; omega⟩ s
  rw [writeVarIntSigned_stored] at hversion
  rw [writeVarIntSigned, if_neg (by omega), Int.toNat_natCast] at hheight
  have hbytes : ∀ b ∈ coins.maskBytes, b < 256 := fun b hb => by
    rw [maskBytes_eq coins] at hb
    obtain ⟨k, -, rfl⟩ := List.mem_map.mp hb
    exact availByte_lt coins k
  have hlast : ∀ hne : coins.maskBytes ≠ [], coins.maskBytes.getLast hne ≠ 0 := fun hne h0 =>
    List.rdropWhile_last_not (· == 0) coins.availBytes hne (beq_iff_eq.mpr h0)
  have hnone : ∀ p, 2 + coins.maskBytes.length * 8 ≤ p → coins.output? p = none := fun p =>
    output?_of_mask_le
  have hread : ∀ s', (readAvailable ops (coins.isAvailable 0 :: coins.isAvailable 1 ::
      coins.maskBytes.flatMap bitsOf)).run ((coins.vout.filterMap id).flatMap (writeTxOut ops) ++ s') =
      some ((List.range (2 + coins.maskBytes.length * 8)).map coins.output?, s') := fun s' => by
    have houts := readAvailable_write hops
      ((List.range (2 + coins.maskBytes.length * 8)).map coins.output?) (fun out hout => by
        obtain ⟨p, -, hp⟩ := List.mem_map.mp hout
        exact h.outs p out hp) s'
    rw [List.filterMap_map, List.map_map] at houts
    rw [availBits_eq, ← filterMap_output? hnone]
    exact houts
  rw [readCoins, write, Nat.mod_eq_of_lt hlt]
  simp only [List.append_assoc]
  rw [Get.run_bind_some (hversion _), Get.run_bind_some (readVarInt_write (by decide) _ hlt _),
    hfirst, hsecond, hmask, Get.run_bind_some (readMaskFrom_write hbytes hlast _),
    Get.run_bind_some (hread _), Get.run_bind_some hheight, Get.run_pure, hcb]
  refine congrArg (fun c => some (c, s)) ?_
  have hvout : (cleanup ⟨coins.fCoinBase,
      (List.range (2 + coins.maskBytes.length * 8)).map coins.output?, coins.nHeight,
      storedVersion coins.nVersion⟩).vout = coins.stored.vout :=
    vout_eq_of_output? (trimmed_cleanup _) (trimmed_cleanup _) fun n => by
      rw [stored, output?_cleanup, output?_cleanup]
      exact output?_range hnone n
  rw [Int.toNat_natCast]
  exact congrArg (fun vout => CCoins.mk coins.fCoinBase vout coins.nHeight
    (storedVersion coins.nVersion)) hvout

theorem readCoins_write {ops : PubKeyOps} (hops : ops.Lawful) (h : coins.Encodable) (s : Bytes) :
    (readCoins ops).run (coins.write ops ++ s) = some (coins.stored, s) :=
  readCoins_storable hops h.storable s

/-! ## Sizes -/

theorem availByte_eq_zero {b : Nat} : coins.availByte b = 0 ↔
    ((List.range 8).any fun i => coins.isAvailable (2 + b * 8 + i)) = false := by
  rw [availByte, List.sum_eq_zero_iff_forall_eq_nat, List.any_eq_false]
  constructor
  · intro h i hi hav
    have := h _ (List.mem_map_of_mem hi)
    rw [if_pos hav] at this
    exact (Nat.two_pow_pos i).ne' this
  · intro h x hx
    obtain ⟨i, hi, rfl⟩ := List.mem_map.mp hx
    exact if_neg (h i hi)

/-- `CalcMaskSize` finds the bytes of the mask up to the last one that is not zero, and how many of
them are not. -/
theorem calcMaskSize_eq (coins : CCoins) :
    coins.calcMaskSize = (coins.maskBytes.length, coins.nonzeroBytes) := by
  rw [calcMaskSize, maskBytes, nonzeroBytes, availBytes]
  generalize (coins.vout.length - 2 + 7) / 8 = n
  induction n with
  | zero => rfl
  | succ n ih =>
    rw [List.range_succ (n := n), List.foldl_append, ih, List.map_append, List.map_singleton,
      List.rdropWhile_concat, List.countP_append, List.foldl_cons, List.foldl_nil]
    cases hbyte : (List.range 8).any fun i => coins.isAvailable (2 + n * 8 + i) with
    | false =>
      have h0 := availByte_eq_zero.mpr hbyte
      simp [h0]
    | true =>
      have h0 : coins.availByte n ≠ 0 := fun h => by
        rw [availByte_eq_zero, hbyte] at h
        cases h
      simp [h0]

/-- `GetSerializeSize` is what `Serialize` writes, up to the width of its result. -/
theorem getSerializeSize_eq (ops : PubKeyOps) (hversion : coins.nVersion < 2 ^ 31)
    (hheight : coins.nHeight < 2 ^ 31) :
    coins.getSerializeSize ops = (coins.write ops).length % 2 ^ 32 := by
  have hcode : coins.nCode % 2 ^ 32 < 2 ^ 64 :=
    (Nat.mod_lt _ (Nat.two_pow_pos 32)).trans (by decide)
  have houts : ((coins.vout.filterMap id).map (getSerializeSizeTxOut ops)).sum % 2 ^ 32 =
      ((coins.vout.filterMap id).flatMap (writeTxOut ops)).length % 2 ^ 32 := by
    induction coins.vout.filterMap id with
    | nil => rfl
    | cons out outs ih =>
      rw [List.map_cons, List.sum_cons, List.flatMap_cons, List.length_append, Nat.add_mod, ih,
        getSerializeSizeTxOut, Nat.mod_mod, ← Nat.add_mod]
  rw [write, List.length_append, List.length_append, List.length_append, List.length_append,
    List.length_map, length_writeVarIntSigned hversion, length_writeVarInt hcode,
    length_writeVarInt (n := coins.nHeight) (by omega)]
  rw [getSerializeSize, calcMaskSize_eq]
  show (getSizeOfVarIntSigned coins.nVersion + getSizeOfVarInt (coins.nCode % 2 ^ 32) +
    coins.maskBytes.length + ((coins.vout.filterMap id).map (getSerializeSizeTxOut ops)).sum +
    getSizeOfVarInt coins.nHeight) % 2 ^ 32 = _
  omega

theorem getSerializeSize_lt (ops : PubKeyOps) (coins : CCoins) :
    coins.getSerializeSize ops < 2 ^ 32 := Nat.mod_lt _ (Nat.two_pow_pos 32)

/-! ## Records within the limits -/

/-- The sizes that the encoding of a record holds in an `unsigned int`: those of its scripts and the
positions of its outputs, with the rest of the last byte of the mask. -/
structure FitsUInt (coins : CCoins) : Prop where
  vout : coins.vout.length + 8 ≤ 2 ^ 32
  scripts : ∀ n out, coins.output? n = some out → out.scriptPubKey.length + nSpecialScripts < 2 ^ 32

theorem FitsUInt.mask (h : coins.FitsUInt) : coins.maskBytes.length < 2 ^ 29 := by
  have hle : coins.maskBytes.length ≤ coins.availBytes.length :=
    (List.rdropWhile_prefix _ _).length_le
  rw [availBytes, List.length_map, List.length_range] at hle
  have := h.vout
  omega

theorem stored_eq (htrim : coins.Trimmed) (hversion : 0 ≤ coins.nVersion) : coins.stored = coins := by
  rw [stored, storedVersion_eq hversion]
  exact congrArg (fun vout => { coins with vout }) htrim

/-- A record with an available output is read back from its bytes, and its size is their number. -/
theorem unserialize_serialize {ops : PubKeyOps} (hops : ops.Lawful)
    (hversion : 0 ≤ coins.nVersion ∧ coins.nVersion < 2 ^ 31) (hheight : coins.nHeight < 2 ^ 31)
    (hunspent : coins.isPruned = false) (htrim : coins.Trimmed)
    (hmoney : ∀ n out, coins.output? n = some out → moneyRange out.nValue = true)
    (hfits : coins.FitsUInt) :
    (∀ s, (readCoins ops).run (coins.write ops ++ s) = some (coins, s)) ∧
      coins.getSerializeSize ops = (coins.write ops).length % 2 ^ 32 := by
  have hstorable : coins.Storable := {
    unspent := hunspent
    height := hheight
    version := hversion.2
    mask := hfits.mask
    outs := fun n out hout => ⟨hmoney n out hout, hfits.scripts n out hout⟩ }
  refine ⟨fun s => ?_, getSerializeSize_eq ops hversion.2 hheight⟩
  rw [readCoins_storable hops hstorable, stored_eq htrim hversion.1]

/-- The first coordinate of the generator of the keys' group. -/
def generatorX : Bytes :=
  [0x79, 0xbe, 0x66, 0x7e, 0xf9, 0xdc, 0xbb, 0xac, 0x55, 0xa0, 0x62, 0x95, 0xce, 0x87, 0x0b, 0x07,
   0x02, 0x9b, 0xfc, 0xdb, 0x2d, 0xce, 0x28, 0xd9, 0x59, 0xf2, 0x81, 0x5b, 0x16, 0xf8, 0x17, 0x98]

/-- The second coordinate. -/
def generatorY : Bytes :=
  [0x48, 0x3a, 0xda, 0x77, 0x26, 0xa3, 0xc4, 0x65, 0x5d, 0xa4, 0xfb, 0xfc, 0x0e, 0x11, 0x08, 0xa8,
   0xfd, 0x17, 0xb4, 0x48, 0xa6, 0x85, 0x54, 0x19, 0x9c, 0x47, 0xd0, 0x8f, 0xfb, 0x10, 0xd4, 0xb8]

/-- Key operations that know one key, the generator. -/
def generatorOps : PubKeyOps where
  isFullyValid key := key == 0x04 :: (generatorX ++ generatorY)
  decompress key :=
    if key = 0x02 :: generatorX then some (0x04 :: (generatorX ++ generatorY)) else none

theorem generatorOps_lawful : generatorOps.Lawful := by
  intro x y hx hy hvalid
  have hxy : x ++ y = generatorX ++ generatorY := (List.cons.inj (beq_iff_eq.mp hvalid)).2
  obtain ⟨rfl, rfl⟩ := List.append_inj hxy (hx.trans (by decide : 32 = generatorX.length))
  have heven : (0x02 + (generatorY.getD 31 0 &&& 1)) :: generatorX = 0x02 :: generatorX := by decide
  simp only [generatorOps, heven, if_true]

/-- A coinbase of which a payment to a key hash, at position 4, and one to a key, at position 16, are
unspent. -/
def keysRecord : CCoins where
  fCoinBase := true
  vout := List.replicate 4 none ++
    some ⟨234925952, [OP_DUP, OP_HASH160, 20] ++ generatorX.take 20 ++ [OP_EQUALVERIFY, OP_CHECKSIG]⟩ ::
    List.replicate 11 none ++
    [some ⟨110397, 65 :: (0x04 :: (generatorX ++ generatorY)) ++ [OP_CHECKSIG]⟩]
  nHeight := 120891
  nVersion := 1

theorem unserialize_serialize_keysRecord :
    (∀ s, (readCoins generatorOps).run (keysRecord.write generatorOps ++ s) = some (keysRecord, s)) ∧
      keysRecord.getSerializeSize generatorOps =
        (keysRecord.write generatorOps).length % 2 ^ 32 := by
  have houts : ∀ o ∈ keysRecord.vout, ∀ out ∈ o,
      moneyRange out.nValue = true ∧ out.scriptPubKey.length + nSpecialScripts < 2 ^ 32 := by decide
  have hout : ∀ n out, keysRecord.output? n = some out →
      moneyRange out.nValue = true ∧ out.scriptPubKey.length + nSpecialScripts < 2 ^ 32 :=
    fun n out h => houts _ (List.mem_of_getElem? (output?_eq_some.mp h)) out rfl
  have htrim : keysRecord.Trimmed := by
    unfold Trimmed
    decide
  exact unserialize_serialize generatorOps_lawful (by decide) (by decide) (by decide) htrim
    (fun n out h => (hout n out h).1) ⟨by decide, fun n out h => (hout n out h).2⟩

/-- The example in the comment on `CCoins`. -/
example :
    let pay : Bytes → CScript := fun h => [OP_DUP, OP_HASH160, 20] ++ h ++ [OP_EQUALVERIFY, OP_CHECKSIG]
    let key₄ : Bytes :=
      [0x61, 0xb0, 0x1c, 0xaa, 0xb5, 0x0f, 0x1b, 0x8e, 0x9c, 0x50, 0xa5, 0x05, 0x7e, 0xb4, 0x3c,
       0x2d, 0x95, 0x63, 0xa4, 0xee]
    let key₁₆ : Bytes :=
      [0x8c, 0x98, 0x8f, 0x1a, 0x4a, 0x4d, 0xe2, 0x16, 0x1e, 0x0f, 0x50, 0xaa, 0xc7, 0xf1, 0x7e,
       0x7f, 0x95, 0x55, 0xca, 0xa4]
    let coins : CCoins := ⟨true, List.replicate 4 none ++ some ⟨234925952, pay key₄⟩ ::
      List.replicate 11 none ++ [some ⟨110397, pay key₁₆⟩], 120891, 1⟩
    coins.write generatorOps =
      [0x01, 0x09, 0x04, 0x40, 0x86, 0xef, 0x97, 0xd5, 0x79, 0x00, 0x61, 0xb0, 0x1c, 0xaa, 0xb5,
       0x0f, 0x1b, 0x8e, 0x9c, 0x50, 0xa5, 0x05, 0x7e, 0xb4, 0x3c, 0x2d, 0x95, 0x63, 0xa4, 0xee,
       0xbb, 0xd1, 0x23, 0x00, 0x8c, 0x98, 0x8f, 0x1a, 0x4a, 0x4d, 0xe2, 0x16, 0x1e, 0x0f, 0x50,
       0xaa, 0xc7, 0xf1, 0x7e, 0x7f, 0x95, 0x55, 0xca, 0xa4, 0x86, 0xaf, 0x3b] := by
  decide

/-- A record with one output, the script of which is as long as an `unsigned int` cannot tell. -/
def longRecord : CCoins := ⟨false, [some ⟨0, 0 :: List.replicate (2 ^ 32 - 1) 0⟩], 0, 1⟩

/-- The length of such a script is written as 0: the record reads as one with an empty script, that
stops before the rest of it. -/
theorem write_long (ops : PubKeyOps) {script : CScript} (h : script.length + 1 = 2 ^ 32) :
    write ops ⟨false, [some ⟨0, 0 :: script⟩], 0, 1⟩ =
      write ops ⟨false, [some ⟨0, []⟩], 0, 1⟩ ++ (script ++ [0]) := by
  have hlen : (0 :: script : CScript).length = 2 ^ 32 := h
  have hnone : compressScript ops (0 :: script) = none := by
    rw [compressScript, isToKeyID, isToScriptID, isToPubKey, hlen,
      if_neg fun h => absurd h.1 (by decide), if_neg fun h => absurd h.1 (by decide),
      if_neg fun h => absurd h.1 (by decide), if_neg fun h => absurd h.1 (by decide)]
  have hscript : writeScript ops (0 :: script) = writeScript ops [] ++ (0 :: script) := by
    rw [writeScript, hnone, hlen]
    rfl
  have hwrite : ∀ script, write ops ⟨false, [some ⟨0, script⟩], 0, 1⟩ =
      [1, 2, 0] ++ writeScript ops script ++ [0] := fun script => by
    have havail : availBytes ⟨false, [some ⟨0, script⟩], 0, 1⟩ = [] := by simp [availBytes]
    have hvout : ([some ⟨0, script⟩] : List (Option CTxOut)).filterMap id = [⟨0, script⟩] := rfl
    have hcode : nCode ⟨false, [some ⟨0, script⟩], 0, 1⟩ = 2 := by
      simp [nCode, nonzeroBytes, havail, isAvailable, output?]
    have hversion : writeVarIntSigned 1 = [1] := rfl
    have htwo : writeVarInt (2 % 2 ^ 32) = [2] := rfl
    have hamount : writeVarInt (compressAmount ((0 : Int) % 2 ^ 64).toNat) = [0] := rfl
    have hheight : writeVarInt 0 = [0] := rfl
    rw [write, hcode, maskBytes, havail, hvout, List.flatMap_singleton, writeTxOut, htwo, hversion,
      hamount]
    show [1] ++ [2] ++ [] ++ ([0] ++ writeScript ops script) ++ writeVarInt 0 = _
    rw [hheight]
    rfl
  rw [hwrite, hwrite, hscript]
  simp

theorem le_length_write_long (ops : PubKeyOps) {script : CScript} (h : script.length + 1 = 2 ^ 32) :
    2 ^ 32 ≤ (write ops ⟨false, [some ⟨0, 0 :: script⟩], 0, 1⟩).length := by
  rw [write_long ops h, List.length_append, List.length_append, List.length_singleton, h]
  exact Nat.le_add_left _ _

theorem longRecord_unserialize :
    (generatorOps.Lawful ∧ 0 ≤ longRecord.nVersion ∧ longRecord.isPruned = false ∧
      longRecord.Trimmed ∧ ∀ n out, longRecord.output? n = some out → moneyRange out.nValue = true) ∧
    (readCoins generatorOps).run (longRecord.write generatorOps) ≠ some (longRecord, []) ∧
      longRecord.getSerializeSize generatorOps ≠ (longRecord.write generatorOps).length := by
  have hscript : (List.replicate (2 ^ 32 - 1) 0 : CScript).length + 1 = 2 ^ 32 := by
    rw [List.length_replicate]
    decide
  have hlong := write_long generatorOps hscript
  refine ⟨⟨generatorOps_lawful, by decide, rfl, rfl, fun n out h => ?_⟩, fun h => ?_, fun h => ?_⟩
  · have hmem := List.mem_of_getElem? (output?_eq_some.mp h)
    cases List.mem_singleton.mp hmem
    rfl
  · have hstorable : CCoins.Storable ⟨false, [some ⟨0, []⟩], 0, 1⟩ := {
      unspent := rfl
      height := by decide
      version := by decide
      mask := by decide
      outs := fun n out hout => by
        cases List.mem_singleton.mp (List.mem_of_getElem? (output?_eq_some.mp hout))
        exact ⟨rfl, by decide⟩ }
    have hread := readCoins_storable generatorOps_lawful hstorable
      (List.replicate (2 ^ 32 - 1) 0 ++ [0])
    rw [← hlong] at hread
    have hrest := (Prod.mk.inj (Option.some.inj (hread.symm.trans h))).2
    exact List.append_ne_nil_of_right_ne_nil _ (List.cons_ne_nil _ _) hrest
  · have hlen : 2 ^ 32 ≤ (longRecord.write generatorOps).length :=
      le_length_write_long generatorOps hscript
    exact Nat.ne_of_lt (Nat.lt_of_lt_of_le (getSerializeSize_lt _ _) hlen) h

end CCoins

end GC
