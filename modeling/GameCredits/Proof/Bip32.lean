import GameCredits.Model.Bip32
import GameCredits.Proof.Sha2
import Mathlib.Data.ZMod.Basic

/-!
# Extended keys: the two ways to derive

A step with the private key and one with its public key hash the same bytes (`exists_bip32Hash`), and
adding the tweak to the scalar is adding its multiple of the generator to the point (`tweak_add`). So the
steps return the same and the child's public key is the child of the public key (`CKey.derive_step`,
`CExtKey.derive_step`), and so does a path (`derivePath_matches`).
-/

namespace GC.Bip32

open Framework (Bytes leNat leBytes)

variable {Point : Type} [AddCommGroup Point] [DecidableEq Point] {lib : EcLibrary Point}

/-- What the code relies on: the order of the generator, and the encoding of compressed keys, which both
libraries have. The point at infinity is one zero. -/
structure EcLibrary.Lawful (lib : EcLibrary Point) : Prop where
  order : ∀ m : Nat, m • lib.generator = 0 ↔ curveOrder ∣ m
  compressed : ∀ P, P ≠ 0 → ∃ header x, lib.eckeyPubkeySerialize P true = header :: x ∧
    (header = 2 ∨ header = 3) ∧ x.length = 32
  i2o : ∀ P, P ≠ 0 → lib.i2oECPublicKey P true = lib.eckeyPubkeySerialize P true
  i2o_zero : lib.i2oECPublicKey 0 true = [0]
  o2i : ∀ P, P ≠ 0 → lib.o2iECPublicKey (lib.eckeyPubkeySerialize P true) = (true, P)

/-! ## Public keys -/

theorem parsePubKey_compressed {header : UInt8} {x : Bytes} (hheader : header = 2 ∨ header = 3)
    (hx : x.length = 32) : parsePubKey (header :: x) = header :: x := by
  rcases hheader with rfl | rfl
  · exact if_pos (by rw [List.length_cons, hx]; rfl)
  · exact if_pos (by rw [List.length_cons, hx]; rfl)

namespace EcLibrary.Lawful

variable (hlib : lib.Lawful)

include hlib

omit [DecidableEq Point] in
/-- The public key of a point. -/
theorem set_serialize {P : Point} (hP : P ≠ 0) :
    (CPubKey.set (lib.eckeyPubkeySerialize P true)).val = lib.eckeyPubkeySerialize P true ∧
      (lib.eckeyPubkeySerialize P true).length = 33 := by
  obtain ⟨header, x, heq, hheader, hx⟩ := hlib.compressed P hP
  rw [heq]
  exact ⟨parsePubKey_compressed hheader hx, by rw [List.length_cons, hx]⟩

omit [DecidableEq Point] in
theorem getPubKey_point {P : Point} (hP : P ≠ 0) :
    lib.getPubKey P true = some (lib.eckeyPubkeySerialize P true) := by
  have hlen := (hlib.set_serialize hP).2
  simp only [EcLibrary.getPubKey, hlib.i2o P hP, hlen]
  rfl

omit [DecidableEq Point] in
theorem mod_nsmul (m : Nat) : (m % curveOrder) • lib.generator = m • lib.generator := by
  have hzero : (curveOrder * (m / curveOrder)) • lib.generator = 0 :=
    (hlib.order _).mpr (Nat.dvd_mul_right _ _)
  conv_rhs => rw [← Nat.mod_add_div m curveOrder, add_nsmul, hzero, add_zero]

omit [DecidableEq Point] in
theorem nsmul_ne_zero {m : Nat} (hpos : 0 < m) (hlt : m < curveOrder) : m • lib.generator ≠ 0 := fun h =>
  absurd (Nat.le_of_dvd hpos ((hlib.order m).mp h)) (by omega)

end EcLibrary.Lawful

namespace CKey

variable {key : CKey}

/-- The point of the public key. -/
def point (lib : EcLibrary Point) (key : CKey) : Point := beNat key.vch.val • lib.generator

theorem beNat_vch (hvalid : key.fValid = true) : 0 < beNat key.vch.val ∧ beNat key.vch.val < curveOrder :=
  (check_iff key.vch.property).mp (key.valid hvalid)

omit [DecidableEq Point] in
theorem point_ne_zero (hlib : lib.Lawful) (hvalid : key.fValid = true) : key.point lib ≠ 0 :=
  hlib.nsmul_ne_zero (beNat_vch hvalid).1 (beNat_vch hvalid).2

theorem getPubKey_eq (hlib : lib.Lawful) (hvalid : key.fValid = true)
    (hcompressed : key.fCompressed = true) :
    key.getPubKey lib = some (CPubKey.set (lib.eckeyPubkeySerialize (key.point lib) true)) := by
  have hne := point_ne_zero hlib hvalid
  obtain ⟨hset, hlen⟩ := hlib.set_serialize hne
  have hsec : scalarSetB32 key.vch = (beNat key.vch.val, false) := by
    rw [scalarSetB32, Nat.mod_eq_of_lt (beNat_vch hvalid).2,
      decide_eq_false (Nat.not_le.mpr (beNat_vch hvalid).2)]
  have hcreate : lib.ecPubkeyCreate key.vch true =
      (true, lib.eckeyPubkeySerialize (key.point lib) true) := by
    rw [EcLibrary.ecPubkeyCreate, hsec]
    exact if_neg (by rw [Bool.false_or, decide_eq_true_iff]; exact hne)
  have hsize : (CPubKey.set (lib.eckeyPubkeySerialize (key.point lib) true)).size = 33 := by
    rw [CPubKey.size, hset, hlen]
  simp only [CKey.getPubKey, hvalid, hcompressed, hcreate, CPubKey.isValid, hsize, hlen]
  rfl

end CKey

/-! ## One step -/

/-- The hash does not depend on what the buffers hold. -/
theorem exists_bip32Hash (chainCode : ChainCode) (nChild : UInt32) (header : UInt8) (data : Bytes) :
    ∃ out, ∀ buf, bip32Hash buf chainCode nChild header data = some out := by
  have hkey : chainCode.val.length < 2 ^ 61 := by
    rw [chainCode.property]
    decide
  have hlen : ([[header], data.take 32, childBytes nChild].flatten).length < 2 ^ 61 := by
    simp only [List.flatten_cons, List.flatten_nil, List.length_append, List.length_cons, List.length_nil,
      List.length_take, childBytes]
    omega
  refine ⟨⟨hmac chainCode.val [[header], data.take 32, childBytes nChild].flatten, length_digest512 _⟩,
    fun buf => ?_⟩
  obtain ⟨h', hfinalize⟩ := CHMAC_SHA512.finalize_writes buf hkey hlen
  obtain ⟨h₁, hnew, hfinalize⟩ := Option.bind_eq_some_iff.mp hfinalize
  obtain ⟨h₀, hnew₀, hwrites⟩ := Option.bind_eq_some_iff.mp hnew
  simp only [bip32Hash, hnew₀, hwrites, hfinalize, Option.bind_eq_bind, Option.bind_some]
  exact dif_pos (length_digest512 _)

/-- Adding the tweak to the scalar is adding its multiple of the generator to the point, and fails where
that does. -/
theorem tweak_add (hlib : lib.Lawful) (key : CKey) (tweak : Digest 32) :
    (lib.tweakPublic (key.point lib) tweak).1 = (ecPrivkeyTweakAdd key.vch tweak).1 ∧
      ((ecPrivkeyTweakAdd key.vch tweak).1 = true →
        (lib.tweakPublic (key.point lib) tweak).2 =
          beNat (ecPrivkeyTweakAdd key.vch tweak).2.val • lib.generator) := by
  have hpos : 0 < curveOrder := by decide
  have hpoint : (lib.tweakPublic (key.point lib) tweak).2 =
      ((beNat key.vch.val + beNat tweak.val) % curveOrder) • lib.generator := by
    rw [hlib.mod_nsmul, add_nsmul, add_comm]
    exact congrArg _ (one_nsmul _)
  have hsec : (beNat key.vch.val % curveOrder + beNat tweak.val % curveOrder) % curveOrder =
      (beNat key.vch.val + beNat tweak.val) % curveOrder := (Nat.add_mod _ _ _).symm
  have hzero : ((beNat key.vch.val + beNat tweak.val) % curveOrder) • lib.generator = 0 ↔
      (beNat key.vch.val + beNat tweak.val) % curveOrder = 0 := by
    rw [hlib.order]
    exact ⟨fun h => Nat.eq_zero_of_dvd_of_lt h (Nat.mod_lt _ hpos), fun h => h ▸ Nat.dvd_zero _⟩
  refine ⟨?_, fun hret => ?_⟩
  · show (decide (beNat tweak.val < curveOrder) &&
      decide ((lib.tweakPublic (key.point lib) tweak).2 ≠ 0)) =
        (decide ((beNat key.vch.val % curveOrder + beNat tweak.val % curveOrder) % curveOrder ≠ 0) &&
          !decide (curveOrder ≤ beNat tweak.val))
    have hrange : (!decide (curveOrder ≤ beNat tweak.val)) = decide (beNat tweak.val < curveOrder) := by
      rw [← decide_not]
      exact decide_eq_decide.mpr Nat.not_le
    rw [hpoint, hsec, hrange, Bool.and_comm]
    exact congrArg (· && _) (decide_eq_decide.mpr (not_congr hzero))
  · have hkey : (ecPrivkeyTweakAdd key.vch tweak).2 = scalarGetB32 _ := if_pos hret
    rw [hpoint, hkey, beNat_scalarGetB32 (Nat.mod_lt _ hpos), hsec]

/-- Both libraries encode the point after a tweak, which is infinity only where the tweak fails. -/
theorem exists_getPubKey (hlib : lib.Lawful) (P : Point) :
    ∃ vch, lib.getPubKey P true = some vch ∧ (P ≠ 0 → vch = lib.eckeyPubkeySerialize P true) := by
  by_cases hP : P = 0
  · refine ⟨[0], ?_, fun h => absurd hP h⟩
    simp only [EcLibrary.getPubKey, hP, hlib.i2o_zero]
    rfl
  · exact ⟨_, hlib.getPubKey_point hP, fun _ => rfl⟩

/-- A step with a private key and one with its public key return the same and give the same chain code;
where they return true, the children belong together again. -/
theorem CKey.derive_step (hlib : lib.Lawful) {key : CKey} (hvalid : key.fValid = true)
    (hcompressed : key.fCompressed = true) {pubkey : CPubKey} (hpubkey : key.getPubKey lib = some pubkey)
    (buf buf' : HmacBuffers) {nChild : UInt32} (hchild : nChild >>> 31 = 0) (cc : ChainCode) :
    ∃ ret keyChild pubkeyChild ccChild,
      key.derive lib buf nChild cc = some (ret, keyChild, ccChild) ∧
      pubkey.derive lib buf' nChild cc = some (ret, pubkeyChild, ccChild) ∧
      (ret = true → keyChild.fValid = true ∧ keyChild.fCompressed = true ∧
        keyChild.getPubKey lib = some pubkeyChild) := by
  have hne := point_ne_zero hlib hvalid
  have hgetPubKey := getPubKey_eq hlib hvalid hcompressed
  obtain rfl : _ = pubkey := Option.some.inj (hgetPubKey.symm.trans hpubkey)
  obtain ⟨hset, hlen⟩ := hlib.set_serialize hne
  have hsize : (CPubKey.set (lib.eckeyPubkeySerialize (key.point lib) true)).size = 33 := by
    rw [CPubKey.size, hset, hlen]
  obtain ⟨out, hout⟩ := exists_bip32Hash cc nChild
    ((CPubKey.set (lib.eckeyPubkeySerialize (key.point lib) true)).val.headD 0)
    (CPubKey.set (lib.eckeyPubkeySerialize (key.point lib) true)).val.tail
  have ho2i := hlib.o2i _ hne
  rw [← hset] at ho2i
  obtain ⟨hret, hpoint⟩ := tweak_add hlib key (slice out 0 32 (by decide))
  obtain ⟨vch, hvch, hserialize⟩ :=
    exists_getPubKey hlib (lib.tweakPublic (key.point lib) (slice out 0 32 (by decide))).2
  let keyChild : CKey :=
    ⟨(ecPrivkeyTweakAdd key.vch (slice out 0 32 (by decide))).2,
      (ecPrivkeyTweakAdd key.vch (slice out 0 32 (by decide))).1, true, check_ecPrivkeyTweakAdd⟩
  refine ⟨keyChild.fValid, keyChild, CPubKey.set vch, slice out 32 32 (by decide), ?_, ?_,
    fun hok => ⟨hok, rfl, ?_⟩⟩
  · simp only [CKey.derive, hvalid, hcompressed, hchild, ↓reduceIte, hgetPubKey, Option.bind_eq_bind,
      Option.bind_some, hsize, hout]
    rfl
  · simp only [CPubKey.derive, CPubKey.isValid, hchild, hsize, hout, ho2i, hvch, hret, Option.bind_eq_bind,
      Option.bind_some, Bool.true_and]
    rfl
  · -- the child's point is the one that is encoded
    have hchildPoint : _ = keyChild.point lib := hpoint hok
    have hne' : keyChild.point lib ≠ 0 := point_ne_zero hlib hok
    rw [getPubKey_eq hlib hok rfl, hserialize (hchildPoint ▸ hne'), hchildPoint]

section

variable (hash160 : Bytes → UInt160)

/-- The same of a step with an extended key. -/
theorem CExtKey.derive_step (hlib : lib.Lawful) {k : CExtKey} (hvalid : k.key.fValid = true)
    (hcompressed : k.key.fCompressed = true) {pk : CExtPubKey} (hneuter : k.neuter lib = some pk)
    (buf buf' : HmacBuffers) {nChild : UInt32} (hchild : nChild >>> 31 = 0) :
    ∃ ret out out', k.derive lib hash160 buf nChild = some (ret, out) ∧
      pk.derive lib hash160 buf' nChild = some (ret, out') ∧
      (ret = true → out.key.fValid = true ∧ out.key.fCompressed = true ∧ out.neuter lib = some out') := by
  obtain ⟨pubkey, hpubkey, hpk⟩ := Option.bind_eq_some_iff.mp hneuter
  cases hpk
  obtain ⟨ret, keyChild, pubkeyChild, ccChild, hkey, hpub, hok⟩ :=
    CKey.derive_step hlib hvalid hcompressed hpubkey buf buf' hchild k.chaincode
  let id := slice (hash160 pubkey.val) 0 4 (by decide)
  refine ⟨ret, ⟨k.nDepth + 1, id, nChild, ccChild, keyChild⟩,
    ⟨k.nDepth + 1, id, nChild, ccChild, pubkeyChild⟩, ?_, ?_, fun hret => ?_⟩
  · simp only [CExtKey.derive, hpubkey, hkey, Option.bind_eq_bind, Option.bind_some]
    rfl
  · simp only [CExtPubKey.derive, hpub, Option.bind_eq_bind, Option.bind_some]
    rfl
  · obtain ⟨hvalid', hcompressed', hpubkey'⟩ := hok hret
    refine ⟨hvalid', hcompressed', ?_⟩
    simp only [CExtKey.neuter, hpubkey', Option.bind_eq_bind, Option.bind_some]

theorem CExtKey.exists_neuter (hlib : lib.Lawful) {k : CExtKey} (hvalid : k.key.fValid = true)
    (hcompressed : k.key.fCompressed = true) : ∃ pk, k.neuter lib = some pk := by
  rw [CExtKey.neuter, CKey.getPubKey_eq hlib hvalid hcompressed]
  exact ⟨_, rfl⟩

/-! ## Paths -/

/-- Both paths end, with the public key belonging to the private one, or fail at the same step. -/
def Matches (lib : EcLibrary Point) :
    Except (List UInt32) CExtKey → Except (List UInt32) CExtPubKey → Prop
  | .ok k, .ok pk => k.neuter lib = some pk
  | .error path, .error path' => path = path'
  | _, _ => False

theorem derivePath_matches (hlib : lib.Lawful) {k : CExtKey} (hvalid : k.key.fValid = true)
    (hcompressed : k.key.fCompressed = true) {pk : CExtPubKey} (hneuter : k.neuter lib = some pk)
    (buf buf' : Nat → HmacBuffers) {path : List UInt32} (hpath : ∀ nChild ∈ path, nChild >>> 31 = 0) :
    ∃ r r', derivePath (CExtKey.derive lib hash160) buf k path = some r ∧
      derivePath (CExtPubKey.derive lib hash160) buf' pk path = some r' ∧ Matches lib r r' := by
  induction path generalizing k pk buf buf' with
  | nil => exact ⟨_, _, rfl, rfl, hneuter⟩
  | cons nChild path ih =>
    obtain ⟨hchild, hpath⟩ := List.forall_mem_cons.mp hpath
    obtain ⟨ret, out, out', hkey, hpub, hok⟩ :=
      CExtKey.derive_step hash160 hlib hvalid hcompressed hneuter (buf 0) (buf' 0) hchild
    simp only [derivePath, hkey, hpub, Option.bind_eq_bind, Option.bind_some]
    cases ret with
    | false => exact ⟨_, _, rfl, rfl, rfl⟩
    | true =>
      obtain ⟨hvalid', hcompressed', hneuter'⟩ := hok rfl
      exact ih hvalid' hcompressed' hneuter' _ _ hpath

end

/-! ## Encoding -/

theorem toNat_readChild (code : Bytes) :
    (readChild code).toNat = (code.getD 5 0).toNat * 2 ^ 24 + (code.getD 6 0).toNat * 2 ^ 16 +
      (code.getD 7 0).toNat * 2 ^ 8 + (code.getD 8 0).toNat := by
  have h5 := (code.getD 5 0).toNat_lt
  have h6 := (code.getD 6 0).toNat_lt
  have h7 := (code.getD 7 0).toNat_lt
  have h8 := (code.getD 8 0).toNat_lt
  have hor : ∀ {i a b : Nat}, b < 2 ^ i → a * 2 ^ i ||| b = a * 2 ^ i + b := fun h => by
    rw [← Nat.shiftLeft_eq, Nat.shiftLeft_add_eq_or_of_lt h]
  simp only [readChild, UInt32.toNat_or, UInt32.toNat_shiftLeft, UInt8.toNat_toUInt32, Nat.shiftLeft_eq]
  show ((code.getD 5 0).toNat * 2 ^ 24 % 2 ^ 32 ||| (code.getD 6 0).toNat * 2 ^ 16 % 2 ^ 32 |||
    (code.getD 7 0).toNat * 2 ^ 8 % 2 ^ 32 ||| (code.getD 8 0).toNat) = _
  have h78 := hor (a := (code.getD 7 0).toNat) h8
  have h68 := hor (a := (code.getD 6 0).toNat) (i := 16)
    (show (code.getD 7 0).toNat * 2 ^ 8 + (code.getD 8 0).toNat < 2 ^ 16 by omega)
  rw [Nat.mod_eq_of_lt (by omega), Nat.mod_eq_of_lt (by omega), Nat.mod_eq_of_lt (by omega), Nat.or_assoc,
    Nat.or_assoc, h78, h68, hor (by omega)]
  omega

/-- The bytes of `nChild` behind the depth and the fingerprint. -/
theorem readChild_childBytes (nDepth : UInt8) (vchFingerprint : Digest 4) (nChild : UInt32)
    (rest : Bytes) :
    readChild (nDepth :: (vchFingerprint.val ++ (childBytes nChild ++ rest))) = nChild := by
  have hbyte : ∀ s : UInt32, s.toNat < 32 →
      ((nChild >>> s) &&& 0xFF).toUInt8.toNat = nChild.toNat / 2 ^ s.toNat % 256 := fun s hs => by
    rw [UInt32.toNat_toUInt8, UInt32.toNat_and, UInt32.toNat_shiftRight, Nat.mod_eq_of_lt hs,
      Nat.shiftRight_eq_div_pow, show UInt32.toNat 0xFF = 2 ^ 8 - 1 from rfl,
      Nat.and_two_pow_sub_one_eq_mod, Nat.mod_mod]
  obtain ⟨fingerprint, hlen⟩ := vchFingerprint
  obtain ⟨b1, b2, b3, b4, rfl⟩ : ∃ b1 b2 b3 b4, fingerprint = [b1, b2, b3, b4] := by
    match fingerprint, hlen with
    | [b1, b2, b3, b4], _ => exact ⟨b1, b2, b3, b4, rfl⟩
  refine UInt32.toNat_inj.mp ?_
  have hlt := nChild.toNat_lt
  have h24 := hbyte 24 (by decide)
  have h16 := hbyte 16 (by decide)
  have h8 := hbyte 8 (by decide)
  have h0 := hbyte 0 (by decide)
  rw [toNat_readChild]
  show ((nChild >>> 24) &&& 0xFF).toUInt8.toNat * 2 ^ 24 +
    ((nChild >>> 16) &&& 0xFF).toUInt8.toNat * 2 ^ 16 + ((nChild >>> 8) &&& 0xFF).toUInt8.toNat * 2 ^ 8 +
    ((nChild >>> 0) &&& 0xFF).toUInt8.toNat = nChild.toNat
  rw [h24, h16, h8, h0]
  show nChild.toNat / 2 ^ 24 % 256 * 2 ^ 24 + nChild.toNat / 2 ^ 16 % 256 * 2 ^ 16 +
    nChild.toNat / 2 ^ 8 % 256 * 2 ^ 8 + nChild.toNat / 2 ^ 0 % 256 = nChild.toNat
  omega

theorem slice_val {n i m : Nat} {code : Digest n} (h : i + m ≤ n) {mid : Bytes} (pre post : Bytes)
    (hcode : code.val = pre ++ (mid ++ post)) (hi : pre.length = i) (hm : mid.length = m) :
    (slice code i m h).val = mid := by
  show (code.val.drop i).take m = mid
  rw [hcode, List.drop_left' hi, List.take_left' hm]

/-- The 74 bytes that `Encode` writes, where `rest` is for the key. -/
def encoded (nDepth : UInt8) (vchFingerprint : Digest 4) (nChild : UInt32) (chaincode : ChainCode)
    (rest : Digest 33) : Digest 74 :=
  ⟨nDepth :: (vchFingerprint.val ++ (childBytes nChild ++ (chaincode.val ++ rest.val))), by
    simp only [List.length_cons, List.length_append, vchFingerprint.property, chaincode.property,
      rest.property, childBytes, List.length_nil]⟩

section

variable (nDepth : UInt8) (vchFingerprint : Digest 4) (nChild : UInt32) (chaincode : ChainCode)
  (rest : Digest 33)

theorem encoded_head :
    (encoded nDepth vchFingerprint nChild chaincode rest).val.getD 0 0 = nDepth ∧
      slice (encoded nDepth vchFingerprint nChild chaincode rest) 1 4 (by decide) = vchFingerprint ∧
      readChild (encoded nDepth vchFingerprint nChild chaincode rest).val = nChild ∧
      slice (encoded nDepth vchFingerprint nChild chaincode rest) 9 32 (by decide) = chaincode := by
  refine ⟨rfl, Subtype.ext ?_, readChild_childBytes _ _ _ _, Subtype.ext ?_⟩
  · exact slice_val _ [nDepth] _ rfl rfl vchFingerprint.property
  · refine slice_val _ (nDepth :: (vchFingerprint.val ++ childBytes nChild)) rest.val ?_ ?_
      chaincode.property
    · show nDepth :: (vchFingerprint.val ++ (childBytes nChild ++ (chaincode.val ++ rest.val))) = _
      rw [List.cons_append, List.append_assoc]
    · rw [List.length_cons, List.length_append, vchFingerprint.property]
      rfl

theorem encoded_rest {i m : Nat} (h : i + m ≤ 74) {mid : Bytes} (pre : Bytes)
    (hrest : rest.val = pre ++ mid) (hi : 41 + pre.length = i) (hm : mid.length = m) :
    (slice (encoded nDepth vchFingerprint nChild chaincode rest) i m h).val = mid := by
  refine slice_val h (nDepth :: (vchFingerprint.val ++ (childBytes nChild ++ (chaincode.val ++ pre)))) []
    ?_ ?_ hm
  · show nDepth :: (vchFingerprint.val ++ (childBytes nChild ++ (chaincode.val ++ rest.val))) = _
    rw [hrest, List.append_nil]
    simp only [List.cons_append, List.append_assoc]
  · simp only [List.length_cons, List.length_append, vchFingerprint.property, chaincode.property,
      childBytes, List.length_nil]
    omega

end

theorem CExtKey.decode_encode {k : CExtKey} (hvalid : k.key.fValid = true)
    (hcompressed : k.key.fCompressed = true) :
    ∃ code : Digest 74, k.encode = some code.val ∧ ∀ target : CExtKey, target.decode code = k := by
  let rest : Digest 33 := ⟨0 :: k.key.vch.val, by rw [List.length_cons, k.key.vch.property]⟩
  refine ⟨encoded k.nDepth k.vchFingerprint k.nChild k.chaincode rest, ?_, fun target => ?_⟩
  · simp only [CExtKey.encode, CKey.size, hvalid]
    rfl
  · obtain ⟨hdepth, hfingerprint, hchild, hchaincode⟩ :=
      encoded_head k.nDepth k.vchFingerprint k.nChild k.chaincode rest
    have hkey := encoded_rest k.nDepth k.vchFingerprint k.nChild k.chaincode rest (i := 42) (by decide) [0]
      rfl rfl k.key.vch.property
    refine CExtKey.ext hdepth hfingerprint hchild hchaincode ?_
    show target.key.set _ true = k.key
    rw [hkey, CKey.set, dif_pos ⟨k.key.vch.property, k.key.valid hvalid⟩]
    exact CKey.ext rfl hvalid.symm hcompressed.symm

theorem CExtPubKey.decode_encode {pk : CExtPubKey} (hsize : pk.pubkey.size = 33) :
    ∃ code : Digest 74, pk.encode = some code.val ∧ CExtPubKey.decode code = pk := by
  let rest : Digest 33 := ⟨pk.pubkey.val, hsize⟩
  refine ⟨encoded pk.nDepth pk.vchFingerprint pk.nChild pk.chaincode rest, ?_, ?_⟩
  · simp only [CExtPubKey.encode, hsize]
    rfl
  · obtain ⟨hdepth, hfingerprint, hchild, hchaincode⟩ :=
      encoded_head pk.nDepth pk.vchFingerprint pk.nChild pk.chaincode rest
    have hkey := encoded_rest pk.nDepth pk.vchFingerprint pk.nChild pk.chaincode rest (i := 41)
      (by decide) [] rfl rfl hsize
    refine CExtPubKey.ext hdepth hfingerprint hchild hchaincode (Subtype.ext ?_)
    show parsePubKey _ = _
    rw [hkey, pk.pubkey.property]

/-- Deriving a private key along a path and deriving its public key along it match, and reading what was
written of an extended key gives that key. -/
theorem derive_commutes (hash160 : Bytes → UInt160) (hlib : lib.Lawful) :
    (∀ k : CExtKey, k.key.fValid = true → k.key.fCompressed = true →
      ∀ (buf buf' : Nat → HmacBuffers) (path : List UInt32), (∀ nChild ∈ path, nChild.toNat < 2 ^ 31) →
        ∃ pk r r', k.neuter lib = some pk ∧ derivePath (CExtKey.derive lib hash160) buf k path = some r ∧
          derivePath (CExtPubKey.derive lib hash160) buf' pk path = some r' ∧ Matches lib r r') ∧
    (∀ k : CExtKey, k.key.fValid = true → k.key.fCompressed = true →
      ∃ code : Digest 74, k.encode = some code.val ∧ ∀ target : CExtKey, target.decode code = k) ∧
    ∀ pk : CExtPubKey, pk.pubkey.size = 33 →
      ∃ code : Digest 74, pk.encode = some code.val ∧ CExtPubKey.decode code = pk := by
  refine ⟨fun k hvalid hcompressed buf buf' path hpath => ?_, fun k => CExtKey.decode_encode,
    fun pk => CExtPubKey.decode_encode⟩
  obtain ⟨pk, hneuter⟩ := CExtKey.exists_neuter hlib hvalid hcompressed
  have hchildren : ∀ nChild ∈ path, nChild >>> 31 = 0 := fun nChild h => by
    refine UInt32.toNat_inj.mp ?_
    rw [UInt32.toNat_shiftRight, Nat.shiftRight_eq_div_pow]
    exact Nat.div_eq_of_lt (hpath nChild h)
  obtain ⟨r, r', hr, hr', hmatches⟩ :=
    derivePath_matches hash160 hlib hvalid hcompressed hneuter buf buf' hchildren
  exact ⟨_, r, r', hneuter, hr, hr', hmatches⟩

/-! ## The keys of a test vector -/

def vectorKey : Digest 32 := ⟨[
  0xed, 0xb2, 0xe1, 0x4f, 0x9e, 0xe7, 0x7d, 0x26, 0xdd, 0x93, 0xb4, 0xec, 0xed, 0xe8, 0xd1, 0x6e,
  0xd4, 0x08, 0xce, 0x14, 0x9b, 0x6c, 0xd8, 0x0b, 0x07, 0x15, 0xa2, 0xd9, 0x11, 0xa0, 0xaf, 0xea], rfl⟩

def vectorPubKey : Bytes := [0x03,
  0x5a, 0x78, 0x46, 0x62, 0xa4, 0xa2, 0x0a, 0x65, 0xbf, 0x6a, 0xab, 0x9a, 0xe9, 0x8a, 0x6c, 0x06,
  0x8a, 0x81, 0xc5, 0x2e, 0x4b, 0x03, 0x2c, 0x0f, 0xb5, 0x40, 0x0c, 0x70, 0x6c, 0xfc, 0xcc, 0x56]

def vectorChild : Digest 32 := ⟨[
  0x3c, 0x6c, 0xb8, 0xd0, 0xf6, 0xa2, 0x64, 0xc9, 0x1e, 0xa8, 0xb5, 0x03, 0x0f, 0xad, 0xaa, 0x8e,
  0x53, 0x8b, 0x02, 0x0f, 0x0a, 0x38, 0x74, 0x21, 0xa1, 0x2d, 0xe9, 0x31, 0x9d, 0xc9, 0x33, 0x68], rfl⟩

def vectorChildPubKey : Bytes := [0x03,
  0x50, 0x1e, 0x45, 0x4b, 0xf0, 0x07, 0x51, 0xf2, 0x4b, 0x1b, 0x48, 0x9a, 0xa9, 0x25, 0x21, 0x5d,
  0x66, 0xaf, 0x22, 0x34, 0xe3, 0x89, 0x1c, 0x3b, 0x21, 0xa5, 0x2b, 0xed, 0xb3, 0xcd, 0x71, 0x1c]

def vectorChainCode : ChainCode := ⟨[
  0x47, 0xfd, 0xac, 0xbd, 0x0f, 0x10, 0x97, 0x04, 0x3b, 0x78, 0xc6, 0x3c, 0x20, 0xc3, 0x4e, 0xf4,
  0xed, 0x9a, 0x11, 0x1d, 0x98, 0x00, 0x47, 0xad, 0x16, 0x28, 0x2c, 0x7a, 0xe6, 0x23, 0x61, 0x41], rfl⟩

/-- `Hash160` of the public key. -/
def vectorHash160 (vch : Bytes) : UInt160 :=
  if vch = vectorPubKey then
    ⟨[0x5c, 0x1b, 0xd6, 0x48, 0xed, 0x23, 0xaa, 0x5f, 0xd5, 0x0b, 0xa5, 0x2b, 0x24, 0x57, 0xc1, 0x1e,
      0x9e, 0x80, 0xa6, 0xa7], rfl⟩
  else ⟨List.replicate 20 0, length_zeros⟩

/-- A point as the multiple of the generator that it is, with the encodings of the two public keys. -/
def vectorLibrary : EcLibrary (ZMod curveOrder) where
  generator := 1
  eckeyPubkeySerialize elem compressed :=
    if compressed = false then 4 :: beBytes 64 elem.val
    else if elem = beNat vectorKey.val then vectorPubKey
    else if elem = beNat vectorChild.val then vectorChildPubKey
    else 2 :: beBytes 32 elem.val
  i2oECPublicKey point compressed :=
    if point = 0 then [0]
    else if compressed = false then 4 :: beBytes 64 point.val
    else if point = beNat vectorKey.val then vectorPubKey
    else if point = beNat vectorChild.val then vectorChildPubKey
    else 2 :: beBytes 32 point.val
  o2iECPublicKey vch :=
    if vch = vectorPubKey then (true, beNat vectorKey.val)
    else if vch = vectorChildPubKey then (true, beNat vectorChild.val)
    else (vch.length == 33 && vch.headD 0 == 2, beNat vch.tail)

theorem lawful_vectorLibrary : vectorLibrary.Lawful := by
  have : NeZero curveOrder := ⟨by decide⟩
  refine
    { order := fun m => ?_
      compressed := fun P _ => ?_
      i2o := fun P hP => if_neg hP
      i2o_zero := ?_
      o2i := fun P _ => ?_ }
  · rw [show vectorLibrary.generator = 1 from rfl, nsmul_one]
    exact ZMod.natCast_eq_zero_iff m curveOrder
  · show ∃ header x, (if P = _ then vectorPubKey else if P = _ then vectorChildPubKey else
      2 :: beBytes 32 P.val) = header :: x ∧ _
    split_ifs
    · exact ⟨_, _, rfl, .inr rfl, rfl⟩
    · exact ⟨_, _, rfl, .inr rfl, rfl⟩
    · exact ⟨_, _, rfl, .inl rfl, length_beBytes 32 P.val⟩
  · simp only [vectorLibrary, ↓reduceIte]
  · show vectorLibrary.o2iECPublicKey (if P = _ then vectorPubKey else if P = _ then vectorChildPubKey else
      2 :: beBytes 32 P.val) = _
    split_ifs with hkey hchild
    · simp only [vectorLibrary, ↓reduceIte, hkey]
    · have hne : vectorChildPubKey ≠ vectorPubKey := by decide
      simp only [vectorLibrary, if_neg hne, ↓reduceIte, hchild]
    · have hne : ∀ x : Bytes, (2 : UInt8) :: beBytes 32 P.val ≠ 3 :: x := fun x h => by
        injection h with hheader
        exact absurd hheader (by decide)
      have hval : beNat (beBytes 32 P.val) = P.val := by
        rw [beNat, beBytes, List.reverse_reverse, Framework.leNat_leBytes]
        exact Nat.mod_eq_of_lt (Nat.lt_trans (ZMod.val_lt P) (by decide))
      have hlen : (2 :: beBytes 32 P.val).length = 33 := by rw [List.length_cons, length_beBytes]
      have hne₀ : (2 :: beBytes 32 P.val) ≠ vectorPubKey := hne _
      have hne₁ : (2 :: beBytes 32 P.val) ≠ vectorChildPubKey := hne _
      simp only [vectorLibrary, if_neg hne₀, if_neg hne₁, hlen, List.headD_cons, List.tail_cons, hval,
        ZMod.natCast_zmod_val, beq_self_eq_true, Bool.and_self]

/-- The key of the vector whose child is derived, here at the last depth. -/
def vectorExtKey : CExtKey where
  nDepth := 255
  vchFingerprint := ⟨[0x34, 0x42, 0x19, 0x3e], rfl⟩
  nChild := 0x80000000
  chaincode := vectorChainCode
  key := ⟨vectorKey, true, true, fun _ => by decide⟩

def vectorBuffer (i : Nat) : HmacBuffers :=
  let buf (j : Nat) : HashBuffer := ⟨List.replicate 128 (UInt8.ofNat j), List.length_replicate⟩
  ⟨buf i, buf (i + 1), buf (i + 2)⟩

theorem derive_commutes_vector :
    ∃ pk r r', vectorExtKey.neuter vectorLibrary = some pk ∧
      derivePath (CExtKey.derive vectorLibrary vectorHash160) vectorBuffer vectorExtKey [1] = some r ∧
      derivePath (CExtPubKey.derive vectorLibrary vectorHash160) vectorBuffer pk [1] = some r' ∧
      Matches vectorLibrary r r' :=
  (derive_commutes vectorHash160 lawful_vectorLibrary).1 vectorExtKey rfl rfl vectorBuffer vectorBuffer [1]
    (List.forall_mem_singleton.mpr (by decide))

end GC.Bip32
