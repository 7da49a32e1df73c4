import GameCredits.Model.Sha2
import GameCredits.Model.Sign
import Mathlib.Algebra.Group.Nat.Hom

/-!
# Extended keys (key.cpp, pubkey.cpp, hash.cpp, key.h, pubkey.h, eccryptoverify.cpp, ecwrapper.cpp)

Private keys are derived with the scalars of libsecp256k1, public keys with the points of OpenSSL; what
the code calls of the points is a parameter (`EcLibrary`), as is `Hash160`. `none` is a failed
assertion. A key that is derived is another object than its parent, and is returned; the buffers that
the objects of a call begin with (`HmacBuffers`) are arguments.
-/

namespace GC.Bip32

open Framework (Bytes leBytes leNat leNat_lt leNat_leBytes length_leBytes)

/-! ## Numbers with the highest byte first -/

/-- The number with the given bytes, the highest first. -/
def beNat (bs : Bytes) : Nat := leNat bs.reverse

theorem beNat_lt (bs : Bytes) : beNat bs < 256 ^ bs.length := by
  have h := leNat_lt bs.reverse
  rwa [List.length_reverse] at h

theorem leNat_append (bs cs : Bytes) : leNat (bs ++ cs) = leNat bs + 256 ^ bs.length * leNat cs := by
  induction bs with
  | nil => simp [leNat]
  | cons b bs ih =>
    rw [List.cons_append, leNat, leNat, ih, List.length_cons, Nat.pow_succ]
    ring

theorem beNat_cons (b : UInt8) (bs : Bytes) : beNat (b :: bs) = b.toNat * 256 ^ bs.length + beNat bs := by
  rw [beNat, List.reverse_cons, leNat_append, List.length_reverse, leNat, leNat, beNat]
  ring

theorem eq_zero_of_beNat {bs : Bytes} (h : beNat bs = 0) : ∀ b ∈ bs, b = 0 := by
  induction bs with
  | nil => exact fun b hb => absurd hb List.not_mem_nil
  | cons c bs ih =>
    rw [beNat_cons, Nat.add_eq_zero_iff, Nat.mul_eq_zero, or_iff_left (Nat.pos_iff_ne_zero.mp
      (Nat.pow_pos (by decide)))] at h
    exact List.forall_mem_cons.mpr ⟨UInt8.toNat_inj.mp h.1, ih h.2⟩

theorem beNat_append_zero (bs cs : Bytes) (h : ∀ b ∈ bs, b = 0) : beNat (bs ++ cs) = beNat cs := by
  induction bs with
  | nil => rfl
  | cons b bs ih =>
    rw [List.cons_append, beNat_cons, h b List.mem_cons_self, UInt8.toNat_zero, Nat.zero_mul, Nat.zero_add,
      ih fun b hb => h b (List.mem_cons_of_mem _ hb)]

namespace eccrypto

/-- The loop of `CompareBigEndian` over what is left when the numbers have one length. -/
def compareSame : (c1 c2 : Bytes) → Int
  | x :: c1, y :: c2 => if x > y then 1 else if y > x then -1 else compareSame c1 c2
  | _, _ => 0

def compareBigEndian (c1 c2 : Bytes) : Int :=
  if (c1.take (c1.length - c2.length)).any (· ≠ 0) then 1
  else if (c2.take (c2.length - c1.length)).any (· ≠ 0) then -1
  else compareSame (c1.drop (c1.length - c2.length)) (c2.drop (c2.length - c1.length))

/-- The order of the generator minus 1. -/
def vchMaxModOrder : Bytes := [
  0xFF, 0xFF, 0xFF, 0xFF, 0xFF, 0xFF, 0xFF, 0xFF,
  0xFF, 0xFF, 0xFF, 0xFF, 0xFF, 0xFF, 0xFF, 0xFE,
  0xBA, 0xAE, 0xDC, 0xE6, 0xAF, 0x48, 0xA0, 0x3B,
  0xBF, 0xD2, 0x5E, 0x8C, 0xD0, 0x36, 0x41, 0x40]

def check (vch : Bytes) : Bool :=
  decide (0 < compareBigEndian vch []) && decide (compareBigEndian vch vchMaxModOrder ≤ 0)

theorem compareSame_pos {c1 c2 : Bytes} (h : c1.length = c2.length) :
    0 < compareSame c1 c2 ↔ beNat c2 < beNat c1 := by
  induction c1 generalizing c2 with
  | nil =>
    rw [List.length_nil] at h
    rw [List.eq_nil_of_length_eq_zero h.symm]
    simp [compareSame]
  | cons x c1 ih =>
    obtain _ | ⟨y, c2⟩ := c2
    · cases h
    have hlen : c1.length = c2.length := Nat.succ.inj h
    have hx := beNat_lt c1
    have hy := beNat_lt c2
    rw [hlen] at hx
    rw [compareSame, beNat_cons, beNat_cons, hlen]
    split_ifs with hgt hlt
    · have hstep : (y.toNat + 1) * 256 ^ c2.length ≤ x.toNat * 256 ^ c2.length :=
        Nat.mul_le_mul_right _ (UInt8.lt_iff_toNat_lt.mp hgt)
      rw [Nat.succ_mul] at hstep
      exact iff_of_true (by decide) (by omega)
    · have hstep : (x.toNat + 1) * 256 ^ c2.length ≤ y.toNat * 256 ^ c2.length :=
        Nat.mul_le_mul_right _ (UInt8.lt_iff_toNat_lt.mp hlt)
      rw [Nat.succ_mul] at hstep
      exact iff_of_false (by decide) (by omega)
    · have heq : x = y := UInt8.le_antisymm (UInt8.not_lt.mp hgt) (UInt8.not_lt.mp hlt)
      rw [ih hlen, heq]
      omega

theorem check_iff {vch : Bytes} (hlen : vch.length = 32) :
    check vch = true ↔ 0 < beNat vch ∧ beNat vch ≤ beNat vchMaxModOrder := by
  have hzero : 0 < compareBigEndian vch [] ↔ 0 < beNat vch := by
    rw [compareBigEndian, List.length_nil, Nat.sub_zero, List.take_length, List.drop_length, Nat.zero_sub,
      List.take_zero, List.drop_zero, List.any_nil, if_neg Bool.false_ne_true]
    split_ifs with hany
    · refine iff_of_true (by decide) (Nat.pos_of_ne_zero fun h => ?_)
      obtain ⟨b, hb, hne⟩ := List.any_eq_true.mp hany
      exact of_decide_eq_true hne (eq_zero_of_beNat h b hb)
    · refine iff_of_false (by decide) ?_
      have hall : ∀ b ∈ vch, b = 0 := fun b hb => by
        by_contra hne
        exact hany (List.any_eq_true.mpr ⟨b, hb, decide_eq_true hne⟩)
      have h := beNat_append_zero vch [] hall
      rw [List.append_nil] at h
      rw [h]
      decide
  have hmax : compareBigEndian vch vchMaxModOrder ≤ 0 ↔ beNat vch ≤ beNat vchMaxModOrder := by
    have hlen' : vch.length = vchMaxModOrder.length := hlen
    rw [compareBigEndian, hlen', Nat.sub_self, List.take_zero, List.take_zero, List.any_nil,
      if_neg Bool.false_ne_true, if_neg Bool.false_ne_true, List.drop_zero, List.drop_zero, ← not_lt,
      compareSame_pos hlen', not_lt]
  rw [check, Bool.and_eq_true, decide_eq_true_iff, decide_eq_true_iff, hzero, hmax]

end eccrypto

/-! ## Scalars -/

/-- The order of the generator. -/
def curveOrder : Nat := 0xFFFFFFFFFFFFFFFFFFFFFFFFFFFFFFFEBAAEDCE6AF48A03BBFD25E8CD0364141

theorem check_iff {vch : Bytes} (hlen : vch.length = 32) :
    eccrypto.check vch = true ↔ 0 < beNat vch ∧ beNat vch < curveOrder := by
  rw [eccrypto.check_iff hlen, ← Nat.lt_succ_iff]
  exact Iff.rfl

/-- `secp256k1_scalar_set_b32`: the scalar, and `overflow`. -/
def scalarSetB32 (b32 : Digest 32) : Nat × Bool :=
  (beNat b32.val % curveOrder, decide (curveOrder ≤ beNat b32.val))

/-- `secp256k1_scalar_get_b32`. -/
def scalarGetB32 (scalar : Nat) : Digest 32 :=
  ⟨beBytes 32 scalar, (List.length_reverse).trans (length_leBytes 32 scalar)⟩

/-- `secp256k1_ec_privkey_tweak_add`, with the key after it. -/
def ecPrivkeyTweakAdd (seckey tweak : Digest 32) : Bool × Digest 32 :=
  let (term, overflow) := scalarSetB32 tweak
  let (sec, _) := scalarSetB32 seckey
  let sec := (sec + term) % curveOrder
  let ret := decide (sec ≠ 0) && !overflow
  (ret, if ret then scalarGetB32 sec else seckey)

theorem beNat_scalarGetB32 {scalar : Nat} (h : scalar < curveOrder) :
    beNat (scalarGetB32 scalar).val = scalar := by
  show leNat (leBytes 32 scalar).reverse.reverse = scalar
  rw [List.reverse_reverse, leNat_leBytes]
  exact Nat.mod_eq_of_lt (Nat.lt_trans h (by decide))

/-- A key that is written is valid. -/
theorem check_ecPrivkeyTweakAdd {seckey tweak : Digest 32}
    (h : (ecPrivkeyTweakAdd seckey tweak).1 = true) :
    eccrypto.check (ecPrivkeyTweakAdd seckey tweak).2.val = true := by
  have hlt : (beNat seckey.val % curveOrder + beNat tweak.val % curveOrder) % curveOrder < curveOrder :=
    Nat.mod_lt _ (by decide)
  have hne := of_decide_eq_true (Bool.and_eq_true_iff.mp h).1
  have hkey : (ecPrivkeyTweakAdd seckey tweak).2 = scalarGetB32 _ := if_pos h
  rw [check_iff (ecPrivkeyTweakAdd seckey tweak).2.property, hkey, beNat_scalarGetB32 hlt]
  exact ⟨Nat.pos_of_ne_zero hne, hlt⟩

/-! ## Points -/

/-- What is called of the points of the curve, whose group is `Point`. -/
structure EcLibrary (Point : Type) [AddCommGroup Point] where
  generator : Point
  /-- `secp256k1_eckey_pubkey_serialize` of a point other than infinity. -/
  eckeyPubkeySerialize : (elem : Point) → (compressed : Bool) → Bytes
  /-- `i2o_ECPublicKey`. -/
  i2oECPublicKey : (point : Point) → (compressed : Bool) → Bytes
  /-- `o2i_ECPublicKey`: whether it succeeds, and the point that the key has then. -/
  o2iECPublicKey : Bytes → Bool × Point

/-- A `CPubKey`, without the bytes behind the ones in use: it is invalid if it has none. -/
def CPubKey := { vch : Bytes // parsePubKey vch = vch }

theorem parsePubKey_parsePubKey (vch : Bytes) : parsePubKey (parsePubKey vch) = parsePubKey vch := by
  have hcase : parsePubKey vch = vch ∨ parsePubKey vch = [] := ite_eq_or_eq _ _ _
  rcases hcase with h | h
  · rw [h, h]
  · rw [h]
    rfl

namespace CPubKey

/-- `Set`. -/
def set (vch : Bytes) : CPubKey := ⟨parsePubKey vch, parsePubKey_parsePubKey vch⟩

def size (pubkey : CPubKey) : Nat := pubkey.val.length

def isValid (pubkey : CPubKey) : Bool := decide (pubkey.size > 0)

end CPubKey

variable {Point : Type} [AddCommGroup Point] [DecidableEq Point]

namespace EcLibrary

variable (lib : EcLibrary Point)

/-- `secp256k1_ec_pubkey_create`: what it returns, and the key it writes. -/
def ecPubkeyCreate (seckey : Digest 32) (compressed : Bool) : Bool × Bytes :=
  let (sec, overflow) := scalarSetB32 seckey
  if overflow || decide (sec • lib.generator = 0) then (false, [])
  else (true, lib.eckeyPubkeySerialize (sec • lib.generator) compressed)

/-- `CECKey::TweakPublic`: what it returns, and the point that the key has then. -/
def tweakPublic (point : Point) (vchTweak : Digest 32) : Bool × Point :=
  let tweaked := beNat vchTweak.val • lib.generator + 1 • point
  (decide (beNat vchTweak.val < curveOrder) && decide (tweaked ≠ 0), tweaked)

/-- `CECKey::GetPubKey`. -/
def getPubKey (point : Point) (fCompressed : Bool) : Option Bytes := do
  let pubkey := lib.i2oECPublicKey point fCompressed
  guard (pubkey.length ≠ 0)
  guard (pubkey.length ≤ 65)
  some pubkey

end EcLibrary

/-! ## Private and public keys -/

abbrev ChainCode := Digest 32

/-- `nChild` with the highest byte first. -/
def childBytes (nChild : UInt32) : Bytes :=
  [((nChild >>> 24) &&& 0xFF).toUInt8, ((nChild >>> 16) &&& 0xFF).toUInt8,
    ((nChild >>> 8) &&& 0xFF).toUInt8, ((nChild >>> 0) &&& 0xFF).toUInt8]

/-- The `m` bytes from `i` on. -/
def slice {n : Nat} (code : Digest n) (i m : Nat) (h : i + m ≤ n) : Digest m :=
  ⟨(code.val.drop i).take m, by
    rw [List.length_take, List.length_drop, code.property]
    omega⟩

/-- `BIP32Hash`: the 64 bytes of `output`. -/
def bip32Hash (buf : HmacBuffers) (chainCode : ChainCode) (nChild : UInt32) (header : UInt8)
    (data : Bytes) : Option (Digest 64) := do
  let h ← CHMAC_SHA512.new buf chainCode.val
  let h ← h.writes [[header], data.take 32, childBytes nChild]
  let (output, _) ← h.finalize
  if hlen : output.length = 64 then some ⟨output, hlen⟩ else none

@[ext] structure CKey where
  vch : Digest 32
  fValid : Bool
  fCompressed : Bool
  valid : fValid = true → eccrypto.check vch.val = true

namespace CKey

/-- A new object is not valid, whatever its bytes are. -/
def new : CKey := ⟨⟨List.replicate 32 0, List.length_replicate⟩, false, false, fun h => by cases h⟩

/-- `Set`. -/
def set (key : CKey) (vch : Bytes) (fCompressedIn : Bool) : CKey :=
  if hcheck : vch.length = 32 ∧ eccrypto.check vch = true then
    ⟨⟨vch, hcheck.1⟩, true, fCompressedIn, fun _ => hcheck.2⟩
  else { key with fValid := false, valid := fun h => absurd h Bool.false_ne_true }

theorem set_vch {key : CKey} (h : key.fValid = true) (ret : CKey) :
    ret.set key.vch.val key.fCompressed = key := by
  rw [set, dif_pos ⟨key.vch.property, key.valid h⟩]
  exact CKey.ext rfl h.symm rfl

def size (key : CKey) : Nat := if key.fValid then 32 else 0

/-- `GetPubKey`. -/
def getPubKey (lib : EcLibrary Point) (key : CKey) : Option CPubKey := do
  guard key.fValid
  let (ret, vch) := lib.ecPubkeyCreate key.vch key.fCompressed
  let result := CPubKey.set vch
  guard (result.size = vch.length)
  guard ret
  guard result.isValid
  some result

/-- `Derive`: what it returns, `keyChild` and `ccChild`. -/
def derive (lib : EcLibrary Point) (buf : HmacBuffers) (key : CKey) (nChild : UInt32) (cc : ChainCode) :
    Option (Bool × CKey × ChainCode) := do
  guard key.fValid
  guard key.fCompressed
  let out ← if nChild >>> 31 = 0 then do
      let pubkey ← key.getPubKey lib
      guard (pubkey.size = 33)
      bip32Hash buf cc nChild (pubkey.val.headD 0) pubkey.val.tail
    else do
      guard (key.size = 32)
      bip32Hash buf cc nChild 0 key.vch.val
  let vch := ecPrivkeyTweakAdd key.vch (slice out 0 32 (by decide))
  some (vch.1, ⟨vch.2, vch.1, true, check_ecPrivkeyTweakAdd⟩, slice out 32 32 (by decide))

end CKey

/-- `CPubKey::Derive`: what it returns, `pubkeyChild` and `ccChild`. -/
def CPubKey.derive (lib : EcLibrary Point) (buf : HmacBuffers) (pubkey : CPubKey) (nChild : UInt32)
    (cc : ChainCode) : Option (Bool × CPubKey × ChainCode) := do
  guard pubkey.isValid
  guard (nChild >>> 31 = 0)
  guard (pubkey.size = 33)
  let out ← bip32Hash buf cc nChild (pubkey.val.headD 0) pubkey.val.tail
  let (ret, key) := lib.o2iECPublicKey pubkey.val
  let (ret', key) := lib.tweakPublic key (slice out 0 32 (by decide))
  let vch ← lib.getPubKey key true
  some (ret && ret', CPubKey.set vch, slice out 32 32 (by decide))

/-! ## Extended keys -/

@[ext] structure CExtPubKey where
  nDepth : UInt8
  vchFingerprint : Digest 4
  nChild : UInt32
  chaincode : ChainCode
  pubkey : CPubKey

@[ext] structure CExtKey where
  nDepth : UInt8
  vchFingerprint : Digest 4
  nChild : UInt32
  chaincode : ChainCode
  key : CKey

/-- `nChild` as `Decode` reads it. -/
def readChild (code : Bytes) : UInt32 :=
  ((code.getD 5 0).toUInt32 <<< 24) ||| ((code.getD 6 0).toUInt32 <<< 16) |||
    ((code.getD 7 0).toUInt32 <<< 8) ||| (code.getD 8 0).toUInt32

namespace CExtPubKey

def encode (k : CExtPubKey) : Option Bytes := do
  guard (k.pubkey.size = 33)
  some (k.nDepth :: (k.vchFingerprint.val ++ (childBytes k.nChild ++ (k.chaincode.val ++ k.pubkey.val))))

def decode (code : Digest 74) : CExtPubKey where
  nDepth := code.val.getD 0 0
  vchFingerprint := slice code 1 4 (by decide)
  nChild := readChild code.val
  chaincode := slice code 9 32 (by decide)
  pubkey := CPubKey.set (slice code 41 33 (by decide)).val

/-- `Derive`: what it returns, and `out`. -/
def derive (lib : EcLibrary Point) (hash160 : Bytes → UInt160) (buf : HmacBuffers) (k : CExtPubKey)
    (nChild : UInt32) : Option (Bool × CExtPubKey) := do
  let id := hash160 k.pubkey.val
  let (ret, pubkey, chaincode) ← k.pubkey.derive lib buf nChild k.chaincode
  some (ret, ⟨k.nDepth + 1, slice id 0 4 (by decide), nChild, chaincode, pubkey⟩)

end CExtPubKey

namespace CExtKey

def encode (k : CExtKey) : Option Bytes := do
  guard (k.key.size = 32)
  some (k.nDepth :: (k.vchFingerprint.val ++ (childBytes k.nChild ++ (k.chaincode.val ++
    (0 :: k.key.vch.val)))))

/-- `Decode` into the object `k`, whose key stays where the new one is not valid. -/
def decode (k : CExtKey) (code : Digest 74) : CExtKey where
  nDepth := code.val.getD 0 0
  vchFingerprint := slice code 1 4 (by decide)
  nChild := readChild code.val
  chaincode := slice code 9 32 (by decide)
  key := k.key.set (slice code 42 32 (by decide)).val true

/-- `Derive`: what it returns, and `out`. -/
def derive (lib : EcLibrary Point) (hash160 : Bytes → UInt160) (buf : HmacBuffers) (k : CExtKey)
    (nChild : UInt32) : Option (Bool × CExtKey) := do
  let pubkey ← k.key.getPubKey lib
  let id := hash160 pubkey.val
  let (ret, key, chaincode) ← k.key.derive lib buf nChild k.chaincode
  some (ret, ⟨k.nDepth + 1, slice id 0 4 (by decide), nChild, chaincode, key⟩)

def neuter (lib : EcLibrary Point) (k : CExtKey) : Option CExtPubKey := do
  let pubkey ← k.key.getPubKey lib
  some ⟨k.nDepth, k.vchFingerprint, k.nChild, k.chaincode, pubkey⟩

end CExtKey

/-! ## Paths -/

/-- Deriving along a path of child numbers, as long as `Derive` returns true: the last key, or what is
left of the path at the step that fails. The objects of the step `i` begin with `buf i`. -/
def derivePath {K : Type} (derive : HmacBuffers → K → UInt32 → Option (Bool × K)) (buf : Nat → HmacBuffers)
    (k : K) : List UInt32 → Option (Except (List UInt32) K)
  | [] => some (.ok k)
  | nChild :: path => do
    let (ret, out) ← derive (buf 0) k nChild
    if ret then derivePath derive (fun i => buf (i + 1)) out path else some (.error (nChild :: path))

end GC.Bip32
