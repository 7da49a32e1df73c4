import GameCredits.Framework.Ring
import GameCredits.Framework.Codec

/-!
# SHA-256, SHA-512 and HMAC-SHA-512 (crypto/sha256.cpp, sha512.cpp, hmac_sha512.cpp)

The two hash functions differ in their words, constants and lengths (`Rounds`, `Sha`); their objects
have the same functions (`Hasher`). The rounds are a loop over the constants, where the source has them
one after another with the variables renamed. A copy that does not fit the buffer is `none`. The counter
is a `size_t` of 64 bits.
-/

namespace GC

open Framework (Bytes leBytes leNat overwrite length_overwrite blocks)

/-! ## The rounds -/

/-- The variables `a` to `h`, and the words `s[0]` to `s[7]`. -/
structure Words (W : Type) where
  a : W
  b : W
  c : W
  d : W
  e : W
  f : W
  g : W
  h : W
deriving DecidableEq, Repr

/-- The functions and constants of the rounds. -/
structure Rounds (W : Type) where
  upperSigma0 : W → W
  upperSigma1 : W → W
  sigma0 : W → W
  sigma1 : W → W
  k : List W

namespace Rounds

variable {W : Type} [Add W] [AndOp W] [OrOp W] [XorOp W]

def ch (x y z : W) : W := z ^^^ (x &&& (y ^^^ z))

def maj (x y z : W) : W := (x &&& y) ||| (z &&& (x ||| y))

/-- `Round`, after which the variables are renamed. -/
def round (r : Rounds W) (v : Words W) (k w : W) : Words W :=
  let t1 := v.h + r.upperSigma1 v.e + ch v.e v.f v.g + k + w
  let t2 := r.upperSigma0 v.a + maj v.a v.b v.c
  ⟨t1 + t2, v.a, v.b, v.c, v.d + t1, v.e, v.f, v.g⟩

/-- The rounds, with the words `w0` to `w15` from the next one on: after its round a word is replaced
by the one for the round sixteen rounds later. -/
def rounds (r : Rounds W) : (k w : List W) → Words W → Words W
  | k :: ks, w0 :: w, v =>
    let w16 := do
      let w1 ← w[0]?
      let w9 ← w[8]?
      let w14 ← w[13]?
      some (w0 + r.sigma1 w14 + w9 + r.sigma0 w1)
    rounds r ks (w ++ w16.toList) (r.round v k w0)
  | _, _, v => v

/-- `Transform`, with the words of the chunk. -/
def transform (r : Rounds W) (s : Words W) (chunk : List W) : Words W :=
  let v := r.rounds r.k chunk s
  ⟨s.a + v.a, s.b + v.b, s.c + v.c, s.d + v.d, s.e + v.e, s.f + v.f, s.g + v.g, s.h + v.h⟩

end Rounds

/-- A number as `n` bytes, the highest first. -/
def beBytes (n x : Nat) : Bytes := (leBytes n x).reverse

/-- The words of `n` bytes in a chunk. -/
def readWords {W : Type} (n : Nat) (word : Nat → W) (chunk : Bytes) : List W :=
  (blocks n chunk).map fun bs => word (leNat bs.reverse)

/-! ## Streaming -/

/-- The parameters in which `CSHA256` and `CSHA512` differ. -/
structure Sha where
  /-- What `s` is. -/
  State : Type
  /-- The length of `buf`. -/
  blockSize : Nat
  blockSize_pos : 0 < blockSize
  /-- The length of `sizedesc`. -/
  sizeLen : Nat
  sizeLen_le : 8 ≤ sizeLen ∧ sizeLen ≤ blockSize
  initial : State
  transform : State → Bytes → State
  /-- The loop of `WriteBE32` or `WriteBE64` at the end of `Finalize`. -/
  output : State → Bytes

/-- `CSHA256`, `CSHA512`. -/
structure Hasher (sha : Sha) where
  s : sha.State
  buf : Bytes
  bytes : Nat
  size : buf.length = sha.blockSize

namespace Hasher

variable {sha : Sha}

/-- The constructor, which does not initialise the buffer. -/
def new (buf : Bytes) (size : buf.length = sha.blockSize) : Hasher sha := ⟨sha.initial, buf, 0, size⟩

def reset (h : Hasher sha) : Hasher sha := { h with bytes := 0, s := sha.initial }

/-- `bytes += n`. -/
def advance (h : Hasher sha) (n : Nat) : Hasher sha := { h with bytes := (h.bytes + n) % 2 ^ 64 }

/-- `memcpy(buf + pos, chunk, ..)`. -/
def copy (h : Hasher sha) (pos : Nat) (chunk : Bytes) : Option (Hasher sha) :=
  if hle : pos + chunk.length ≤ h.buf.length then
    some { h with buf := overwrite h.buf pos chunk, size := (length_overwrite hle).trans h.size }
  else none

def process (h : Hasher sha) (chunk : Bytes) : Hasher sha := { h with s := sha.transform h.s chunk }

/-- Fills the buffer, and processes it: what is left of the data, and `bufsize`. -/
def fill (h : Hasher sha) (data : Bytes) : Option (Hasher sha × Bytes × Nat) :=
  let bufsize := h.bytes % sha.blockSize
  if bufsize ≠ 0 ∧ sha.blockSize ≤ bufsize + data.length then do
    let h ← h.copy bufsize (data.take (sha.blockSize - bufsize))
    some ((h.process h.buf).advance (sha.blockSize - bufsize), data.drop (sha.blockSize - bufsize), 0)
  else some (h, data, bufsize)

/-- Processes full chunks directly from the source: what is left of the data. -/
def chunks (h : Hasher sha) (data : Bytes) : Hasher sha × Bytes :=
  if sha.blockSize ≤ data.length then
    chunks ((h.process (data.take sha.blockSize)).advance sha.blockSize) (data.drop sha.blockSize)
  else (h, data)
termination_by data.length
decreasing_by
  have := sha.blockSize_pos
  rw [List.length_drop]
  omega

def write (h : Hasher sha) (data : Bytes) : Option (Hasher sha) := do
  let (h, data, bufsize) ← h.fill data
  let (h, data) := h.chunks data
  if data ≠ [] then
    let h ← h.copy bufsize data
    some (h.advance data.length)
  else some h

/-- `pad`. -/
def pad (sha : Sha) : Bytes := 0x80 :: List.replicate (sha.blockSize - 1) 0

/-- How much of `pad` is written. -/
def padLen (h : Hasher sha) : Nat :=
  1 + (2 * sha.blockSize - sha.sizeLen - 1 - h.bytes % sha.blockSize) % sha.blockSize

def sizedesc (h : Hasher sha) : Bytes :=
  List.replicate (sha.sizeLen - 8) (0 : UInt8) ++ beBytes 8 ((h.bytes <<< 3) % 2 ^ 64)

/-- The digest and the object after `Finalize`. -/
def finalize (h : Hasher sha) : Option (Bytes × Hasher sha) := do
  let sizedesc := h.sizedesc
  let h ← h.write ((pad sha).take h.padLen)
  let h ← h.write sizedesc
  some (sha.output h.s, h)

/-- Several calls of `Write`. -/
def writes (h : Hasher sha) : List Bytes → Option (Hasher sha)
  | [] => some h
  | data :: rest => (h.write data).bind fun h => h.writes rest

/-- A call of one of the functions. -/
inductive Call
  | write (data : Bytes)
  | finalize
  | reset

/-- The digests that calls return. -/
def digests (h : Hasher sha) : List Call → Option (List Bytes)
  | [] => some []
  | .write data :: calls => (h.write data).bind fun h => h.digests calls
  | .finalize :: calls => h.finalize.bind fun (digest, h) => (h.digests calls).map (digest :: ·)
  | .reset :: calls => h.reset.digests calls

end Hasher

/-! ## SHA-256 -/

def sha256Rounds : Rounds UInt32 where
  upperSigma0 x := (x >>> 2 ||| x <<< 30) ^^^ (x >>> 13 ||| x <<< 19) ^^^ (x >>> 22 ||| x <<< 10)
  upperSigma1 x := (x >>> 6 ||| x <<< 26) ^^^ (x >>> 11 ||| x <<< 21) ^^^ (x >>> 25 ||| x <<< 7)
  sigma0 x := (x >>> 7 ||| x <<< 25) ^^^ (x >>> 18 ||| x <<< 14) ^^^ (x >>> 3)
  sigma1 x := (x >>> 17 ||| x <<< 15) ^^^ (x >>> 19 ||| x <<< 13) ^^^ (x >>> 10)
  k := [0x428a2f98, 0x71374491, 0xb5c0fbcf, 0xe9b5dba5, 0x3956c25b, 0x59f111f1, 0x923f82a4, 0xab1c5ed5,
    0xd807aa98, 0x12835b01, 0x243185be, 0x550c7dc3, 0x72be5d74, 0x80deb1fe, 0x9bdc06a7, 0xc19bf174,
    0xe49b69c1, 0xefbe4786, 0x0fc19dc6, 0x240ca1cc, 0x2de92c6f, 0x4a7484aa, 0x5cb0a9dc, 0x76f988da,
    0x983e5152, 0xa831c66d, 0xb00327c8, 0xbf597fc7, 0xc6e00bf3, 0xd5a79147, 0x06ca6351, 0x14292967,
    0x27b70a85, 0x2e1b2138, 0x4d2c6dfc, 0x53380d13, 0x650a7354, 0x766a0abb, 0x81c2c92e, 0x92722c85,
    0xa2bfe8a1, 0xa81a664b, 0xc24b8b70, 0xc76c51a3, 0xd192e819, 0xd6990624, 0xf40e3585, 0x106aa070,
    0x19a4c116, 0x1e376c08, 0x2748774c, 0x34b0bcb5, 0x391c0cb3, 0x4ed8aa4a, 0x5b9cca4f, 0x682e6ff3,
    0x748f82ee, 0x78a5636f, 0x84c87814, 0x8cc70208, 0x90befffa, 0xa4506ceb, 0xbef9a3f7, 0xc67178f2]

def sha256 : Sha where
  State := Words UInt32
  blockSize := 64
  blockSize_pos := by decide
  sizeLen := 8
  sizeLen_le := by decide
  initial := ⟨0x6a09e667, 0xbb67ae85, 0x3c6ef372, 0xa54ff53a, 0x510e527f, 0x9b05688c, 0x1f83d9ab,
    0x5be0cd19⟩
  transform s chunk := sha256Rounds.transform s (readWords 4 UInt32.ofNat chunk)
  output s := [s.a, s.b, s.c, s.d, s.e, s.f, s.g, s.h].flatMap fun x => beBytes 4 x.toNat

abbrev CSHA256 := Hasher sha256

/-! ## SHA-512 -/

def sha512Rounds : Rounds UInt64 where
  upperSigma0 x := (x >>> 28 ||| x <<< 36) ^^^ (x >>> 34 ||| x <<< 30) ^^^ (x >>> 39 ||| x <<< 25)
  upperSigma1 x := (x >>> 14 ||| x <<< 50) ^^^ (x >>> 18 ||| x <<< 46) ^^^ (x >>> 41 ||| x <<< 23)
  sigma0 x := (x >>> 1 ||| x <<< 63) ^^^ (x >>> 8 ||| x <<< 56) ^^^ (x >>> 7)
  sigma1 x := (x >>> 19 ||| x <<< 45) ^^^ (x >>> 61 ||| x <<< 3) ^^^ (x >>> 6)
  k := [0x428a2f98d728ae22, 0x7137449123ef65cd, 0xb5c0fbcfec4d3b2f, 0xe9b5dba58189dbbc,
    0x3956c25bf348b538, 0x59f111f1b605d019, 0x923f82a4af194f9b, 0xab1c5ed5da6d8118,
    0xd807aa98a3030242, 0x12835b0145706fbe, 0x243185be4ee4b28c, 0x550c7dc3d5ffb4e2,
    0x72be5d74f27b896f, 0x80deb1fe3b1696b1, 0x9bdc06a725c71235, 0xc19bf174cf692694,
    0xe49b69c19ef14ad2, 0xefbe4786384f25e3, 0x0fc19dc68b8cd5b5, 0x240ca1cc77ac9c65,
    0x2de92c6f592b0275, 0x4a7484aa6ea6e483, 0x5cb0a9dcbd41fbd4, 0x76f988da831153b5,
    0x983e5152ee66dfab, 0xa831c66d2db43210, 0xb00327c898fb213f, 0xbf597fc7beef0ee4,
    0xc6e00bf33da88fc2, 0xd5a79147930aa725, 0x06ca6351e003826f, 0x142929670a0e6e70,
    0x27b70a8546d22ffc, 0x2e1b21385c26c926, 0x4d2c6dfc5ac42aed, 0x53380d139d95b3df,
    0x650a73548baf63de, 0x766a0abb3c77b2a8, 0x81c2c92e47edaee6, 0x92722c851482353b,
    0xa2bfe8a14cf10364, 0xa81a664bbc423001, 0xc24b8b70d0f89791, 0xc76c51a30654be30,
    0xd192e819d6ef5218, 0xd69906245565a910, 0xf40e35855771202a, 0x106aa07032bbd1b8,
    0x19a4c116b8d2d0c8, 0x1e376c085141ab53, 0x2748774cdf8eeb99, 0x34b0bcb5e19b48a8,
    0x391c0cb3c5c95a63, 0x4ed8aa4ae3418acb, 0x5b9cca4f7763e373, 0x682e6ff3d6b2b8a3,
    0x748f82ee5defb2fc, 0x78a5636f43172f60, 0x84c87814a1f0ab72, 0x8cc702081a6439ec,
    0x90befffa23631e28, 0xa4506cebde82bde9, 0xbef9a3f7b2c67915, 0xc67178f2e372532b,
    0xca273eceea26619c, 0xd186b8c721c0c207, 0xeada7dd6cde0eb1e, 0xf57d4f7fee6ed178,
    0x06f067aa72176fba, 0x0a637dc5a2c898a6, 0x113f9804bef90dae, 0x1b710b35131c471b,
    0x28db77f523047d84, 0x32caab7b40c72493, 0x3c9ebe0a15c9bebc, 0x431d67c49c100d4c,
    0x4cc5d4becb3e42b6, 0x597f299cfc657e2a, 0x5fcb6fab3ad6faec, 0x6c44198c4a475817]

def sha512 : Sha where
  State := Words UInt64
  blockSize := 128
  blockSize_pos := by decide
  sizeLen := 16
  sizeLen_le := by decide
  initial := ⟨0x6a09e667f3bcc908, 0xbb67ae8584caa73b, 0x3c6ef372fe94f82b, 0xa54ff53a5f1d36f1,
    0x510e527fade682d1, 0x9b05688c2b3e6c1f, 0x1f83d9abfb41bd6b, 0x5be0cd19137e2179⟩
  transform s chunk := sha512Rounds.transform s (readWords 8 UInt64.ofNat chunk)
  output s := [s.a, s.b, s.c, s.d, s.e, s.f, s.g, s.h].flatMap fun x => beBytes 8 x.toNat

abbrev CSHA512 := Hasher sha512

/-! ## HMAC-SHA-512 -/

/-- What the buffer of a hash object holds before it is used. -/
abbrev HashBuffer := { buf : Bytes // buf.length = sha512.blockSize }

/-- The buffers of the object that hashes a long key, and of the two members. -/
structure HmacBuffers where
  key : HashBuffer
  outer : HashBuffer
  inner : HashBuffer

structure CHMAC_SHA512 where
  outer : CSHA512
  inner : CSHA512

namespace CHMAC_SHA512

/-- `rkey` before the loops: the key filled up with zeros, or its digest. -/
def rkey (buf : HashBuffer) (key : Bytes) : Option Bytes :=
  if key.length ≤ 128 then some (key ++ List.replicate (128 - key.length) (0 : UInt8))
  else do
    let h ← (Hasher.new buf.val buf.property : CSHA512).write key
    let (digest, _) ← h.finalize
    some (digest ++ List.replicate 64 (0 : UInt8))

/-- The constructor; the buffers of the objects are not initialised. -/
def new (buf : HmacBuffers) (key : Bytes) : Option CHMAC_SHA512 := do
  let rkey ← rkey buf.key key
  let rkey := rkey.map (· ^^^ 0x5c)
  let outer ← (Hasher.new buf.outer.val buf.outer.property : CSHA512).write rkey
  let rkey := rkey.map (· ^^^ (0x5c ^^^ 0x36))
  let inner ← (Hasher.new buf.inner.val buf.inner.property : CSHA512).write rkey
  some ⟨outer, inner⟩

def write (h : CHMAC_SHA512) (data : Bytes) : Option CHMAC_SHA512 := do
  let inner ← h.inner.write data
  some { h with inner }

/-- Several calls of `Write`. -/
def writes (h : CHMAC_SHA512) : List Bytes → Option CHMAC_SHA512
  | [] => some h
  | data :: rest => (h.write data).bind fun h => h.writes rest

/-- The digest and the object after `Finalize`. -/
def finalize (h : CHMAC_SHA512) : Option (Bytes × CHMAC_SHA512) := do
  let (temp, inner) ← h.inner.finalize
  let outer ← h.outer.write temp
  let (hash, outer) ← outer.finalize
  some (hash, ⟨outer, inner⟩)

end CHMAC_SHA512

end GC
