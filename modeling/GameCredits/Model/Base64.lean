import GameCredits.Framework.Regroup
import GameCredits.Model.Transaction

/-!
# Base64 and Base32 (utilstrencodings.cpp)

The two encoders and the two decoders differ in their alphabets and tables, in what their modes do with
the bits and in their padding (`TextEncoding`). A C string is the list of its characters before the
terminating zero, and the memory that may be read has the zero after them: what is behind it is `none`.
-/

namespace GC

open Framework (Bytes RegroupStep regroup)

/-- The parameters of an encoder and its decoder. -/
structure TextEncoding where
  alphabet : Bytes
  /-- The value of a character, or -1. -/
  table : List Int
  encodeStep : RegroupStep
  decodeStep : RegroupStep
  /-- How many `=` end a string in a mode of the encoder. -/
  nPadding : Nat → Nat
  /-- How many `=` are required in a mode of the decoder; `none` for the impossible modes. -/
  required : Nat → Option Nat

namespace TextEncoding

variable (e : TextEncoding)

def digit (d : Nat) : UInt8 := e.alphabet.getD d 0

def lookup (c : UInt8) : Int := e.table.getD c.toNat (-1)

/-- The encoder. -/
def encode (pch : Bytes) : Bytes :=
  let (ds, mode, left) := regroup e.encodeStep 0 0 (pch.map UInt8.toNat)
  ds.map e.digit ++
    if mode = 0 then [] else e.digit left :: List.replicate (e.nPadding mode) '='.toUInt8

/-- The loop of the decoder over the characters: the bytes, the mode, the bits that are left over, and
where `p` points to. -/
def decodeLoop : (mode left : Nat) → Bytes → Option (List Nat × Nat × Nat × Bytes)
  | _, _, [] => none
  | mode, left, c :: p =>
    let dec := e.lookup c
    if dec = -1 then some ([], mode, left, c :: p)
    else
      let (out, mode, left) := e.decodeStep mode left dec.toNat
      (decodeLoop mode left p).map fun (rest, mode, left, p) => (out ++ rest, mode, left, p)

/-- `p[0] != '=' || .. || p[n - 1] != '=' || table[p[n]] != -1`. -/
def paddingInvalid : (n : Nat) → Bytes → Option Bool
  | _, [] => none
  | 0, c :: _ => some (e.lookup c ≠ -1)
  | n + 1, c :: p => if c ≠ '='.toUInt8 then some true else paddingInvalid n p

/-- What `*pfInvalid` is after the loop. -/
def invalid (mode left : Nat) (p : Bytes) : Option Bool :=
  if mode = 0 then some false
  else
    match e.required mode with
    | none => some true
    | some n => if left ≠ 0 then some true else e.paddingInvalid n p

/-- The decoder: the bytes and `*pfInvalid`; `none` where it reads behind the terminating zero. -/
def decode (p : Bytes) : Option (Bytes × Bool) := do
  let (out, mode, left, p) ← e.decodeLoop 0 0 (p ++ [0])
  let pfInvalid ← e.invalid mode left p
  some (out.map UInt8.ofNat, pfInvalid)

end TextEncoding

/-- `c_str()` of a string: its characters before the first zero. -/
def cStr (str : Bytes) : Bytes := str.takeWhile (· ≠ 0)

/-! ## Base64 -/

def pbase64 : Bytes :=
  ['A', 'B', 'C', 'D', 'E', 'F', 'G', 'H', 'I', 'J', 'K', 'L', 'M', 'N', 'O', 'P', 'Q', 'R', 'S', 'T',
    'U', 'V', 'W', 'X', 'Y', 'Z',
    'a', 'b', 'c', 'd', 'e', 'f', 'g', 'h', 'i', 'j', 'k', 'l', 'm', 'n', 'o', 'p', 'q', 'r', 's', 't',
    'u', 'v', 'w', 'x', 'y', 'z',
    '0', '1', '2', '3', '4', '5', '6', '7', '8', '9', '+', '/'].map Char.toUInt8

/-- Rows of twenty, as in the source; those after the seventh have no character of the alphabet. -/
def decode64Table : List Int :=
  List.replicate 40 (-1) ++
    [-1, -1, -1, 62, -1, -1, -1, 63, 52, 53, 54, 55, 56, 57, 58, 59, 60, 61, -1, -1,
      -1, -1, -1, -1, -1, 0, 1, 2, 3, 4, 5, 6, 7, 8, 9, 10, 11, 12, 13, 14,
      15, 16, 17, 18, 19, 20, 21, 22, 23, 24, 25, -1, -1, -1, -1, -1, -1, 26, 27, 28,
      29, 30, 31, 32, 33, 34, 35, 36, 37, 38, 39, 40, 41, 42, 43, 44, 45, 46, 47, 48,
      49, 50, 51, -1, -1, -1, -1, -1, -1, -1, -1, -1, -1, -1, -1, -1, -1, -1, -1, -1] ++
    List.replicate 116 (-1)

/-- The `switch` in the loop of `EncodeBase64`. -/
def encodeStep64 : RegroupStep := fun mode left enc =>
  match mode with
  | 0 => ([enc >>> 2], 1, (enc &&& 3) <<< 4)
  | 1 => ([left ||| (enc >>> 4)], 2, (enc &&& 15) <<< 2)
  | 2 => ([left ||| (enc >>> 6), enc &&& 63], 0, left)
  | _ => ([], mode, left)

/-- The `switch` in the loop of `DecodeBase64`; a byte is what is left of an `int`. -/
def decodeStep64 : RegroupStep := fun mode left dec =>
  match mode with
  | 0 => ([], 1, dec)
  | 1 => ([((left <<< 2) ||| (dec >>> 4)) % 256], 2, dec &&& 15)
  | 2 => ([((left <<< 4) ||| (dec >>> 2)) % 256], 3, dec &&& 3)
  | 3 => ([((left <<< 6) ||| dec) % 256], 0, left)
  | _ => ([], mode, left)

def base64 : TextEncoding where
  alphabet := pbase64
  table := decode64Table
  encodeStep := encodeStep64
  decodeStep := decodeStep64
  nPadding mode := if mode = 1 then 2 else 1
  required
    | 2 => some 2
    | 3 => some 1
    | _ => none

/-- `EncodeBase64`. -/
def encodeBase64 (pch : Bytes) : Bytes := base64.encode pch

/-- `DecodeBase64`. -/
def decodeBase64 (p : Bytes) : Option (Bytes × Bool) := base64.decode p

/-! ## Base32 -/

def pbase32 : Bytes :=
  ['a', 'b', 'c', 'd', 'e', 'f', 'g', 'h', 'i', 'j', 'k', 'l', 'm', 'n', 'o', 'p', 'q', 'r', 's', 't',
    'u', 'v', 'w', 'x', 'y', 'z', '2', '3', '4', '5', '6', '7'].map Char.toUInt8

def decode32Table : List Int :=
  List.replicate 40 (-1) ++
    [-1, -1, -1, -1, -1, -1, -1, -1, -1, -1, 26, 27, 28, 29, 30, 31, -1, -1, -1, -1,
      -1, -1, -1, -1, -1, 0, 1, 2, 3, 4, 5, 6, 7, 8, 9, 10, 11, 12, 13, 14,
      15, 16, 17, 18, 19, 20, 21, 22, 23, 24, 25, -1, -1, -1, -1, -1, -1, 0, 1, 2,
      3, 4, 5, 6, 7, 8, 9, 10, 11, 12, 13, 14, 15, 16, 17, 18, 19, 20, 21, 22,
      23, 24, 25, -1, -1, -1, -1, -1, -1, -1, -1, -1, -1, -1, -1, -1, -1, -1, -1, -1] ++
    List.replicate 116 (-1)

/-- The `switch` in the loop of `EncodeBase32`. -/
def encodeStep32 : RegroupStep := fun mode left enc =>
  match mode with
  | 0 => ([enc >>> 3], 1, (enc &&& 7) <<< 2)
  | 1 => ([left ||| (enc >>> 6), (enc >>> 1) &&& 31], 2, (enc &&& 1) <<< 4)
  | 2 => ([left ||| (enc >>> 4)], 3, (enc &&& 15) <<< 1)
  | 3 => ([left ||| (enc >>> 7), (enc >>> 2) &&& 31], 4, (enc &&& 3) <<< 3)
  | 4 => ([left ||| (enc >>> 5), enc &&& 31], 0, left)
  | _ => ([], mode, left)

/-- The `switch` in the loop of `DecodeBase32`. -/
def decodeStep32 : RegroupStep := fun mode left dec =>
  match mode with
  | 0 => ([], 1, dec)
  | 1 => ([((left <<< 3) ||| (dec >>> 2)) % 256], 2, dec &&& 3)
  | 2 => ([], 3, (left <<< 5) ||| dec)
  | 3 => ([((left <<< 1) ||| (dec >>> 4)) % 256], 4, dec &&& 15)
  | 4 => ([((left <<< 4) ||| (dec >>> 1)) % 256], 5, dec &&& 1)
  | 5 => ([], 6, (left <<< 5) ||| dec)
  | 6 => ([((left <<< 2) ||| (dec >>> 3)) % 256], 7, dec &&& 7)
  | 7 => ([((left <<< 5) ||| dec) % 256], 0, left)
  | _ => ([], mode, left)

def base32 : TextEncoding where
  alphabet := pbase32
  table := decode32Table
  encodeStep := encodeStep32
  decodeStep := decodeStep32
  nPadding mode := [0, 6, 4, 3, 1].getD mode 0
  required
    | 2 => some 6
    | 4 => some 4
    | 5 => some 3
    | 7 => some 1
    | _ => none

/-- `EncodeBase32`. -/
def encodeBase32 (pch : Bytes) : Bytes := base32.encode pch

/-- `DecodeBase32`. -/
def decodeBase32 (p : Bytes) : Option (Bytes × Bool) := base32.decode p

end GC
