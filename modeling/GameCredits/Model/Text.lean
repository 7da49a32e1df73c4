import GameCredits.Framework.Radix
import GameCredits.Framework.Codec
import GameCredits.Model.Transaction
import Mathlib.Data.List.DropRight

/-!
# Numbers as text (base58.cpp, utilmoneystr.cpp)

`EncodeBase58` and `DecodeBase58` on their buffers of fixed size, `FormatMoney` and `ParseMoney`. A
C string is the list of its characters before the terminating zero; a vector of digits is the list
of them, the highest first, as in the source. A failed assertion and an overflow are errors of their
own, so that they can be told from a string that is refused.
-/

namespace GC

open Framework

/-- `isspace`, in the C locale. -/
def isspace (c : UInt8) : Bool := c == 0x20 || (0x09 ≤ c && c ≤ 0x0D)

/-! ## Base58 -/

/-- All alphanumeric characters except for `0`, `I`, `O`, and `l`. -/
def pszBase58 : Bytes :=
  ['1', '2', '3', '4', '5', '6', '7', '8', '9',
    'A', 'B', 'C', 'D', 'E', 'F', 'G', 'H', 'J', 'K', 'L', 'M', 'N', 'P', 'Q', 'R', 'S', 'T', 'U',
    'V', 'W', 'X', 'Y', 'Z',
    'a', 'b', 'c', 'd', 'e', 'f', 'g', 'h', 'i', 'j', 'k', 'm', 'n', 'o', 'p', 'q', 'r', 's', 't',
    'u', 'v', 'w', 'x', 'y', 'z'].map Char.toUInt8

/-- How `EncodeBase58` and `DecodeBase58` end without a result. -/
inductive Base58Error
  | assertFailed
  | overflow
  | refused
deriving DecidableEq

/-- `int zeroes`, counted up to `n`. -/
def countZeroes (n : Nat) : Except Base58Error Nat := if n < 2 ^ 31 then .ok n else .error .overflow

/-- The loop of `EncodeBase58` over the bytes: `b58 = b58 * 256 + ch`, and the assertion that no
carry is left. -/
def encodeBytes : Bytes → List Nat → Except Base58Error (List Nat)
  | [], b58 => .ok b58
  | ch :: vch, b58 =>
    match mulAdd 58 256 ch.toNat b58 with
    | (b58, carry) => if carry = 0 then encodeBytes vch b58 else .error .assertFailed

/-- `EncodeBase58`. -/
def encodeBase58 (vch : Bytes) : Except Base58Error Bytes := do
  let zeroes ← countZeroes (vch.takeWhile (· == 0)).length
  let vch := vch.dropWhile (· == 0)
  let b58 ← encodeBytes vch (List.replicate (vch.length * 138 / 100 + 1) 0)
  return List.replicate zeroes '1'.toUInt8 ++ (strip b58).map fun d => pszBase58.getD d 0

/-- The loop of `DecodeBase58` up to white space or the end: `b256 = b256 * 58 + ch`, and the
assertion that no carry is left. The index in `pszBase58` is what `strchr` finds. -/
def decodeChars : Bytes → List Nat → Except Base58Error (List Nat × Bytes)
  | [], b256 => .ok (b256, [])
  | c :: psz, b256 =>
    if isspace c then .ok (b256, c :: psz)
    else
      match pszBase58.findIdx? (· == c) with
      | none => .error .refused
      | some ch =>
        match mulAdd 256 58 ch b256 with
        | (b256, carry) => if carry = 0 then decodeChars psz b256 else .error .assertFailed

/-- `DecodeBase58`. -/
def decodeBase58 (psz : Bytes) : Except Base58Error Bytes := do
  let psz := psz.dropWhile isspace
  let zeroes ← countZeroes (psz.takeWhile (· == '1'.toUInt8)).length
  let psz := psz.dropWhile (· == '1'.toUInt8)
  let (b256, psz) ← decodeChars psz (List.replicate (psz.length * 733 / 1000 + 1) 0)
  if psz.dropWhile isspace ≠ [] then .error .refused
  else return List.replicate zeroes 0 ++ (strip b256).map UInt8.ofNat

/-- A string without its leading and trailing white space. -/
def trimSpace (psz : Bytes) : Bytes := (psz.dropWhile isspace).rdropWhile isspace

/-! ## Amounts -/

/-- `isdigit`. -/
def isdigit (c : UInt8) : Bool := 0x30 ≤ c && c ≤ 0x39

/-- A decimal digit as a character. -/
def digitChar (d : Nat) : UInt8 := UInt8.ofNat (48 + d)

/-- A number as `%d` prints it. -/
def printDecimal (n : Nat) : Bytes :=
  if n = 0 then [digitChar 0] else (Nat.digits 10 n).reverse.map digitChar

/-- How many zeros `FormatMoney` trims, counted from the last character backwards: a zero goes where
the second character before it is a digit. -/
def countTrim : Bytes → Nat
  | c :: c₁ :: c₂ :: str =>
    if c == digitChar 0 && isdigit c₂ then countTrim (c₁ :: c₂ :: str) + 1 else 0
  | _ => 0

/-- `FormatMoney`; `%08d` fills up with zeros. The least `int64_t`, which has no negative, is left
out. -/
def formatMoney (n : Int) (fPlus : Bool) : Bytes :=
  let n_abs := if 0 < n then n else -n
  let quotient := (n_abs / COIN).toNat
  let remainder := (n_abs % COIN).toNat
  let str := printDecimal quotient ++ '.'.toUInt8 :: (printDecimal remainder).leftpad 8 (digitChar 0)
  let str := str.take (str.length - countTrim str.reverse)
  if n < 0 then '-'.toUInt8 :: str
  else if fPlus && decide (0 < n) then '+'.toUInt8 :: str
  else str

/-- How `ParseMoney` ends without a result. -/
inductive MoneyError
  | overflow
  | refused
deriving DecidableEq

/-- A result of `int64_t` arithmetic. -/
def checkedInt64 (x : Int) : Except MoneyError Int :=
  if -2 ^ 63 ≤ x ∧ x < 2 ^ 63 then .ok x else .error .overflow

/-- `*p - '0'`. -/
def digitOf (c : UInt8) : Int := (c.toNat : Int) - 48

/-- The loop of `ParseMoney` after the point: `nUnits`, and what follows. -/
def parseDecimals : Bytes → (nUnits nMult : Int) → Except MoneyError (Int × Bytes)
  | [], nUnits, _ => .ok (nUnits, [])
  | c :: p, nUnits, nMult =>
    if isdigit c ∧ 0 < nMult then do
      let nUnits ← checkedInt64 (nUnits + (← checkedInt64 (nMult * digitOf c)))
      parseDecimals p nUnits (nMult / 10)
    else .ok (nUnits, c :: p)

/-- The first loop of `ParseMoney`: `strWhole`, `nUnits`, and what follows. -/
def parseWhole : Bytes → (strWhole : Bytes) → Except MoneyError (Bytes × Int × Bytes)
  | [], strWhole => .ok (strWhole, 0, [])
  | c :: p, strWhole =>
    if c == '.'.toUInt8 then do
      let (nUnits, p) ← parseDecimals p 0 (CENT * 10)
      return (strWhole, nUnits, p)
    else if isspace c then .ok (strWhole, 0, c :: p)
    else if !isdigit c then .error .refused
    else parseWhole p (strWhole ++ [c])

/-- `strtoll` to the base 10 without its end pointer: white space, a sign, and the digits, with the
result kept in range. -/
def atoi64 (str : Bytes) : Int :=
  let str := str.dropWhile isspace
  let negative := str.head? == some '-'.toUInt8
  let str := if negative || str.head? == some '+'.toUInt8 then str.tail else str
  let n := (str.takeWhile isdigit).foldl (fun n c => 10 * n + digitOf c) 0
  max (-2 ^ 63) (min (2 ^ 63 - 1) (if negative then -n else n))

/-- `ParseMoney`. -/
def parseMoney (pszIn : Bytes) : Except MoneyError Int := do
  let (strWhole, nUnits, p) ← parseWhole (pszIn.dropWhile isspace) []
  if p.any (!isspace ·) then .error .refused
  else if 10 < strWhole.length then .error .refused
  else if nUnits < 0 ∨ COIN < nUnits then .error .refused
  else
    let nWhole := atoi64 strWhole
    checkedInt64 ((← checkedInt64 (nWhole * COIN)) + nUnits)

end GC
