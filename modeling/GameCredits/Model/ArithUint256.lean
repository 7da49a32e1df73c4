import Mathlib.Data.List.Basic
import Mathlib.Data.Nat.Digits.Defs

/-!
# 256-bit integers (arith_uint256.cpp, arith_uint256.h)

`base_uint` with its limbs of 32 bits. An operator that changes `*this` returns the new one; its
operands are distinct objects.
-/

namespace GC

/-- `base_uint`: the limbs, the lowest one first. -/
structure BaseUint (WIDTH : Nat) where
  pn : List UInt32
  length_pn : pn.length = WIDTH
  deriving DecidableEq

/-- `arith_uint256`. -/
abbrev ArithUint256 := BaseUint 8

/-- The digits that a carry loop keeps: `n` is the carry and a term, its lower half is the limb and
its upper half the next carry. -/
def carryLoop : UInt64 → List UInt64 → List UInt32
  | _, [] => []
  | carry, t :: ts =>
    let n := carry + t
    n.toUInt32 :: carryLoop (n >>> 32) ts

@[simp] theorem length_carryLoop (carry : UInt64) (ts : List UInt64) :
    (carryLoop carry ts).length = ts.length := by
  induction ts generalizing carry with
  | nil => rfl
  | cons t ts ih => rw [carryLoop, List.length_cons, ih, List.length_cons]

/-- The loop of `operator++`, which goes on while a limb wraps. -/
def incrementLoop : List UInt32 → List UInt32
  | [] => []
  | x :: pn => (x + 1) :: if x + 1 = 0 then incrementLoop pn else pn

@[simp] theorem length_incrementLoop (pn : List UInt32) : (incrementLoop pn).length = pn.length := by
  induction pn with
  | nil => rfl
  | cons x pn ih =>
    rw [incrementLoop, List.length_cons, List.length_cons]
    split_ifs
    · rw [ih]
    · rfl

/-- The loop of `operator--`. -/
def decrementLoop : List UInt32 → List UInt32
  | [] => []
  | x :: pn => (x - 1) :: if x - 1 = 0xffffffff then decrementLoop pn else pn

@[simp] theorem length_decrementLoop (pn : List UInt32) : (decrementLoop pn).length = pn.length := by
  induction pn with
  | nil => rfl
  | cons x pn ih =>
    rw [decrementLoop, List.length_cons, List.length_cons]
    split_ifs
    · rw [ih]
    · rfl

/-- The loop of `CompareTo` over the pairs of limbs, the highest one first. -/
def compareLoop : List (UInt32 × UInt32) → Int
  | [] => 0
  | (x, y) :: rest => if x < y then -1 else if x > y then 1 else compareLoop rest

/-- The loop of `bits` in a limb that is not zero, from the bit `bits` down to 1. -/
def limbBits (x : UInt32) : Nat → Nat
  | 0 => 1
  | bits + 1 => if x &&& 1 <<< UInt32.ofNat (bits + 1) ≠ 0 then bits + 2 else limbBits x bits

/-- The loop of `bits` over the limbs, the highest one first; `pos` is how many are left. -/
def bitsLoop : List UInt32 → Nat
  | [] => 0
  | x :: rest => if x ≠ 0 then 32 * rest.length + limbBits x 31 else bitsLoop rest

namespace BaseUint

variable {WIDTH : Nat}

/-- The number. -/
def value (a : BaseUint WIDTH) : Nat := Nat.ofDigits (2 ^ 32) (a.pn.map UInt32.toNat)

/-- `*this = 0`. -/
def zero : BaseUint WIDTH := ⟨List.replicate WIDTH 0, List.length_replicate⟩

/-- A limb that is read at a place below `WIDTH`. -/
def limb (a : BaseUint WIDTH) (i : Nat) : UInt32 := a.pn.getD i 0

/-- `pn[i] |= x`. -/
def orAt (a : BaseUint WIDTH) (i : Nat) (x : UInt32) : BaseUint WIDTH :=
  ⟨a.pn.modify i (· ||| x), by rw [List.length_modify, a.length_pn]⟩

/-- `operator~`. -/
def complement (a : BaseUint WIDTH) : BaseUint WIDTH :=
  ⟨a.pn.map (~~~ ·), by rw [List.length_map, a.length_pn]⟩

/-- The prefix `operator++`. -/
def preIncrement (a : BaseUint WIDTH) : BaseUint WIDTH :=
  ⟨incrementLoop a.pn, by rw [length_incrementLoop, a.length_pn]⟩

/-- The postfix `operator++`: what it returns, and `*this`. -/
def postIncrement (a : BaseUint WIDTH) : BaseUint WIDTH × BaseUint WIDTH := (a, a.preIncrement)

/-- The prefix `operator--`. -/
def preDecrement (a : BaseUint WIDTH) : BaseUint WIDTH :=
  ⟨decrementLoop a.pn, by rw [length_decrementLoop, a.length_pn]⟩

/-- The postfix `operator--`: what it returns, and `*this`. -/
def postDecrement (a : BaseUint WIDTH) : BaseUint WIDTH × BaseUint WIDTH := (a, a.preDecrement)

/-- The unary `operator-`. -/
def neg (a : BaseUint WIDTH) : BaseUint WIDTH := a.complement.postIncrement.2

/-- `operator+=`. -/
def addAssign (a b : BaseUint WIDTH) : BaseUint WIDTH :=
  ⟨carryLoop 0 (List.zipWith (fun x y => x.toUInt64 + y.toUInt64) a.pn b.pn), by
    rw [length_carryLoop, List.length_zipWith, a.length_pn, b.length_pn, Nat.min_self]⟩

/-- `operator-=`. -/
def subAssign (a b : BaseUint WIDTH) : BaseUint WIDTH := a.addAssign b.neg

/-- `operator*=(uint32_t)`. -/
def mulAssignWord (a : BaseUint WIDTH) (b32 : UInt32) : BaseUint WIDTH :=
  ⟨carryLoop 0 (a.pn.map fun x => b32.toUInt64 * x.toUInt64), by
    rw [length_carryLoop, List.length_map, a.length_pn]⟩

/-- A row of `operator*=`: the limb `j` of the factor times the other one, from the place `j` on. -/
def mulRow (limb : UInt32) (b : BaseUint WIDTH) (j : Nat) (self : BaseUint WIDTH) : BaseUint WIDTH :=
  ⟨self.pn.take j ++ carryLoop 0
      (List.zipWith (fun x y => x.toUInt64 + limb.toUInt64 * y.toUInt64) (self.pn.drop j) b.pn), by
    rw [List.length_append, length_carryLoop, List.length_zipWith, List.length_take, List.length_drop,
      self.length_pn, b.length_pn]
    omega⟩

/-- The first rows of `operator*=`. -/
def mulRows (a b : BaseUint WIDTH) (n : Nat) : BaseUint WIDTH :=
  (List.range n).foldl (fun self j => mulRow (a.limb j) b j self) zero

/-- `operator*=`. -/
def mulAssign (a b : BaseUint WIDTH) : BaseUint WIDTH := mulRows a b WIDTH

/-- A step of `operator<<=`. -/
def shiftLeftStep (a : BaseUint WIDTH) (k shift : Nat) (self : BaseUint WIDTH) (i : Nat) :
    BaseUint WIDTH :=
  let self := if i + k + 1 < WIDTH ∧ shift ≠ 0 then
      self.orAt (i + k + 1) (a.limb i >>> UInt32.ofNat (32 - shift))
    else self
  if i + k < WIDTH then self.orAt (i + k) (a.limb i <<< UInt32.ofNat shift) else self

/-- `operator<<=`. -/
def shiftLeftAssign (a : BaseUint WIDTH) (shift : Nat) : BaseUint WIDTH :=
  (List.range WIDTH).foldl (a.shiftLeftStep (shift / 32) (shift % 32)) zero

/-- A step of `operator>>=`. -/
def shiftRightStep (a : BaseUint WIDTH) (k shift : Nat) (self : BaseUint WIDTH) (i : Nat) :
    BaseUint WIDTH :=
  let self := if k + 1 ≤ i ∧ shift ≠ 0 then
      self.orAt (i - k - 1) (a.limb i <<< UInt32.ofNat (32 - shift))
    else self
  if k ≤ i then self.orAt (i - k) (a.limb i >>> UInt32.ofNat shift) else self

/-- `operator>>=`. -/
def shiftRightAssign (a : BaseUint WIDTH) (shift : Nat) : BaseUint WIDTH :=
  (List.range WIDTH).foldl (a.shiftRightStep (shift / 32) (shift % 32)) zero

/-- `CompareTo`. -/
def compareTo (a b : BaseUint WIDTH) : Int := compareLoop (a.pn.zip b.pn).reverse

/-- `bits`. -/
def bits (a : BaseUint WIDTH) : Nat := bitsLoop a.pn.reverse

/-- The loop of `operator/=`, which is left when `shift` is below zero. -/
def divLoop : Nat → BaseUint WIDTH → BaseUint WIDTH → BaseUint WIDTH → BaseUint WIDTH
  | 0, self, _, _ => self
  | shift + 1, self, num, div =>
    if num.compareTo div ≥ 0 then
      divLoop shift (self.orAt (shift / 32) (1 <<< UInt32.ofNat (shift &&& 31))) (num.subAssign div)
        (div.shiftRightAssign 1)
    else divLoop shift self num (div.shiftRightAssign 1)

/-- The `uint_error` that is thrown, with what is left in `*this`. -/
structure UintError (WIDTH : Nat) where
  what : String
  self : BaseUint WIDTH
  deriving DecidableEq

/-- `operator/=`. -/
def divAssign (a b : BaseUint WIDTH) : Except (UintError WIDTH) (BaseUint WIDTH) :=
  let num_bits := a.bits
  let div_bits := b.bits
  if div_bits = 0 then .error ⟨"Division by zero", zero⟩
  else if div_bits > num_bits then .ok zero
  else
    let shift := num_bits - div_bits
    .ok (divLoop (shift + 1) zero a (b.shiftLeftAssign shift))

end BaseUint

end GC
