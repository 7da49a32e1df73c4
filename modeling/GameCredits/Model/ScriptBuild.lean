import GameCredits.Model.Interpreter

/-!
# Building and reading scripts (script/script.h, main.cpp)

`CScript::operator<<` for data, numbers and opcodes, and `GetOp2` with its position in the script,
where a read outside of the script has no result. The rule of `ContextualCheckBlock` about the height
of a block is the one place where a script that is built is compared with one from outside.
-/

namespace GC

open Framework (Bytes leNat)

/-- `CScript::push_int64`. -/
def pushInt (n : Int) : CScript :=
  if n = -1 ∨ 1 ≤ n ∧ n ≤ 16 then [UInt8.ofNat (n + 0x50).toNat]
  else if n = 0 then [0]
  else pushData (scriptNumBytes n)

/-- What is appended with `operator<<`: a vector of bytes, an `int64_t` or an `opcodetype`. -/
inductive Piece where
  | data (b : Bytes)
  | number (n : Int)
  | opcode (op : UInt8)

/-- The bytes that `operator<<` appends. -/
def Piece.bytes : Piece → CScript
  | .data b => pushData b
  | .number n => pushInt n
  | .opcode op => [op]

/-- `CScript() << piece << piece << ...`. -/
def buildScript (pieces : List Piece) : CScript :=
  pieces.foldl (fun script piece => script ++ piece.bytes) []

/-- The loop `while (script.GetOp(pc, opcode, vch))` over at most `len` opcodes: what it gets, and
where it ends. -/
def getOps : (len : Nat) → Bytes → List (UInt8 × Bytes) × Bytes
  | 0, pc => ([], pc)
  | len + 1, pc =>
    match getOp pc with
    | none => ([], pc)
    | some (opcode, vch, pc') => ((opcode, vch) :: (getOps len pc').1, (getOps len pc').2)

/-! ## Positions in the script -/

/-- What `GetOp2` returns, and what it leaves in `pc`, `opcodeRet` and `*pvchRet`. -/
structure GetOpRet where
  fRet : Bool
  pc : Nat
  opcodeRet : UInt8 := OP_INVALIDOPCODE
  vchRet : Bytes := []
deriving DecidableEq

/-- `nSize` bytes from `pc` on, where they are in the script. -/
def readAt (script : CScript) (pc nSize : Nat) : Option Bytes :=
  if pc + nSize ≤ script.length then some ((script.drop pc).take nSize) else none

/-- The end of `GetOp2`: the operand of `nSize` bytes. -/
def getOperand (script : CScript) (pc : Nat) (opcode : UInt8) (nSize : Nat) : Option GetOpRet :=
  let left : Int := script.length - pc
  if left < 0 ∨ (left % 2 ^ 32).toNat < nSize then some { fRet := false, pc }
  else do
    let vch ← readAt script pc nSize
    some ⟨true, pc + nSize, opcode, vch⟩

/-- `OP_PUSHDATA1`, `OP_PUSHDATA2` and `OP_PUSHDATA4`, with `k` bytes for the size. -/
def getSized (script : CScript) (pc : Nat) (opcode : UInt8) (k : Nat) : Option GetOpRet :=
  if (script.length : Int) - pc < k then some { fRet := false, pc }
  else do
    let size ← readAt script pc k
    getOperand script (pc + k) opcode (leNat size)

/-- `CScript::GetOp2`. -/
def getOp2 (script : CScript) (pc : Nat) : Option GetOpRet :=
  if script.length ≤ pc then some { fRet := false, pc }
  else if (script.length : Int) - pc < 1 then some { fRet := false, pc }
  else do
    let opcode ← script[pc]?
    let pc := pc + 1
    if opcode.toNat ≤ OP_PUSHDATA4 then
      if opcode.toNat < OP_PUSHDATA1 then getOperand script pc opcode opcode.toNat
      else if opcode.toNat = OP_PUSHDATA1 then getSized script pc opcode 1
      else if opcode.toNat = OP_PUSHDATA2 then getSized script pc opcode 2
      else if opcode.toNat = OP_PUSHDATA4 then getSized script pc opcode 4
      else getOperand script pc opcode 0
    else some ⟨true, pc, opcode, []⟩

/-! ## The height in the coinbase -/

/-- The rule of `ContextualCheckBlock`: the coinbase starts with the height of the block. -/
def coinbaseHeightOk (nHeight : Int) (scriptSig : CScript) : Bool :=
  let expect := buildScript [.number nHeight]
  !(decide (scriptSig.length < expect.length) || !(scriptSig.take expect.length == expect))

end GC
