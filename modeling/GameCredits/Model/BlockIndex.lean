import GameCredits.Model.Transaction

/-!
# The block index (chain.h, chain.cpp, arith_uint256.cpp)

`CBlockIndex` with its status and work, and the heights that the skip list leads to. A pointer to an
index entry is its address; `node` gives the entry at an address.
-/

namespace GC

/-- The address of a `CBlockIndex`. -/
abbrev Ptr := Nat

/-! ## Status -/

def BLOCK_VALID_TREE : Nat := 2
def BLOCK_VALID_TRANSACTIONS : Nat := 3
def BLOCK_VALID_SCRIPTS : Nat := 5

/-- `nStatus`: the validity level and the flags. -/
structure BlockStatus where
  /-- The bits of `BLOCK_VALID_MASK`. -/
  valid : Nat
  haveData : Bool
  haveUndo : Bool
  failedValid : Bool
  failedChild : Bool
  deriving DecidableEq, Repr

namespace BlockStatus

/-- The status of a new entry. -/
def zero : BlockStatus := ⟨0, false, false, false, false⟩

/-- Whether a bit of `BLOCK_FAILED_MASK` is set. -/
def failed (st : BlockStatus) : Bool := st.failedValid || st.failedChild

/-- `CBlockIndex::IsValid`. -/
def isValid (st : BlockStatus) (nUpTo : Nat) : Bool := !st.failed && decide (nUpTo ≤ st.valid)

/-- `CBlockIndex::RaiseValidity`. -/
def raiseValidity (st : BlockStatus) (nUpTo : Nat) : BlockStatus :=
  if st.failed then st else { st with valid := max st.valid nUpTo }

@[simp] theorem raiseValidity_haveData (st : BlockStatus) (n : Nat) :
    (st.raiseValidity n).haveData = st.haveData := by unfold raiseValidity; split_ifs <;> rfl

@[simp] theorem raiseValidity_haveUndo (st : BlockStatus) (n : Nat) :
    (st.raiseValidity n).haveUndo = st.haveUndo := by unfold raiseValidity; split_ifs <;> rfl

@[simp] theorem raiseValidity_failedValid (st : BlockStatus) (n : Nat) :
    (st.raiseValidity n).failedValid = st.failedValid := by unfold raiseValidity; split_ifs <;> rfl

@[simp] theorem raiseValidity_failedChild (st : BlockStatus) (n : Nat) :
    (st.raiseValidity n).failedChild = st.failedChild := by unfold raiseValidity; split_ifs <;> rfl

@[simp] theorem raiseValidity_failed (st : BlockStatus) (n : Nat) :
    (st.raiseValidity n).failed = st.failed := by simp [failed]

theorem le_raiseValidity (st : BlockStatus) (n : Nat) : st.valid ≤ (st.raiseValidity n).valid := by
  unfold raiseValidity
  split_ifs
  · exact le_refl _
  · exact le_max_left _ _

end BlockStatus

/-! ## Entries -/

structure CBlockIndex where
  phashBlock : UInt256
  pprev : Option Ptr
  pskip : Option Ptr
  nHeight : Nat
  nFile : Nat
  nDataPos : Nat
  nUndoPos : Nat
  nChainWork : Nat
  nTx : Nat
  nChainTx : Nat
  nStatus : BlockStatus
  nVersion : Int
  hashMerkleRoot : UInt256
  nTime : UInt32
  nBits : UInt32
  nNonce : UInt32
  nSequenceId : Nat
  deriving DecidableEq, Repr

/-- `CBlockIndex(block)`, with the hash of the block. -/
def CBlockIndex.ofHeader (hash : UInt256) (block : CBlockHeader) : CBlockIndex where
  phashBlock := hash
  pprev := none
  pskip := none
  nHeight := 0
  nFile := 0
  nDataPos := 0
  nUndoPos := 0
  nChainWork := 0
  nTx := 0
  nChainTx := 0
  nStatus := .zero
  nVersion := block.nVersion
  hashMerkleRoot := block.hashMerkleRoot
  nTime := block.nTime
  nBits := block.nBits
  nNonce := block.nNonce
  nSequenceId := 0

/-! ## Work -/

/-- The target that `arith_uint256::SetCompact` decodes; zero where `GetBlockProof` refuses it
(negative, overflowing or zero). -/
def compactTarget (nCompact : UInt32) : Nat :=
  let nSize := nCompact.toNat >>> 24
  let nWord := nCompact.toNat &&& 0x007FFFFF
  let fNegative := nCompact.toNat &&& 0x00800000 ≠ 0
  let fOverflow := nSize > 34 ∨ nWord > 0xFF ∧ nSize > 33 ∨ nWord > 0xFFFF ∧ nSize > 32
  let bnTarget := if nSize ≤ 3 then nWord >>> (8 * (3 - nSize)) else nWord <<< (8 * (nSize - 3))
  if nWord ≠ 0 ∧ (fNegative ∨ fOverflow) then 0 else bnTarget % 2 ^ 256

/-- `GetBlockProof`: `2^256 / (bnTarget + 1)`, computed in 256 bits. -/
def getBlockProof (nBits : UInt32) : Nat :=
  let bnTarget := compactTarget nBits
  if bnTarget = 0 then 0 else ((2 ^ 256 - 1 - bnTarget) / (bnTarget + 1) + 1) % 2 ^ 256

/-! ## Order and skip heights -/

/-- `InvertLowestOne`. -/
def invertLowestOne (n : Nat) : Nat := n &&& (n - 1)

/-- `GetSkipHeight`. -/
def getSkipHeight (height : Nat) : Nat :=
  if height < 2 then 0
  else if height % 2 = 1 then invertLowestOne (invertLowestOne (height - 1)) + 1
  else invertLowestOne height

theorem invertLowestOne_lt {n : Nat} (h : 0 < n) : invertLowestOne n < n := by
  have := Nat.and_le_right (n := n) (m := n - 1)
  unfold invertLowestOne
  omega

theorem invertLowestOne_le (n : Nat) : invertLowestOne n ≤ n := Nat.and_le_left

theorem getSkipHeight_lt {n : Nat} (h : 0 < n) : getSkipHeight n < n := by
  unfold getSkipHeight
  split_ifs
  · exact h
  · have h₁ := invertLowestOne_lt (n := n - 1) (by omega)
    have h₂ := invertLowestOne_le (invertLowestOne (n - 1))
    omega
  · exact invertLowestOne_lt h

/-- `CBlockIndexWorkComparator`. -/
def workLess (node : Ptr → CBlockIndex) (pa pb : Ptr) : Bool :=
  if (node pb).nChainWork < (node pa).nChainWork then false
  else if (node pa).nChainWork < (node pb).nChainWork then true
  else if (node pa).nSequenceId < (node pb).nSequenceId then false
  else if (node pb).nSequenceId < (node pa).nSequenceId then true
  else decide (pb < pa)

end GC
