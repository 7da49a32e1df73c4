import GameCredits.Framework.Memo
import GameCredits.Model.Chain
import GameCredits.Model.Merkle
import GameCredits.Model.Sign
import GameCredits.Model.Validation

/-!
# The wallet's amounts (wallet/wallet.h, wallet/wallet.cpp)

What the wallet counts as debit, credit and change of a transaction, and the caches of these amounts in
its own transactions. A getter is a program over the caches of the transaction that it is called on, so
that an exception leaves the caches as they are.

The wallet's transactions are bound to it: `pwallet` is not null. `fMerkleVerified` only saves a check
that has passed (`getDepthInMainChainINTERNAL_verified`), so that it is read and never set here.
-/

namespace GC

open Framework (Bytes Remembered Memo)

/-! ## Transactions -/

structure CMerkleTx extends CTransaction where
  hashBlock : UInt256
  vMerkleBranch : List UInt256
  nIndex : Int
  fMerkleVerified : Bool

/-- The amounts that a `CWalletTx` has a flag `f…Cached` and a value `n…Cached` for. -/
inductive AmountCache where
  | debit | credit | immatureCredit | availableCredit
  | watchDebit | watchCredit | immatureWatchCredit | availableWatchCredit
  | change
  deriving DecidableEq, Repr

structure CWalletTx extends CMerkleTx where
  cached : AmountCache → Remembered Int

/-- The constructor of `CWalletTx`, which calls `Init`. -/
def CWalletTx.ofMerkleTx (txIn : CMerkleTx) : CWalletTx := { txIn with cached := fun _ => ⟨false, 0⟩ }

/-- `CWalletTx::MarkDirty`. -/
def CWalletTx.markDirty (wtx : CWalletTx) : CWalletTx :=
  { wtx with
    cached := Memo.forget
      [.credit, .availableCredit, .watchDebit, .watchCredit, .availableWatchCredit,
        .immatureWatchCredit, .debit, .change] wtx.cached }

/-! ## The wallet -/

/-- What amounts depend on: the keys, scripts and addresses of a `CWallet`, its transactions and what
they spend, with the active chain and the transactions in the pool. -/
structure CWallet where
  /-- Double SHA-256. -/
  hash : Bytes → UInt256
  hash160 : Bytes → UInt160
  options : SolverOptions
  keystore : KeyStore hash160
  /-- The redeem scripts of the store go no deeper. -/
  depth : Nat
  /-- The keys of the map. -/
  mapAddressBook : List Destination
  mapWallet : UInt256 → Option CWalletTx
  mapTxSpends : COutPoint → List UInt256
  node : Ptr → CBlockIndex
  mapBlockIndex : UInt256 → Option Ptr
  chainActive : CChain
  /-- The transactions in the memory pool. -/
  mempool : List UInt256

/-- `isminefilter`, a mask of the types of `IsMine`. -/
abbrev IsMineFilter := UInt8

def ISMINE_WATCH_ONLY : IsMineFilter := 1
def ISMINE_SPENDABLE : IsMineFilter := 2
def ISMINE_ALL : IsMineFilter := 3

def IsMineType.mask : IsMineType → IsMineFilter
  | .NO => 0
  | .WATCH_ONLY => ISMINE_WATCH_ONLY
  | .SPENDABLE => ISMINE_SPENDABLE

namespace CWallet

variable (w : CWallet)

/-! ## Depth in the chain -/

/-- `CMerkleTx::GetDepthInMainChainINTERNAL`. -/
def getDepthInMainChainINTERNAL (tx : CMerkleTx) : Int :=
  if tx.hashBlock = 0 ∨ tx.nIndex = -1 then 0
  else
    match w.mapBlockIndex tx.hashBlock with
    | none => 0
    | some pindex =>
      if !w.chainActive.contains w.node pindex then 0
      else if !tx.fMerkleVerified &&
          checkMerkleBranch w.hash (tx.getHash w.hash) tx.vMerkleBranch tx.nIndex !=
            (w.node pindex).hashMerkleRoot then 0
      else w.chainActive.height - (w.node pindex).nHeight + 1

/-- `CMerkleTx::GetDepthInMainChain`. -/
def getDepthInMainChain (tx : CMerkleTx) : Int :=
  let nResult := w.getDepthInMainChainINTERNAL tx
  if nResult = 0 ∧ tx.getHash w.hash ∉ w.mempool then -1 else nResult

/-- `CMerkleTx::IsInMainChain`. -/
def isInMainChain (tx : CMerkleTx) : Bool := decide (0 < w.getDepthInMainChainINTERNAL tx)

/-- `CMerkleTx::GetBlocksToMaturity`. -/
def getBlocksToMaturity (tx : CMerkleTx) : Int :=
  if !tx.isCoinBase then 0 else max 0 (COINBASE_MATURITY + 1 - w.getDepthInMainChain tx)

/-- `CWallet::IsSpent`. -/
def isSpent (hash : UInt256) (n : Nat) : Bool :=
  (w.mapTxSpends ⟨hash, UInt32.ofNat n⟩).any fun wtxid =>
    match w.mapWallet wtxid with
    | none => false
    | some wtx => decide (0 ≤ w.getDepthInMainChain wtx.toCMerkleTx)

/-! ## What is the wallet's -/

/-- `CWallet::IsMine` of an output. -/
def isMineOut (txout : CTxOut) : IsMineFilter :=
  ((isMine w.options w.keystore w.depth txout.scriptPubKey).getD .NO).mask

/-- `CWallet::IsChange`. -/
def isChange (txout : CTxOut) : Bool :=
  if w.isMineOut txout ≠ 0 then
    match extractDestination w.options w.hash160 txout.scriptPubKey with
    | none => true
    | some address => !w.mapAddressBook.contains address
  else false

/-- The loops that add amounts up; `strWhat` is the exception when one is out of range. -/
def addUp (strWhat : String) (nTotal : Int) : List (Except String Int) → Except String Int
  | [] => .ok nTotal
  | n :: amounts => do
    let nTotal := int64 (nTotal + (← n))
    if !moneyRange nTotal then throw strWhat
    addUp strWhat nTotal amounts

/-- `CWallet::GetDebit` of an input. -/
def getDebitIn (filter : IsMineFilter) (txin : CTxIn) : Int :=
  match w.mapWallet txin.prevout.hash with
  | none => 0
  | some prev =>
    match prev.vout[txin.prevout.n.toNat]? with
    | none => 0
    | some txout => if w.isMineOut txout &&& filter ≠ 0 then txout.nValue else 0

/-- `CWallet::GetCredit` of an output. -/
def getCreditOut (filter : IsMineFilter) (txout : CTxOut) : Except String Int :=
  if !moneyRange txout.nValue then .error "CWallet::GetCredit(): value out of range"
  else .ok (if w.isMineOut txout &&& filter ≠ 0 then txout.nValue else 0)

/-- `CWallet::GetChange` of an output. -/
def getChangeOut (txout : CTxOut) : Except String Int :=
  if !moneyRange txout.nValue then .error "CWallet::GetChange(): value out of range"
  else .ok (if w.isChange txout then txout.nValue else 0)

/-- `CWallet::GetDebit`. -/
def getDebit (tx : CTransaction) (filter : IsMineFilter) : Except String Int :=
  addUp "CWallet::GetDebit(): value out of range" 0
    (tx.vin.map fun txin => .ok (w.getDebitIn filter txin))

/-- `CWallet::GetCredit`. -/
def getCredit (tx : CTransaction) (filter : IsMineFilter) : Except String Int :=
  addUp "CWallet::GetCredit(): value out of range" 0 (tx.vout.map (w.getCreditOut filter))

/-- `CWallet::GetChange`. -/
def getChange (tx : CTransaction) : Except String Int :=
  addUp "CWallet::GetChange(): value out of range" 0 (tx.vout.map w.getChangeOut)

/-- The loop of `GetAvailableCredit` and `GetAvailableWatchOnlyCredit` over the outputs. -/
def getUnspentCredit (tx : CTransaction) (filter : IsMineFilter) : Except String Int :=
  addUp "CWalletTx::GetAvailableCredit() : value out of range" 0
    ((tx.vout.zipIdx.filter fun out => !w.isSpent (tx.getHash w.hash) out.2).map
      fun out => w.getCreditOut filter out.1)

end CWallet

/-! ## Cached amounts -/

/-- What a getter of a `CWalletTx` does to its caches. -/
abbrev AmountGetter := Memo AmountCache String Int Int

/-- A part of an amount, where the filter asks for it. -/
def filterPart {m : Type → Type} [Monad m] (filter mask : IsMineFilter) (part : m Int) : m Int :=
  if filter &&& mask ≠ 0 then part else pure 0

/-- The parts of an amount that a filter asks for. -/
def sumParts {m : Type → Type} [Monad m] (filter : IsMineFilter) (spendable watchOnly : m Int) :
    m Int := do
  let nSpendable ← filterPart filter ISMINE_SPENDABLE spendable
  let nWatchOnly ← filterPart filter ISMINE_WATCH_ONLY watchOnly
  return nSpendable + nWatchOnly

namespace CWalletTx

variable (w : CWallet) (wtx : CMerkleTx)

/-- `CWalletTx::GetDebit`. -/
def getDebit (filter : IsMineFilter) : AmountGetter :=
  if wtx.vin.isEmpty then pure 0
  else
    sumParts filter (Memo.fetch true .debit (w.getDebit wtx.toCTransaction ISMINE_SPENDABLE))
      (Memo.fetch true .watchDebit (w.getDebit wtx.toCTransaction ISMINE_WATCH_ONLY))

/-- `CWalletTx::GetCredit`. -/
def getCredit (filter : IsMineFilter) : AmountGetter :=
  if wtx.isCoinBase ∧ 0 < w.getBlocksToMaturity wtx then pure 0
  else
    sumParts filter (Memo.fetch true .credit (w.getCredit wtx.toCTransaction ISMINE_SPENDABLE))
      (Memo.fetch true .watchCredit (w.getCredit wtx.toCTransaction ISMINE_WATCH_ONLY))

/-- An amount of a coinbase that is in the main chain and not mature. -/
def getImmature (fUseCache : Bool) (cache : AmountCache) (filter : IsMineFilter) : AmountGetter :=
  if wtx.isCoinBase ∧ 0 < w.getBlocksToMaturity wtx ∧ w.isInMainChain wtx then
    Memo.fetch fUseCache cache (w.getCredit wtx.toCTransaction filter)
  else pure 0

/-- `CWalletTx::GetImmatureCredit`. -/
def getImmatureCredit (fUseCache : Bool := true) : AmountGetter :=
  getImmature w wtx fUseCache .immatureCredit ISMINE_SPENDABLE

/-- `CWalletTx::GetImmatureWatchOnlyCredit`. -/
def getImmatureWatchOnlyCredit (fUseCache : Bool := true) : AmountGetter :=
  getImmature w wtx fUseCache .immatureWatchCredit ISMINE_WATCH_ONLY

/-- An amount that is not spent, unless it is that of an immature coinbase. -/
def getAvailable (fUseCache : Bool) (cache : AmountCache) (filter : IsMineFilter) : AmountGetter :=
  if wtx.isCoinBase ∧ 0 < w.getBlocksToMaturity wtx then pure 0
  else Memo.fetch fUseCache cache (w.getUnspentCredit wtx.toCTransaction filter)

/-- `CWalletTx::GetAvailableCredit`. -/
def getAvailableCredit (fUseCache : Bool := true) : AmountGetter :=
  getAvailable w wtx fUseCache .availableCredit ISMINE_SPENDABLE

/-- `CWalletTx::GetAvailableWatchOnlyCredit`. -/
def getAvailableWatchOnlyCredit (fUseCache : Bool := true) : AmountGetter :=
  getAvailable w wtx fUseCache .availableWatchCredit ISMINE_WATCH_ONLY

/-- `CWalletTx::GetChange`. -/
def getChange : AmountGetter := Memo.fetch true .change (w.getChange wtx.toCTransaction)

end CWalletTx

/-- `CWallet::MarkDirty`. -/
def CWallet.markDirty (w : CWallet) : CWallet :=
  { w with mapWallet := fun hash => (w.mapWallet hash).map CWalletTx.markDirty }

end GC
