import GameCredits.Framework.Assoc
import GameCredits.Framework.Run
import GameCredits.Model.Script
import Mathlib.Algebra.Order.Group.Int

/-!
# Fees (amount.cpp, policy/fees.cpp)

`CFeeRate`, in which a size is a `size_t`, so that the products with one are products of unsigned
numbers. The unconfirmed transactions that fee estimates count: `TxConfirmStats` with its integer counters and `CBlockPolicyEstimator`. A vector of counters is a
function of the index, next to its size. The estimates are floating point numbers and left out: which
of the two objects a transaction is a data point for, and in which bucket, comes with the transaction.
-/

namespace GC

open Framework

/-! ## CFeeRate -/

/-- The value of an `int64_t` as an unsigned number. -/
def uint64 (x : Int) : Int := x % 2 ^ 64

structure CFeeRate where
  nSatoshisPerK : Int
  deriving DecidableEq, Repr

namespace CFeeRate

/-- The constructor from a fee and a size. -/
def ofFee (nFeePaid : Int) (nSize : Nat) : CFeeRate :=
  ⟨if 0 < nSize then int64 (uint64 (int64 (nFeePaid * 1000)) / nSize) else 0⟩

/-- `CFeeRate::GetFee`. -/
def getFee (rate : CFeeRate) (nSize : Nat) : Int :=
  let nFee := int64 (uint64 (uint64 rate.nSatoshisPerK * nSize) / 1000)
  if nFee = 0 ∧ 0 < rate.nSatoshisPerK then rate.nSatoshisPerK else nFee

/-- `CFeeRate::GetFeePerK`. -/
def getFeePerK (rate : CFeeRate) : Int := rate.getFee 1000

end CFeeRate

/-! ## TxConfirmStats -/

structure TxConfirmStats where
  nBuckets : Nat
  maxConfirms : Nat
  curBlockConf : Nat → Nat → Int
  curBlockTxCt : Nat → Int
  unconfTxs : Nat → Nat → Int
  oldUnconfTxs : Nat → Int
  pos : 0 < maxConfirms

/-- What the estimates file has for one object: the sizes of its vectors, which `Read` checks. -/
structure FileStats where
  numBuckets : Nat
  maxConfirms : Nat
  buckets : 1 < numBuckets ∧ numBuckets ≤ 1000
  confirms : 0 < maxConfirms ∧ maxConfirms ≤ 6 * 24 * 7

namespace TxConfirmStats

variable (stats : TxConfirmStats)

/-- `Initialize`. -/
def init (nBuckets maxConfirms : Nat) (pos : 0 < maxConfirms) : TxConfirmStats :=
  ⟨nBuckets, maxConfirms, fun _ _ => 0, fun _ => 0, fun _ _ => 0, fun _ => 0, pos⟩

/-- `ClearCurrent`. -/
def clearCurrent (nBlockHeight : Nat) : TxConfirmStats :=
  let slot := nBlockHeight % stats.maxConfirms
  { stats with
    oldUnconfTxs := fun j =>
      if j < stats.nBuckets then stats.oldUnconfTxs j + stats.unconfTxs slot j
      else stats.oldUnconfTxs j
    unconfTxs := fun i j => if j < stats.nBuckets ∧ i = slot then 0 else stats.unconfTxs i j
    curBlockConf := fun i j => if j < stats.nBuckets then 0 else stats.curBlockConf i j
    curBlockTxCt := fun j => if j < stats.nBuckets then 0 else stats.curBlockTxCt j }

/-- `Record`. -/
def record (blocksToConfirm : Int) (bucketindex : Nat) : TxConfirmStats :=
  if blocksToConfirm < 1 then stats
  else
    { stats with
      curBlockConf := fun i j =>
        if j = bucketindex ∧ blocksToConfirm ≤ i + 1 ∧ i < stats.maxConfirms then
          stats.curBlockConf i j + 1
        else stats.curBlockConf i j
      curBlockTxCt := Function.update stats.curBlockTxCt bucketindex
        (stats.curBlockTxCt bucketindex + 1) }

/-- An `int` vector of vectors after `resize`: what was there stays, and the rest is zero. -/
def resized (rows columns : Nat) (counters : Nat → Nat → Int) : Nat → Nat → Int :=
  fun i j => if i < rows ∧ j < columns then counters i j else 0

/-- `Read`. -/
def read (file : FileStats) : TxConfirmStats where
  nBuckets := file.numBuckets
  maxConfirms := file.maxConfirms
  curBlockConf := resized stats.maxConfirms stats.nBuckets stats.curBlockConf
  curBlockTxCt := resized 1 stats.nBuckets (fun _ => stats.curBlockTxCt) 0
  unconfTxs := resized stats.maxConfirms stats.nBuckets stats.unconfTxs
  oldUnconfTxs := resized 1 stats.nBuckets (fun _ => stats.oldUnconfTxs) 0
  pos := file.confirms.1

/-- The counter of a slot and a bucket, changed by `n`. -/
def addUnconf (slot bucketindex : Nat) (n : Int) : TxConfirmStats :=
  { stats with
    unconfTxs := fun i j =>
      if i = slot ∧ j = bucketindex then stats.unconfTxs i j + n else stats.unconfTxs i j }

/-- `NewTx`. -/
def newTx (nBlockHeight bucketindex : Nat) : TxConfirmStats :=
  stats.addUnconf (nBlockHeight % stats.maxConfirms) bucketindex 1

/-- `removeTx`; `none` where an error is logged and no counter is decremented. -/
def removeTx (entryHeight nBestSeenHeight bucketindex : Nat) : Option TxConfirmStats :=
  let blocksAgo : Int :=
    if nBestSeenHeight = 0 then 0 else ((nBestSeenHeight : Int) - entryHeight).bmod (2 ^ 32)
  if blocksAgo < 0 then none
  else if (stats.maxConfirms : Int) ≤ blocksAgo then
    if 0 < stats.oldUnconfTxs bucketindex then
      some { stats with
        oldUnconfTxs :=
          Function.update stats.oldUnconfTxs bucketindex (stats.oldUnconfTxs bucketindex - 1) }
    else none
  else
    let blockIndex := entryHeight % stats.maxConfirms
    if 0 < stats.unconfTxs blockIndex bucketindex then
      some (stats.addUnconf blockIndex bucketindex (-1))
    else none

end TxConfirmStats

/-! ## CBlockPolicyEstimator -/

inductive StatsKind where
  | feeStats | priStats
  deriving DecidableEq, Repr

/-- Which object a transaction is a data point for, and the bucket that `lower_bound` finds. -/
abbrev DataPoint := Option (StatsKind × Nat)

structure TxStatsInfo where
  stats : Option StatsKind
  blockHeight : Nat
  bucketIndex : Nat

def TxStatsInfo.default : TxStatsInfo := ⟨none, 0, 0⟩

structure CBlockPolicyEstimator where
  nBestSeenHeight : Nat
  mapMemPoolTxs : Assoc.Map UInt256 TxStatsInfo
  feeStats : TxConfirmStats
  priStats : TxConfirmStats

/-- What `processBlockTx` uses of the entry of a transaction in a block. -/
structure ConfirmedEntry where
  fWasClearAtEntry : Bool
  nHeight : Nat
  dataPoint : DataPoint

/-- An estimates file that is well formed. -/
structure EstimatesFile where
  nFileBestSeenHeight : Int
  feeStats : FileStats
  priStats : FileStats

def MAX_BLOCK_CONFIRMS : Nat := 25

namespace CBlockPolicyEstimator

variable (est : CBlockPolicyEstimator)

/-- The constructor. -/
def init (nFeeBuckets nPriBuckets : Nat) : CBlockPolicyEstimator where
  nBestSeenHeight := 0
  mapMemPoolTxs := ∅
  feeStats := .init nFeeBuckets MAX_BLOCK_CONFIRMS (by decide)
  priStats := .init nPriBuckets MAX_BLOCK_CONFIRMS (by decide)

/-- `Read`. -/
def read (file : EstimatesFile) : CBlockPolicyEstimator :=
  { est with
    feeStats := est.feeStats.read file.feeStats
    priStats := est.priStats.read file.priStats
    nBestSeenHeight := (file.nFileBestSeenHeight % 2 ^ 32).toNat }

/-- The object that `TxStatsInfo::stats` points to. -/
def stats : StatsKind → TxConfirmStats
  | .feeStats => est.feeStats
  | .priStats => est.priStats

def setStats (stats : TxConfirmStats) : StatsKind → CBlockPolicyEstimator
  | .feeStats => { est with feeStats := stats }
  | .priStats => { est with priStats := stats }

/-- `removeTx`. -/
def removeTx (hash : UInt256) : CBlockPolicyEstimator :=
  match est.mapMemPoolTxs.lookup hash with
  | none => est
  | some info =>
    let est' := match info.stats with
      | none => est
      | some kind =>
        match (est.stats kind).removeTx info.blockHeight est.nBestSeenHeight info.bucketIndex with
        | none => est
        | some stats => est.setStats stats kind
    { est' with mapMemPoolTxs := est.mapMemPoolTxs.erase hash }

/-- `processTransaction`. The subscript of `mapMemPoolTxs` puts a new entry where there is none. -/
def processTransaction (hash : UInt256) (txHeight : Nat) (fWasClearAtEntry : Bool)
    (dataPoint : DataPoint) (fCurrentEstimate : Bool) : CBlockPolicyEstimator :=
  let info := (est.mapMemPoolTxs.lookup hash).getD .default
  let put (info : TxStatsInfo) := { est with mapMemPoolTxs := est.mapMemPoolTxs.insert hash info }
  if info.stats.isSome then est
  else if txHeight < est.nBestSeenHeight || !fCurrentEstimate || !fWasClearAtEntry then put info
  else match dataPoint with
    | none => put { info with blockHeight := txHeight }
    | some (kind, bucketindex) =>
      (put ⟨some kind, txHeight, bucketindex⟩).setStats ((est.stats kind).newTx txHeight bucketindex)
        kind

/-- `processBlockTx`. -/
def processBlockTx (nBlockHeight : Nat) (entry : ConfirmedEntry) : CBlockPolicyEstimator :=
  let blocksToConfirm : Int := ((nBlockHeight : Int) - entry.nHeight).bmod (2 ^ 32)
  if !entry.fWasClearAtEntry || blocksToConfirm ≤ 0 then est
  else match entry.dataPoint with
    | none => est
    | some (kind, bucketindex) =>
      est.setStats ((est.stats kind).record blocksToConfirm bucketindex) kind

/-- `processBlock`. -/
def processBlock (nBlockHeight : Nat) (entries : List ConfirmedEntry) (fCurrentEstimate : Bool) :
    CBlockPolicyEstimator :=
  if nBlockHeight ≤ est.nBestSeenHeight then est
  else if !fCurrentEstimate then { est with nBestSeenHeight := nBlockHeight }
  else
    entries.foldl (fun est entry => est.processBlockTx nBlockHeight entry)
      { est with
        nBestSeenHeight := nBlockHeight
        feeStats := est.feeStats.clearCurrent nBlockHeight
        priStats := est.priStats.clearCurrent nBlockHeight }

end CBlockPolicyEstimator

/-! ## Runs -/

/-- The estimator with the height of the tip and whether the chain is synced. -/
structure EstimatorSystem where
  est : CBlockPolicyEstimator
  tip : Nat
  fCurrentEstimate : Bool

inductive EstimatorOp where
  | processTransaction (hash : UInt256) (fWasClearAtEntry : Bool) (dataPoint : DataPoint)
  | removeTx (hash : UInt256)
  | connectTip (entries : List ConfirmedEntry)
  | disconnectTip
  | synced

namespace EstimatorSystem

/-- A data point has a bucket of its object. -/
def validPoint (est : CBlockPolicyEstimator) (dataPoint : DataPoint) : Bool :=
  dataPoint.all fun point => decide (point.2 < (est.stats point.1).nBuckets)

/-- Transactions enter at the height of the tip, and a block is processed where it becomes the tip; a
height is an `int`. -/
def step (s : EstimatorSystem) : EstimatorOp → Option EstimatorSystem
  | .processTransaction hash fWasClearAtEntry dataPoint =>
    if validPoint s.est dataPoint then
      some { s with
        est := s.est.processTransaction hash s.tip fWasClearAtEntry dataPoint s.fCurrentEstimate }
    else none
  | .removeTx hash => some { s with est := s.est.removeTx hash }
  | .connectTip entries =>
    if s.tip + 1 < 2 ^ 31 then
      some { s with
        est := s.est.processBlock (s.tip + 1) entries s.fCurrentEstimate, tip := s.tip + 1 }
    else none
  | .disconnectTip => if 0 < s.tip then some { s with tip := s.tip - 1 } else none
  | .synced => some { s with fCurrentEstimate := true }

/-- A constructed estimator, at any tip, which may have read a file. -/
def Starts (s : EstimatorSystem) : Prop :=
  s.tip < 2 ^ 31 ∧ ∃ nFeeBuckets nPriBuckets,
    s.est = .init nFeeBuckets nPriBuckets ∨
      ∃ file, s.est = (CBlockPolicyEstimator.init nFeeBuckets nPriBuckets).read file

end EstimatorSystem

end GC
