import GameCredits.Framework.Forest
import GameCredits.Model.ChainState
import Mathlib.Data.List.Sort
import Mathlib.Data.Nat.Size
import Mathlib.Data.Prod.Lex

/-!
# Headers (pow.cpp, checkpoints.cpp, main.cpp)

The work that a header must have, the checkpoints, `AcceptBlockHeader` with its checks, and the work
that an entry proves, as `LoadBlockIndexDB` calculates it again. A list of entries is `pindexLast` and
what `pprev` leads to from it, down to the genesis block. A function returns `none` where an assertion
fails or a null pointer is read.
-/

namespace GC

open Framework

/-! ## arith_uint256 -/

/-- `arith_uint256::SetCompact`: the number. -/
def setCompact (nCompact : UInt32) : Nat :=
  let nSize := nCompact.toNat >>> 24
  let nWord := nCompact.toNat &&& 0x007FFFFF
  (if nSize ≤ 3 then nWord >>> (8 * (3 - nSize)) else nWord <<< (8 * (nSize - 3))) % 2 ^ 256

/-- Whether `SetCompact` says that the number is negative. -/
def setCompactNegative (nCompact : UInt32) : Bool :=
  let nSize := nCompact.toNat >>> 24
  let nWord := nCompact.toNat &&& 0x007FFFFF
  let nWord := if nSize ≤ 3 then nWord >>> (8 * (3 - nSize)) else nWord
  nWord != 0 && nCompact.toNat &&& 0x00800000 != 0

/-- Whether `SetCompact` says that the number overflows. -/
def setCompactOverflow (nCompact : UInt32) : Bool :=
  let nSize := nCompact.toNat >>> 24
  let nWord := nCompact.toNat &&& 0x007FFFFF
  let nWord := if nSize ≤ 3 then nWord >>> (8 * (3 - nSize)) else nWord
  nWord != 0 && (decide (34 < nSize) || decide (0xFF < nWord) && decide (33 < nSize) ||
    decide (0xFFFF < nWord) && decide (32 < nSize))

/-- `arith_uint256::GetCompact` of a number that is not negative. -/
def getCompact (n : Nat) : UInt32 :=
  let nSize := (n.size + 7) / 8
  let nCompact :=
    (if nSize ≤ 3 then n <<< (8 * (3 - nSize)) else n >>> (8 * (nSize - 3))) % 2 ^ 32
  let (nCompact, nSize) :=
    if nCompact &&& 0x00800000 ≠ 0 then (nCompact >>> 8, nSize + 1) else (nCompact, nSize)
  UInt32.ofNat (nCompact ||| nSize <<< 24)

/-- `*=` with an integer, which is taken as a `uint32_t`. -/
def mulUint32 (n : Nat) (b : Int) : Nat := n * (b % 2 ^ 32).toNat % 2 ^ 256

/-! ## GetNextWorkRequired -/

/-- `Consensus::Params`, as far as the proof of work needs it. -/
structure PowParams where
  powLimit : Nat
  nPowTargetSpacing : Int
  nPowTargetTimespan : Int
  nPowTargetSpacingnew : Int
  nPowTargetTimespannew : Int

/-- The parameters of `CMainParams`. -/
def mainParams : PowParams where
  powLimit := 0x00000fffffffffffffffffffffffffffffffffffffffffffffffffffffffffff
  nPowTargetTimespan := 302400
  nPowTargetSpacing := 150
  nPowTargetTimespannew := 30 * 60
  nPowTargetSpacingnew := 90

/-- `CBlockIndex::GetBlockTime`. -/
def CBlockIndex.getBlockTime (e : CBlockIndex) : Int := e.nTime.toNat

/-- The variables of the loop of `KimotoGravityWell`. -/
structure GravityWell where
  PastBlocksMass : Nat
  PastRateActualSeconds : Int
  PastRateTargetSeconds : Int
  PastDifficultyAverage : Nat
  PastDifficultyAveragePrev : Nat
  LatestBlockTime : Int

/-- Whether the rate adjustment ratio is outside the event horizon. -/
def outsideHorizon (PastBlocksMass : Nat) (PastRateActualSeconds PastRateTargetSeconds : Int) : Bool :=
  let PastRateAdjustmentRatio : Float :=
    if PastRateActualSeconds ≠ 0 ∧ PastRateTargetSeconds ≠ 0 then
      Float.ofInt PastRateTargetSeconds / Float.ofInt PastRateActualSeconds
    else 1
  let EventHorizonDeviation : Float :=
    1 + 0.7084 * Float.pow (Float.ofNat PastBlocksMass / 28.2) (-1.228)
  PastRateAdjustmentRatio ≤ 1 / EventHorizonDeviation ||
    PastRateAdjustmentRatio ≥ EventHorizonDeviation

/-- The loop of `KimotoGravityWell`, from round `i`. -/
def gravityLoop (TargetBlocksSpacingSeconds : Int) (PastBlocksMin PastBlocksMax : Nat) :
    (i : Nat) → List CBlockIndex → GravityWell → GravityWell
  | _, [], g => g
  | i, BlockReading :: rest, g =>
    if BlockReading.nHeight = 0 ∨ (0 < PastBlocksMax ∧ PastBlocksMax < i) then g
    else
      let PastBlocksMass := g.PastBlocksMass + 1
      let target := setCompact BlockReading.nBits
      let PastDifficultyAverage :=
        if 1 < i then
          ((target + (2 ^ 256 - g.PastDifficultyAveragePrev)) % 2 ^ 256 / i +
            g.PastDifficultyAveragePrev) % 2 ^ 256
        else target
      let LatestBlockTime :=
        if g.LatestBlockTime < BlockReading.getBlockTime ∧ 100000 < BlockReading.nHeight then
          BlockReading.getBlockTime
        else g.LatestBlockTime
      let least : Int := if 100000 < BlockReading.nHeight then 1 else 0
      let PastRateActualSeconds := max least (LatestBlockTime - BlockReading.getBlockTime)
      let PastRateTargetSeconds := TargetBlocksSpacingSeconds * PastBlocksMass
      let g := ⟨PastBlocksMass, PastRateActualSeconds, PastRateTargetSeconds, PastDifficultyAverage,
        PastDifficultyAverage, LatestBlockTime⟩
      if PastBlocksMin ≤ PastBlocksMass ∧
          outsideHorizon PastBlocksMass PastRateActualSeconds PastRateTargetSeconds then g
      else gravityLoop TargetBlocksSpacingSeconds PastBlocksMin PastBlocksMax (i + 1) rest g

namespace PowParams

variable (params : PowParams)

/-- `KimotoGravityWell`. -/
def kimotoGravityWell (chain : List CBlockIndex) (TargetBlocksSpacingSeconds : Int)
    (PastBlocksMin PastBlocksMax : Nat) : UInt32 :=
  match chain with
  | [] => getCompact params.powLimit
  | BlockLastSolved :: _ =>
    if BlockLastSolved.nHeight = 0 ∨ BlockLastSolved.nHeight < PastBlocksMin then
      getCompact params.powLimit
    else
      let g := gravityLoop TargetBlocksSpacingSeconds PastBlocksMin PastBlocksMax 1 chain
        ⟨0, 0, 0, 0, 0, BlockLastSolved.getBlockTime⟩
      let bnNew :=
        if g.PastRateActualSeconds ≠ 0 ∧ g.PastRateTargetSeconds ≠ 0 then
          mulUint32 g.PastDifficultyAverage g.PastRateActualSeconds /
            (g.PastRateTargetSeconds % 2 ^ 64).toNat
        else g.PastDifficultyAverage
      getCompact (min bnNew params.powLimit)

/-- `GetNextWorkRequired_OLD`. -/
def getNextWorkRequiredOld (chain : List CBlockIndex) : Option UInt32 :=
  match chain with
  | [] => some (getCompact params.powLimit)
  | pindexLast :: _ =>
    let interval := (params.nPowTargetTimespan / params.nPowTargetSpacing).toNat
    if (pindexLast.nHeight + 1) % interval ≠ 0 then some pindexLast.nBits
    else
      let blockstogoback := if pindexLast.nHeight + 1 ≠ interval then interval else interval - 1
      chain[blockstogoback]?.map fun pindexFirst =>
        let nActualTimespan := pindexLast.getBlockTime - pindexFirst.getBlockTime
        let nActualTimespan := max nActualTimespan (params.nPowTargetTimespan / 4)
        let nActualTimespan := min nActualTimespan (params.nPowTargetTimespan * 4)
        let bnNew := mulUint32 (setCompact pindexLast.nBits) nActualTimespan /
          params.nPowTargetTimespan.toNat
        getCompact (min bnNew params.powLimit)

/-- `GetNextWorkRequired_V3`. -/
def getNextWorkRequiredV3 (chain : List CBlockIndex) : Option UInt32 :=
  match chain with
  | [] => some (getCompact params.powLimit)
  | [_] => none
  | pindexLast :: pindexFirst :: _ =>
    let nActualSpacing := pindexLast.getBlockTime - pindexFirst.getBlockTime
    let nActualSpacing := max nActualSpacing (params.nPowTargetSpacingnew / 16)
    let nActualSpacing := min nActualSpacing (params.nPowTargetSpacingnew * 16)
    let interval := params.nPowTargetTimespannew / params.nPowTargetSpacingnew
    let bnNew := mulUint32 (setCompact pindexLast.nBits)
      ((interval - 1) * params.nPowTargetSpacingnew + 2 * nActualSpacing) /
        ((interval + 1) * params.nPowTargetSpacingnew).toNat
    some (getCompact (min bnNew params.powLimit))

/-- `GetNextWorkRequired`. The least and the most seconds are a hundredth and fourteen hundredths of a
day. -/
def getNextWorkRequired (chain : List CBlockIndex) : Option UInt32 :=
  match chain with
  | [] => none
  | pindexLast :: _ =>
    let nHeight := pindexLast.nHeight + 1
    let PastSecondsMin := 864
    let PastSecondsMax := 12096
    if nHeight < 15332 then params.getNextWorkRequiredOld chain
    else if nHeight < 1036320 then
      some (params.kimotoGravityWell chain 30 (PastSecondsMin / 30) (PastSecondsMax / 30))
    else if nHeight < 1096772 then
      some (params.kimotoGravityWell chain 90 (PastSecondsMin / 90) (PastSecondsMax / 90))
    else params.getNextWorkRequiredV3 chain

/-- `CheckProofOfWork`. -/
def checkProofOfWork (hash : UInt256) (nBits : UInt32) : Bool :=
  let bnTarget := compactTarget nBits
  decide (bnTarget ≠ 0) && decide (bnTarget ≤ params.powLimit) && decide (hash.val ≤ bnTarget)

end PowParams

/-! ## Checkpoints -/

/-- `MapCheckpoints`: the hashes of blocks, in the order of their heights. -/
structure CCheckpointData where
  mapCheckpoints : List (Nat × UInt256)
  sorted : mapCheckpoints.Pairwise fun a b => a.1 < b.1

namespace CCheckpointData

variable (data : CCheckpointData)

/-- `Checkpoints::CheckBlock`. -/
def checkBlock (nHeight : Nat) (hash : UInt256) : Bool :=
  match data.mapCheckpoints.lookup nHeight with
  | none => true
  | some checkpoint => hash == checkpoint

/-- `Checkpoints::GetTotalBlocksEstimate`. -/
def getTotalBlocksEstimate : Nat :=
  match data.mapCheckpoints.getLast? with
  | none => 0
  | some checkpoint => checkpoint.1

/-- `Checkpoints::GetLastCheckpoint`. -/
def getLastCheckpoint (s : ChainState) : Option Ptr :=
  data.mapCheckpoints.reverse.findSome? fun checkpoint => s.find checkpoint.2

end CCheckpointData

/-! ## AcceptBlockHeader -/

/-- The parameters of the chain, with the hash functions of headers. -/
structure HeaderEnv where
  hash : Bytes → UInt256
  powHash : Bytes → UInt256
  genesis : CBlockHeader
  pow : PowParams
  checkpoints : CCheckpointData
  fCheckpointsEnabled : Bool

/-- The block times of an entry and the ten before it. -/
def medianTimes (chain : List CBlockIndex) : List Int := (chain.take 11).map CBlockIndex.getBlockTime

/-- `CBlockIndex::GetMedianTimePast`. -/
def getMedianTimePast (chain : List CBlockIndex) : Int :=
  let pmedian := (medianTimes chain).insertionSort (· ≤ ·)
  pmedian.getD (pmedian.length / 2) 0

namespace ChainState

/-- An entry and what `pprev` leads to from it. -/
def chainFrom (s : ChainState) (p : Ptr) : List CBlockIndex :=
  (lineage (fun q => (s.node q).pprev) ((s.node p).nHeight + 1) p).map s.node

end ChainState

namespace HeaderEnv

variable (env : HeaderEnv)

/-- `hashGenesisBlock`. -/
def hashGenesisBlock : UInt256 := env.genesis.getHash env.hash

/-- `CheckBlockHeader` at the adjusted time. -/
def checkBlockHeader (block : CBlockHeader) (nAdjustedTime : Int) : Bool :=
  env.pow.checkProofOfWork (env.powHash block.bytes) block.nBits &&
    decide ((block.nTime.toNat : Int) ≤ nAdjustedTime + 2 * 60 * 60)

/-- `ContextualCheckBlockHeader`. -/
def contextualCheckBlockHeader (s : ChainState) (block : CBlockHeader) (pindexPrev : Option Ptr) :
    Option Bool :=
  let hash := block.getHash env.hash
  if hash = env.hashGenesisBlock then some true
  else
    match pindexPrev with
    | none => none
    | some pindexPrev =>
      let chain := s.chainFrom pindexPrev
      let nHeight := (s.node pindexPrev).nHeight + 1
      let work :=
        if env.checkpoints.getTotalBlocksEstimate < nHeight then
          (env.pow.getNextWorkRequired chain).map (block.nBits == ·)
        else some true
      work.map fun work => work && decide (getMedianTimePast chain < block.nTime.toNat) &&
        (!env.fCheckpointsEnabled || (env.checkpoints.checkBlock nHeight hash &&
          !(env.checkpoints.getLastCheckpoint s).any fun pcheckpoint =>
            decide (nHeight < (s.node pcheckpoint).nHeight))) &&
        decide (2 ≤ block.nVersion)

/-- `AcceptBlockHeader`: the entry of an accepted header. A new entry gets the address `pindexNew`. -/
def acceptBlockHeader (s : ChainState) (block : CBlockHeader) (nAdjustedTime : Int)
    (pindexNew : Ptr) : Option (Option Ptr × ChainState) :=
  let hash := block.getHash env.hash
  match s.find hash with
  | some p => some (if (s.node p).nStatus.failed then none else some p, s)
  | none =>
    if !env.checkBlockHeader block nAdjustedTime then some (none, s)
    else
      let pindexPrev := if hash = env.hashGenesisBlock then none else s.find block.hashPrevBlock
      if hash ≠ env.hashGenesisBlock ∧ pindexPrev = none then some (none, s)
      else if pindexPrev.any fun q => (s.node q).nStatus.failed then some (none, s)
      else
        (env.contextualCheckBlockHeader s block pindexPrev).map fun ok =>
          if ok then
            let r := s.addToBlockIndex hash block pindexNew
            (some r.1, r.2)
          else (none, s)

/-- A call of `AcceptBlockHeader`. -/
structure Call where
  block : CBlockHeader
  nAdjustedTime : Int
  pindexNew : Ptr

/-- The state with the genesis block only, at the address 0. -/
def init : ChainState := ChainState.empty.addEntry env.hashGenesisBlock env.genesis 0

/-- A call; the address of a new entry is not in use. -/
def step (call : Call) (s : ChainState) : Option ChainState :=
  if call.pindexNew ∈ s.mapBlockIndex then none
  else (env.acceptBlockHeader s call.block call.nAdjustedTime call.pindexNew).map Prod.snd

end HeaderEnv

/-! ## Work -/

/-- `base_uint::operator/`, which throws an exception on division by zero. -/
def divUint256 (a b : BitVec 256) : Option (BitVec 256) := if b = 0 then none else some (a / b)

/-- `GetBlockProof`, in `arith_uint256`. -/
def getBlockProofWords (nBits : UInt32) : Option (BitVec 256) :=
  let bnTarget := BitVec.ofNat 256 (setCompact nBits)
  if setCompactNegative nBits || setCompactOverflow nBits || bnTarget == 0 then some 0
  else (divUint256 (~~~bnTarget) (bnTarget + 1)).map (· + 1)

/-- `vSortedByHeight`: the entries by their heights, and by their addresses. -/
def sortedByHeight (node : Ptr → CBlockIndex) (mapBlockIndex : List Ptr) : List Ptr :=
  mapBlockIndex.mergeSort fun p q =>
    decide (toLex ((node p).nHeight, p) ≤ toLex ((node q).nHeight, q))

/-- One iteration of the loop of `LoadBlockIndexDB`, as to `nChainWork`. -/
def loadChainWork (node : Ptr → CBlockIndex) (pindex : Ptr) : Ptr → CBlockIndex :=
  let prevWork := match (node pindex).pprev with
    | some p => (node p).nChainWork
    | none => 0
  fun p => if p = pindex then
      { node pindex with nChainWork := (prevWork + getBlockProof (node pindex).nBits) % 2 ^ 256 }
    else node p

/-- The entries after the loop of `LoadBlockIndexDB`. -/
def loadBlockIndexWork (node : Ptr → CBlockIndex) (mapBlockIndex : List Ptr) : Ptr → CBlockIndex :=
  (sortedByHeight node mapBlockIndex).foldl loadChainWork node

end GC
