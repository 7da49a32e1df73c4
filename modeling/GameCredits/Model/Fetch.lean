import GameCredits.Model.Chain
import GameCredits.Model.Downloads

/-!
# The blocks to ask a peer for (main.cpp)

`ProcessBlockAvailability`, `LastCommonAncestor` and `FindNextBlocksToDownload` over the block index,
the active chain and the blocks in flight. A function returns `none` where an assertion fails, a null
pointer is read, or the rounds it is given are not enough.
-/

namespace GC

open Framework.Assoc

/-- `BLOCK_DOWNLOAD_WINDOW`. -/
def BLOCK_DOWNLOAD_WINDOW : Nat := 1024

/-- What a `CNodeState` says about the blocks that the peer has. -/
structure CNodeBlocks where
  pindexBestKnownBlock : Option Ptr
  hashLastUnknownBlock : UInt256
  pindexLastCommonBlock : Option Ptr

/-- The variables of `FindNextBlocksToDownload` that its loops change. -/
structure FetchState where
  pindexLastCommonBlock : Ptr
  vBlocks : List Ptr
  waitingfor : NodeId
  nodeStaller : NodeId

/-- What `FindNextBlocksToDownload` leaves behind. -/
structure ToDownload where
  mapNodeState : Map NodeId CNodeBlocks
  vBlocks : List Ptr
  nodeStaller : NodeId

section

variable (node : Ptr → CBlockIndex)

/-- `ProcessBlockAvailability`, with the entries of `mapBlockIndex`. -/
def processBlockAvailability (mapBlockIndex : List Ptr) (state : CNodeBlocks) : CNodeBlocks :=
  if state.hashLastUnknownBlock = 0 then state
  else
    match mapBlockIndex.find? fun p => (node p).phashBlock == state.hashLastUnknownBlock with
    | none => state
    | some itOld =>
      if 0 < (node itOld).nChainWork then
        { state with
          pindexBestKnownBlock :=
            match state.pindexBestKnownBlock with
            | none => some itOld
            | some best =>
              if (node best).nChainWork ≤ (node itOld).nChainWork then some itOld else some best
          hashLastUnknownBlock := 0 }
      else state

/-- The loop of `LastCommonAncestor`, and the assertion after it. -/
def meetLoop : (fuel : Nat) → (pa pb : Option Ptr) → Option (Option Ptr)
  | fuel + 1, some pa, some pb =>
    if pa = pb then some (some pa) else meetLoop fuel (node pa).pprev (node pb).pprev
  | 0, some _, some _ => none
  | _, pa, pb => if pa = pb then some pa else none

/-- `LastCommonAncestor`. -/
def lastCommonAncestor (pa pb : Ptr) : Option (Option Ptr) :=
  let rounds := (node pa).nHeight + 1
  if (node pb).nHeight < (node pa).nHeight then
    (getAncestor node pa (node pb).nHeight).bind fun pa => meetLoop node rounds pa (some pb)
  else if (node pa).nHeight < (node pb).nHeight then
    (getAncestor node pb (node pa).nHeight).bind fun pb => meetLoop node rounds (some pa) pb
  else meetLoop node rounds (some pa) (some pb)

/-- `vToFetch`, filled backwards from its last entry. A null entry is read, in the filling or in the
loop over the entries. -/
def fillToFetch : (nToFetch : Nat) → (pindexWalk : Ptr) → Option (List Ptr)
  | 0, _ => some []
  | 1, pindexWalk => some [pindexWalk]
  | n + 2, pindexWalk =>
    (node pindexWalk).pprev.bind fun pprev => (fillToFetch (n + 1) pprev).map (· ++ [pindexWalk])

variable (chainActive : CChain) (mapBlocksInFlight : Map UInt256 (NodeId × ListIter))

/-- A round of the loop over `vToFetch`; an error where the function returns. -/
def visitToFetch (nodeid : NodeId) (count : UInt32) (nWindowEnd : Nat) (f : FetchState)
    (pindex : Ptr) : Except FetchState FetchState :=
  if ¬ (node pindex).nStatus.isValid BLOCK_VALID_TREE then .error f
  else if (node pindex).nStatus.haveData || chainActive.contains node pindex then
    .ok (if (node pindex).nChainTx = 0 then f else { f with pindexLastCommonBlock := pindex })
  else
    match mapBlocksInFlight.lookup (node pindex).phashBlock with
    | none =>
      if nWindowEnd < (node pindex).nHeight then
        -- the window ends here; the peer that stalls it is only named where nothing is to be fetched
        .error (if f.vBlocks.length = 0 ∧ f.waitingfor ≠ nodeid then
          { f with nodeStaller := f.waitingfor } else f)
      else
        let f := { f with vBlocks := f.vBlocks ++ [pindex] }
        if f.vBlocks.length = count.toNat then .error f else .ok f
    | some (peer, _) => .ok (if f.waitingfor = -1 then { f with waitingfor := peer } else f)

/-- The number of entries that the outer loop reads at once; the free places are a signed number. -/
@[irreducible] def numToFetch (count : UInt32) (nMaxHeight nHeight nBlocks : Nat) : Nat :=
  (min ((nMaxHeight : Int) - nHeight) (max (Int.bmod (count.toNat - nBlocks) (2 ^ 32)) 128)).toNat

/-- A round of the outer loop of `FindNextBlocksToDownload`: the new `pindexWalk` with the state. -/
def fetchChunk (nodeid : NodeId) (count : UInt32) (pindexBestKnownBlock : Ptr)
    (nWindowEnd nMaxHeight : Nat) (pindexWalk : Ptr) (f : FetchState) :
    Option (Ptr × Except FetchState FetchState) :=
  let nHeight := (node pindexWalk).nHeight
  let nToFetch := numToFetch count nMaxHeight nHeight f.vBlocks.length
  (getAncestor node pindexBestKnownBlock (nHeight + nToFetch : Nat)).bind fun next =>
    next.bind fun pindexWalk =>
      (fillToFetch node nToFetch pindexWalk).map fun vToFetch =>
        (pindexWalk, vToFetch.foldlM
          (visitToFetch node chainActive mapBlocksInFlight nodeid count nWindowEnd) f)

/-- The outer loop of `FindNextBlocksToDownload`. -/
def fetchLoop (nodeid : NodeId) (count : UInt32) (pindexBestKnownBlock : Ptr)
    (nWindowEnd nMaxHeight : Nat) : (fuel : Nat) → (pindexWalk : Ptr) → FetchState → Option FetchState
  | 0, _, _ => none
  | fuel + 1, pindexWalk, f =>
    if (node pindexWalk).nHeight < nMaxHeight then
      match fetchChunk node chainActive mapBlocksInFlight nodeid count pindexBestKnownBlock nWindowEnd
          nMaxHeight pindexWalk f with
      | none => none
      | some (_, .error f) => some f
      | some (pindexWalk, .ok f) =>
        fetchLoop nodeid count pindexBestKnownBlock nWindowEnd nMaxHeight fuel pindexWalk f
    else some f

/-- `FindNextBlocksToDownload` after the last common block is brought up to date. -/
def scheduleFrom (nodeid : NodeId) (count : UInt32) (nodeStaller : NodeId)
    (pindexBestKnownBlock pindexLastCommonBlock : Ptr) : Option FetchState :=
  let f : FetchState := ⟨pindexLastCommonBlock, [], -1, nodeStaller⟩
  if pindexLastCommonBlock = pindexBestKnownBlock then some f
  else
    let nWindowEnd := (node pindexLastCommonBlock).nHeight + BLOCK_DOWNLOAD_WINDOW
    let nMaxHeight := min (node pindexBestKnownBlock).nHeight (nWindowEnd + 1)
    fetchLoop node chainActive mapBlocksInFlight nodeid count pindexBestKnownBlock nWindowEnd nMaxHeight
      (nMaxHeight + 1) pindexLastCommonBlock f

/-- The guess that `FindNextBlocksToDownload` starts from where there is no last common block. -/
def guessLastCommon (pindexBestKnownBlock : Ptr) : Option Ptr :=
  chainActive.get (min (node pindexBestKnownBlock).nHeight chainActive.height)

/-- `FindNextBlocksToDownload` with an empty `vBlocks`. -/
def findNextBlocksToDownload (mapBlockIndex : List Ptr) (mapNodeState : Map NodeId CNodeBlocks)
    (nodeid : NodeId) (count : UInt32) (nodeStaller : NodeId) : Option ToDownload :=
  if count = 0 then some ⟨mapNodeState, [], nodeStaller⟩
  else
    match mapNodeState.lookup nodeid with
    | none => none
    | some state =>
      let state := processBlockAvailability node mapBlockIndex state
      let updated := mapNodeState.insert nodeid state
      match state.pindexBestKnownBlock with
      | none => some ⟨updated, [], nodeStaller⟩
      | some best =>
        chainActive.tip.bind fun tip =>
          if (node best).nChainWork < (node tip).nChainWork then some ⟨updated, [], nodeStaller⟩
          else
            (state.pindexLastCommonBlock.or (guessLastCommon node chainActive best)).bind fun last =>
              (lastCommonAncestor node last best).bind fun last =>
                last.bind fun last =>
                  (scheduleFrom node chainActive mapBlocksInFlight nodeid count nodeStaller best last).map
                    fun f => ⟨mapNodeState.insert nodeid
                      { state with pindexLastCommonBlock := some f.pindexLastCommonBlock },
                      f.vBlocks, f.nodeStaller⟩

end

end GC
