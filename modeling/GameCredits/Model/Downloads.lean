import GameCredits.Framework.Assoc
import GameCredits.Model.BlockIndex

/-!
# Block downloads (main.cpp)

The blocks requested from peers: `mapBlocksInFlight`, the list and the counters of every peer, and
the counters over all peers. A list iterator is the address of its node, so that it stays valid when
other nodes come and go. A function returns `none` where an assertion fails or a pointer or an
iterator is not valid.

Left out of `FinalizeNode`: the address manager and the orphan transactions. The counters are `int`s,
which here have no bound: each counts nodes of lists in memory.
-/

namespace GC

open Framework.Assoc

/-- `NodeId`. -/
abbrev NodeId := Int

/-- An iterator of a `std::list`: the address of its node. -/
abbrev ListIter := Nat

structure QueuedBlock where
  hash : UInt256
  pindex : Option Ptr
  nTime : Int
  fValidatedHeaders : Bool
  nTimeDisconnect : Int

structure CNodeState where
  fSyncStarted : Bool
  nStallingSince : Int
  vBlocksInFlight : List (ListIter × QueuedBlock)
  nBlocksInFlight : Int
  nBlocksInFlightValidHeaders : Int
  fPreferredDownload : Bool

/-- `CNodeState()`. -/
def CNodeState.new : CNodeState := ⟨false, 0, [], 0, 0, false⟩

/-- What `UpdatePreferredDownload` reads of a `CNode`. -/
structure CNodeFlags where
  fInbound : Bool
  fWhitelisted : Bool
  fOneShot : Bool
  fClient : Bool

structure DownloadState where
  mapNodeState : Map NodeId CNodeState
  mapBlocksInFlight : Map UInt256 (NodeId × ListIter)
  nQueuedValidatedHeaders : Int
  nPreferredDownload : Int
  nSyncStarted : Int
  /-- The address of the next list node. -/
  nextIter : ListIter

namespace DownloadState

/-- The state before any peer connects. -/
def empty : DownloadState := ⟨∅, ∅, 0, 0, 0, 0⟩

/-- `bool` as a number. -/
def ofBool (b : Bool) : Int := if b then 1 else 0

def setNode (s : DownloadState) (nodeid : NodeId) (state : CNodeState) : DownloadState :=
  { s with mapNodeState := s.mapNodeState.insert nodeid state }

/-- `InitializeNode`. -/
def initializeNode (s : DownloadState) (nodeid : NodeId) : DownloadState :=
  match s.mapNodeState.lookup nodeid with
  | some _ => s
  | none => s.setNode nodeid .new

/-- `UpdatePreferredDownload`. -/
def updatePreferredDownload (s : DownloadState) (nodeid : NodeId) (node : CNodeFlags) :
    Option DownloadState :=
  match s.mapNodeState.lookup nodeid with
  | none => none
  | some state =>
    let fPreferredDownload := (!node.fInbound || node.fWhitelisted) && !node.fOneShot && !node.fClient
    some { s.setNode nodeid { state with fPreferredDownload } with
      nPreferredDownload :=
        s.nPreferredDownload - ofBool state.fPreferredDownload + ofBool fPreferredDownload }

/-- `GetBlockTimeout`. -/
def getBlockTimeout (nPowTargetSpacing nTime nValidatedQueuedBefore : Int) : Int :=
  nTime + 500000 * nPowTargetSpacing * (4 + nValidatedQueuedBefore)

/-- `MarkBlockAsReceived`. -/
def markBlockAsReceived (s : DownloadState) (hash : UInt256) : Option (Bool × DownloadState) :=
  match s.mapBlocksInFlight.lookup hash with
  | none => some (false, s)
  | some (nodeid, it) =>
    match s.mapNodeState.lookup nodeid with
    | none => none
    | some state =>
      match state.vBlocksInFlight.lookup it with
      | none => none
      | some entry =>
        let state' :=
          { state with
            nBlocksInFlightValidHeaders :=
              state.nBlocksInFlightValidHeaders - ofBool entry.fValidatedHeaders
            vBlocksInFlight := state.vBlocksInFlight.eraseP fun e => e.1 == it
            nBlocksInFlight := state.nBlocksInFlight - 1
            nStallingSince := 0 }
        some (true, { s.setNode nodeid state' with
          nQueuedValidatedHeaders := s.nQueuedValidatedHeaders - ofBool entry.fValidatedHeaders
          mapBlocksInFlight := s.mapBlocksInFlight.erase hash })

/-- The entry that `MarkBlockAsInFlight` adds. -/
def newEntry (s : DownloadState) (nPowTargetSpacing : Int) (hash : UInt256) (pindex : Option Ptr)
    (nNow : Int) : QueuedBlock where
  hash := hash
  pindex := pindex
  nTime := nNow
  fValidatedHeaders := pindex.isSome
  nTimeDisconnect := getBlockTimeout nPowTargetSpacing nNow s.nQueuedValidatedHeaders

/-- `MarkBlockAsInFlight` after the block is not listed any more. -/
def addInFlight (s : DownloadState) (nodeid : NodeId) (state : CNodeState) (entry : QueuedBlock) :
    DownloadState :=
  { s.setNode nodeid
      { state with
        vBlocksInFlight := state.vBlocksInFlight ++ [(s.nextIter, entry)]
        nBlocksInFlight := state.nBlocksInFlight + 1
        nBlocksInFlightValidHeaders :=
          state.nBlocksInFlightValidHeaders + ofBool entry.fValidatedHeaders } with
    nQueuedValidatedHeaders := s.nQueuedValidatedHeaders + ofBool entry.fValidatedHeaders
    mapBlocksInFlight := s.mapBlocksInFlight.insert entry.hash (nodeid, s.nextIter)
    nextIter := s.nextIter + 1 }

/-- `MarkBlockAsInFlight` at time `nNow`. -/
def markBlockAsInFlight (s : DownloadState) (nPowTargetSpacing : Int) (nodeid : NodeId)
    (hash : UInt256) (pindex : Option Ptr) (nNow : Int) : Option DownloadState :=
  if (s.mapNodeState.lookup nodeid).isNone then none
  else
    match s.markBlockAsReceived hash with
    | none => none
    | some (_, s) =>
      match s.mapNodeState.lookup nodeid with
      | none => none
      | some state =>
        some (s.addInFlight nodeid state (s.newEntry nPowTargetSpacing hash pindex nNow))

/-- `FinalizeNode`. -/
def finalizeNode (s : DownloadState) (nodeid : NodeId) : Option DownloadState :=
  match s.mapNodeState.lookup nodeid with
  | none => none
  | some state =>
    some { s with
      nSyncStarted := s.nSyncStarted - ofBool state.fSyncStarted
      mapBlocksInFlight := (state.vBlocksInFlight.map fun e => e.2.hash).foldl
        (fun m hash => m.erase hash) s.mapBlocksInFlight
      nPreferredDownload := s.nPreferredDownload - ofBool state.fPreferredDownload
      mapNodeState := s.mapNodeState.erase nodeid }

/-! ## Runs -/

inductive Op where
  | connect (nodeid : NodeId)
  | updatePreferred (nodeid : NodeId) (node : CNodeFlags)
  | inFlight (nodeid : NodeId) (hash : UInt256) (pindex : Option Ptr) (nNow : Int)
  | received (hash : UInt256)
  | finalize (nodeid : NodeId)

def step (nPowTargetSpacing : Int) : Op → DownloadState → Option DownloadState
  | .connect nodeid, s => some (s.initializeNode nodeid)
  | .updatePreferred nodeid node, s => s.updatePreferredDownload nodeid node
  | .inFlight nodeid hash pindex nNow, s =>
    s.markBlockAsInFlight nPowTargetSpacing nodeid hash pindex nNow
  | .received hash, s => (s.markBlockAsReceived hash).map Prod.snd
  | .finalize nodeid, s => s.finalizeNode nodeid

end DownloadState

end GC
