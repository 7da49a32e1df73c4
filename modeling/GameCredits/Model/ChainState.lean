import GameCredits.Framework.SortedSet
import GameCredits.Model.Chain

/-!
# The chain state (main.cpp)

The block index in memory, the set of candidates for the tip, the blocks that wait for an ancestor,
and the functions that change them. Whether a block connects is given by verdicts (`connectBlock`).
A function returns `none` where an assertion fails or a null pointer is read; what `CChain` and
`GetAncestor` return is taken as null there, which does not happen in a tree with its active chain.

Left out: the mempool, the wallets, notifications, fork warnings, and what is written to disk.
-/

namespace GC

open Framework

structure ChainState where
  /-- The entries, by their addresses. -/
  node : Ptr → CBlockIndex
  /-- The entries of `mapBlockIndex`, in the order in which it is walked through. -/
  mapBlockIndex : List Ptr
  setBlockIndexCandidates : List Ptr
  /-- The pairs of the multimap; those with one key in the order of insertion. -/
  mapBlocksUnlinked : List (Ptr × Ptr)
  /-- `chainActive`, the genesis block first. -/
  vChain : List Ptr
  nBlockSequenceId : Nat
  pindexBestInvalid : Option Ptr
  pindexBestHeader : Option Ptr
  /-- History: the tips since the last `InvalidateBlock` returned. No operation reads it. -/
  tipLog : List Ptr

namespace ChainState

/-- The state before `InitBlockIndex`. -/
def empty : ChainState where
  node _ := .ofHeader 0 ⟨0, 0, 0, 0, 0, 0⟩
  mapBlockIndex := []
  setBlockIndexCandidates := []
  mapBlocksUnlinked := []
  vChain := []
  nBlockSequenceId := 1
  pindexBestInvalid := none
  pindexBestHeader := none
  tipLog := []

/-- Changes one entry. -/
def modify (s : ChainState) (p : Ptr) (f : CBlockIndex → CBlockIndex) : ChainState :=
  { s with node := fun q => if q = p then f (s.node p) else s.node q }

/-- Changes the status of one entry. -/
def modifyStatus (s : ChainState) (p : Ptr) (f : BlockStatus → BlockStatus) : ChainState :=
  s.modify p fun e => { e with nStatus := f e.nStatus }

/-- The comparator of `setBlockIndexCandidates`. -/
def less (s : ChainState) (pa pb : Ptr) : Bool := workLess s.node pa pb

def insertCandidate (s : ChainState) (p : Ptr) : ChainState :=
  { s with setBlockIndexCandidates := SortedSet.insert s.less p s.setBlockIndexCandidates }

def eraseCandidate (s : ChainState) (p : Ptr) : ChainState :=
  { s with setBlockIndexCandidates := SortedSet.erase s.less p s.setBlockIndexCandidates }

/-- `chainActive.Tip()`. -/
def tip (s : ChainState) : Option Ptr := s.vChain.getLast?

/-- `chainActive`, whose slots are never null. -/
def cchain (s : ChainState) : CChain := ⟨s.vChain.map some⟩

/-- `chainActive.Contains`. -/
def contains (s : ChainState) (p : Ptr) : Bool := s.cchain.contains s.node p

/-- `chainActive.SetTip`: the entries in the slots after it. -/
def setTip (s : ChainState) (p : Option Ptr) : List Ptr :=
  ((s.cchain.setTip s.node p).elim [] CChain.vChain).reduceOption

/-- `chainActive.FindFork`. -/
def findFork (s : ChainState) (p : Ptr) : Option Ptr := (s.cchain.findFork s.node p).join

/-- `CBlockIndex::GetAncestor`. -/
def getAncestor (s : ChainState) (p : Ptr) (height : Int) : Option Ptr :=
  (GC.getAncestor s.node p height).join

/-- Whether an entry sorts below the tip. -/
def belowTip (s : ChainState) (p : Ptr) : Bool := s.tip.any fun tip => s.less p tip

/-- `mapBlockIndex.find`. -/
def find (s : ChainState) (hash : UInt256) : Option Ptr :=
  s.mapBlockIndex.find? fun p => (s.node p).phashBlock == hash

/-- `UpdateTip`. -/
def updateTip (s : ChainState) (p : Option Ptr) : ChainState :=
  { s with vChain := s.setTip p, tipLog := p.toList ++ s.tipLog }

/-! ## Headers -/

/-- The entry that `AddToBlockIndex` builds. -/
def newEntry (s : ChainState) (hash : UInt256) (block : CBlockHeader) : CBlockIndex :=
  let pprev := s.find block.hashPrevBlock
  let nHeight := match pprev with
    | some p => (s.node p).nHeight + 1
    | none => 0
  let prevWork := match pprev with
    | some p => (s.node p).nChainWork
    | none => 0
  let pindexNew := { CBlockIndex.ofHeader hash block with
    pprev := pprev
    nHeight := nHeight
    nChainWork := (prevWork + getBlockProof block.nBits) % 2 ^ 256
    nStatus := BlockStatus.zero.raiseValidity BLOCK_VALID_TREE }
  { pindexNew with pskip := (buildSkip s.node pindexNew).join }

/-- The step of `pindexBestHeader` in `AddToBlockIndex`. -/
def raiseBestHeader (s : ChainState) (p : Ptr) : ChainState :=
  { s with
    pindexBestHeader := match s.pindexBestHeader with
      | none => some p
      | some best => if (s.node best).nChainWork < (s.node p).nChainWork then some p else some best }

/-- `AddToBlockIndex` for a hash that is not in the index; `pindexNew` is the address of the new
entry. -/
def addEntry (s : ChainState) (hash : UInt256) (block : CBlockHeader) (pindexNew : Ptr) :
    ChainState :=
  let s := { s.modify pindexNew (fun _ => s.newEntry hash block) with
    mapBlockIndex := s.mapBlockIndex ++ [pindexNew] }
  s.raiseBestHeader pindexNew

/-- `AddToBlockIndex`. -/
def addToBlockIndex (s : ChainState) (hash : UInt256) (block : CBlockHeader) (pindexNew : Ptr) :
    Ptr × ChainState :=
  match s.find hash with
  | some p => (p, s)
  | none => (pindexNew, s.addEntry hash block pindexNew)

/-! ## Bodies -/

/-- `CDiskBlockPos`. -/
structure DiskBlockPos where
  nFile : Nat
  nPos : Nat

/-- The first part of `ReceivedBlockTransactions`. -/
def markReceived (s : ChainState) (p : Ptr) (nTx : Nat) (pos : DiskBlockPos) : ChainState :=
  s.modify p fun e =>
    { e with
      nTx := nTx
      nChainTx := 0
      nFile := pos.nFile
      nDataPos := pos.nPos
      nUndoPos := 0
      nStatus := { e.nStatus with haveData := true }.raiseValidity BLOCK_VALID_TRANSACTIONS }

/-- `pindex->pprev ? pindex->pprev->nChainTx : 0`. -/
def prevChainTx (s : ChainState) (p : Ptr) : Nat :=
  match (s.node p).pprev with
  | some q => (s.node q).nChainTx
  | none => 0

/-- The entries that wait for an entry. -/
def waiting (s : ChainState) (p : Ptr) : List Ptr :=
  (s.mapBlocksUnlinked.filter fun e => e.1 == p).map Prod.snd

/-- The total of transactions and the sequence number of an entry whose ancestors all have their
transactions. -/
def assignLink (s : ChainState) (p : Ptr) : ChainState :=
  { s.modify p fun e =>
      { e with nChainTx := (s.prevChainTx p + e.nTx) % 2 ^ 32, nSequenceId := s.nBlockSequenceId } with
    nBlockSequenceId := (s.nBlockSequenceId + 1) % 2 ^ 32 }

/-- Makes an entry a candidate unless it sorts below the tip. -/
def offerCandidate (s : ChainState) (p : Ptr) : ChainState :=
  if s.belowTip p then s else s.insertCandidate p

/-- Takes the entries that wait for `p` out of `mapBlocksUnlinked`. -/
def takeWaiting (s : ChainState) (p : Ptr) : ChainState :=
  { s with mapBlocksUnlinked := s.mapBlocksUnlinked.filter fun e => e.1 != p }

/-- One round of the loop of `ReceivedBlockTransactions`, but for the queue. -/
def linkEntry (s : ChainState) (p : Ptr) : ChainState :=
  ((s.assignLink p).offerCandidate p).takeWaiting p

/-- The loop of `ReceivedBlockTransactions`. Every entry put on the queue has left
`mapBlocksUnlinked`, which bounds the number of rounds. -/
def linkQueue : (fuel : Nat) → List Ptr → ChainState → ChainState
  | 0, _, s => s
  | _, [], s => s
  | fuel + 1, p :: queue, s => linkQueue fuel (queue ++ s.waiting p) (s.linkEntry p)

/-- `pprev == NULL || pprev->nChainTx`. -/
def parentLinked (s : ChainState) (p : Ptr) : Bool :=
  match (s.node p).pprev with
  | none => true
  | some q => (s.node q).nChainTx != 0

/-- The other branch of `ReceivedBlockTransactions`: the entry waits for its parent. -/
def waitForParent (s : ChainState) (p : Ptr) : ChainState :=
  match (s.node p).pprev with
  | none => s
  | some q =>
    if (s.node q).nStatus.isValid BLOCK_VALID_TREE then
      { s with mapBlocksUnlinked := s.mapBlocksUnlinked ++ [(q, p)] }
    else s

/-- `ReceivedBlockTransactions`. -/
def receivedBlockTransactions (s : ChainState) (p : Ptr) (nTx : Nat) (pos : DiskBlockPos) :
    ChainState :=
  let s := s.markReceived p nTx pos
  if s.parentLinked p then linkQueue (s.mapBlocksUnlinked.length + 1) [p] s else s.waitForParent p

/-- The failure branch of `AcceptBlock`, for a block that is invalid without corruption. -/
def rejectBlock (s : ChainState) (p : Ptr) : ChainState :=
  s.modifyStatus p fun st => { st with failedValid := true }

/-! ## Invalid blocks -/

/-- `InvalidChainFound`, and the like step of `FindMostWorkChain`. -/
def invalidChainFound (s : ChainState) (p : Ptr) : ChainState :=
  { s with
    pindexBestInvalid := match s.pindexBestInvalid with
      | none => some p
      | some best => if (s.node best).nChainWork < (s.node p).nChainWork then some p else some best }

/-- `InvalidBlockFound` without corruption, and the beginning of `InvalidateBlock`. -/
def markInvalid (s : ChainState) (p : Ptr) : ChainState :=
  (s.modifyStatus p fun st => { st with failedValid := true }).eraseCandidate p

/-- A block that descends from an invalid one leaves the candidates. -/
def markFailedChild (s : ChainState) (p : Ptr) : ChainState :=
  (s.modifyStatus p fun st => { st with failedChild := true }).eraseCandidate p

/-- A candidate that lacks the data of an ancestor leaves the candidates and waits. -/
def requeue (s : ChainState) (p : Ptr) : ChainState :=
  match (s.node p).pprev with
  | none => s.eraseCandidate p
  | some q => { s with mapBlocksUnlinked := s.mapBlocksUnlinked ++ [(q, p)] }.eraseCandidate p

/-! ## The candidate with the most work -/

/-- The walk of `FindMostWorkChain` from a candidate towards the active chain: the first entry that
is failed or lacks its data. -/
def findBad (s : ChainState) : (fuel : Nat) → Option Ptr → Option (Option Ptr)
  | 0, _ => some none
  | _, none => some none
  | fuel + 1, some p =>
    if s.contains p then some none
    else if (s.node p).nChainTx = 0 ∧ (s.node p).nHeight ≠ 0 then none
    else if (s.node p).nStatus.failed || !(s.node p).nStatus.haveData then some (some p)
    else findBad s fuel (s.node p).pprev

/-- The loop of `FindMostWorkChain` that removes a chain from the candidates, down to `bad`. -/
def removeChain (bad : Ptr) (fFailedChain : Bool) :
    (fuel : Nat) → Option Ptr → ChainState → ChainState
  | 0, _, s => s
  | _, none, s => s
  | fuel + 1, some p, s =>
    if p = bad then s
    else
      let s := if fFailedChain then s.markFailedChild p else s.requeue p
      removeChain bad fFailedChain fuel (s.node p).pprev s

/-- What `FindMostWorkChain` does about a candidate whose chain is not usable. -/
def discard (s : ChainState) (p bad : Ptr) : ChainState :=
  let fFailedChain := (s.node bad).nStatus.failed
  let s := if fFailedChain then s.invalidChainFound p else s
  (removeChain bad fFailedChain ((s.node p).nHeight + 1) (some p) s).eraseCandidate bad

/-- The rounds of `FindMostWorkChain`. -/
def findMostWorkFrom : (fuel : Nat) → ChainState → Option (Option Ptr × ChainState)
  | 0, _ => none
  | fuel + 1, s =>
    match s.setBlockIndexCandidates.getLast? with
    | none => some (none, s)
    | some p =>
      match s.findBad ((s.node p).nHeight + 1) (some p) with
      | none => none
      | some none => some (some p, s)
      | some (some bad) => findMostWorkFrom fuel (s.discard p bad)

/-- `FindMostWorkChain`. Every round but the last removes a candidate. -/
def findMostWorkChain (s : ChainState) : Option (Option Ptr × ChainState) :=
  findMostWorkFrom (s.setBlockIndexCandidates.length + 1) s

/-- `PruneBlockIndexCandidates`. -/
def pruneBlockIndexCandidates (s : ChainState) : Option ChainState :=
  let s := { s with
    setBlockIndexCandidates := SortedSet.eraseWhile s.belowTip s.setBlockIndexCandidates }
  if s.setBlockIndexCandidates.isEmpty then none else some s

/-! ## Moving the tip -/

/-- What `ConnectBlock` says of a block: it connects, and its undo data is written at a position, or
it is invalid, perhaps by corruption. -/
inductive Verdict where
  | connects (nUndoPos : Nat)
  | invalid (corruptionPossible : Bool)

/-- `DisconnectTip`: fails where the block or its undo data is missing, as for the genesis block. -/
def disconnectTip (s : ChainState) : Bool × ChainState :=
  match s.tip with
  | none => (false, s)
  | some p =>
    if (s.node p).nStatus.haveData && (s.node p).nStatus.haveUndo then
      (true, s.updateTip (s.node p).pprev)
    else (false, s)

/-- What `ConnectBlock` writes to the entry of a block that connects; nothing for the genesis block,
the one without a parent. -/
def recordConnected (s : ChainState) (p : Ptr) (nUndoPos : Nat) : ChainState :=
  match (s.node p).pprev with
  | none => s
  | some _ =>
    s.modify p fun e =>
      { e with
        nUndoPos := if e.nStatus.haveUndo then e.nUndoPos else nUndoPos
        nStatus := { e.nStatus with haveUndo := true }.raiseValidity BLOCK_VALID_SCRIPTS }

section

variable (connectBlock : Ptr → Verdict)

/-- `ConnectTip`. -/
def connectTip (s : ChainState) (p : Ptr) : Option (Verdict × ChainState) :=
  if (s.node p).pprev ≠ s.tip then none
  else
    match connectBlock p with
    | .connects nUndoPos =>
      some (.connects nUndoPos, (s.recordConnected p nUndoPos).updateTip (some p))
    | .invalid corruptionPossible =>
      some (.invalid corruptionPossible,
        if corruptionPossible then s else (s.markInvalid p).invalidChainFound p)

/-- The first loop of `ActivateBestChainStep`; `vChain` bounds the number of rounds. -/
def disconnectTo (pindexFork : Option Ptr) : (fuel : Nat) → ChainState → Bool × ChainState
  | 0, s => (true, s)
  | fuel + 1, s =>
    if s.tip.isNone || s.tip == pindexFork then (true, s)
    else
      match s.disconnectTip with
      | (true, s) => disconnectTo pindexFork fuel s
      | (false, s) => (false, s)

/-- The entries above height `nHeight` from an entry down, the highest first. -/
def pathAbove (node : Ptr → CBlockIndex) (nHeight : Int) : (fuel : Nat) → Option Ptr → List Ptr
  | 0, _ => []
  | _, none => []
  | fuel + 1, some p =>
    if ((node p).nHeight : Int) = nHeight then []
    else p :: pathAbove node nHeight fuel (node p).pprev

/-- Whether the tip has more work than before. -/
def improved (s : ChainState) (pindexOldTip : Option Ptr) : Bool :=
  match pindexOldTip, s.tip with
  | none, _ => true
  | some _, none => false
  | some old, some new => decide ((s.node old).nChainWork < (s.node new).nChainWork)

/-- The loop of `ActivateBestChainStep` over one list of blocks to connect, the lowest of which is
`lowest`; returns `fContinue`. -/
def connectBlocks (pindexOldTip : Option Ptr) (lowest : Ptr) :
    List Ptr → ChainState → Option (Bool × ChainState)
  | [], s => some (true, s)
  | p :: ps, s =>
    match s.connectTip connectBlock p with
    | none => none
    | some (.invalid corruptionPossible, s) =>
      some (false, if corruptionPossible then s else s.invalidChainFound lowest)
    | some (.connects _, s) =>
      match s.pruneBlockIndexCandidates with
      | none => none
      | some s =>
        if s.improved pindexOldTip then some (false, s)
        else connectBlocks pindexOldTip lowest ps s

/-- The loop of `ActivateBestChainStep` that connects up to 32 blocks a round, from `nHeight`. -/
def connectChunks (pindexOldTip : Option Ptr) (pindexMostWork : Ptr) :
    (fuel : Nat) → (nHeight : Int) → ChainState → Option ChainState
  | 0, _, s => some s
  | fuel + 1, nHeight, s =>
    if nHeight = (s.node pindexMostWork).nHeight then some s
    else
      let nTargetHeight := min (nHeight + 32) (s.node pindexMostWork).nHeight
      let pindexIter := s.getAncestor pindexMostWork nTargetHeight
      let vpindexToConnect := pathAbove s.node nHeight 33 pindexIter
      match connectBlocks connectBlock pindexOldTip (vpindexToConnect.getLastD 0)
          vpindexToConnect.reverse s with
      | none => none
      | some (false, s) => some s
      | some (true, s) => connectChunks pindexOldTip pindexMostWork fuel nTargetHeight s

/-- `ActivateBestChainStep`: its result, and the state. -/
def activateBestChainStep (s : ChainState) (pindexMostWork : Ptr) : Option (Bool × ChainState) :=
  let pindexFork := s.findFork pindexMostWork
  let nHeight : Int := match pindexFork with
    | some p => (s.node p).nHeight
    | none => -1
  match disconnectTo pindexFork s.vChain.length s with
  | (false, s') => some (false, s')
  | (true, s') =>
    (connectChunks connectBlock s.tip pindexMostWork ((s.node pindexMostWork).nHeight + 1) nHeight
      s').map (true, ·)

/-- How a loop is left within a number of rounds: with a result, where an assertion fails, or not. -/
inductive LoopResult (α : Type) where
  | returns (a : α)
  | assertFails
  | goesOn

def LoopResult.value? {α : Type} : LoopResult α → Option α
  | .returns a => some a
  | _ => none

theorem LoopResult.of_value? {α : Type} {r : LoopResult α} {a : α} (h : r.value? = some a) :
    r = .returns a := by
  cases r with
  | returns b => exact congrArg _ (Option.some.inj h)
  | assertFails => cases h
  | goesOn => cases h

/-- `ActivateBestChain` without a shutdown, for at most `fuel` rounds. -/
def activateBestChain : (fuel : Nat) → ChainState → LoopResult (Bool × ChainState)
  | 0, _ => .goesOn
  | fuel + 1, s =>
    match s.findMostWorkChain with
    | none => .assertFails
    | some (none, s) => .returns (true, s)
    | some (some p, s) =>
      if s.tip = some p then .returns (true, s)
      else
        match s.activateBestChainStep connectBlock p with
        | none => .assertFails
        | some (false, s) => .returns (false, s)
        | some (true, s) => if s.tip = some p then .returns (true, s) else activateBestChain fuel s

end

/-! ## Requests by the user -/

/-- The loop of `InvalidateBlock` that disconnects the block. -/
def disconnectInvalid (p : Ptr) : (fuel : Nat) → ChainState → Bool × ChainState
  | 0, s => (true, s)
  | fuel + 1, s =>
    match s.contains p, s.tip with
    | true, some tip =>
      match (s.markFailedChild tip).disconnectTip with
      | (true, s) => disconnectInvalid p fuel s
      | (false, s) => (false, s)
    | _, _ => (true, s)

/-- What `InvalidateBlock` does for each entry at the end. -/
def readdCandidate (s : ChainState) (p : Ptr) : ChainState :=
  if (s.node p).nStatus.isValid BLOCK_VALID_TRANSACTIONS && (s.node p).nChainTx != 0 && !s.belowTip p
  then s.insertCandidate p else s

/-- `InvalidateBlock`. -/
def invalidateBlock (s : ChainState) (p : Ptr) : Option (Bool × ChainState) :=
  match disconnectInvalid p s.vChain.length (s.markInvalid p) with
  | (false, s) => some (false, s)
  | (true, s) =>
    match s.tip with
    | none => none
    | some tip =>
      let s := s.mapBlockIndex.foldl readdCandidate s
      some (true, { s.invalidChainFound p with tipLog := [tip] })

/-- Clears the flags of an entry. -/
def clearFailed (s : ChainState) (p : Ptr) : ChainState :=
  s.modifyStatus p fun st => { st with failedValid := false, failedChild := false }

/-- What `ReconsiderBlock` does for each entry that descends from `p`, of height `nHeight`. -/
def reconsiderEntry (p : Ptr) (nHeight : Nat) (tip : Ptr) (s : ChainState) (q : Ptr) : ChainState :=
  if !(s.node q).nStatus.isValid BLOCK_VALID_TRANSACTIONS && s.getAncestor q nHeight == some p
  then
    let s := s.clearFailed q
    let s :=
      if (s.node q).nStatus.isValid BLOCK_VALID_TRANSACTIONS && (s.node q).nChainTx != 0 &&
          s.less tip q then s.insertCandidate q else s
    if s.pindexBestInvalid = some q then { s with pindexBestInvalid := none } else s
  else s

/-- The walk of `ReconsiderBlock` over the ancestors. -/
def clearAncestors : (fuel : Nat) → Option Ptr → ChainState → ChainState
  | 0, _, s => s
  | _, none, s => s
  | fuel + 1, some p, s =>
    let s := if (s.node p).nStatus.failed then s.clearFailed p else s
    clearAncestors fuel (s.node p).pprev s

/-- `ReconsiderBlock`. -/
def reconsiderBlock (s : ChainState) (p : Ptr) : Option ChainState :=
  match s.tip with
  | none => none
  | some tip =>
    let nHeight := (s.node p).nHeight
    let s := s.mapBlockIndex.foldl (reconsiderEntry p nHeight tip) s
    some (clearAncestors (nHeight + 1) (some p) s)

/-! ## Pruning -/

/-- What `PruneOneBlockFile` does for each entry of the file. -/
def pruneEntry (fileNumber : Nat) (s : ChainState) (p : Ptr) : ChainState :=
  if (s.node p).nFile = fileNumber then
    let s := s.modify p fun e =>
      { e with
        nStatus := { e.nStatus with haveData := false, haveUndo := false }
        nFile := 0
        nDataPos := 0
        nUndoPos := 0 }
    { s with
      mapBlocksUnlinked := s.mapBlocksUnlinked.filter fun e =>
        !(some e.1 == (s.node p).pprev && e.2 == p) }
  else s

/-- `PruneOneBlockFile`. -/
def pruneOneBlockFile (s : ChainState) (fileNumber : Nat) : ChainState :=
  s.mapBlockIndex.foldl (pruneEntry fileNumber) s

/-! ## Accepting blocks -/

/-- `AcceptBlockHeader`: the entry of an accepted header. `checks` says whether the checks of the
header pass, given the parent. -/
def acceptBlockHeader (hashGenesisBlock : UInt256) (checks : Option Ptr → Bool) (s : ChainState)
    (hash : UInt256) (block : CBlockHeader) (pindexNew : Ptr) : Option Ptr × ChainState :=
  match s.find hash with
  | some p => (if (s.node p).nStatus.failed then none else some p, s)
  | none =>
    let pindexPrev := if hash = hashGenesisBlock then none else s.find block.hashPrevBlock
    if hash ≠ hashGenesisBlock ∧ pindexPrev = none then (none, s)
    else if pindexPrev.any fun q => (s.node q).nStatus.failed then (none, s)
    else if checks pindexPrev then
      let r := s.addToBlockIndex hash block pindexNew
      (some r.1, r.2)
    else (none, s)

/-- What the checks of a body say: it is stored at a position, or it is invalid, perhaps by
corruption. -/
inductive BodyVerdict where
  | stored (pos : DiskBlockPos)
  | invalid (corruptionPossible : Bool)

/-- `fHasMoreWork` of `AcceptBlock`. -/
def hasMoreWork (s : ChainState) (p : Ptr) : Bool :=
  match s.tip with
  | none => true
  | some tip => decide ((s.node tip).nChainWork < (s.node p).nChainWork)

/-- `AcceptBlock` for a block of `nTx` transactions. -/
def acceptBlock (hashGenesisBlock : UInt256) (checks : Option Ptr → Bool) (s : ChainState)
    (hash : UInt256) (block : CBlockHeader) (pindexNew : Ptr) (fRequested : Bool) (nTx : Nat)
    (body : Ptr → BodyVerdict) : Bool × ChainState :=
  match s.acceptBlockHeader hashGenesisBlock checks hash block pindexNew with
  | (none, s) => (false, s)
  | (some p, s) =>
    if (s.node p).nStatus.haveData then (true, s)
    else if !fRequested && ((s.node p).nTx != 0 || !s.hasMoreWork p) then (true, s)
    else
      match body p with
      | .invalid corruptionPossible => (false, if corruptionPossible then s else s.rejectBlock p)
      | .stored pos => (true, s.receivedBlockTransactions p nTx pos)

/-! ## Runs -/

/-- The operations of the node on the chain state. -/
inductive Op where
  /-- `AddToBlockIndex`; a new entry gets the address `pindexNew`. -/
  | header (hash : UInt256) (block : CBlockHeader) (pindexNew : Ptr)
  /-- `ReceivedBlockTransactions`. -/
  | body (p : Ptr) (nTx : Nat) (pos : DiskBlockPos)
  /-- `AcceptBlock` finds the body invalid. -/
  | reject (p : Ptr)
  /-- `FindMostWorkChain`. -/
  | findMostWork
  /-- A round of `ActivateBestChain`: `FindMostWorkChain`, then `ActivateBestChainStep`. -/
  | activate (connectBlock : Ptr → Verdict)
  /-- `InvalidateBlock`. -/
  | invalidate (p : Ptr)
  /-- `ReconsiderBlock`. -/
  | reconsider (p : Ptr)
  /-- `PruneOneBlockFile`. -/
  | prune (fileNumber : Nat)

/-- `AcceptBlock` goes on to the body of an entry: it is not failed, and its data is not there. -/
def wantsBody (s : ChainState) (p : Ptr) : Bool :=
  decide (p ∈ s.mapBlockIndex) && !(s.node p).nStatus.failed && !(s.node p).nStatus.haveData

/-- One operation; `none` where it is not called so, or fails an assertion. -/
def step : Op → ChainState → Option ChainState
  | .header hash block pindexNew, s =>
    if pindexNew ∈ s.mapBlockIndex then none else some (s.addToBlockIndex hash block pindexNew).2
  | .body p nTx pos, s =>
    if s.wantsBody p ∧ 0 < nTx ∧ nTx < 2 ^ 32 then some (s.receivedBlockTransactions p nTx pos)
    else none
  | .reject p, s => if s.wantsBody p then some (s.rejectBlock p) else none
  | .findMostWork, s => s.findMostWorkChain.map Prod.snd
  | .activate connectBlock, s =>
    match s.findMostWorkChain with
    | none => none
    | some (none, s) => some s
    | some (some p, s) =>
      if s.tip = some p then some s
      else (s.activateBestChainStep connectBlock p).map Prod.snd
  | .invalidate p, s => if p ∈ s.mapBlockIndex then (s.invalidateBlock p).map Prod.snd else none
  | .reconsider p, s => if p ∈ s.mapBlockIndex then s.reconsiderBlock p else none
  | .prune fileNumber, s => some (s.pruneOneBlockFile fileNumber)

end ChainState

end GC
