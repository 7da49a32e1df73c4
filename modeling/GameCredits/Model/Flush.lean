import GameCredits.Framework.Effect
import GameCredits.Framework.Segments
import GameCredits.Model.ChainState
import GameCredits.Model.Validation

/-!
# Flushing the chain state (main.cpp, txdb.cpp, chain.h)

What `FlushStateToDisk` and the operations between its calls write, in order: the data in the block
and undo files and the commits of these files, the batch of the block index database, the removal of
pruned files, and the batch of the coin database. The checks of blocks and of the coins, the free
disk space and the failures of writes are given by verdicts.

Left out: the truncation and preallocation of files, the index of transactions, the wallets.
-/

namespace GC

open Framework

def MAX_BLOCKFILE_SIZE : Nat := 0x8000000
def BLOCKFILE_CHUNK_SIZE : Nat := 0x1000000
def UNDOFILE_CHUNK_SIZE : Nat := 0x100000
def MIN_BLOCKS_TO_KEEP : Nat := 960
def DATABASE_WRITE_INTERVAL : Nat := 60 * 60
def DATABASE_FLUSH_INTERVAL : Nat := 24 * 60 * 60

/-! ## On disk -/

/-- A number as an `unsigned int`. -/
def uint (n : Nat) : Nat := n % 2 ^ 32

structure CBlockFileInfo where
  nBlocks : Nat
  nSize : Nat
  nUndoSize : Nat
  nHeightFirst : Nat
  nHeightLast : Nat
  nTimeFirst : Nat
  nTimeLast : Nat
  deriving DecidableEq, Repr

namespace CBlockFileInfo

/-- `SetNull`. -/
def null : CBlockFileInfo := ⟨0, 0, 0, 0, 0, 0, 0⟩

/-- `AddBlock`. -/
def addBlock (info : CBlockFileInfo) (nHeightIn nTimeIn : Nat) : CBlockFileInfo :=
  { info with
    nHeightFirst :=
      if info.nBlocks = 0 ∨ nHeightIn < info.nHeightFirst then nHeightIn else info.nHeightFirst
    nTimeFirst := if info.nBlocks = 0 ∨ nTimeIn < info.nTimeFirst then nTimeIn else info.nTimeFirst
    nBlocks := uint (info.nBlocks + 1)
    nHeightLast := if info.nHeightLast < nHeightIn then nHeightIn else info.nHeightLast
    nTimeLast := if info.nTimeLast < nTimeIn then nTimeIn else info.nTimeLast }

/-- What a file takes on disk: the sum of two `unsigned int`. -/
def bytes (info : CBlockFileInfo) : Nat := uint (info.nSize + info.nUndoSize)

end CBlockFileInfo

/-- `CDiskBlockIndex` as it is read back: the positions are written only with their flags. -/
structure CDiskBlockIndex where
  hashPrev : UInt256
  nHeight : Nat
  nStatus : BlockStatus
  nTx : Nat
  nFile : Nat
  nDataPos : Nat
  nUndoPos : Nat
  nVersion : Int
  hashMerkleRoot : UInt256
  nTime : UInt32
  nBits : UInt32
  nNonce : UInt32
  deriving DecidableEq, Repr

namespace ChainState

/-- The hash of the parent, or null. -/
def hashPrev (s : ChainState) (p : Ptr) : UInt256 :=
  match (s.node p).pprev with
  | some q => (s.node q).phashBlock
  | none => 0

/-- `CDiskBlockIndex(pindex)`. -/
def diskIndex (s : ChainState) (p : Ptr) : CDiskBlockIndex :=
  let e := s.node p
  { hashPrev := s.hashPrev p
    nHeight := e.nHeight
    nStatus := e.nStatus
    nTx := e.nTx
    nFile := if e.nStatus.haveData || e.nStatus.haveUndo then e.nFile else 0
    nDataPos := if e.nStatus.haveData then e.nDataPos else 0
    nUndoPos := if e.nStatus.haveUndo then e.nUndoPos else 0
    nVersion := e.nVersion
    hashMerkleRoot := e.hashMerkleRoot
    nTime := e.nTime
    nBits := e.nBits
    nNonce := e.nNonce }

end ChainState

/-- What is on disk: the files `blk` and `rev` by number, with the block that data belongs to, the
block index database, and the best block of the coin database. -/
structure Disk where
  blk : Nat → Segment UInt256
  rev : Nat → Segment UInt256
  blockFiles : Nat → Option CBlockFileInfo
  lastBlock : Nat
  prunedblockfiles : Bool
  blockIndex : UInt256 → Option CDiskBlockIndex
  bestBlock : UInt256

/-- A write that takes place as a whole or not at all. -/
inductive DiskWrite where
  /-- `WriteBlockToDisk`. -/
  | block (pos : ChainState.DiskBlockPos) (hashBlock : UInt256)
  /-- `UndoWriteToDisk`. -/
  | undo (pos : ChainState.DiskBlockPos) (hashBlock : UInt256)
  /-- `FileCommit` of a block file. -/
  | commitBlock (nFile : Nat)
  /-- `FileCommit` of an undo file. -/
  | commitUndo (nFile : Nat)
  /-- `WriteFlag("prunedblockfiles", true)`. -/
  | prunedFlag
  /-- `CBlockTreeDB::WriteBatchSync`. -/
  | index (fileInfo : List (Nat × CBlockFileInfo)) (nLastFile : Nat)
      (blockinfo : List (UInt256 × CDiskBlockIndex))
  /-- `remove` of a block file. -/
  | unlinkBlock (nFile : Nat)
  /-- `remove` of an undo file. -/
  | unlinkUndo (nFile : Nat)
  /-- `CCoinsViewDB::BatchWrite`. -/
  | coins (hashBlock : UInt256)

/-- The records of a database after the writes of a batch. -/
def putAll {κ ν : Type} [DecidableEq κ] (records : κ → Option ν) (batch : List (κ × ν)) :
    κ → Option ν :=
  batch.foldl (fun records e k => if k = e.1 then some e.2 else records k) records

def Disk.write (d : Disk) : DiskWrite → Disk
  | .block pos hashBlock =>
    { d with blk := setFile d.blk pos.nFile ((d.blk pos.nFile).write pos.nPos hashBlock) }
  | .undo pos hashBlock =>
    { d with rev := setFile d.rev pos.nFile ((d.rev pos.nFile).write pos.nPos hashBlock) }
  | .commitBlock nFile => { d with blk := setFile d.blk nFile (d.blk nFile).commit }
  | .commitUndo nFile => { d with rev := setFile d.rev nFile (d.rev nFile).commit }
  | .prunedFlag => { d with prunedblockfiles := true }
  | .index fileInfo nLastFile blockinfo =>
    { d with
      blockFiles := putAll d.blockFiles fileInfo
      lastBlock := nLastFile
      blockIndex := putAll d.blockIndex blockinfo }
  | .unlinkBlock nFile => { d with blk := setFile d.blk nFile .absent }
  | .unlinkUndo nFile => { d with rev := setFile d.rev nFile .absent }
  | .coins hashBlock => { d with bestBlock := hashBlock }

/-! ## In memory -/

/-- The options of the node that pruning depends on, and `PruneAfterHeight` of the chain. -/
structure PruneArgs where
  fPruneMode : Bool
  fReindex : Bool
  nPruneTarget : Nat
  nPruneAfterHeight : Nat

/-- `CBaseChainParams::Network`. -/
inductive Network where
  | main
  | testnet
  | regtest

/-- `nPruneAfterHeight` of the chain parameters. -/
def Network.nPruneAfterHeight : Network → Nat
  | .main => 100000
  | .testnet => 1000
  | .regtest => 1000

/-- The globals of main.cpp that flushing is about. `hashBlock` is the best block of `pcoinsTip`;
`nLastWrite` and `nLastFlush` are the static variables of `FlushStateToDisk`. -/
structure Globals where
  chain : ChainState
  setDirtyBlockIndex : List Ptr
  setDirtyFileInfo : List Nat
  vinfoBlockFile : List CBlockFileInfo
  nLastBlockFile : Nat
  hashBlock : UInt256
  fCheckForPruning : Bool
  fHavePruned : Bool
  nLastWrite : Int
  nLastFlush : Int

/-- The effects of the node. -/
abbrev DiskEffect := Effect DiskWrite Globals

/-- `std::set::insert`. -/
def insertNew (p : Nat) (l : List Nat) : List Nat := if p ∈ l then l else p :: l

namespace Globals

def markDirty (g : Globals) (p : Ptr) : Globals :=
  { g with setDirtyBlockIndex := insertNew p g.setDirtyBlockIndex }

/-- `vinfoBlockFile[nFile]`, where the vector is lengthened when needed. -/
def info (g : Globals) (nFile : Nat) : CBlockFileInfo := g.vinfoBlockFile.getD nFile .null

/-- Changes an element of `vinfoBlockFile` and marks it as changed. -/
def setInfo (g : Globals) (nFile : Nat) (info : CBlockFileInfo) : Globals :=
  { g with
    vinfoBlockFile := (g.vinfoBlockFile ++
      List.replicate (nFile + 1 - g.vinfoBlockFile.length) CBlockFileInfo.null).set nFile info
    setDirtyFileInfo := insertNew nFile g.setDirtyFileInfo }

/-! ## Pruning -/

/-- `CalculateCurrentUsage`. -/
def calculateCurrentUsage (g : Globals) : Nat :=
  (g.vinfoBlockFile.map CBlockFileInfo.bytes).sum % 2 ^ 64

/-- `PruneOneBlockFile`. -/
def pruneOneBlockFile (g : Globals) (fileNumber : Nat) : Globals :=
  let pruned := g.chain.mapBlockIndex.filter fun p => (g.chain.node p).nFile == fileNumber
  { g with
    chain := g.chain.pruneOneBlockFile fileNumber
    setDirtyBlockIndex := pruned.foldl (fun l p => insertNew p l) g.setDirtyBlockIndex }.setInfo
      fileNumber .null

section

variable (args : PruneArgs)

/-- The loop of `FindFilesToPrune`; the usage is an `uint64_t`. -/
def pruneFiles (nLastBlockWeCanPrune : Nat) :
    (fileNumbers : List Nat) → (nCurrentUsage : Nat) → Globals → List Nat × Globals
  | [], _, g => ([], g)
  | fileNumber :: fileNumbers, nCurrentUsage, g =>
    let nBytesToPrune := (g.info fileNumber).bytes
    if (g.info fileNumber).nSize = 0 then pruneFiles nLastBlockWeCanPrune fileNumbers nCurrentUsage g
    else if (nCurrentUsage + (BLOCKFILE_CHUNK_SIZE + UNDOFILE_CHUNK_SIZE)) % 2 ^ 64 <
        args.nPruneTarget then
      ([], g)
    else if nLastBlockWeCanPrune < (g.info fileNumber).nHeightLast then
      pruneFiles nLastBlockWeCanPrune fileNumbers nCurrentUsage g
    else
      let r := pruneFiles nLastBlockWeCanPrune fileNumbers
        ((nCurrentUsage + 2 ^ 64 - nBytesToPrune) % 2 ^ 64) (g.pruneOneBlockFile fileNumber)
      (fileNumber :: r.1, r.2)

/-- `FindFilesToPrune`; `nLastBlockWeCanPrune` is an `unsigned int`. -/
def findFilesToPrune (g : Globals) : List Nat × Globals :=
  match g.chain.tip with
  | none => ([], g)
  | some tip =>
    let nHeight := (g.chain.node tip).nHeight
    if args.nPruneTarget = 0 ∨ nHeight ≤ args.nPruneAfterHeight then ([], g)
    else
      let nLastBlockWeCanPrune := (nHeight + 2 ^ 32 - MIN_BLOCKS_TO_KEEP) % 2 ^ 32
      let nCurrentUsage := g.calculateCurrentUsage
      if (nCurrentUsage + (BLOCKFILE_CHUNK_SIZE + UNDOFILE_CHUNK_SIZE)) % 2 ^ 64 <
          args.nPruneTarget then ([], g)
      else pruneFiles args nLastBlockWeCanPrune (List.range g.nLastBlockFile) nCurrentUsage g

end

/-! ## `FlushStateToDisk` -/

end Globals

inductive FlushStateMode where
  | none
  | ifNeeded
  | periodic
  | always
  deriving DecidableEq, Repr

/-- What a call of `FlushStateToDisk` finds: the time, how the size of the cache compares with its
limits, whether there is disk space for the index and for the coins, and whether the batches are
written. -/
structure FlushEnv where
  nNow : Int
  cacheLarge : Bool
  cacheCritical : Bool
  spaceForIndex : Bool
  spaceForCoins : Bool
  indexWritten : Bool
  coinsWritten : Bool

/-- `UnlinkPrunedFiles`. -/
def unlinkPrunedFiles (setFilesToPrune : List Nat) : List DiskWrite :=
  setFilesToPrune.flatMap fun n => [.unlinkBlock n, .unlinkUndo n]

namespace Globals

/-- `FlushBlockFile`. -/
def flushBlockFile (g : Globals) : List DiskWrite :=
  [.commitBlock g.nLastBlockFile, .commitUndo g.nLastBlockFile]

/-- The start of `FlushStateToDisk`, with the files to prune. -/
def checkForPruning (args : PruneArgs) (g : Globals) : List Nat × DiskEffect :=
  if args.fPruneMode && g.fCheckForPruning && !args.fReindex then
    let (setFilesToPrune, g) := g.findFilesToPrune args
    let g := { g with fCheckForPruning := false }
    if setFilesToPrune.isEmpty || g.fHavePruned then (setFilesToPrune, .done g)
    else (setFilesToPrune, .write [.prunedFlag] { g with fHavePruned := true })
  else ([], .done g)

/-- The batch of the dirty entries. -/
def indexBatch (g : Globals) : DiskWrite :=
  .index (g.setDirtyFileInfo.map fun n => (n, g.info n)) g.nLastBlockFile
    (g.setDirtyBlockIndex.map fun p => ((g.chain.node p).phashBlock, g.chain.diskIndex p))

/-- The writing of the blocks and of the block index, and the removal of pruned files. The dirty
sets are emptied before the batch is written. -/
def writeBlockIndex (env : FlushEnv) (setFilesToPrune : List Nat) (g : Globals) : DiskEffect :=
  if !env.spaceForIndex then .fail g
  else
    (Effect.write g.flushBlockFile g).andThen fun g =>
      let batch := g.indexBatch
      let g := { g with setDirtyFileInfo := [], setDirtyBlockIndex := [] }
      if !env.indexWritten then .fail g
      else .write (batch :: unlinkPrunedFiles setFilesToPrune) { g with nLastWrite := env.nNow }

/-- The flush of the coins. -/
def writeCoins (env : FlushEnv) (g : Globals) : DiskEffect :=
  if !env.spaceForCoins || !env.coinsWritten then .fail g
  else .write [.coins g.hashBlock] { g with nLastFlush := env.nNow }

/-- The variables of the last flush, set at the first call. -/
def startClock (g : Globals) (nNow : Int) : Globals :=
  { g with
    nLastWrite := if g.nLastWrite = 0 then nNow else g.nLastWrite
    nLastFlush := if g.nLastFlush = 0 then nNow else g.nLastFlush }

/-- `fPeriodicWrite`. -/
def periodicWrite (mode : FlushStateMode) (env : FlushEnv) (g : Globals) : Bool :=
  decide (mode = .periodic) && decide (g.nLastWrite + DATABASE_WRITE_INTERVAL * 1000000 < env.nNow)

/-- `fDoFullFlush`. -/
def doFullFlush (mode : FlushStateMode) (env : FlushEnv) (fFlushForPrune : Bool) (g : Globals) :
    Bool :=
  decide (mode = .always) || (decide (mode = .periodic) && env.cacheLarge) ||
    (decide (mode = .ifNeeded) && env.cacheCritical) ||
    (decide (mode = .periodic) &&
      decide (g.nLastFlush + DATABASE_FLUSH_INTERVAL * 1000000 < env.nNow)) || fFlushForPrune

/-- `FlushStateToDisk`. -/
def flushStateToDisk (args : PruneArgs) (mode : FlushStateMode) (env : FlushEnv) (g : Globals) :
    DiskEffect :=
  let (setFilesToPrune, e) := g.checkForPruning args
  e.andThen fun g =>
    let g := g.startClock env.nNow
    let fPeriodicWrite := g.periodicWrite mode env
    let fDoFullFlush := g.doFullFlush mode env !setFilesToPrune.isEmpty
    let e :=
      if fDoFullFlush || fPeriodicWrite then g.writeBlockIndex env setFilesToPrune else .done g
    if fDoFullFlush then e.andThen (writeCoins env) else e

end Globals

/-! ## Storing blocks -/

/-- Whether a block is written, its file cannot be opened, or the writing fails. -/
inductive BlockWrite where
  | written
  | notOpened
  | failed
  deriving DecidableEq, Repr

namespace Globals

/-- The number of chunks that some bytes take. -/
def chunks (nBytes chunkSize : Nat) : Nat := (nBytes + chunkSize - 1) / chunkSize

/-- The files that `FindBlockPos` leaves because the block does not fit into them. -/
def skipFull (nAddSize : Nat) : List CBlockFileInfo → Nat
  | [] => 0
  | info :: files => if MAX_BLOCKFILE_SIZE ≤ info.nSize + nAddSize then skipFull nAddSize files + 1 else 0

section

variable (args : PruneArgs)

/-- A file has grown: whether to look for files to prune. -/
def noteGrowth (grows : Bool) (g : Globals) : Globals :=
  if grows && args.fPruneMode then { g with fCheckForPruning := true } else g

/-- `FindBlockPos` for a position that is known. -/
def findKnownPos (g : Globals) (pos : ChainState.DiskBlockPos) (nAddSize nHeight nTime : Nat) : Globals :=
  let info := (g.info pos.nFile).addBlock nHeight nTime
  { g.setInfo pos.nFile { info with nSize := max (pos.nPos + nAddSize) info.nSize } with
    nLastBlockFile := pos.nFile }

/-- `FindBlockPos` for a new position. -/
def findBlockPos (g : Globals) (nAddSize nHeight nTime : Nat) (space : Bool) :
    ChainState.DiskBlockPos × DiskEffect :=
  let left := skipFull nAddSize (g.vinfoBlockFile.drop g.nLastBlockFile)
  let nFile := g.nLastBlockFile + left
  let flushes := (List.replicate left g.flushBlockFile).flatten
  let info := g.info nFile
  let grows := decide (chunks info.nSize BLOCKFILE_CHUNK_SIZE <
    chunks (info.nSize + nAddSize) BLOCKFILE_CHUNK_SIZE)
  let g := { g.setInfo nFile { info.addBlock nHeight nTime with nSize := info.nSize + nAddSize } with
    nLastBlockFile := nFile }
  (⟨nFile, info.nSize⟩, ⟨!grows || space, flushes, g.noteGrowth args grows⟩)

/-- `ReceivedBlockTransactions`. -/
def receivedBlockTransactions (g : Globals) (p : Ptr) (nTx : Nat) (pos : ChainState.DiskBlockPos) :
    Globals :=
  { g with chain := g.chain.receivedBlockTransactions p nTx pos }.markDirty p

/-- The end of `AcceptBlock`, from the writing of the block on. A block that is at a known position
is not written. -/
def storeBlock (g : Globals) (p : Ptr) (nTx nBlockSize : Nat) (dbp : Option ChainState.DiskBlockPos)
    (space : Bool) (blockWrite : BlockWrite) (env : FlushEnv) : DiskEffect :=
  let e := g.chain.node p
  let stored : DiskEffect :=
    match dbp with
    | some pos =>
      .done ((g.findKnownPos pos (nBlockSize + 8) e.nHeight e.nTime.toNat).receivedBlockTransactions
        p nTx pos)
    | none =>
      let (pos, found) := g.findBlockPos args (nBlockSize + 8) e.nHeight e.nTime.toNat space
      found.andThen fun g =>
        match blockWrite with
        | .written =>
          .write [.block ⟨pos.nFile, pos.nPos + 8⟩ e.phashBlock]
            (g.receivedBlockTransactions p nTx ⟨pos.nFile, pos.nPos + 8⟩)
        | .notOpened => .done (g.receivedBlockTransactions p nTx pos)
        | .failed => .fail g
  stored.andThen fun g =>
    if g.fCheckForPruning then (g.flushStateToDisk args .none env).ignore else .done g

/-! ## Moving the tip -/

end

end Globals

/-- What `ConnectBlock` says of a block: it connects, its undo data has a size, there is disk space
for it, and it is written; or the block is invalid, perhaps by corruption. -/
inductive ConnectVerdict where
  | connects (nUndoSize : Nat) (space written : Bool)
  | invalid (corruptionPossible : Bool)

namespace Globals

section

variable (args : PruneArgs)

/-- The writing of the undo data in `ConnectBlock`, which returns before it for the genesis block. -/
def writeUndo (g : Globals) (p : Ptr) (nUndoSize : Nat) (space written : Bool) : DiskEffect :=
  let e := g.chain.node p
  if e.pprev = none then .done g
  else if e.nStatus.haveUndo then
    if e.nStatus.isValid BLOCK_VALID_SCRIPTS then .done g
    else .done ({ g with chain := g.chain.recordConnected p 0 }.markDirty p)
  else
    let info := g.info e.nFile
    let nNewSize := info.nUndoSize + (nUndoSize + 40)
    let grows := decide (chunks info.nUndoSize UNDOFILE_CHUNK_SIZE < chunks nNewSize UNDOFILE_CHUNK_SIZE)
    let g := (g.setInfo e.nFile { info with nUndoSize := nNewSize }).noteGrowth args grows
    if (grows && !space) || !written then .fail g
    else
      .write [.undo ⟨e.nFile, info.nUndoSize + 8⟩ e.phashBlock]
        ({ g with chain := g.chain.recordConnected p (info.nUndoSize + 8) }.markDirty p)

/-- `InvalidBlockFound`. -/
def invalidBlockFound (g : Globals) (p : Ptr) (corruptionPossible : Bool) : Globals :=
  if corruptionPossible then g
  else { g with chain := (g.chain.markInvalid p).invalidChainFound p }.markDirty p

/-- `ConnectTip`, with the assertion of `ConnectBlock` on the best block of the coins; `none` where
an assertion fails. `read` says whether the block is read from disk. -/
def connectTip (g : Globals) (p : Ptr) (read : Bool) (verdict : ConnectVerdict) (env : FlushEnv) :
    Option DiskEffect :=
  if (g.chain.node p).pprev ≠ g.chain.tip then none
  else if !((g.chain.node p).nStatus.haveData && read) then some (.fail g)
  else if g.chain.hashPrev p ≠ g.hashBlock then none
  else
    match verdict with
    | .invalid corruptionPossible => some (.fail (g.invalidBlockFound p corruptionPossible))
    | .connects nUndoSize space written =>
      let connected := (g.writeUndo args p nUndoSize space written).map fun g =>
        { g with hashBlock := (g.chain.node p).phashBlock }
      some ((connected.andThen (flushStateToDisk args .ifNeeded env)).map fun g =>
        { g with chain := g.chain.updateTip (some p) })

/-- `DisconnectTip`; `undone` says whether the undo data is read and applied. -/
def disconnectTip (g : Globals) (read undone : Bool) (env : FlushEnv) : Option DiskEffect :=
  match g.chain.tip with
  | none => none
  | some p =>
    let e := g.chain.node p
    if !(e.nStatus.haveData && read) then some (.fail g)
    else if e.phashBlock ≠ g.hashBlock then none
    else if !(e.nStatus.haveUndo && undone) then some (.fail g)
    else
      some (({ g with hashBlock := g.chain.hashPrev p }.flushStateToDisk args .ifNeeded env).map
        fun g => { g with chain := g.chain.updateTip e.pprev })

end

/-- `AddToBlockIndex`; a new entry gets the address `pindexNew`. -/
def addToBlockIndex (g : Globals) (hash : UInt256) (block : CBlockHeader) (pindexNew : Ptr) :
    Globals :=
  match g.chain.find hash with
  | some _ => g
  | none => { g with chain := g.chain.addEntry hash block pindexNew }.markDirty pindexNew

end Globals

/-! ## Runs -/

/-- The operations of the node that write to disk, or change what is written. -/
inductive FlushOp where
  /-- `AddToBlockIndex`. -/
  | header (hash : UInt256) (block : CBlockHeader) (pindexNew : Ptr)
  /-- `AcceptBlock` finds the body valid; `dbp` is given while reindexing. -/
  | block (p : Ptr) (nTx nBlockSize : Nat) (dbp : Option ChainState.DiskBlockPos) (space : Bool)
      (blockWrite : BlockWrite) (env : FlushEnv)
  /-- `AcceptBlock` finds the body invalid. -/
  | reject (p : Ptr)
  | connectTip (p : Ptr) (read : Bool) (verdict : ConnectVerdict) (env : FlushEnv)
  | disconnectTip (read undone : Bool) (env : FlushEnv)
  /-- `FlushStateToDisk`, called from elsewhere. -/
  | flush (mode : FlushStateMode) (env : FlushEnv)
  | pruneAndFlush (env : FlushEnv)

namespace Globals

/-- One operation; `none` where it is not called so, or fails an assertion. The size of a block has
been checked. -/
def act (args : PruneArgs) : FlushOp → Globals → Option DiskEffect
  | .header hash block pindexNew, g =>
    if pindexNew ∈ g.chain.mapBlockIndex then none
    else some (.done (g.addToBlockIndex hash block pindexNew))
  | .block p nTx nBlockSize dbp space blockWrite env, g =>
    if g.chain.wantsBody p ∧ 0 < nTx ∧ nTx < 2 ^ 32 ∧ 0 < nBlockSize ∧ nBlockSize ≤ MAX_BLOCK_SIZE
    then some (g.storeBlock args p nTx nBlockSize dbp space blockWrite env)
    else none
  | .reject p, g =>
    if g.chain.wantsBody p then
      some (.done ({ g with chain := g.chain.rejectBlock p }.markDirty p))
    else none
  | .connectTip p read verdict env, g =>
    if p ∈ g.chain.mapBlockIndex then g.connectTip args p read verdict env else none
  | .disconnectTip read undone env, g => g.disconnectTip args read undone env
  | .flush mode env, g => some (g.flushStateToDisk args mode env)
  | .pruneAndFlush env, g =>
    some ({ g with fCheckForPruning := true }.flushStateToDisk args .none env)

/-- One operation on memory and disk. -/
def step (args : PruneArgs) : FlushOp → Globals × Disk → Option (Globals × Disk) :=
  machine Disk.write (act args)

/-- The globals of a node that starts without a chain. -/
def empty : Globals := ⟨.empty, [], [], [], 0, 0, false, false, 0, 0⟩

end Globals

/-- The disk of a node that starts without a chain. -/
def Disk.empty : Disk :=
  ⟨fun _ => .absent, fun _ => .absent, fun _ => none, 0, false, fun _ => none, 0⟩

end GC
