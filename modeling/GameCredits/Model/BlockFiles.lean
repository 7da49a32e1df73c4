import GameCredits.Framework.Extents
import GameCredits.Framework.Run
import GameCredits.Model.Flush

/-!
# Positions in block files (main.cpp, main.h)

`FindBlockPos`, `FindUndoPos` and `PruneOneBlockFile` on the table of block files, in the arithmetic of
`unsigned int`, with what their callers write to the block index. `Model/Flush.lean` has what is written
to the files meanwhile, with sizes that do not wrap around; this is left out here, but for whether it
succeeds.
-/

namespace GC.BlockFiles

open Framework
open ChainState (DiskBlockPos)

/-! ## The table of files -/

/-- The globals of main.cpp about block files. -/
structure Files where
  vinfoBlockFile : List CBlockFileInfo
  nLastBlockFile : Nat
  setDirtyFileInfo : List Nat
  fCheckForPruning : Bool

namespace Files

def empty : Files := ⟨[], 0, [], false⟩

variable (s : Files)

/-- `vinfoBlockFile[nFile]`, where the vector is lengthened when needed. -/
def info (nFile : Nat) : CBlockFileInfo := s.vinfoBlockFile.getD nFile .null

/-- Changes an element of `vinfoBlockFile`. -/
def setInfo (nFile : Nat) (info : CBlockFileInfo) : Files :=
  { s with
    vinfoBlockFile := (s.vinfoBlockFile ++
      List.replicate (nFile + 1 - s.vinfoBlockFile.length) CBlockFileInfo.null).set nFile info }

def setLast (nFile : Nat) : Files := { s with nLastBlockFile := nFile }

def markDirty (nFile : Nat) : Files :=
  { s with setDirtyFileInfo := insertNew nFile s.setDirtyFileInfo }

/-- The number of chunks that some bytes take. -/
def chunks (nBytes chunkSize : Nat) : Nat := uint (nBytes + chunkSize - 1) / chunkSize

/-- Whether a file takes more chunks than before. -/
def growsChunks (nOldSize nNewSize chunkSize : Nat) : Bool :=
  decide (chunks nOldSize chunkSize < chunks nNewSize chunkSize)

/-- A file has grown: whether to look for files to prune. -/
def noteGrowth (fPruneMode grows : Bool) : Files :=
  if grows && fPruneMode then { s with fCheckForPruning := true } else s

/-- The loop of `FindBlockPos`: the number of files that it leaves. Past the end of the vector it adds
files of size 0; `none` where it goes on for ever. -/
def filesLeft (nAddSize : Nat) : List CBlockFileInfo → Option Nat
  | [] => if MAX_BLOCKFILE_SIZE ≤ nAddSize then none else some 0
  | info :: files =>
    if MAX_BLOCKFILE_SIZE ≤ uint (info.nSize + nAddSize) then (filesLeft nAddSize files).map (· + 1)
    else some 0

/-- `FindBlockPos` with `fKnown`. -/
def findKnownPos (pos : DiskBlockPos) (nAddSize nHeight nTime : Nat) : Files :=
  let info := (s.info pos.nFile).addBlock nHeight nTime
  ((s.setInfo pos.nFile { info with nSize := max (uint (pos.nPos + nAddSize)) info.nSize }).setLast
    pos.nFile).markDirty pos.nFile

/-- `FindBlockPos` for a new position, after its loop: the position, and whether there is `space`. -/
def takeBlockPos (fPruneMode : Bool) (nFile nAddSize nHeight nTime : Nat) (space : Bool) :
    DiskBlockPos × Bool × Files :=
  let info := s.info nFile
  let nSize := uint (info.nSize + nAddSize)
  let grows := growsChunks info.nSize nSize BLOCKFILE_CHUNK_SIZE
  let s := (s.setInfo nFile { info.addBlock nHeight nTime with nSize := nSize }).setLast nFile
  let s := s.noteGrowth fPruneMode grows
  let found := !grows || space
  (⟨nFile, info.nSize⟩, found, if found then s.markDirty nFile else s)

/-- `FindBlockPos` without `fKnown`. -/
def findBlockPos (fPruneMode : Bool) (nAddSize nHeight nTime : Nat) (space : Bool) :
    Option (DiskBlockPos × Bool × Files) :=
  (filesLeft nAddSize (s.vinfoBlockFile.drop s.nLastBlockFile)).map fun left =>
    s.takeBlockPos fPruneMode (s.nLastBlockFile + left) nAddSize nHeight nTime space

/-- `FindUndoPos`: the position, and whether there is `space`. -/
def findUndoPos (fPruneMode : Bool) (nFile nAddSize : Nat) (space : Bool) :
    DiskBlockPos × Bool × Files :=
  let info := s.info nFile
  let nNewSize := uint (info.nUndoSize + nAddSize)
  let grows := growsChunks info.nUndoSize nNewSize UNDOFILE_CHUNK_SIZE
  let s := ((s.setInfo nFile { info with nUndoSize := nNewSize }).markDirty nFile).noteGrowth
    fPruneMode grows
  (⟨nFile, info.nUndoSize⟩, !grows || space, s)

/-- The end of `PruneOneBlockFile`. -/
def setNull (fileNumber : Nat) : Files := (s.setInfo fileNumber .null).markDirty fileNumber

end Files

/-! ## Blocks and undo data -/

/-- The table of files and the block index, with what has been given out: the ranges of `FindBlockPos`
for new blocks and of `FindUndoPos`, and the ranges of the data and the undo data of the entries.
`pruned` are the files that `PruneOneBlockFile` has been called for, `reindexing` says that no new block
has come and nothing has been pruned. -/
structure Node where
  chain : ChainState
  files : Files
  reindexing : Bool
  blk : List Extent
  rev : List Extent
  dataOf : Ptr → Extent
  undoOf : Ptr → Extent
  pruned : List Nat

namespace Node

variable (s : Node)

/-- `ReceivedBlockTransactions`, for an entry that takes up a range. -/
def received (p : Ptr) (nTx : Nat) (pos : DiskBlockPos) (e : Extent) : Node :=
  { s with
    chain := s.chain.receivedBlockTransactions p nTx pos
    dataOf := Function.update s.dataOf p e }

/-- The end of `AcceptBlock` for a block at a known position. -/
def acceptKnown (p : Ptr) (nTx : Nat) (pos : DiskBlockPos) (nAddSize : Nat) : Node :=
  let e := s.chain.node p
  { s with files := s.files.findKnownPos pos nAddSize e.nHeight e.nTime.toNat }.received p nTx pos
    ⟨pos.nFile, pos.nPos, nAddSize⟩

/-- The end of `AcceptBlock` for a new block. A block that is not written because its file cannot be
opened is stored nevertheless. -/
def acceptNew (fPruneMode : Bool) (p : Ptr) (nTx nAddSize : Nat) (space : Bool) (write : BlockWrite) :
    Option Node :=
  let e := s.chain.node p
  (s.files.findBlockPos fPruneMode nAddSize e.nHeight e.nTime.toNat space).map
    fun (pos, found, files) =>
      let s := { s with files := files, reindexing := false }
      if !found then s
      else
        let given : Extent := ⟨pos.nFile, pos.nPos, nAddSize⟩
        let s := { s with blk := given :: s.blk }
        match write with
        | .written => s.received p nTx ⟨pos.nFile, uint (pos.nPos + 8)⟩ given
        | .notOpened => s.received p nTx pos given
        | .failed => s

/-- The end of `ConnectBlock`, for an entry that takes up a range. One that has undo data keeps it. -/
def connected (p : Ptr) (e : Extent) : Node :=
  { s with
    chain := s.chain.recordConnected p (uint (e.start + 8))
    undoOf :=
      if (s.chain.node p).nStatus.haveUndo then s.undoOf else Function.update s.undoOf p e }

/-- The writing of the undo data in `ConnectBlock`. -/
def writeUndo (fPruneMode : Bool) (p : Ptr) (nAddSize : Nat) (space written : Bool) : Node :=
  let (pos, found, files) := s.files.findUndoPos fPruneMode (s.chain.node p).nFile nAddSize space
  let given : Extent := ⟨pos.nFile, pos.nPos, nAddSize⟩
  let s := { s with files := files, rev := given :: s.rev }
  if found && written then s.connected p given else s

/-- `PruneOneBlockFile`. -/
def pruneOneBlockFile (fileNumber : Nat) : Node :=
  { s with
    chain := s.chain.pruneOneBlockFile fileNumber
    files := s.files.setNull fileNumber
    reindexing := false
    pruned := fileNumber :: s.pruned }

end Node

/-! ## Runs -/

inductive Op where
  /-- A block is found at a position of a file that is read again. -/
  | known (p : Ptr) (nTx : Nat) (pos : DiskBlockPos) (nAddSize : Nat)
  | new (p : Ptr) (nTx nAddSize : Nat) (space : Bool) (write : BlockWrite)
  | undo (p : Ptr) (nAddSize : Nat) (space written : Bool)
  | prune (fileNumber : Nat)

namespace Node

/-- The undo bytes that have been allocated in a file; one that has been pruned gets no more. -/
def undoBytes (s : Node) (nFile : Nat) : Nat :=
  ((s.rev.filter fun e => e.file == nFile).map Extent.length).sum

/-- The operation is called so: blocks at known positions come first, no block is stored twice, only
blocks that are stored are connected, with less than 2^32 undo bytes in a file, and the last file is not
pruned. -/
def calls (s : Node) : Op → Prop
  | .known p _ pos nAddSize => s.reindexing = true ∧ p ∈ s.chain.mapBlockIndex ∧
      (s.chain.node p).nStatus.haveData = false ∧ pos.nPos < 2 ^ 32 ∧ nAddSize < 2 ^ 32
  | .new p _ nAddSize _ _ => p ∈ s.chain.mapBlockIndex ∧
      (s.chain.node p).nStatus.haveData = false ∧ nAddSize < MAX_BLOCKFILE_SIZE
  | .undo p nAddSize _ _ => p ∈ s.chain.mapBlockIndex ∧
      (s.chain.node p).nStatus.haveData = true ∧
      s.undoBytes (s.chain.node p).nFile + nAddSize < 2 ^ 32
  | .prune fileNumber => fileNumber < s.files.nLastBlockFile

instance (s : Node) : (op : Op) → Decidable (s.calls op)
  | .known .. => inferInstanceAs (Decidable (_ ∧ _))
  | .new .. => inferInstanceAs (Decidable (_ ∧ _))
  | .undo .. => inferInstanceAs (Decidable (_ ∧ _))
  | .prune _ => inferInstanceAs (Decidable (_ < _))

/-- One operation; `none` where it is not called so, or does not end. -/
def step (fPruneMode : Bool) (op : Op) (s : Node) : Option Node :=
  if s.calls op then
    match op with
    | .known p nTx pos nAddSize => some (s.acceptKnown p nTx pos nAddSize)
    | .new p nTx nAddSize space write => s.acceptNew fPruneMode p nTx nAddSize space write
    | .undo p nAddSize space written => some (s.writeUndo fPruneMode p nAddSize space written)
    | .prune fileNumber => some (s.pruneOneBlockFile fileNumber)
  else none

/-- No file has been used, and no entry has data. -/
def start (chain : ChainState) : Node :=
  ⟨chain, .empty, true, [], [], fun _ => ⟨0, 0, 0⟩, fun _ => ⟨0, 0, 0⟩, []⟩

end Node

end GC.BlockFiles
