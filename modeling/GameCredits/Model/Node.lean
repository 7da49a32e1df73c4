import GameCredits.Framework.DepthFirst
import GameCredits.Model.Pow

/-!
# A node that is left alone (main.cpp, txdb.cpp)

What a node does with the headers and blocks that reach it, as long as nobody asks it to invalidate, to
reconsider or to prune any: it accepts them, and it looks for the best chain. Whether a block connects
is the same whenever it is tried.
-/

namespace GC

open Framework

namespace ChainState

/-- The operations of the node. -/
inductive NodeOp where
  /-- `AcceptBlockHeader`; a new entry gets the address `pindexNew`. -/
  | header (checks : Option Ptr → Bool) (hash : UInt256) (block : CBlockHeader) (pindexNew : Ptr)
  /-- `AcceptBlock`. -/
  | block (checks : Option Ptr → Bool) (hash : UInt256) (block : CBlockHeader) (pindexNew : Ptr)
    (fRequested : Bool) (nTx : Nat) (body : Ptr → BodyVerdict)
  /-- `ActivateBestChain`. -/
  | activate

/-- Rounds that are enough for `ActivateBestChain`: each one flags an entry, or raises the tip. -/
def rounds (s : ChainState) : Nat := (s.mapBlockIndex.length + 1) * (s.mapBlockIndex.length + 1)

section

variable (hashGenesisBlock : UInt256) (connectBlock : Ptr → Verdict)

/-- One operation. A new entry is at an address that is not in use, and a block has transactions. -/
def nodeStep : NodeOp → ChainState → Option ChainState
  | .header checks hash block pindexNew, s =>
    if pindexNew ∈ s.mapBlockIndex then none
    else some (s.acceptBlockHeader hashGenesisBlock checks hash block pindexNew).2
  | .block checks hash block pindexNew fRequested nTx body, s =>
    if pindexNew ∈ s.mapBlockIndex ∨ nTx = 0 then none
    else some (s.acceptBlock hashGenesisBlock checks hash block pindexNew fRequested nTx body).2
  | .activate, s => (s.activateBestChain connectBlock s.rounds).value?.map Prod.snd

end

end ChainState

/-! ## CheckBlockIndex

The checks made when `fCheckBlockIndex` is set: a depth-first walk over all entries that keeps, of
several properties, the oldest ancestor that has it. A check that fails is `false`. -/

def BLOCK_VALID_CHAIN : Nat := 4

namespace ChainState

/-- The properties whose oldest bearer on the way from the genesis block is remembered, in
`pindexFirstInvalid`, `pindexFirstMissing` and so on. -/
inductive First where
  | invalid
  | missing
  | neverProcessed
  | notTreeValid
  | notTransactionsValid
  | notChainValid
  | notScriptsValid
  deriving DecidableEq

/-- A level of validity that an entry other than the genesis block does not have. -/
def lacksValid (s : ChainState) (nUpTo : Nat) (p : Ptr) : Bool :=
  (s.node p).pprev.isSome && decide ((s.node p).nStatus.valid < nUpTo)

/-- Whether an entry has a property. -/
def First.has (s : ChainState) : First → Ptr → Bool
  | invalid, p => (s.node p).nStatus.failedValid
  | missing, p => !(s.node p).nStatus.haveData
  | neverProcessed, p => (s.node p).nTx == 0
  | notTreeValid, p => s.lacksValid BLOCK_VALID_TREE p
  | notTransactionsValid, p => s.lacksValid BLOCK_VALID_TRANSACTIONS p
  | notChainValid, p => s.lacksValid BLOCK_VALID_CHAIN p
  | notScriptsValid, p => s.lacksValid BLOCK_VALID_SCRIPTS p

/-- `setBlockIndexCandidates.count`. -/
def isCandidate (s : ChainState) (p : Ptr) : Bool := SortedSet.contains s.less p s.setBlockIndexCandidates

/-- `foundInUnlinked`: the entry is among those that wait for its parent. -/
def foundInUnlinked (s : ChainState) (p : Ptr) : Bool :=
  s.mapBlocksUnlinked.any fun e => some e.1 == (s.node p).pprev && e.2 == p

section

variable (s : ChainState) (p : Ptr) (pindexFirst : First → Option Ptr)

/-- The genesis block has the right hash, and begins the active chain. -/
def checkGenesis (hashGenesisBlock : UInt256) : Bool :=
  (s.node p).pprev.isSome ||
    (s.node p).phashBlock == hashGenesisBlock && s.vChain.head? == some p

/-- The data of an entry, the numbers of transactions and the sequence number. -/
def checkData (fHavePruned : Bool) : Bool :=
  let e := s.node p
  (e.nChainTx != 0 || e.nSequenceId == 0) &&
  (if fHavePruned then !e.nStatus.haveData || decide (0 < e.nTx)
    else (!e.nStatus.haveData) == (e.nTx == 0) && pindexFirst .missing == pindexFirst .neverProcessed) &&
  (!e.nStatus.haveUndo || e.nStatus.haveData) &&
  decide (BLOCK_VALID_TRANSACTIONS ≤ e.nStatus.valid) == decide (0 < e.nTx) &&
  (pindexFirst .neverProcessed).isSome == (e.nChainTx == 0) &&
  (pindexFirst .notTransactionsValid).isSome == (e.nChainTx == 0)

/-- The place of an entry in the tree. -/
def checkPlace (nHeight : Int) : Bool :=
  let e := s.node p
  (e.nHeight : Int) == nHeight &&
  e.pprev.all (fun q => decide ((s.node q).nChainWork ≤ e.nChainWork)) &&
  (decide (nHeight < 2) || e.pskip.any fun q => decide (((s.node q).nHeight : Int) < nHeight))

/-- The levels of validity. -/
def checkValid : Bool :=
  let e := s.node p
  (pindexFirst .notTreeValid).isNone &&
  (!decide (BLOCK_VALID_TREE ≤ e.nStatus.valid) || (pindexFirst .notTreeValid).isNone) &&
  (!decide (BLOCK_VALID_CHAIN ≤ e.nStatus.valid) || (pindexFirst .notChainValid).isNone) &&
  (!decide (BLOCK_VALID_SCRIPTS ≤ e.nStatus.valid) || (pindexFirst .notScriptsValid).isNone) &&
  ((pindexFirst .invalid).isSome || !e.nStatus.failed)

/-- An entry not below the tip whose chain is there and valid is a candidate. -/
def checkCandidate : Bool :=
  if !s.belowTip p && (pindexFirst .neverProcessed).isNone then
    !((pindexFirst .invalid).isNone && ((pindexFirst .missing).isNone || s.tip == some p)) ||
      s.isCandidate p
  else !s.isCandidate p

/-- Which entries wait for their parents. -/
def checkUnlinked (fHavePruned : Bool) : Bool :=
  let e := s.node p
  let found := s.foundInUnlinked p
  (!(e.pprev.isSome && e.nStatus.haveData && (pindexFirst .neverProcessed).isSome &&
    (pindexFirst .invalid).isNone) || found) &&
  (e.nStatus.haveData || !found) &&
  ((pindexFirst .missing).isSome || !found) &&
  (!(e.pprev.isSome && e.nStatus.haveData && (pindexFirst .neverProcessed).isNone &&
    (pindexFirst .missing).isSome) ||
    fHavePruned &&
      (!(!s.belowTip p && !s.isCandidate p && (pindexFirst .invalid).isNone) || found))

/-- The checks of an entry. -/
def checkEntry (hashGenesisBlock : UInt256) (fHavePruned : Bool) (nHeight : Int) : Bool :=
  s.checkGenesis p hashGenesisBlock && s.checkData p pindexFirst fHavePruned &&
  s.checkPlace p nHeight && s.checkValid p pindexFirst && s.checkCandidate p pindexFirst &&
  s.checkUnlinked p pindexFirst fHavePruned

end

/-- What the walk carries along. -/
structure CheckState where
  nNodes : Nat
  nHeight : Int
  pindexFirst : First → Option Ptr

/-- An entry is remembered for a property if none before it is. -/
def setFirst (s : ChainState) (p : Ptr) (pindexFirst : First → Option Ptr) : First → Option Ptr :=
  fun f => if (pindexFirst f).isNone && f.has s p then some p else pindexFirst f

/-- An entry that was the first with a property is left. -/
def unsetFirst (p : Ptr) (pindexFirst : First → Option Ptr) : First → Option Ptr :=
  fun f => if some p = pindexFirst f then none else pindexFirst f

/-- What the walk does with its variables. -/
def checkVisitor (hashGenesisBlock : UInt256) (fHavePruned : Bool) (s : ChainState) :
    Visitor Ptr CheckState where
  enter p x :=
    let pindexFirst := s.setFirst p x.pindexFirst
    if s.checkEntry p pindexFirst hashGenesisBlock fHavePruned x.nHeight then
      some { x with nNodes := x.nNodes + 1, pindexFirst := pindexFirst }
    else none
  down x := { x with nHeight := x.nHeight + 1 }
  leave p x := { x with pindexFirst := unsetFirst p x.pindexFirst }
  up x := { x with nHeight := x.nHeight - 1 }

/-- The range of `forward` for a parent: its children, in the order in which they are inserted. -/
def forward (s : ChainState) (p : Option Ptr) : List Ptr :=
  s.mapBlockIndex.filter fun q => (s.node q).pprev == p

/-- `CheckBlockIndex`. The number of entries bounds the rounds of the walk, and the height of an entry
those on the way up from it. -/
def checkBlockIndex (hashGenesisBlock : UInt256) (fHavePruned : Bool) (s : ChainState) : Bool :=
  if s.vChain.isEmpty then decide (s.mapBlockIndex.length ≤ 1)
  else
    match s.forward none with
    | [pindex] =>
      (walk (checkVisitor hashGenesisBlock fHavePruned s) (fun p => (s.node p).pprev) s.forward
        (fun p => (s.node p).nHeight) s.mapBlockIndex.length (some pindex) ⟨0, 0, fun _ => none⟩).any
        fun x => x.nNodes == s.mapBlockIndex.length
    | _ => false

end ChainState

end GC
