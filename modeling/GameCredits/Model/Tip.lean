import GameCredits.Model.CoinsDB
import GameCredits.Model.Mempool

/-!
# The tip of the active chain (main.cpp)

`ConnectTip` and `DisconnectTip` with the coins of the tip, the undo data on disk and the memory
pool. The caches on `pcoinsTip` are left out: its coins are a plain store.
-/

namespace GC

open Framework (Bytes Map Prog)

/-- A block of the active chain and its index entry. -/
structure TipBlock where
  block : CBlock
  pindex : BlockRef

/-- The undo data on disk, by the hash of the block; none where `GetUndoPos` is null. -/
abbrev UndoFiles := UInt256 → Option Bytes

/-- The writing of undo data in `ConnectBlock`, which a block that has undo data leaves out. -/
def UndoFiles.write (undo : UndoFiles) (hashBlock : UInt256) (bytes : Bytes) : UndoFiles :=
  fun hash => if hash = hashBlock then some ((undo hashBlock).getD bytes) else undo hash

/-- `DisconnectBlock` with the undo data on disk. -/
def disconnectStored (env : Env) (block : CBlock) (pindex : BlockRef) (undo : Option Bytes) :
    CoinsProg Bool :=
  match undo.bind (readBlockUndo env.ops).run with
  | none => do
    let hashBest ← getBestBlock
    Prog.check (pindex.hashBlock == hashBest) .assertion
    .fail .error
  | some (blockUndo, _) => disconnectBlock env block pindex blockUndo

/-- The blocks of the active chain above the genesis block, the tip first, the coins, the undo data
and the pool. -/
structure TipState where
  blocks : List TipBlock
  coins : Map UInt256 CCoins UInt256
  undo : UndoFiles
  mempool : CTxMemPool

/-- What happens to a tip. `policy` is the outcome of the checks of `AcceptToMemoryPool` that are
left out. -/
inductive TipOp where
  | accept (policy : Bool) (tx : CTransaction)
  | connect (block : CBlock) (pindex : BlockRef)
  | disconnect (policy : CTransaction → Bool)
  | clear

namespace TipState

variable (env : Env)

/-- The chain of the genesis block, whose transactions have no coins, and an empty pool. -/
def init : TipState := ⟨[], ⟨fun _ => none, env.hashGenesisBlock⟩, fun _ => none, .empty⟩

/-- `AcceptToMemoryPool` on the coins of the tip. -/
def accept (s : TipState) (policy : Bool) (tx : CTransaction) : TipState :=
  match acceptToMemoryPool env policy s.mempool s.coins tx with
  | .ok mempool => { s with mempool }
  | .error _ => s

/-- `ConnectTip`; a block that `ConnectBlock` rejects leaves everything here alone. -/
def connectTip (s : TipState) (block : CBlock) (pindex : BlockRef) : TipState :=
  match (connectBlock env block pindex false).run (Map.impl .empty) s.coins with
  | (.ok blockundo, coins) =>
    ⟨⟨block, pindex⟩ :: s.blocks, coins,
      s.undo.write pindex.hashBlock (writeBlockUndo env.ops blockundo),
      s.mempool.removeForBlock env block.vtx⟩
  | (.error _, _) => s

/-- The loop of `DisconnectTip` that resurrects the transactions of the block, one iteration. -/
def resurrect (policy : CTransaction → Bool) (coins : Map UInt256 CCoins UInt256)
    (mempool : CTxMemPool) (tx : CTransaction) : CTxMemPool :=
  if tx.isCoinBase then (mempool.remove env tx [] true).1
  else
    match acceptToMemoryPool env (policy tx) mempool coins tx with
    | .ok mempool => mempool
    | .error _ => (mempool.remove env tx [] true).1

/-- `DisconnectTip`. -/
def disconnectTip (s : TipState) (policy : CTransaction → Bool) : TipState :=
  match s.blocks with
  | [] => s
  | ⟨block, pindex⟩ :: blocks =>
    match (disconnectStored env block pindex (s.undo pindex.hashBlock)).run (Map.impl .empty)
        s.coins with
    | (.ok true, coins) =>
      ⟨blocks, coins, s.undo, (block.vtx.foldl (resurrect env policy coins)
        s.mempool).removeCoinbaseSpends env coins.rec? pindex.nHeight⟩
    | _ => s

/-- One operation. -/
def step (s : TipState) : TipOp → TipState
  | .accept policy tx => s.accept env policy tx
  | .connect block pindex => s.connectTip env block pindex
  | .disconnect policy => s.disconnectTip env policy
  | .clear => { s with mempool := .empty }

/-- The operations one after another, from the chain of the genesis block. -/
def run (ops : List TipOp) : TipState := ops.foldl (step env) (init env)

end TipState

end GC
