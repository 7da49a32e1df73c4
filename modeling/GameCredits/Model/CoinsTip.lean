import GameCredits.Model.Tip
import GameCredits.Model.Views

/-!
# The coins of the tip as caches (main.cpp)

`ConnectTip` and `DisconnectTip` on `pcoinsTip`, a cache on the coin database, with the child cache
in which they run, and the flush of `FlushStateToDisk`. The chain starts empty: the genesis block is
connected like the others.
-/

namespace GC

open Framework (Map Prog)

/-- `CCoinsViewCache::Flush` of a view that is a cache. -/
def CoinsView.flush (ops : PubKeyOps) : CoinsView → CoinsView
  | .db view => .db view
  | .cache view base =>
    .cache { view with cacheCoins := fun _ => none }
      (base.batchWrite ops view.cacheCoins view.hashBlock)

/-- The active chain, the tip first, `pcoinsTip` and the undo data on disk. -/
structure CoinsTip where
  chainActive : List TipBlock
  pcoinsTip : CoinsView
  undo : UndoFiles

/-- What happens to `pcoinsTip`: besides `ConnectTip` and `DisconnectTip`, others read it and
`FlushStateToDisk` flushes it. -/
inductive CoinsTipOp where
  | connectTip (pindexNew : TipBlock)
  | disconnectTip
  | getCoins (txid : UInt256)
  | getBestBlock
  | flush

namespace CoinsTip

variable (env : Env)

/-- An empty chain on an empty database. -/
def init : CoinsTip := ⟨[], .cache .new (.db ⟨fun _ => none, 0⟩), fun _ => none⟩

/-- `chainActive.Tip()`, as the hash of the block. -/
def tip (s : CoinsTip) : Option UInt256 := s.chainActive.head?.map fun b => b.pindex.hashBlock

/-- The writing of the undo data in `ConnectBlock`, which returns before it for the genesis block. -/
def writeUndo (s : CoinsTip) (b : TipBlock) (blockundo : CBlockUndo) : UndoFiles :=
  if b.block.getHash env.hash = env.hashGenesisBlock then s.undo
  else s.undo.write b.pindex.hashBlock (writeBlockUndo env.ops blockundo)

/-- `ConnectTip`, whose assertion is that the block stands on the tip; a child cache that is not
flushed is discarded. -/
def connectTip (s : CoinsTip) (b : TipBlock) : CoinsTip :=
  if b.pindex.hashPrev = s.tip then
    match (connectBlock env b.block b.pindex false).run (viewImpl env.ops) ⟨.new, s.pcoinsTip⟩ with
    | (.ok blockundo, view) =>
      ⟨b :: s.chainActive, (view.flush env.ops).base, s.writeUndo env b blockundo⟩
    | (.error _, view) => { s with pcoinsTip := view.base }
  else s

/-- `DisconnectTip`. -/
def disconnectTip (s : CoinsTip) : CoinsTip :=
  match s.chainActive with
  | [] => s
  | b :: blocks =>
    match (disconnectStored env b.block b.pindex (s.undo b.pindex.hashBlock)).run
        (viewImpl env.ops) ⟨.new, s.pcoinsTip⟩ with
    | (.ok true, view) => ⟨blocks, (view.flush env.ops).base, s.undo⟩
    | (_, view) => { s with pcoinsTip := view.base }

/-- One operation. -/
def step (s : CoinsTip) : CoinsTipOp → CoinsTip
  | .connectTip pindexNew => s.connectTip env pindexNew
  | .disconnectTip => s.disconnectTip env
  | .getCoins txid => { s with pcoinsTip := (s.pcoinsTip.getCoins env.ops txid).2 }
  | .getBestBlock => { s with pcoinsTip := s.pcoinsTip.getBestBlock.2 }
  | .flush => { s with pcoinsTip := s.pcoinsTip.flush env.ops }

/-- The operations one after another, from the empty chain. -/
def run (ops : List CoinsTipOp) : CoinsTip := ops.foldl (step env) init

end CoinsTip

/-- Applying the blocks, the last one first, to an empty view. -/
def applyBlocks (env : Env) : List TipBlock → Option (Map UInt256 CCoins UInt256)
  | [] => some ⟨fun _ => none, 0⟩
  | b :: blocks =>
    (applyBlocks env blocks).bind fun coins =>
      match (connectBlock env b.block b.pindex false).run (Map.impl .empty) coins with
      | (.ok _, coins) => some coins
      | (.error _, _) => none

end GC
