import GameCredits.Framework.Assoc
import GameCredits.Model.Validation
import GameCredits.Model.Wire
import Mathlib.Data.UInt

/-!
# The memory pool (txmempool.h, txmempool.cpp, main.cpp)

`CTxMemPool` with `addUnchecked`, the removals and `check`, and `AcceptToMemoryPool`. The maps are
association lists. `mapNextTx` points at a transaction by its key in `mapTx`.

`AcceptToMemoryPool` also makes checks that can only refuse a transaction: whether it is standard
and final, its signature operations, fee and priority, the rate limit and its scripts. Their outcome
is a parameter.
-/

namespace GC

open Framework (Bytes Prog)

/-- The height of the coins of a transaction in the pool. -/
def MEMPOOL_HEIGHT : Nat := 0x7FFFFFFF

structure CTxMemPoolEntry where
  tx : CTransaction
  nTxSize : UInt64

/-- `CInPoint`: input `n` of the transaction under the key `ptx` of `mapTx`. -/
structure CInPoint where
  ptx : UInt256
  n : Nat
  deriving DecidableEq

structure CTxMemPool where
  mapTx : Framework.Assoc.Map UInt256 CTxMemPoolEntry
  mapNextTx : Framework.Assoc.Map COutPoint CInPoint
  totalTxSize : UInt64

namespace CTxMemPool

/-- What the constructor and `clear` leave. -/
def empty : CTxMemPool := ⟨∅, ∅, 0⟩

/-- `CTxMemPool::exists`. -/
def hasTx (pool : CTxMemPool) (hash : UInt256) : Bool := (pool.mapTx.lookup hash).isSome

/-- The entries in the order of `mapTx`, which is that of the keys. -/
def entries (pool : CTxMemPool) : List (Sigma fun _ : UInt256 => CTxMemPoolEntry) :=
  pool.mapTx.entries.mergeSort fun a b => decide (a.1 ≤ b.1)

/-- `CTxMemPool::addUnchecked`. -/
def addUnchecked (pool : CTxMemPool) (hash : UInt256) (entry : CTxMemPoolEntry) : CTxMemPool where
  mapTx := pool.mapTx.insert hash entry
  mapNextTx := entry.tx.vin.zipIdx.foldl (fun mapNextTx txin =>
    mapNextTx.insert txin.1.prevout ⟨hash, txin.2⟩) pool.mapNextTx
  totalTxSize := pool.totalTxSize + entry.nTxSize

/-- The removal of one entry. -/
def eraseEntry (pool : CTxMemPool) (hash : UInt256) (entry : CTxMemPoolEntry) : CTxMemPool where
  mapTx := pool.mapTx.erase hash
  mapNextTx := (entry.tx.vin.map CTxIn.prevout).foldl (fun mapNextTx prevout =>
    mapNextTx.erase prevout) pool.mapNextTx
  totalTxSize := pool.totalTxSize - entry.nTxSize

/-- The transaction that a `CInPoint` points at. -/
def deref (pool : CTxMemPool) (inPoint : CInPoint) : Option CTransaction :=
  (pool.mapTx.lookup inPoint.ptx).map CTxMemPoolEntry.tx

section

variable (env : Env)

/-- The hashes of the transactions in the pool that spend an output of `tx`, whose hash is `hash`. -/
def spenders (pool : CTxMemPool) (hash : UInt256) (tx : CTransaction) : List UInt256 :=
  (List.range tx.vout.length).filterMap fun i =>
    ((pool.mapNextTx.lookup ⟨hash, UInt32.ofNat i⟩).bind pool.deref).map (CTransaction.getHash env.hash)

theorem length_erase_lt {pool : CTxMemPool} {hash : UInt256} {entry : CTxMemPoolEntry}
    (h : pool.mapTx.lookup hash = some entry) :
    (pool.mapTx.erase hash).entries.length < pool.mapTx.entries.length := by
  rw [(Framework.Assoc.entries_perm h).length_eq]
  exact Nat.lt_succ_self _

/-- The loop of `CTxMemPool::remove` over `txToRemove`; the transactions are appended to `removed`. -/
def removeFrom (fRecursive : Bool) (txToRemove : List UInt256) (pool : CTxMemPool)
    (removed : List CTransaction) : CTxMemPool × List CTransaction :=
  match txToRemove with
  | [] => (pool, removed)
  | hash :: rest =>
    match _h : pool.mapTx.lookup hash with
    | none => removeFrom fRecursive rest pool removed
    | some entry =>
      removeFrom fRecursive (if fRecursive then rest ++ pool.spenders env hash entry.tx else rest)
        (pool.eraseEntry hash entry) (removed ++ [entry.tx])
termination_by (pool.mapTx.entries.length, txToRemove.length)
decreasing_by
  · exact Prod.Lex.right _ (Nat.lt_succ_self _)
  · exact Prod.Lex.left _ _ (length_erase_lt _h)

/-- `CTxMemPool::remove`. -/
def remove (pool : CTxMemPool) (origTx : CTransaction) (removed : List CTransaction)
    (fRecursive : Bool) : CTxMemPool × List CTransaction :=
  let hash := origTx.getHash env.hash
  removeFrom env fRecursive
    (hash :: if fRecursive && !pool.hasTx hash then pool.spenders env hash origTx else []) pool removed

/-- Whether an input spends an output outside the pool whose record is missing, or is that of a
coinbase which is not mature at the height. -/
def spendsImmature (pool : CTxMemPool) (coins : UInt256 → Option CCoins) (nMemPoolHeight : Nat)
    (txin : CTxIn) : Bool :=
  !pool.hasTx txin.prevout.hash &&
    match coins txin.prevout.hash with
    | none => true
    | some coins => coins.fCoinBase &&
        decide (UInt32.ofNat nMemPoolHeight - UInt32.ofNat coins.nHeight < 100)

/-- `CTxMemPool::removeCoinbaseSpends`. -/
def removeCoinbaseSpends (pool : CTxMemPool) (coins : UInt256 → Option CCoins)
    (nMemPoolHeight : Nat) : CTxMemPool :=
  let transactionsToRemove := (pool.entries.map fun entry => entry.2.tx).filter fun tx =>
    tx.vin.any (pool.spendsImmature coins nMemPoolHeight)
  transactionsToRemove.foldl (fun pool tx => (pool.remove env tx [] true).1) pool

/-- One iteration of the loop of `CTxMemPool::removeConflicts`. -/
def removeConflict (pool : CTxMemPool) (tx : CTransaction) (txin : CTxIn) : CTxMemPool :=
  match (pool.mapNextTx.lookup txin.prevout).bind pool.deref with
  | none => pool
  | some txConflict =>
    if txConflict.getHash env.hash ≠ tx.getHash env.hash then (pool.remove env txConflict [] true).1
    else pool

/-- `CTxMemPool::removeConflicts`. -/
def removeConflicts (pool : CTxMemPool) (tx : CTransaction) : CTxMemPool :=
  tx.vin.foldl (fun pool txin => pool.removeConflict env tx txin) pool

/-- `CTxMemPool::removeForBlock`. -/
def removeForBlock (pool : CTxMemPool) (vtx : List CTransaction) : CTxMemPool :=
  vtx.foldl (fun pool tx => (pool.remove env tx [] false).1.removeConflicts env tx) pool

end

/-! ## Acceptance -/

/-- `CCoinsViewMemPool`: the transactions of the pool and what is not fully spent of the coins. -/
def view (pool : CTxMemPool) (m : Framework.Map UInt256 CCoins UInt256) :
    Framework.Map UInt256 CCoins UInt256 where
  rec? txid :=
    match pool.mapTx.lookup txid with
    | some entry => some (CCoins.fromTx entry.tx MEMPOOL_HEIGHT)
    | none => (m.rec? txid).filter fun coins => !coins.isPruned
  tag := m.tag

end CTxMemPool

def REJECT_DUPLICATE : UInt8 := 0x12

/-- `CCoinsViewCache::HaveCoins`. -/
def haveCoins (txid : UInt256) : CoinsProg Bool := do
  let coins ← accessCoins txid
  return coins.any fun coins => !coins.vout.isEmpty

/-- The loop of `AcceptToMemoryPool` over the transactions that are spent. -/
def haveParents : List CTxIn → CoinsProg Bool
  | [] => pure true
  | txin :: vin => do
    let fHave ← haveCoins txin.prevout.hash
    let fRest ← if fHave then haveParents vin else pure false
    return fRest

section

variable (env : Env)

/-- The part of `AcceptToMemoryPool` that works on a view. -/
def checkSpendable (tx : CTransaction) : CoinsProg Unit := do
  let fKnown ← haveCoins (tx.getHash env.hash)
  Prog.check (!fKnown) .error
  let fParents ← haveParents tx.vin
  Prog.check fParents .error
  let fHave ← haveInputs tx
  Prog.check fHave (.invalid 0 REJECT_DUPLICATE "bad-txns-inputs-spent" false)
  let _ ← getBestBlock
  let _ ← getValueIn tx
  let _ ← Prog.lift (valueOut tx)
  let _ ← checkInputs env tx false false
  return ()

/-- `AcceptToMemoryPool`; `policy` is the outcome of the checks that are left out. -/
def acceptToMemoryPool (policy : Bool) (pool : CTxMemPool)
    (pcoinsTip : Framework.Map UInt256 CCoins UInt256) (tx : CTransaction) :
    Except Failure CTxMemPool := do
  checkTransaction tx
  require (!tx.isCoinBase) (dos 100 "coinbase")
  require policy .error
  require (!pool.hasTx (tx.getHash env.hash)) .error
  require (tx.vin.all fun txin => (pool.mapNextTx.lookup txin.prevout).isNone) .error
  ((checkSpendable env tx).run (Framework.Map.impl .empty) (pool.view pcoinsTip)).1
  return pool.addUnchecked (tx.getHash env.hash) ⟨tx, UInt64.ofNat tx.getSerializeSize⟩

/-! ## The check -/

/-- `CheckInputs` without scripts and `UpdateCoins`, as `CTxMemPool::check` makes them. -/
def applyTx (tx : CTransaction) : CoinsProg Unit := do
  let _ ← checkInputs env tx false false
  let _ ← updateCoins env tx 1000000
  return ()

end

namespace CTxMemPool

/-- The assertions of `check` about input `i` of the transaction under the key `hash`. -/
def checkInput (pool : CTxMemPool) (coins : UInt256 → Option CCoins) (hash : UInt256) (txin : CTxIn)
    (i : Nat) : Bool :=
  (match pool.mapTx.lookup txin.prevout.hash with
    | some entry => (entry.tx.vout[txin.prevout.n.toNat]?).any fun out => !out.isNull
    | none => (coins txin.prevout.hash).any fun coins => coins.isAvailable txin.prevout.n.toNat) &&
    pool.mapNextTx.lookup txin.prevout == some ⟨hash, i⟩

/-- `fDependsWait`: whether some input spends an output of the pool. -/
def dependsWait (pool : CTxMemPool) (tx : CTransaction) : Bool :=
  tx.vin.any fun txin => pool.hasTx txin.prevout.hash

section

variable (env : Env)

/-- The loop of `check` over the entries; the transactions that wait for others. -/
def checkEntries (pool : CTxMemPool) (coins : UInt256 → Option CCoins) :
    List (Sigma fun _ : UInt256 => CTxMemPoolEntry) → CoinsProg (List CTransaction)
  | [] => pure []
  | ⟨hash, entry⟩ :: entries => do
    Prog.check (entry.tx.vin.zipIdx.all fun txin => pool.checkInput coins hash txin.1 txin.2) .assertion
    if pool.dependsWait entry.tx then pure () else applyTx env entry.tx
    let waiting ← checkEntries pool coins entries
    return if pool.dependsWait entry.tx then entry.tx :: waiting else waiting

/-- The loop of `check` over the transactions that wait; `steps` is `stepsSinceLastRemove`. -/
def checkWaiting (waiting : List CTransaction) (steps : Nat) : CoinsProg Unit :=
  match waiting with
  | [] => pure ()
  | tx :: rest =>
    haveInputs tx >>= fun fHave =>
      if fHave then applyTx env tx >>= fun _ => checkWaiting rest 0
      else if steps + 1 < (rest ++ [tx]).length then checkWaiting (rest ++ [tx]) (steps + 1)
      else .fail .assertion
termination_by (waiting.length, waiting.length - steps)
decreasing_by
  · exact Prod.Lex.left _ _ (Nat.lt_succ_self _)
  · rw [List.length_append] at *
    exact Prod.Lex.right' _ (by simp) (by simp at *; omega)

/-- The assertions of `check` about an entry of `mapNextTx`. -/
def checkNext (pool : CTxMemPool) (next : Sigma fun _ : COutPoint => CInPoint) : Bool :=
  match pool.deref next.2 with
  | none => false
  | some tx => tx.getHash env.hash == next.2.ptx && (tx.vin[next.2.n]?).map CTxIn.prevout == some next.1

/-- `CTxMemPool::check`, with `fSanityCheck`: whether every assertion holds. -/
def check (pool : CTxMemPool) (pcoins : Framework.Map UInt256 CCoins UInt256) : Bool :=
  let inPlace := ((do
    let waiting ← pool.checkEntries env pcoins.rec? pool.entries
    checkWaiting env waiting 0) : CoinsProg Unit).run (Framework.Map.impl .empty) pcoins
  inPlace.1 matches .ok _ && pool.mapNextTx.entries.all (pool.checkNext env) &&
    pool.totalTxSize == (pool.entries.map fun entry => entry.2.nTxSize).sum

end

end CTxMemPool

end GC
