import GameCredits.Model.Orphans

/-!
# Handling a transaction (main.cpp)

`ProcessMessage` for "tx": a transaction that is accepted may have been missing for orphans, which are
tried again, those that spend from an accepted orphan as well. `AcceptToMemoryPool` is a parameter, with
the state of the pool that it works on. Messages to peers are left out.
-/

namespace GC

open Framework (Bytes)

/-- What `AcceptToMemoryPool` reports; `nDoS` is 0 where the transaction is not invalid. -/
inductive AcceptResult where
  | accepted
  | missingInputs
  | rejected (nDoS : Int)
  deriving DecidableEq, Repr

/-- `AcceptToMemoryPool`. -/
abbrev Accept (σ : Type) := σ → CTransaction → σ × AcceptResult

/-- A call of `AcceptToMemoryPool`: the hash of the transaction, the pool before the call, and what was
reported. -/
structure Offer (σ : Type) where
  hash : UInt256
  pool : σ
  result : AcceptResult

/-- The variables of the handler, and the calls of `AcceptToMemoryPool` so far. -/
structure TxHandling (σ : Type) where
  pool : σ
  vWorkQueue : List UInt256
  vEraseQueue : List UInt256
  setMisbehaving : List Int
  offers : List (Offer σ)

namespace OrphanTxs

variable {σ : Type} (hash : Bytes → UInt256) (accept : Accept σ) (s : OrphanTxs)

/-- The orphans that spend from a transaction, in the order of the set; `none` where an element of it is
not the hash of an orphan. -/
def orphansByPrev (prev : UInt256) : Option (List UInt256) :=
  match s.mapOrphanTransactionsByPrev.lookup prev with
  | none => some []
  | some set =>
    if ∀ h ∈ set, (s.mapOrphanTransactions.lookup h).isSome then
      some (s.keys.filter fun key => decide (key ∈ set))
    else none

/-- An orphan is offered to the pool again, unless its peer was found misbehaving. -/
def tryOrphan (orphanHash : UInt256) (st : TxHandling σ) : TxHandling σ :=
  match s.mapOrphanTransactions.lookup orphanHash with
  | none => st
  | some orphan =>
    if orphan.fromPeer ∈ st.setMisbehaving then st
    else
      let (pool, result) := accept st.pool orphan.tx
      let st := { st with pool, offers := st.offers ++ [⟨orphanHash, st.pool, result⟩] }
      match result with
      | .accepted =>
        { st with
          vWorkQueue := st.vWorkQueue ++ [orphanHash], vEraseQueue := st.vEraseQueue ++ [orphanHash] }
      | .missingInputs => st
      | .rejected nDoS =>
        { st with
          vEraseQueue := st.vEraseQueue ++ [orphanHash]
          setMisbehaving :=
            if 0 < nDoS then st.setMisbehaving ++ [orphan.fromPeer] else st.setMisbehaving }

/-- The loop over the set. -/
def tryOrphans (orphanHashes : List UInt256) (st : TxHandling σ) : TxHandling σ :=
  orphanHashes.foldl (fun st orphanHash => s.tryOrphan accept orphanHash st) st

/-- The loop over `vWorkQueue` from index `i` on, for `fuel` iterations at most. -/
def workOrphans : (fuel i : Nat) → TxHandling σ → Option (TxHandling σ)
  | 0, _, _ => none
  | fuel + 1, i, st =>
    match st.vWorkQueue[i]? with
    | none => some st
    | some prev => do
      let orphanHashes ← s.orphansByPrev prev
      workOrphans fuel (i + 1) (s.tryOrphans accept orphanHashes st)

/-- "tx" from `peer`: the orphans and the variables afterwards. The loop over `vWorkQueue` is given
`fuel` iterations, and `LimitOrphanTxSize` the random hashes. -/
def processTx (fuel nMaxOrphanTx : Nat) (getRandHash : Nat → UInt256) (peer : Int) (pool : σ)
    (tx : CTransaction) : Option (OrphanTxs × TxHandling σ) :=
  let (pool', result) := accept pool tx
  let st := ⟨pool', [], [], [], [⟨tx.getHash hash, pool, result⟩]⟩
  match result with
  | .accepted => do
    let st ← s.workOrphans accept fuel 0 { st with vWorkQueue := [tx.getHash hash] }
    return (st.vEraseQueue.foldl eraseOrphanTx s, st)
  | .missingInputs => do
    let (_, s) ← (s.addOrphanTx hash tx peer).2.limitOrphanTxSize nMaxOrphanTx getRandHash 0
    return (s, st)
  | .rejected _ => some (s, st)

end OrphanTxs

end GC
