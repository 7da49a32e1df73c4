import GameCredits.Framework.Inverted
import GameCredits.Framework.Run
import GameCredits.Model.Wire

/-!
# Orphan transactions (main.cpp)

`mapOrphanTransactions` and `mapOrphanTransactionsByPrev` with the four functions that change them. The
hash function is a parameter, and so are the random hashes that `LimitOrphanTxSize` draws.
-/

namespace GC

open Framework (Bytes)
open Framework.Assoc (Map)

structure COrphanTx where
  tx : CTransaction
  fromPeer : Int

/-- The two maps. -/
structure OrphanTxs where
  mapOrphanTransactions : Map UInt256 COrphanTx
  mapOrphanTransactionsByPrev : Map UInt256 (Finset UInt256)

/-- `operator<` of `uint256`: that of the bytes. -/
def memcmpLess (a b : UInt256) : Bool := decide (uint256Bytes a < uint256Bytes b)

/-- The hashes of the transactions that the inputs spend from. -/
def CTransaction.prevHashes (tx : CTransaction) : List UInt256 := tx.vin.map fun txin => txin.prevout.hash

namespace OrphanTxs

variable (hash : Bytes → UInt256)

def empty : OrphanTxs := ⟨∅, ∅⟩

/-- `mapOrphanTransactions.size()`. -/
def size (s : OrphanTxs) : Nat := s.mapOrphanTransactions.entries.length

/-- The keys of `mapOrphanTransactions` in its order. -/
def keys (s : OrphanTxs) : List UInt256 :=
  (s.mapOrphanTransactions.entries.map Sigma.fst).mergeSort fun a b => !memcmpLess b a

/-- `AddOrphanTx`. -/
def addOrphanTx (s : OrphanTxs) (tx : CTransaction) (peer : Int) : Bool × OrphanTxs :=
  let hash := tx.getHash hash
  if (s.mapOrphanTransactions.lookup hash).isSome then (false, s)
  else if 5000 < tx.getSerializeSize then (false, s)
  else
    (true,
      { mapOrphanTransactions := s.mapOrphanTransactions.insert hash ⟨tx, peer⟩
        mapOrphanTransactionsByPrev := tx.prevHashes.foldl
          (fun byPrev prev => Framework.Inverted.insertAt byPrev hash prev) s.mapOrphanTransactionsByPrev })

/-- `EraseOrphanTx`. -/
def eraseOrphanTx (s : OrphanTxs) (hash : UInt256) : OrphanTxs :=
  match s.mapOrphanTransactions.lookup hash with
  | none => s
  | some orphan =>
    { mapOrphanTransactions := s.mapOrphanTransactions.erase hash
      mapOrphanTransactionsByPrev := orphan.tx.prevHashes.foldl
        (fun byPrev prev => Framework.Inverted.eraseAt byPrev hash prev) s.mapOrphanTransactionsByPrev }

/-- The loop of `EraseOrphansFor` over the keys; `none` where the iterator is at an entry that was
erased. -/
def eraseOrphansForLoop (peer : Int) : List UInt256 → OrphanTxs → Option OrphanTxs
  | [], s => some s
  | key :: keys, s =>
    match s.mapOrphanTransactions.lookup key with
    | none => none
    | some orphan =>
      eraseOrphansForLoop peer keys
        (if orphan.fromPeer = peer then s.eraseOrphanTx (orphan.tx.getHash hash) else s)

/-- `EraseOrphansFor`. -/
def eraseOrphansFor (s : OrphanTxs) (peer : Int) : Option OrphanTxs :=
  eraseOrphansForLoop hash peer s.keys s

/-- The orphan that is evicted for a random hash: the first one from there on, or the first of all. -/
def victim (s : OrphanTxs) (randomhash : UInt256) : Option UInt256 :=
  (s.keys.find? fun key => !memcmpLess key randomhash).or s.keys.head?

theorem mem_keys {s : OrphanTxs} {key : UInt256} (h : key ∈ s.keys) :
    ∃ orphan, s.mapOrphanTransactions.lookup key = some orphan := by
  rw [keys, List.mem_mergeSort] at h
  obtain ⟨⟨_, orphan⟩, he, rfl⟩ := List.mem_map.mp h
  exact ⟨orphan, Framework.Assoc.mem_entries.mp he⟩

theorem victim_mem {s : OrphanTxs} {randomhash key : UInt256} (h : s.victim randomhash = some key) :
    key ∈ s.keys := by
  rw [victim, Option.or_eq_some_iff] at h
  rcases h with h | ⟨-, h⟩
  · exact List.mem_of_find?_eq_some h
  · exact List.mem_of_head? h

/-- An orphan that is erased is one less. -/
theorem size_eraseOrphanTx {s : OrphanTxs} {key : UInt256} (h : key ∈ s.keys) :
    (s.eraseOrphanTx key).size < s.size := by
  obtain ⟨orphan, ho⟩ := mem_keys h
  rw [size, eraseOrphanTx, ho, size, (Framework.Assoc.entries_perm ho).length_eq]
  exact Nat.lt_succ_self _

/-- `LimitOrphanTxSize` after `nEvicted` evictions: the number of evictions. The random hashes are those
of `GetRandHash`; `none` where the iterator is at the end of an empty map. -/
def limitOrphanTxSize (nMaxOrphans : Nat) (getRandHash : Nat → UInt256) (nEvicted : Nat)
    (s : OrphanTxs) : Option (Nat × OrphanTxs) :=
  if nMaxOrphans < s.size then
    match _h : s.victim (getRandHash nEvicted) with
    | none => none
    | some key => limitOrphanTxSize nMaxOrphans getRandHash (nEvicted + 1) (s.eraseOrphanTx key)
  else some (nEvicted, s)
termination_by s.size
decreasing_by exact size_eraseOrphanTx (victim_mem _h)

/-- A call of one of the functions. -/
inductive Call
  | addOrphanTx (tx : CTransaction) (peer : Int)
  | eraseOrphanTx (hash : UInt256)
  | eraseOrphansFor (peer : Int)
  | limitOrphanTxSize (nMaxOrphans : Nat) (getRandHash : Nat → UInt256)

def step : Call → OrphanTxs → Option OrphanTxs
  | .addOrphanTx tx peer, s => some (s.addOrphanTx hash tx peer).2
  | .eraseOrphanTx hash, s => some (s.eraseOrphanTx hash)
  | .eraseOrphansFor peer, s => s.eraseOrphansFor hash peer
  | .limitOrphanTxSize nMaxOrphans getRandHash, s =>
    (s.limitOrphanTxSize nMaxOrphans getRandHash 0).map Prod.snd

end OrphanTxs

end GC
