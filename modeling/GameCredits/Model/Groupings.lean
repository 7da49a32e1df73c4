import GameCredits.Framework.Assoc
import GameCredits.Model.Wallet
import Mathlib.Data.Finset.Sort

/-!
# Groups of addresses (wallet/wallet.cpp)

`GetAddressGroupings`, with the sets that it allocates. An access to a set that is not allocated, or
deleting it, ends a run with `none`.
-/

namespace GC.Groupings

open Framework.Assoc (Map)

/-- A `set<CTxDestination>`. -/
abbrev Grouping := Finset Destination

/-- The sets that are allocated. -/
abbrev Heap := Map Ptr Grouping

/-- How a run goes through maps and sets, and where `new` puts a set. Sets of pointers are in the order
of the addresses. -/
structure Env (w : CWallet) where
  entries : List (UInt256 × CWalletTx)
  destinations : Grouping → List Destination
  groupings : Finset Grouping → List Grouping
  alloc : Heap → Ptr
  mem_entries : ∀ hash wtx, (hash, wtx) ∈ entries ↔ w.mapWallet hash = some wtx
  mem_destinations : ∀ s a, a ∈ destinations s ↔ a ∈ s
  mem_groupings : ∀ s g, g ∈ groupings s ↔ g ∈ s
  alloc_fresh : ∀ heap : Heap, heap.lookup (alloc heap) = none

variable (w : CWallet)

/-! ## What belongs together -/

/-- `mapWallet[txin.prevout.hash].vout[txin.prevout.n]`. -/
def prevOut (txin : CTxIn) : Option CTxOut :=
  (w.mapWallet txin.prevout.hash).bind fun prev => prev.vout[txin.prevout.n.toNat]?

/-- `CWallet::IsMine` of an input. -/
def isMineIn (txin : CTxIn) : IsMineFilter :=
  match prevOut w txin with
  | none => 0
  | some txout => w.isMineOut txout

/-- `ExtractDestination` of an output. -/
def address (txout : CTxOut) : Option Destination :=
  extractDestination w.options w.hash160 txout.scriptPubKey

/-- The loop over the inputs. -/
def groupInputs : List CTxIn → (grouping : Grouping) → (anyMine : Bool) → Grouping × Bool
  | [], grouping, anyMine => (grouping, anyMine)
  | txin :: vin, grouping, anyMine =>
    if isMineIn w txin = 0 then groupInputs vin grouping anyMine
    else
      match (prevOut w txin).bind (address w) with
      | none => groupInputs vin grouping anyMine
      | some a => groupInputs vin (insert a grouping) true

/-- The loop over the outputs that are change. -/
def groupChange : List CTxOut → Grouping → Grouping
  | [], grouping => grouping
  | txout :: vout, grouping =>
    if w.isChange txout then
      match address w txout with
      | none => groupChange vout grouping
      | some a => groupChange vout (insert a grouping)
    else groupChange vout grouping

/-- The loop over the outputs that groups lone addresses by themselves. -/
def groupLone : List CTxOut → Finset Grouping → Finset Grouping
  | [], groupings => groupings
  | txout :: vout, groupings =>
    if w.isMineOut txout ≠ 0 then
      match address w txout with
      | none => groupLone vout groupings
      | some a => groupLone vout (insert {a} groupings)
    else groupLone vout groupings

/-- The input addresses of a transaction, with its change. -/
def groupTx (tx : CTransaction) : Grouping :=
  let (grouping, anyMine) := groupInputs w tx.vin ∅ false
  if anyMine then groupChange w tx.vout grouping else grouping

/-- One round of the loop over `mapWallet`. `grouping` is empty before it, and is cleared wherever it has
been inserted. -/
def groupWalletTx (tx : CTransaction) (groupings : Finset Grouping) : Finset Grouping :=
  let groupings :=
    if 0 < tx.vin.length ∧ 0 < (groupTx w tx).card then insert (groupTx w tx) groupings
    else groupings
  groupLone w tx.vout groupings

/-- The loop over `mapWallet`. -/
def groupings (entries : List (UInt256 × CWalletTx)) : Finset Grouping :=
  entries.foldl (fun groupings walletEntry => groupWalletTx w walletEntry.2.toCTransaction groupings) ∅

/-! ## Merging -/

/-- The variables of the loop over `groupings`. -/
structure Merging where
  heap : Heap
  uniqueGroupings : Finset Ptr
  setmap : Map Destination Ptr

namespace Merging

/-- Before the loop. -/
def start : Merging := ⟨∅, ∅, ∅⟩

/-- The loop that makes the set of all the groups hit by a new group. -/
def hitsOf (setmap : Map Destination Ptr) : List Destination → (hits : Finset Ptr) → Finset Ptr
  | [], hits => hits
  | a :: grouping, hits =>
    match setmap.lookup a with
    | none => hitsOf setmap grouping hits
    | some p => hitsOf setmap grouping (insert p hits)

/-- The loop over `hits`. -/
def mergeHits (merged : Ptr) : List Ptr → Merging → Option Merging
  | [], s => some s
  | hit :: hits, s => do
    let group ← s.heap.lookup hit
    let whole ← s.heap.lookup merged
    mergeHits merged hits
      { s with
        heap := (s.heap.insert merged (whole ∪ group)).erase hit
        uniqueGroupings := s.uniqueGroupings.erase hit }

variable {w} (env : Env w)

/-- One round of the loop over `groupings`. -/
def add (grouping : Grouping) (s : Merging) : Option Merging := do
  let hits := hitsOf s.setmap (env.destinations grouping) ∅
  let merged := env.alloc s.heap
  let s ← mergeHits merged hits.sort { s with heap := s.heap.insert merged grouping }
  let whole ← s.heap.lookup merged
  some
    { s with
      uniqueGroupings := insert merged s.uniqueGroupings
      setmap := (env.destinations whole).foldl (fun setmap a => setmap.insert a merged) s.setmap }

/-- The loop over `groupings`. -/
def addAll : List Grouping → Merging → Option Merging
  | [], s => some s
  | grouping :: groupings, s => (add env grouping s).bind (addAll groupings)

/-- The loop that copies the groups and deletes them. -/
def collect : List Ptr → Heap → (ret : Finset Grouping) → Option (Finset Grouping × Heap)
  | [], heap, ret => some (ret, heap)
  | p :: uniqueGroupings, heap, ret => do
    let group ← heap.lookup p
    collect uniqueGroupings (heap.erase p) (insert group ret)

end Merging

/-- `CWallet::GetAddressGroupings`: the groups, and the sets that it leaves allocated. -/
def getAddressGroupings (env : Env w) : Option (Finset Grouping × Heap) := do
  let s ← Merging.addAll env (env.groupings (groupings w env.entries)) .start
  Merging.collect s.uniqueGroupings.sort s.heap ∅

end GC.Groupings
