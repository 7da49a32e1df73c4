import GameCredits.Framework.Multimap
import GameCredits.Model.Transaction

/-!
# Ordering the transactions of an old wallet (wallet/walletdb.cpp: ReorderTransactions)

The function gives a position to the transactions and the accounting entries that have none, and shifts the
others. It changes nothing but `nOrderPos` in the objects that it has pointers to, which is here a function
of the pointers (`TxPair`). A write to the database may fail.
-/

namespace GC.Reorder

structure CWalletTx where
  nTimeReceived : UInt32
  nOrderPos : Int
  deriving DecidableEq, Repr

structure CAccountingEntry where
  nTime : Int
  nOrderPos : Int
  nEntryNo : Nat
  deriving DecidableEq, Repr

/-- A `CWallet`, its transactions in the order of the map, with the entries that `ListAccountCreditDebit`
lists for the account `""`. -/
structure Wallet where
  mapWallet : List (UInt256 × CWalletTx)
  acentries : List CAccountingEntry
  keys : (mapWallet.map Prod.fst).Nodup

/-- What one of the two pointers of a `TxPair` points to, if it is not null: the transaction with a hash,
or the entry at a place in `acentries`. -/
inductive TxPair where
  | tx (hash : UInt256)
  | acentry (i : Nat)
  deriving DecidableEq, Repr

inductive DBErrors where
  | loadOk
  | loadFail
  deriving DecidableEq, Repr

/-- What is written. -/
inductive Record where
  | tx (hash : UInt256) (nOrderPos : Int)
  | acentry (nEntryNo : Nat) (nOrderPos : Int)
  | orderPosNext (nOrderPosNext : Int)
  deriving DecidableEq, Repr

namespace Wallet

variable (wallet : Wallet)

/-- The elements in the order in which they are inserted. -/
def inserted : List (Int × TxPair) :=
  (wallet.mapWallet.map fun e => ((e.2.nTimeReceived.toNat : Int), TxPair.tx e.1)) ++
    wallet.acentries.zipIdx.map fun e => (e.1.nTime, TxPair.acentry e.2)

def txByTime : List (Int × TxPair) :=
  wallet.inserted.foldl (fun items x => Framework.Multimap.insert Prod.fst x items) []

/-- `nOrderPos` of the objects before the function changes it. -/
def nOrderPos : TxPair → Int
  | .tx hash => ((wallet.mapWallet.lookup hash).map CWalletTx.nOrderPos).getD (-1)
  | .acentry i => (wallet.acentries[i]?.map CAccountingEntry.nOrderPos).getD (-1)

end Wallet

/-- The variables of the loop, `nOrderPos` of the objects, and what has been written. -/
structure State where
  nOrderPos : TxPair → Int
  nOrderPosNext : Int
  nOrderPosOffsets : List Int
  written : List Record

variable (wallet : Wallet) (writes : Nat → Bool)

/-- `WriteTx` or `WriteAccountingEntry`; the write number `i` succeeds if `writes i`. -/
def write (item : TxPair) (s : State) : State × Bool :=
  let record := match item with
    | .tx hash => Record.tx hash (s.nOrderPos item)
    | .acentry i =>
      Record.acentry ((wallet.acentries[i]?.map CAccountingEntry.nEntryNo).getD 0) (s.nOrderPos item)
  if writes s.written.length then ({ s with written := s.written ++ [record] }, true) else (s, false)

/-- The body of the loop, and whether the loop goes on. -/
def step (item : TxPair) (s : State) : State × Bool :=
  let nOrderPos := s.nOrderPos item
  if nOrderPos = -1 then
    let nOrderPos := s.nOrderPosNext
    write wallet writes item
      { s with
        nOrderPos := Function.update s.nOrderPos item nOrderPos
        nOrderPosNext := int64 (nOrderPos + 1)
        nOrderPosOffsets := s.nOrderPosOffsets ++ [nOrderPos] }
  else
    let nOrderPosOff := s.nOrderPosOffsets.countP fun nOffsetStart => decide (nOrderPos ≥ nOffsetStart)
    let nOrderPos := int64 (nOrderPos + nOrderPosOff)
    let s :=
      { s with
        nOrderPos := Function.update s.nOrderPos item nOrderPos
        nOrderPosNext := max s.nOrderPosNext (int64 (nOrderPos + 1)) }
    if nOrderPosOff = 0 then (s, true) else write wallet writes item s

def loop : List (Int × TxPair) → State → State × Bool
  | [], s => (s, true)
  | it :: items, s =>
    let (s, ok) := step wallet writes it.2 s
    if ok then loop items s else (s, false)

/-- The state before the loop. -/
def initial : State := ⟨wallet.nOrderPos, 0, [], []⟩

def reorderTransactions : DBErrors × State :=
  let (s, ok) := loop wallet writes wallet.txByTime (initial wallet)
  if ok then
    (.loadOk, if writes s.written.length then
      { s with written := s.written ++ [.orderPosNext s.nOrderPosNext] } else s)
  else (.loadFail, s)

end GC.Reorder
