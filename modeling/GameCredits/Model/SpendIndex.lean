import GameCredits.Framework.Assoc
import GameCredits.Framework.Multimap
import GameCredits.Model.Wallet

/-!
# The wallet's index of spends (wallet/wallet.cpp)

`AddToWallet` and `EraseFromWallet` with `mapTxSpends`, which `IsSpent` and `GetConflicts` read. Pointers
into `mapWallet` are its keys. What is written to the database, and the caches of amounts
(Model/Wallet.lean), change nothing here and are left out.
-/

namespace GC.SpendIndex

open Framework (Bytes)
open Framework.Assoc (Map)

/-- A `CWalletTx`, with its metadata. -/
structure CWalletTx extends CMerkleTx where
  mapValue : List (Bytes × Bytes)
  vOrderForm : List (Bytes × Bytes)
  nTimeReceived : UInt32
  nTimeSmart : UInt32
  fFromMe : Bool
  strFromAccount : Bytes
  nOrderPos : Int

/-- `CWalletTx()`. -/
def CWalletTx.empty : CWalletTx where
  nVersion := 1
  vin := []
  vout := []
  nLockTime := 0
  hashBlock := 0
  vMerkleBranch := []
  nIndex := -1
  fMerkleVerified := false
  mapValue := []
  vOrderForm := []
  nTimeReceived := 0
  nTimeSmart := 0
  fFromMe := false
  strFromAccount := []
  nOrderPos := -1

/-- `mapTxSpends` lists what is inserted for an outpoint, in this order. -/
structure CWallet where
  mapWallet : Map UInt256 CWalletTx
  mapTxSpends : COutPoint → List UInt256
  nOrderPosNext : Int
  fFileBacked : Bool

/-- A `CAccountingEntry` of the account `""`. -/
structure CAccountingEntry where
  nOrderPos : Int
  nTime : Int

/-- What `AddToWallet` reads: `GetAdjustedTime()`, `GetBlockTime()` of the blocks in `mapBlockIndex`, and
the accounting entries in the database. -/
structure Env where
  adjustedTime : Int
  blockTime : UInt256 → Option Int
  acentries : List CAccountingEntry

/-! ## Metadata -/

/-- `m[hash]`, which inserts what is not there. -/
def access (m : Map UInt256 CWalletTx) (hash : UInt256) : CWalletTx × Map UInt256 CWalletTx :=
  match m.lookup hash with
  | some wtx => (wtx, m)
  | none => (CWalletTx.empty, m.insert hash CWalletTx.empty)

/-- The first loop of `SyncMetaData`. -/
def findOldest : List UInt256 → Map UInt256 CWalletTx → (nMinOrderPos : Int) →
    (copyFrom : Option UInt256) → Option UInt256 × Map UInt256 CWalletTx
  | [], m, _, copyFrom => (copyFrom, m)
  | hash :: range, m, nMinOrderPos, copyFrom =>
    let (wtx, m) := access m hash
    let n := Int.bmod wtx.nOrderPos (2 ^ 32)
    if n < nMinOrderPos then findOldest range m n (some hash)
    else findOldest range m nMinOrderPos copyFrom

/-- The second loop; `none` where `copyFrom` is null. -/
def copyMetaData (copyFrom : Option UInt256) : List UInt256 → Map UInt256 CWalletTx →
    Option (Map UInt256 CWalletTx)
  | [], m => some m
  | hash :: range, m => do
    let (copyTo, m) := access m hash
    if copyFrom = some hash then copyMetaData copyFrom range m
    else
      let source ← copyFrom.bind fun hash => m.lookup hash
      copyMetaData copyFrom range (m.insert hash
        { copyTo with
          mapValue := source.mapValue
          vOrderForm := source.vOrderForm
          nTimeSmart := source.nTimeSmart
          fFromMe := source.fFromMe
          strFromAccount := source.strFromAccount })

def syncMetaData (range : List UInt256) (m : Map UInt256 CWalletTx) : Option (Map UInt256 CWalletTx) :=
  let (copyFrom, m) := findOldest range m (2 ^ 31 - 1) none
  copyMetaData copyFrom range m

/-- The time of an element of `TxItems`: a transaction's, or an entry's. -/
def itemTime (m : Map UInt256 CWalletTx) : UInt256 ⊕ CAccountingEntry → Int
  | .inl hash =>
    match m.lookup hash with
    | some wtx => if wtx.nTimeSmart ≠ 0 then wtx.nTimeSmart.toNat else wtx.nTimeReceived.toNat
    | none => 0
  | .inr pacentry => pacentry.nTime

/-- `OrderedTxItems`. The keys of `mapWallet` are in the order of their bytes. -/
def orderedTxItems (m : Map UInt256 CWalletTx) (acentries : List CAccountingEntry) :
    List (Int × (UInt256 ⊕ CAccountingEntry)) :=
  let txs := m.entries.mergeSort fun a b => decide (uint256Bytes a.1 ≤ uint256Bytes b.1)
  let items := (txs.map fun e => (e.2.nOrderPos, Sum.inl e.1)) ++
    acentries.map fun entry => (entry.nOrderPos, Sum.inr entry)
  items.foldl (fun items x => Framework.Multimap.insert Prod.fst x items) []

/-- `nTimeSmart` of the new transaction `hash`, in a block of the time `blocktime`. -/
def smartTime (m : Map UInt256 CWalletTx) (acentries : List CAccountingEntry) (hash : UInt256)
    (nTimeReceived : UInt32) (blocktime : Int) : Int :=
  let latestNow : Int := nTimeReceived.toNat
  let latestTolerated := latestNow + 300
  let others := (orderedTxItems m acentries).reverse.filter fun x => decide (x.2.getLeft? ≠ some hash)
  let times := others.map fun x => itemTime m x.2
  let latestEntry := (times.find? fun nSmartTime => decide (nSmartTime ≤ latestTolerated)).getD 0
  let latestNow := max latestNow latestEntry
  max latestEntry (min blocktime latestNow)

namespace CWallet

variable (hash : Bytes → UInt256) (w : CWallet)

/-! ## Spends -/

/-- `AddToSpends` for one outpoint. -/
def addOutPoint (outpoint : COutPoint) (wtxid : UInt256) : Option CWallet := do
  let mapTxSpends := Function.update w.mapTxSpends outpoint (w.mapTxSpends outpoint ++ [wtxid])
  let mapWallet ← syncMetaData (mapTxSpends outpoint) w.mapWallet
  some { w with mapTxSpends, mapWallet }

/-- `AddToSpends` for the outpoints of some inputs. -/
def addInputs (wtxid : UInt256) : List CTxIn → CWallet → Option CWallet
  | [], w => some w
  | txin :: vin, w => (w.addOutPoint txin.prevout wtxid).bind (addInputs wtxid vin)

/-- `AddToSpends`. -/
def addToSpends (wtxid : UInt256) : Option CWallet := do
  let thisTx ← w.mapWallet.lookup wtxid
  if thisTx.isCoinBase then some w else addInputs wtxid thisTx.vin w

/-- `IsSpent`, where `depth` is `GetDepthInMainChain`. -/
def isSpent (depth : CMerkleTx → Int) (outpoint : COutPoint) : Bool :=
  (w.mapTxSpends outpoint).any fun wtxid =>
    match w.mapWallet.lookup wtxid with
    | some wtx => decide (0 ≤ depth wtx.toCMerkleTx)
    | none => false

/-- `GetConflicts`. -/
def getConflicts (txid : UInt256) : Finset UInt256 :=
  match w.mapWallet.lookup txid with
  | none => ∅
  | some wtx =>
    (wtx.vin.flatMap fun txin =>
      if (w.mapTxSpends txin.prevout).length ≤ 1 then [] else w.mapTxSpends txin.prevout).toFinset

/-! ## Adding and erasing -/

/-- What `AddToWallet` changes in a transaction that the wallet has. -/
def merge (wtx wtxIn : CWalletTx) : CWalletTx :=
  let wtx := if wtxIn.hashBlock ≠ 0 ∧ wtxIn.hashBlock ≠ wtx.hashBlock then
    { wtx with hashBlock := wtxIn.hashBlock } else wtx
  let wtx := if wtxIn.nIndex ≠ -1 ∧
      (wtxIn.vMerkleBranch ≠ wtx.vMerkleBranch ∨ wtxIn.nIndex ≠ wtx.nIndex) then
    { wtx with vMerkleBranch := wtxIn.vMerkleBranch, nIndex := wtxIn.nIndex } else wtx
  if wtxIn.fFromMe ∧ wtxIn.fFromMe ≠ wtx.fFromMe then { wtx with fFromMe := wtxIn.fFromMe } else wtx

/-- The new transaction, with its times and its position. -/
def stampTx (env : Env) (hash : UInt256) (wtxIn : CWalletTx) : CWalletTx :=
  let nTimeReceived := UInt32.ofNat (env.adjustedTime % 2 ^ 32).toNat
  let wtx := { wtxIn with nTimeReceived, nOrderPos := w.nOrderPosNext, nTimeSmart := nTimeReceived }
  match (if wtxIn.hashBlock ≠ 0 then env.blockTime wtxIn.hashBlock else none) with
  | some blocktime =>
    let nTimeSmart := smartTime (w.mapWallet.insert hash wtx) env.acentries hash nTimeReceived blocktime
    { wtx with nTimeSmart := UInt32.ofNat (nTimeSmart % 2 ^ 32).toNat }
  | none => wtx

/-- The wallet with the new transaction, before `AddToSpends`. -/
def insertNew (env : Env) (hash : UInt256) (wtxIn : CWalletTx) : CWallet :=
  { w with
    mapWallet := w.mapWallet.insert hash (w.stampTx env hash wtxIn)
    nOrderPosNext := int64 (w.nOrderPosNext + 1) }

/-- `AddToWallet`. -/
def addToWallet (env : Env) (wtxIn : CWalletTx) (fFromLoadWallet : Bool) : Option CWallet :=
  let txid := wtxIn.getHash hash
  if fFromLoadWallet then
    { w with mapWallet := w.mapWallet.insert txid wtxIn }.addToSpends txid
  else
    match w.mapWallet.lookup txid with
    | none => (w.insertNew env txid wtxIn).addToSpends txid
    | some wtx => some { w with mapWallet := w.mapWallet.insert txid (merge wtx wtxIn) }

/-- `EraseFromWallet`. -/
def eraseFromWallet (txid : UInt256) : CWallet :=
  if !w.fFileBacked then w else { w with mapWallet := w.mapWallet.erase txid }

end CWallet

/-! ## Runs -/

inductive Call where
  | addToWallet (env : Env) (wtxIn : CWalletTx) (fFromLoadWallet : Bool)
  | eraseFromWallet (txid : UInt256)

def step (hash : Bytes → UInt256) : Call → CWallet → Option CWallet
  | .addToWallet env wtxIn fFromLoadWallet, w => w.addToWallet hash env wtxIn fFromLoadWallet
  | .eraseFromWallet txid, w => some (w.eraseFromWallet txid)

/-- A wallet without transactions. -/
def Empty (w : CWallet) : Prop := w.mapWallet = ∅ ∧ w.mapTxSpends = fun _ => []

end GC.SpendIndex
