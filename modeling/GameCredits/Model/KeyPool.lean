import GameCredits.Framework.Run
import GameCredits.Framework.SortedSet
import Mathlib.Algebra.Group.Nat.Defs

/-!
# The key pool (wallet/wallet.h, wallet/wallet.cpp, wallet/walletdb.cpp)

The pool of a file-backed wallet whose database writes succeed, with any number of `CReserveKey`
holders. Keys are named by the call of `GenerateNewKey` that made them, so each is a fresh one;
`keypool` is the argument `-keypool`, and `getTime` gives the time at which each key is made. A
function returns `none` where it throws.
-/

namespace GC

open Framework

/-- A public key, by the call of `GenerateNewKey` that made it. -/
abbrev KeyId := Nat

structure CKeyPool where
  nTime : Int
  vchPubKey : KeyId
  deriving DecidableEq, Repr

/-- `nKeys` is how many keys were made, and `pool` has the records `"pool"` of the database. -/
structure KeyWallet where
  fLocked : Bool
  nKeys : Nat
  setKeyPool : List Nat
  pool : Nat → Option CKeyPool

/-- The order of `std::set<int64_t>`. -/
def indexLess (a b : Nat) : Bool := decide (a < b)

namespace KeyWallet

/-- `CWalletDB::WritePool`. -/
def writePool (w : KeyWallet) (nPool : Nat) (keypool : CKeyPool) : KeyWallet :=
  { w with pool := fun i => if i = nPool then some keypool else w.pool i }

/-- `CWalletDB::ErasePool`. -/
def erasePool (w : KeyWallet) (nPool : Nat) : KeyWallet :=
  { w with pool := fun i => if i = nPool then none else w.pool i }

/-- `GenerateNewKey`. -/
def generateNewKey (w : KeyWallet) : KeyId × KeyWallet := (w.nKeys, { w with nKeys := w.nKeys + 1 })

/-- `HaveKey`. -/
def haveKey (w : KeyWallet) (key : KeyId) : Bool := decide (key < w.nKeys)

/-- `setKeyPool.insert`. -/
def insertIndex (w : KeyWallet) (nIndex : Nat) : KeyWallet :=
  { w with setKeyPool := SortedSet.insert indexLess nIndex w.setKeyPool }

section

variable (keypool : Nat) (getTime : KeyId → Int)

/-- The loop bodies of `NewKeyPool` and `TopUpKeyPool`: a new key under the given index. -/
def addKey (w : KeyWallet) (nIndex : Nat) : KeyWallet :=
  let (key, w) := w.generateNewKey
  (w.writePool nIndex ⟨getTime key, key⟩).insertIndex nIndex

/-- The indices that `NewKeyPool` writes. -/
def newIndices : List Nat := (List.range keypool).map (· + 1)

/-- `NewKeyPool`. -/
def newKeyPool (w : KeyWallet) : Bool × KeyWallet :=
  let w := { w.setKeyPool.foldl erasePool w with setKeyPool := [] }
  if w.fLocked then (false, w) else (true, (newIndices keypool).foldl (addKey getTime) w)

/-- The index after the last one. -/
def nEnd (w : KeyWallet) : Nat :=
  match w.setKeyPool.getLast? with
  | none => 1
  | some nIndex => nIndex + 1

/-- `nTargetSize + 1`, an `unsigned int`. -/
def targetSize (kpSize : Nat) : Nat :=
  ((if 0 < kpSize then kpSize else keypool) % 2 ^ 32 + 1) % 2 ^ 32

/-- The loop of `TopUpKeyPool`; `fuel` bounds the number of keys added. -/
def topUpFrom (size : Nat) : (fuel : Nat) → KeyWallet → KeyWallet
  | 0, w => w
  | fuel + 1, w =>
    if w.setKeyPool.length < size then topUpFrom size fuel (w.addKey getTime w.nEnd) else w

/-- `TopUpKeyPool`. -/
def topUpKeyPool (w : KeyWallet) (kpSize : Nat) : Bool × KeyWallet :=
  if w.fLocked then (false, w)
  else (true, topUpFrom getTime (targetSize keypool kpSize) (targetSize keypool kpSize) w)

/-- `ReserveKeyFromKeyPool`: the index and the record, or none where the index stays -1. -/
def reserveKeyFromKeyPool (w : KeyWallet) : Option (Option (Nat × CKeyPool) × KeyWallet) :=
  let w := if w.fLocked then w else (w.topUpKeyPool keypool getTime 0).2
  match w.setKeyPool with
  | [] => some (none, w)
  | nIndex :: setKeyPool =>
    let w := { w with setKeyPool }
    match w.pool nIndex with
    | none => none
    | some keypool =>
      if w.haveKey keypool.vchPubKey then some (some (nIndex, keypool), w) else none

/-- `KeepKey`. -/
def keepKey (w : KeyWallet) (nIndex : Nat) : KeyWallet := w.erasePool nIndex

/-- `ReturnKey`. -/
def returnKey (w : KeyWallet) (nIndex : Nat) : KeyWallet := w.insertIndex nIndex

/-- `GetKeyFromPool`: the key, or none where it returns false. -/
def getKeyFromPool (w : KeyWallet) : Option (Option KeyId × KeyWallet) :=
  (w.reserveKeyFromKeyPool keypool getTime).map fun
    | (none, w) =>
      if w.fLocked then (none, w)
      else
        let (key, w) := w.generateNewKey
        (some key, w)
    | (some (nIndex, keypool), w) => (some keypool.vchPubKey, w.keepKey nIndex)

end

/-- `GetAllReserveKeys`. -/
def getAllReserveKeys (w : KeyWallet) : Option (List KeyId) :=
  w.setKeyPool.mapM fun id =>
    match w.pool id with
    | none => none
    | some keypool => if w.haveKey keypool.vchPubKey then some keypool.vchPubKey else none

end KeyWallet

/-! ## Holders -/

structure CReserveKey where
  nIndex : Option Nat
  vchPubKey : Option KeyId

namespace CReserveKey

def init : CReserveKey := ⟨none, none⟩

/-- `CReserveKey::GetReservedKey`: the key, or none where it returns false. -/
def getReservedKey (keypool : Nat) (getTime : KeyId → Int) (reservekey : CReserveKey)
    (w : KeyWallet) : Option (Option KeyId × CReserveKey × KeyWallet) :=
  match reservekey.nIndex with
  | none =>
    (w.reserveKeyFromKeyPool keypool getTime).map fun
      | (none, w) => (none, reservekey, w)
      | (some (nIndex, keypool), w) =>
        (some keypool.vchPubKey, ⟨some nIndex, some keypool.vchPubKey⟩, w)
  | some _ =>
    match reservekey.vchPubKey with
    | none => none
    | some pubkey => some (some pubkey, reservekey, w)

/-- `CReserveKey::KeepKey`. -/
def keepKey (reservekey : CReserveKey) (w : KeyWallet) : CReserveKey × KeyWallet :=
  match reservekey.nIndex with
  | none => (init, w)
  | some nIndex => (init, w.keepKey nIndex)

/-- `CReserveKey::ReturnKey`, also what the destructor does. -/
def returnKey (reservekey : CReserveKey) (w : KeyWallet) : CReserveKey × KeyWallet :=
  match reservekey.nIndex with
  | none => (init, w)
  | some nIndex => (init, w.returnKey nIndex)

end CReserveKey

/-- The wallet with its holders. `calls` are the calls of `GetOldestKeyPoolTime` between their two
critical sections, each with its index and time, and `handed` the keys of completed requests. -/
structure KeySystem where
  wallet : KeyWallet
  holders : Nat → CReserveKey
  calls : List (Nat × Int)
  handed : List KeyId

inductive KeyOp where
  | lock
  | unlock
  | topUpKeyPool (kpSize : Nat)
  | newKeyPool
  | getKeyFromPool
  | getReservedKey (holder : Nat)
  | keepKey (holder : Nat)
  | returnKey (holder : Nat)
  | oldestReserve
  | oldestReturn (call : Nat)
  | getAllReserveKeys

namespace KeySystem

/-- A wallet with no pool. -/
def init : KeySystem := ⟨⟨false, 0, [], fun _ => none⟩, fun _ => .init, [], []⟩

def setHolder (s : KeySystem) (holder : Nat) (reservekey : CReserveKey) : KeySystem :=
  { s with holders := fun h => if h = holder then reservekey else s.holders h }

variable (keypool : Nat) (getTime : KeyId → Int)

/-- One critical section, or none where it throws. -/
def step (s : KeySystem) : KeyOp → Option KeySystem
  | .lock => some { s with wallet := { s.wallet with fLocked := true } }
  | .unlock => some { s with wallet := { s.wallet with fLocked := false } }
  | .topUpKeyPool kpSize =>
    some { s with wallet := (s.wallet.topUpKeyPool keypool getTime kpSize).2 }
  | .newKeyPool => some { s with wallet := (s.wallet.newKeyPool keypool getTime).2 }
  | .getKeyFromPool =>
    (s.wallet.getKeyFromPool keypool getTime).map fun (key, wallet) =>
      { s with wallet, handed := key.toList ++ s.handed }
  | .getReservedKey holder =>
    ((s.holders holder).getReservedKey keypool getTime s.wallet).map fun (_, reservekey, wallet) =>
      { s.setHolder holder reservekey with wallet }
  | .keepKey holder =>
    let (reservekey, wallet) := (s.holders holder).keepKey s.wallet
    let key := (s.holders holder).nIndex.bind fun _ => (s.holders holder).vchPubKey
    some { s.setHolder holder reservekey with wallet, handed := key.toList ++ s.handed }
  | .returnKey holder =>
    let (reservekey, wallet) := (s.holders holder).returnKey s.wallet
    some { s.setHolder holder reservekey with wallet }
  | .oldestReserve =>
    (s.wallet.reserveKeyFromKeyPool keypool getTime).map fun
      | (none, wallet) => { s with wallet }
      | (some (nIndex, keypool), wallet) =>
        { s with wallet, calls := (nIndex, keypool.nTime) :: s.calls }
  | .oldestReturn call =>
    match s.calls[call]? with
    | none => some s
    | some (nIndex, _) =>
      some { s with wallet := s.wallet.returnKey nIndex, calls := s.calls.eraseIdx call }
  | .getAllReserveKeys => s.wallet.getAllReserveKeys.map fun _ => s

/-- The critical sections one after another. -/
def run (ops : List KeyOp) (s : KeySystem) : Option KeySystem :=
  Framework.run (fun op s => s.step keypool getTime op) ops s

end KeySystem

end GC
