import Mathlib.Logic.Function.Basic
import Mathlib.Data.Fintype.Basic
import Mathlib.Algebra.Group.Int.Defs
import Mathlib.Algebra.Group.Nat.Defs

/-!
# The address manager (addrman.h, addrman.cpp)

`CAddrMan` with its five indexes of the entries. The bucket hashes under a key `nKey` are parameters,
as is `IsRoutable`; what the clock and the random numbers are is an argument of each operation. Times
are unbounded integers, but for the 32 bits of `nTime`; `nIdCount` is an `int` that wraps around.

A failed assertion is an error. So is a lookup of an id in `mapInfo` that is not there (the source
would put in an empty entry), so that no operation is shown to be without errors that needs it.
-/

namespace GC

open Function (update)

def ADDRMAN_TRIED_BUCKET_COUNT : Nat := 256
def ADDRMAN_NEW_BUCKET_COUNT : Nat := 1024
def ADDRMAN_BUCKET_SIZE : Nat := 64
def ADDRMAN_NEW_BUCKETS_PER_ADDRESS : Nat := 8
def ADDRMAN_HORIZON_DAYS : Int := 30
def ADDRMAN_RETRIES : Int := 3
def ADDRMAN_MAX_FAILURES : Int := 10
def ADDRMAN_MIN_FAIL_DAYS : Int := 7
def ADDRMAN_GETADDR_MAX_PCT : Nat := 23
def ADDRMAN_GETADDR_MAX : Nat := 2500

theorem triedBucketCount_pos : 0 < ADDRMAN_TRIED_BUCKET_COUNT := by decide

theorem newBucketCount_pos : 0 < ADDRMAN_NEW_BUCKET_COUNT := by decide

theorem bucketSize_pos : 0 < ADDRMAN_BUCKET_SIZE := by decide

/-- `CService`: an address (a `CNetAddr`) and a port. -/
structure CService (NetAddr : Type) where
  ip : NetAddr
  port : UInt16
  deriving DecidableEq

structure CAddress (NetAddr : Type) where
  service : CService NetAddr
  nServices : UInt64
  nTime : Int

structure CAddrInfo (NetAddr : Type) extends CAddress NetAddr where
  source : NetAddr
  nLastTry : Int := 0
  nLastCountAttempt : Int := 0
  nLastSuccess : Int := 0
  nAttempts : Int := 0
  nRefCount : Int := 0
  fInTried : Bool := false
  nRandomPos : Nat

/-- A slot of `vvNew`, a bucket and a position in it. -/
abbrev NewSlot := Fin ADDRMAN_NEW_BUCKET_COUNT × Fin ADDRMAN_BUCKET_SIZE

/-- A slot of `vvTried`. -/
abbrev TriedSlot := Fin ADDRMAN_TRIED_BUCKET_COUNT × Fin ADDRMAN_BUCKET_SIZE

/-- The hashes that choose buckets and positions, and `IsRoutable`. -/
structure AddrHashes (NetAddr : Type) where
  getTriedBucket : CService NetAddr → Fin ADDRMAN_TRIED_BUCKET_COUNT
  getNewBucket : CService NetAddr → (src : NetAddr) → Fin ADDRMAN_NEW_BUCKET_COUNT
  getBucketPosition : CService NetAddr → (fNew : Bool) → (nBucket : Nat) → Fin ADDRMAN_BUCKET_SIZE
  isRoutable : CService NetAddr → Bool

inductive AddrManError where
  | assertFailed
  | unknownId
  deriving DecidableEq, Repr

abbrev AddrManResult := Except AddrManError

/-- `assert`. -/
def assertAddr (cond : Bool) : AddrManResult Unit := if cond then .ok () else .error .assertFailed

structure CAddrMan (NetAddr : Type) where
  nIdCount : Int
  mapInfo : Int → Option (CAddrInfo NetAddr)
  mapAddr : NetAddr → Option Int
  vRandom : List Int
  nTried : Int
  vvTried : TriedSlot → Int
  nNew : Int
  vvNew : NewSlot → Int
  nLastGood : Int

variable {NetAddr : Type}

/-- `CAddrInfo::IsTerrible`. -/
def CAddrInfo.isTerrible (info : CAddrInfo NetAddr) (nNow : Int) : Bool :=
  if info.nLastTry ≠ 0 ∧ nNow - 60 ≤ info.nLastTry then false
  else if nNow + 10 * 60 < info.nTime then true
  else if info.nTime = 0 ∨ ADDRMAN_HORIZON_DAYS * 24 * 60 * 60 < nNow - info.nTime then true
  else if info.nLastSuccess = 0 ∧ ADDRMAN_RETRIES ≤ info.nAttempts then true
  else if ADDRMAN_MIN_FAIL_DAYS * 24 * 60 * 60 < nNow - info.nLastSuccess ∧
    ADDRMAN_MAX_FAILURES ≤ info.nAttempts then true
  else false

/-- An `int` after an addition that wraps around. -/
def wrapInt (n : Int) : Int := Int.bmod n (2 ^ 32)

namespace AddrHashes

variable (hashes : AddrHashes NetAddr)

/-- The slot of `vvNew` for an address in a bucket. -/
def newSlot (service : CService NetAddr) (nUBucket : Fin ADDRMAN_NEW_BUCKET_COUNT) : NewSlot :=
  (nUBucket, hashes.getBucketPosition service true nUBucket)

/-- The slot of `vvTried` for an address. -/
def triedSlot (service : CService NetAddr) : TriedSlot :=
  (hashes.getTriedBucket service,
    hashes.getBucketPosition service false (hashes.getTriedBucket service))

end AddrHashes

namespace CAddrMan

/-- A new address manager, as `Clear` leaves it. -/
def fresh : CAddrMan NetAddr where
  nIdCount := 0
  mapInfo _ := none
  mapAddr _ := none
  vRandom := []
  nTried := 0
  vvTried _ := -1
  nNew := 0
  vvNew _ := -1
  nLastGood := 1

variable [DecidableEq NetAddr]

/-- `mapInfo[nId]`. -/
def infoAt (m : CAddrMan NetAddr) (nId : Int) : AddrManResult (CAddrInfo NetAddr) :=
  match m.mapInfo nId with
  | some info => .ok info
  | none => .error .unknownId

/-- `assert(mapInfo.count(nId) == 1)` and `mapInfo[nId]`. -/
def assertInfo (m : CAddrMan NetAddr) (nId : Int) : AddrManResult (CAddrInfo NetAddr) :=
  match m.mapInfo nId with
  | some info => .ok info
  | none => .error .assertFailed

/-- An assignment to fields of `mapInfo[nId]`, which is there. -/
def modifyInfo (m : CAddrMan NetAddr) (nId : Int) (f : CAddrInfo NetAddr → CAddrInfo NetAddr) :
    CAddrMan NetAddr :=
  { m with mapInfo := update m.mapInfo nId ((m.mapInfo nId).map f) }

/-- `Find`: the id and the entry. -/
def find (m : CAddrMan NetAddr) (addr : NetAddr) : Option (Int × CAddrInfo NetAddr) := do
  let nId ← m.mapAddr addr
  let info ← m.mapInfo nId
  return (nId, info)

/-- `Create`, with the id `m.nIdCount`. -/
def create (m : CAddrMan NetAddr) (addr : CAddress NetAddr) (addrSource : NetAddr) :
    CAddrMan NetAddr :=
  { m with
    nIdCount := wrapInt (m.nIdCount + 1)
    mapInfo := update m.mapInfo m.nIdCount
      (some { addr with source := addrSource, nRandomPos := m.vRandom.length })
    mapAddr := update m.mapAddr addr.service.ip (some m.nIdCount)
    vRandom := m.vRandom ++ [m.nIdCount] }

/-- `SwapRandom`. -/
def swapRandom (m : CAddrMan NetAddr) (nRndPos1 nRndPos2 : Nat) : AddrManResult (CAddrMan NetAddr) :=
  if nRndPos1 = nRndPos2 then .ok m
  else
    match m.vRandom[nRndPos1]?, m.vRandom[nRndPos2]? with
    | some nId1, some nId2 => do
      let info1 ← m.assertInfo nId1
      let info2 ← m.assertInfo nId2
      return { m with
        mapInfo := update (update m.mapInfo nId1 (some { info1 with nRandomPos := nRndPos2 })) nId2
          (some { info2 with nRandomPos := nRndPos1 })
        vRandom := (m.vRandom.set nRndPos1 nId2).set nRndPos2 nId1 }
    | _, _ => .error .assertFailed

/-- `Delete`. -/
def delete (m : CAddrMan NetAddr) (nId : Int) : AddrManResult (CAddrMan NetAddr) := do
  let info ← m.assertInfo nId
  assertAddr (!info.fInTried)
  assertAddr (info.nRefCount == 0)
  let m ← m.swapRandom info.nRandomPos (m.vRandom.length - 1)
  return { m with
    vRandom := m.vRandom.dropLast
    mapAddr := update m.mapAddr info.service.ip none
    mapInfo := update m.mapInfo nId none
    nNew := m.nNew - 1 }

/-- `ClearNew`. -/
def clearNew (m : CAddrMan NetAddr) (slot : NewSlot) : AddrManResult (CAddrMan NetAddr) :=
  if m.vvNew slot = -1 then .ok m
  else do
    let nIdDelete := m.vvNew slot
    let infoDelete ← m.infoAt nIdDelete
    assertAddr (decide (0 < infoDelete.nRefCount))
    let m := { m.modifyInfo nIdDelete fun info => { info with nRefCount := info.nRefCount - 1 } with
      vvNew := update m.vvNew slot (-1) }
    if infoDelete.nRefCount - 1 = 0 then m.delete nIdDelete else return m

/-- `fInsert` of `Add_`: whether the slot goes to an entry with `nRefCount` references. -/
def fInsertNew (m : CAddrMan NetAddr) (slot : NewSlot) (nRefCount nNow : Int) : AddrManResult Bool :=
  if m.vvNew slot = -1 then .ok true
  else do
    let infoExisting ← m.infoAt (m.vvNew slot)
    return infoExisting.isTerrible nNow || (decide (1 < infoExisting.nRefCount) && nRefCount == 0)

section

variable (hashes : AddrHashes NetAddr)

/-- The loop of `MakeTried` that takes an entry out of the new buckets. -/
def removeFromNew (nId : Int) (service : CService NetAddr) :
    List (Fin ADDRMAN_NEW_BUCKET_COUNT) → CAddrMan NetAddr → CAddrMan NetAddr
  | [], m => m
  | bucket :: buckets, m =>
    let slot := hashes.newSlot service bucket
    if m.vvNew slot = nId then
      removeFromNew nId service buckets
        { m.modifyInfo nId fun info => { info with nRefCount := info.nRefCount - 1 } with
          vvNew := update m.vvNew slot (-1) }
    else removeFromNew nId service buckets m

/-- The part of `MakeTried` that makes space: the entry in the slot of `vvTried` goes back to a new
bucket. -/
def evictTried (m : CAddrMan NetAddr) (slot : TriedSlot) : AddrManResult (CAddrMan NetAddr) :=
  if m.vvTried slot = -1 then .ok m
  else do
    let nIdEvict := m.vvTried slot
    let infoOld ← m.assertInfo nIdEvict
    let m := { m.modifyInfo nIdEvict fun info => { info with fInTried := false } with
      vvTried := update m.vvTried slot (-1)
      nTried := m.nTried - 1 }
    let uSlot := hashes.newSlot infoOld.service (hashes.getNewBucket infoOld.service infoOld.source)
    let m ← m.clearNew uSlot
    assertAddr (m.vvNew uSlot == -1)
    return { m.modifyInfo nIdEvict fun info => { info with nRefCount := 1 } with
      vvNew := update m.vvNew uSlot nIdEvict
      nNew := m.nNew + 1 }

/-- `MakeTried`. -/
def makeTried (m : CAddrMan NetAddr) (nId : Int) : AddrManResult (CAddrMan NetAddr) := do
  let info ← m.infoAt nId
  let m := removeFromNew hashes nId info.service (List.finRange _) m
  let m := { m with nNew := m.nNew - 1 }
  assertAddr ((← m.infoAt nId).nRefCount == 0)
  let slot := hashes.triedSlot info.service
  let m ← m.evictTried hashes slot
  assertAddr (m.vvTried slot == -1)
  return { m.modifyInfo nId fun info => { info with fInTried := true } with
    vvTried := update m.vvTried slot nId
    nTried := m.nTried + 1 }

/-- Whether `Good_` finds a bucket with the entry, from the bucket `nRnd` on. -/
def inNewBucket (m : CAddrMan NetAddr) (nId : Int) (service : CService NetAddr) (nRnd : Nat) : Bool :=
  (List.range ADDRMAN_NEW_BUCKET_COUNT).any fun n =>
    m.vvNew (hashes.newSlot service
      ⟨(n + nRnd) % ADDRMAN_NEW_BUCKET_COUNT, Nat.mod_lt _ (by decide)⟩) == nId

/-- `Good_`, where `GetRandInt` returns `nRnd`. -/
def good_ (m : CAddrMan NetAddr) (addr : CService NetAddr) (nTime : Int) (nRnd : Nat) :
    AddrManResult (CAddrMan NetAddr) :=
  let m := { m with nLastGood := nTime }
  match m.find addr.ip with
  | none => .ok m
  | some (nId, info) =>
    if info.service ≠ addr then .ok m
    else
      let m := m.modifyInfo nId fun info =>
        { info with nLastSuccess := nTime, nLastTry := nTime, nAttempts := 0 }
      if info.fInTried then .ok m
      else if !inNewBucket hashes m nId info.service nRnd then .ok m
      else m.makeTried hashes nId

/-- The end of `Add_`: the entry is put into a new bucket. -/
def insertNew (m : CAddrMan NetAddr) (nId : Int) (source : NetAddr) (nNow : Int) :
    AddrManResult (CAddrMan NetAddr) := do
  let info ← m.infoAt nId
  let slot := hashes.newSlot info.service (hashes.getNewBucket info.service source)
  if m.vvNew slot = nId then return m
  else
    let fInsert ← m.fInsertNew slot info.nRefCount nNow
    if fInsert then
      let m ← m.clearNew slot
      return { m.modifyInfo nId fun info => { info with nRefCount := info.nRefCount + 1 } with
        vvNew := update m.vvNew slot nId }
    else if info.nRefCount = 0 then m.delete nId
    else return m

/-- The entry of a known address with the new time and services. -/
def refreshInfo (info : CAddrInfo NetAddr) (addr : CAddress NetAddr) (nTimePenalty nNow : Int) :
    CAddrInfo NetAddr :=
  let nUpdateInterval : Int := if nNow - addr.nTime < 24 * 60 * 60 then 60 * 60 else 24 * 60 * 60
  let nTime :=
    if addr.nTime ≠ 0 ∧ (info.nTime = 0 ∨ info.nTime < addr.nTime - nUpdateInterval - nTimePenalty)
    then max 0 (addr.nTime - nTimePenalty) % 2 ^ 32
    else info.nTime
  { info with nTime, nServices := info.nServices ||| addr.nServices }

/-- The part of `Add_` that creates an entry. -/
def createNew (m : CAddrMan NetAddr) (addr : CAddress NetAddr) (source : NetAddr)
    (nTimePenalty : Int) : CAddrMan NetAddr :=
  { (m.create addr source).modifyInfo m.nIdCount fun info =>
      { info with nTime := max 0 (info.nTime - nTimePenalty) % 2 ^ 32 } with
    nNew := m.nNew + 1 }

/-- `Add_` at the time `nNow`, where `GetRandInt(nFactor)` returns `nRnd % nFactor`. -/
def add_ (m : CAddrMan NetAddr) (addr : CAddress NetAddr) (source : NetAddr)
    (nTimePenalty nNow : Int) (nRnd : Nat) : AddrManResult (Bool × CAddrMan NetAddr) :=
  if !hashes.isRoutable addr.service then .ok (false, m)
  else
    match m.find addr.service.ip with
    | some (nId, info) =>
      let info := refreshInfo info addr nTimePenalty nNow
      let m := m.modifyInfo nId fun info => refreshInfo info addr nTimePenalty nNow
      if addr.nTime = 0 ∨ (info.nTime ≠ 0 ∧ addr.nTime ≤ info.nTime) then .ok (false, m)
      else if info.fInTried then .ok (false, m)
      else if info.nRefCount = ADDRMAN_NEW_BUCKETS_PER_ADDRESS then .ok (false, m)
      else
        let nFactor := 2 ^ info.nRefCount.toNat
        if 1 < nFactor ∧ nRnd % nFactor ≠ 0 then .ok (false, m)
        else do return (false, ← m.insertNew hashes nId source nNow)
    | none => do
      return (true, ← (m.createNew addr source nTimePenalty).insertNew hashes m.nIdCount source nNow)

end

/-- `Attempt_`. -/
def attempt_ (m : CAddrMan NetAddr) (addr : CService NetAddr) (fCountFailure : Bool) (nTime : Int) :
    CAddrMan NetAddr :=
  match m.find addr.ip with
  | none => m
  | some (nId, info) =>
    if info.service ≠ addr then m
    else m.modifyInfo nId fun info =>
      if fCountFailure = true ∧ info.nLastCountAttempt < m.nLastGood then
        { info with nLastTry := nTime, nLastCountAttempt := nTime, nAttempts := info.nAttempts + 1 }
      else { info with nLastTry := nTime }

/-- `Connected_`. -/
def connected_ (m : CAddrMan NetAddr) (addr : CService NetAddr) (nTime : Int) : CAddrMan NetAddr :=
  match m.find addr.ip with
  | none => m
  | some (nId, info) =>
    if info.service ≠ addr then m
    else m.modifyInfo nId fun info =>
      if 20 * 60 < nTime - info.nTime then { info with nTime := nTime % 2 ^ 32 } else info

/-- The loop of `GetAddr_` from `n` on, with `left` positions to go, where `GetRandInt(k)` returns
`rnd n % k`. -/
def gatherAddr (nNow : Int) (rnd : Nat → Nat) (nNodes : Nat) :
    (left n : Nat) → List (CAddress NetAddr) → CAddrMan NetAddr →
      AddrManResult (List (CAddress NetAddr) × CAddrMan NetAddr)
  | 0, _, vAddr, m => .ok (vAddr, m)
  | left + 1, n, vAddr, m =>
    if nNodes ≤ vAddr.length then .ok (vAddr, m)
    else do
      let m ← m.swapRandom n (rnd n % (left + 1) + n)
      match m.vRandom[n]? with
      | none => .error .assertFailed
      | some nId =>
        let ai ← m.assertInfo nId
        gatherAddr nNow rnd nNodes left (n + 1)
          (if ai.isTerrible nNow then vAddr else vAddr ++ [ai.toCAddress]) m

/-- `GetAddr_`. -/
def getAddr_ (m : CAddrMan NetAddr) (nNow : Int) (rnd : Nat → Nat) (vAddr : List (CAddress NetAddr)) :
    AddrManResult (List (CAddress NetAddr) × CAddrMan NetAddr) :=
  let nNodes := min (ADDRMAN_GETADDR_MAX_PCT * m.vRandom.length / 100) ADDRMAN_GETADDR_MAX
  gatherAddr nNow rnd nNodes m.vRandom.length 0 vAddr m

end CAddrMan

/-! ## Runs -/

/-- The calls that change an address manager, with the time and the random numbers they see. -/
inductive AddrManOp (NetAddr : Type) where
  | add (addr : CAddress NetAddr) (source : NetAddr) (nTimePenalty nNow : Int) (nRnd : Nat)
  | good (addr : CService NetAddr) (nTime : Int) (nRnd : Nat)
  | attempt (addr : CService NetAddr) (fCountFailure : Bool) (nTime : Int)
  | connected (addr : CService NetAddr) (nTime : Int)
  | getAddr (nNow : Int) (rnd : Nat → Nat) (vAddr : List (CAddress NetAddr))

namespace CAddrMan

variable [DecidableEq NetAddr] (hashes : AddrHashes NetAddr)

def call (m : CAddrMan NetAddr) : AddrManOp NetAddr → AddrManResult (CAddrMan NetAddr)
  | .add addr source nTimePenalty nNow nRnd => do
    let (_, m) ← m.add_ hashes addr source nTimePenalty nNow nRnd
    return m
  | .good addr nTime nRnd => m.good_ hashes addr nTime nRnd
  | .attempt addr fCountFailure nTime => .ok (m.attempt_ addr fCountFailure nTime)
  | .connected addr nTime => .ok (m.connected_ addr nTime)
  | .getAddr nNow rnd vAddr => do
    let (_, m) ← m.getAddr_ nNow rnd vAddr
    return m

/-- The calls in order. -/
def calls (m : CAddrMan NetAddr) : List (AddrManOp NetAddr) → AddrManResult (CAddrMan NetAddr)
  | [] => .ok m
  | op :: ops => do (← m.call hashes op).calls ops

end CAddrMan

end GC
