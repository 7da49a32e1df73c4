import GameCredits.Framework.Load
import GameCredits.Model.AddrMan
import GameCredits.Model.Wire

/-!
# The file of addresses (addrman.h, protocol.h, netbase.h)

`CAddrMan::Serialize` and `Unserialize` on disk. An exception leaves the manager as the reading has
changed it so far; an assertion that fails is an error of the whole call. The keys of `mapInfo` in their
order are an argument of `Serialize`. `nIdCount` does not wrap around here: a file holds fewer than
`2 ^ 31` bytes.
-/

namespace GC

open Framework
open Function (update)

/-- `CNetAddr`: its bytes in network order. -/
abbrev CNetAddr := { ip : Bytes // ip.length = 16 }

/-- `CNetAddr()`. -/
def CNetAddr.zero : CNetAddr := ⟨List.replicate 16 0, List.length_replicate⟩

def NODE_NETWORK : UInt64 := 1

/-- `CAddrInfo()`; the position -1 is written as an unsigned number. -/
def CAddrInfo.blank : CAddrInfo CNetAddr where
  service := ⟨.zero, 0⟩
  nServices := NODE_NETWORK
  nTime := 100000000
  source := .zero
  nRandomPos := 2 ^ 32 - 1

/-- A `CAddrMan` with its key. -/
structure AddrDB where
  nKey : UInt256
  man : CAddrMan CNetAddr

/-! ## Entries -/

def portBytes (port : UInt16) : Bytes := (leBytes 2 port.toNat).reverse

/-- `CAddrInfo::SerializationOp` for writing on disk by a client of version `nVersion`. -/
def CAddrInfo.bytes (nVersion : Int) (info : CAddrInfo CNetAddr) : Bytes :=
  int32Bytes nVersion ++ (leBytes 4 (info.nTime % 2 ^ 32).toNat ++ (leBytes 8 info.nServices.toNat ++
    (info.service.ip.val ++ (portBytes info.service.port ++ (info.source.val ++
      (int64Bytes info.nLastSuccess ++ int32Bytes info.nAttempts))))))

def readNetAddr : Get CNetAddr where
  run s :=
    if h : 16 ≤ s.length then
      some (⟨s.take 16, by rw [List.length_take]; exact Nat.min_eq_left h⟩, s.drop 16)
    else none

def readPort : Get UInt16 := do
  let portN ← getBytes 2
  return UInt16.ofNat (leNat portN.reverse)

/-- What `Unserialize` throws. -/
inductive AddrFileError where
  | endOfData
  | incorrectKeysize
  deriving DecidableEq, Repr

/-- A field of a stream. -/
abbrev readField {σ α : Type} (get : Get α) : Load AddrFileError σ α := .read .endOfData get

/-- `CAddrInfo::SerializationOp` for reading; the version is read and not used. -/
def unserializeInfo : Load AddrFileError (CAddrInfo CNetAddr) Unit := do
  .modify fun info => { info with nServices := NODE_NETWORK, nTime := 100000000 }
  let _ ← readField unserializeInt32
  let nTime ← readField (getLE 4)
  .modify fun info => { info with nTime := (nTime : Int) }
  let nServices ← readField (getLE 8)
  .modify fun info => { info with nServices := UInt64.ofNat nServices }
  let ip ← readField readNetAddr
  .modify fun info => { info with service := { info.service with ip } }
  let port ← readField readPort
  .modify fun info => { info with service := { info.service with port } }
  let source ← readField readNetAddr
  .modify fun info => { info with source }
  let nLastSuccess ← readField unserializeInt64
  .modify fun info => { info with nLastSuccess }
  let nAttempts ← readField unserializeInt32
  .modify fun info => { info with nAttempts }

namespace CAddrMan

/-! ## Serialize -/

section

variable (nVersion : Int) (m : CAddrMan CNetAddr)

/-- The first loop of `Serialize`: the entries with references, and `mapUnkIds`. -/
def writeNew : (ids : List Int) → (nIds : Int) → (mapUnkIds : Int → Int) →
    AddrManResult (Bytes × (Int → Int))
  | [], _, mapUnkIds => .ok ([], mapUnkIds)
  | nId :: ids, nIds, mapUnkIds => do
    let info ← m.infoAt nId
    let mapUnkIds := update mapUnkIds nId nIds
    if info.nRefCount ≠ 0 then
      assertAddr (nIds != m.nNew)
      let (bytes, mapUnkIds) ← writeNew ids (nIds + 1) mapUnkIds
      return (info.bytes nVersion ++ bytes, mapUnkIds)
    else writeNew ids nIds mapUnkIds

/-- The second loop of `Serialize`. -/
def writeTried : (ids : List Int) → (nIds : Int) → AddrManResult Bytes
  | [], _ => .ok []
  | nId :: ids, nIds => do
    let info ← m.infoAt nId
    if info.fInTried then
      assertAddr (nIds != m.nTried)
      let bytes ← writeTried ids (nIds + 1)
      return info.bytes nVersion ++ bytes
    else writeTried ids nIds

/-- The positions of a bucket of `vvNew` that have an entry. -/
def usedPositions (bucket : Fin ADDRMAN_NEW_BUCKET_COUNT) : List (Fin ADDRMAN_BUCKET_SIZE) :=
  (List.finRange _).filter fun i => m.vvNew (bucket, i) != -1

def bucketBytes (mapUnkIds : Int → Int) (bucket : Fin ADDRMAN_NEW_BUCKET_COUNT) : Bytes :=
  int32Bytes (m.usedPositions bucket).length ++
    (m.usedPositions bucket).flatMap fun i => int32Bytes (mapUnkIds (m.vvNew (bucket, i)))

/-- `Serialize`, where `ids` are the keys of `mapInfo`. -/
def serialize (nKey : UInt256) (ids : List Int) : AddrManResult Bytes := do
  let (new, mapUnkIds) ← m.writeNew nVersion ids 0 fun _ => 0
  let tried ← m.writeTried nVersion ids 0
  return [1, 32] ++ (uint256Bytes nKey ++ (int32Bytes m.nNew ++ (int32Bytes m.nTried ++
    (uint32Bytes (UInt32.ofNat ADDRMAN_NEW_BUCKET_COUNT ^^^ ((1 : UInt32) <<< (30 : UInt32))) ++
      (new ++ (tried ++ (List.finRange _).flatMap (m.bucketBytes mapUnkIds)))))))

end

/-! ## Unserialize -/

/-- `Clear`, which leaves `mapInfo` and `mapAddr`. -/
def clear (m : CAddrMan CNetAddr) : CAddrMan CNetAddr :=
  { (fresh : CAddrMan CNetAddr) with mapInfo := m.mapInfo, mapAddr := m.mapAddr }

variable (hashes : AddrHashes CNetAddr)

/-- What `Unserialize` does with the entry `n` of the new table, after it is read. Where the table
that follows cannot be used, the entry gets a reference by its source. -/
def placeNew (fUseTable : Bool) (n : Nat) (m : CAddrMan CNetAddr) : CAddrMan CNetAddr :=
  match m.mapInfo n with
  | none => m
  | some info =>
    let m := { m with
      mapAddr := update m.mapAddr info.service.ip (some n)
      mapInfo := update m.mapInfo n (some { info with nRandomPos := m.vRandom.length })
      vRandom := m.vRandom ++ [(n : Int)] }
    if fUseTable then m
    else
      let slot := hashes.newSlot info.service (hashes.getNewBucket info.service info.source)
      if m.vvNew slot = -1 then
        { m.modifyInfo n fun info => { info with nRefCount := info.nRefCount + 1 } with
          vvNew := update m.vvNew slot n }
      else m

theorem bucket_lt_of_used {fUseTable : Bool} {bucket : Nat}
    (h : fUseTable = true ∧ bucket < ADDRMAN_NEW_BUCKET_COUNT) : bucket < ADDRMAN_NEW_BUCKET_COUNT :=
  h.2

/-- An index of the new table is read. -/
def placePosition (fUseTable : Bool) (bucket : Nat) (nIndex : Int) (m : CAddrMan CNetAddr) :
    CAddrMan CNetAddr :=
  if 0 ≤ nIndex ∧ nIndex < m.nNew then
    match m.mapInfo nIndex with
    | none => m
    | some info =>
      if h : fUseTable = true ∧ bucket < ADDRMAN_NEW_BUCKET_COUNT then
        let slot := hashes.newSlot info.service ⟨bucket, bucket_lt_of_used h⟩
        if m.vvNew slot = -1 ∧ info.nRefCount < ADDRMAN_NEW_BUCKETS_PER_ADDRESS then
          { m.modifyInfo nIndex fun info => { info with nRefCount := info.nRefCount + 1 } with
            vvNew := update m.vvNew slot nIndex }
        else m
      else m
  else m

/-- The last loop of `Unserialize`: the entries without a reference are deleted. -/
def pruneNew : (ids : List Int) → CAddrMan CNetAddr → AddrManResult (CAddrMan CNetAddr)
  | [], m => .ok m
  | nId :: ids, m =>
    match m.mapInfo nId with
    | none => pruneNew ids m
    | some info =>
      if info.fInTried = false ∧ info.nRefCount = 0 then do
        let m ← m.delete nId
        pruneNew ids m
      else pruneNew ids m

end CAddrMan

/-- What the loops of `Unserialize` change. -/
structure AddrLoad extends AddrDB where
  nLost : Int := 0

namespace AddrLoad

def modifyMan (f : CAddrMan CNetAddr → CAddrMan CNetAddr) (d : AddrLoad) : AddrLoad :=
  { d with man := f d.man }

/-- `mapInfo[n]` is read. -/
def readInfoAt (n : Nat) : Load AddrFileError AddrLoad Unit :=
  .within (fun d => (d.man.mapInfo n).getD .blank)
    (fun info => modifyMan fun m => { m with mapInfo := update m.mapInfo n (some info) })
    unserializeInfo

section

variable (hashes : AddrHashes CNetAddr) (fUseTable : Bool)

/-- A round of the loop over the new entries. -/
def loadNew (n : Nat) : Load AddrFileError AddrLoad Unit := do
  readInfoAt n
  .modify (modifyMan (CAddrMan.placeNew hashes fUseTable n))

/-- What `Unserialize` does with a tried entry that is read. -/
def placeTried (info : CAddrInfo CNetAddr) (d : AddrLoad) : AddrLoad :=
  let m := d.man
  let slot := hashes.triedSlot info.service
  if m.vvTried slot = -1 then
    { d with
      man := { m with
        vRandom := m.vRandom ++ [m.nIdCount]
        mapInfo := update m.mapInfo m.nIdCount
          (some { info with nRandomPos := m.vRandom.length, fInTried := true })
        mapAddr := update m.mapAddr info.service.ip (some m.nIdCount)
        vvTried := update m.vvTried slot m.nIdCount
        nIdCount := m.nIdCount + 1 } }
  else { d with nLost := d.nLost + 1 }

/-- A round of the loop over the tried entries. -/
def loadTried (_ : Nat) : Load AddrFileError AddrLoad Unit := do
  let info ← .newly .blank unserializeInfo
  .modify (placeTried hashes info)

/-- The indexes of a bucket are read, and `f` is done with each. -/
def loadBucket {σ : Type} (f : Nat → Int → σ → σ) (bucket : Nat) : Load AddrFileError σ Unit := do
  let nSize ← readField unserializeInt32
  .times (fun _ => do
    let nIndex ← readField unserializeInt32
    .modify (f bucket nIndex)) nSize.toNat 0

end

/-- `nUBuckets` as the version of the stream has it. -/
def numBuckets (nVersion : UInt8) (nUBuckets : UInt32) : UInt32 :=
  if nVersion ≠ 0 then nUBuckets ^^^ ((1 : UInt32) <<< (30 : UInt32)) else nUBuckets

/-- Whether the positions of the new table are those of this manager. -/
def useTable (nVersion : UInt8) (nUBuckets : UInt32) : Bool :=
  nVersion == 1 && nUBuckets == UInt32.ofNat ADDRMAN_NEW_BUCKET_COUNT

/-- The rounds of a loop from zero to `nUBuckets`, which is an `int`. -/
@[irreducible] def bucketRounds (nUBuckets : UInt32) : Nat := (wrapInt nUBuckets.toNat).toNat

/-- The loops of `Unserialize` before the pruning. -/
def loadTables (hashes : AddrHashes CNetAddr) (nVersion : UInt8) (nNew nTried : Int)
    (nUBuckets : UInt32) : Load AddrFileError AddrLoad Unit := do
  let nUBuckets := numBuckets nVersion nUBuckets
  let fUseTable := useTable nVersion nUBuckets
  .times (loadNew hashes fUseTable) nNew.toNat 0
  .modify (modifyMan fun m => { m with nIdCount := nNew })
  .times (loadTried hashes) nTried.toNat 0
  .modify fun d => { d with man := { d.man with nTried := d.man.nTried - d.nLost } }
  .times (loadBucket fun bucket nIndex =>
    modifyMan (CAddrMan.placePosition hashes fUseTable bucket nIndex))
    (bucketRounds nUBuckets) 0

/-- `Unserialize` from `nNew` on, before the pruning. -/
def loadCounts (hashes : AddrHashes CNetAddr) (nVersion : UInt8) :
    Load AddrFileError AddrLoad Unit := do
  let nNew ← readField unserializeInt32
  .modify (modifyMan fun m => { m with nNew })
  let nTried ← readField unserializeInt32
  .modify (modifyMan fun m => { m with nTried })
  let nUBuckets ← readField unserializeUInt32
  loadTables hashes nVersion nNew nTried nUBuckets

/-- `Unserialize` up to the pruning, where `GetRandHash` returns `randHash`. -/
def load (hashesOf : UInt256 → AddrHashes CNetAddr) (randHash : UInt256) :
    Load AddrFileError AddrLoad Unit := do
  .modify fun d => { d with nKey := randHash, man := d.man.clear }
  let nVersion ← readField getByte
  let nKeySize ← readField getByte
  if nKeySize ≠ 32 then throw .incorrectKeysize
  let nKey ← readField unserializeUInt256
  .modify fun d => { d with nKey }
  loadCounts (hashesOf nKey) nVersion

/-- The end of `Unserialize`: the manager, and what is left of the stream or the exception. -/
def finish : EStateM.Result AddrFileError (AddrLoad × Bytes) Unit →
    AddrManResult (AddrDB × Except AddrFileError Bytes)
  | .error e (d, _) => .ok (d.toAddrDB, .error e)
  | .ok () (d, s) => do
    let man ← CAddrMan.pruneNew ((List.range d.man.nIdCount.toNat).map Int.ofNat) d.man
    return ({ d.toAddrDB with man }, .ok s)

end AddrLoad

namespace AddrDB

/-- A new manager. -/
def fresh (nKey : UInt256) : AddrDB := ⟨nKey, .fresh⟩

/-- `Unserialize` into a new manager: the keys of the entries that are not tried are those from zero
on. -/
def unserialize (hashesOf : UInt256 → AddrHashes CNetAddr) (randHash : UInt256) (db : AddrDB)
    (s : Bytes) : AddrManResult (AddrDB × Except AddrFileError Bytes) :=
  AddrLoad.finish (AddrLoad.load hashesOf randHash (⟨db, 0⟩, s))

end AddrDB

end GC
