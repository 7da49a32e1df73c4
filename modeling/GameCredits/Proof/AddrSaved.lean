import GameCredits.Proof.AddrChecked

/-!
# Saving the addresses and loading them

`CAddrMan::Unserialize` reads what `Serialize` wrote:

* `roundTrip_record`: the fields of an entry that are saved;
* `serialize_ok`: the file of a consistent manager;
* `addrMan_roundTrip`: the manager that is loaded from it.
-/

namespace GC

open Framework
open Function (update)

/-! ## Records -/

/-- The bytes of an entry. -/
def AddrRecord.bytes (nVersion : Int) (r : AddrRecord) : Bytes :=
  (r.onto .blank).bytes nVersion

/-- The numbers are in the ranges of their types. -/
structure AddrRecord.InRange (r : AddrRecord) : Prop where
  nTime : 0 ≤ r.nTime ∧ r.nTime < 2 ^ 32
  nLastSuccess : -2 ^ 63 ≤ r.nLastSuccess ∧ r.nLastSuccess < 2 ^ 63
  nAttempts : -2 ^ 31 ≤ r.nAttempts ∧ r.nAttempts < 2 ^ 31

theorem readNetAddr_append (ip : CNetAddr) (s : Bytes) :
    readNetAddr.run (ip.val ++ s) = some (ip, s) := by
  have hlen := ip.property
  have hle : 16 ≤ (ip.val ++ s).length := by
    rw [List.length_append]
    omega
  rw [readNetAddr]
  simp only [dif_pos hle]
  congr 2
  · exact Subtype.ext (List.take_left' hlen)
  · exact List.drop_left' hlen

theorem readPort_append (port : UInt16) (s : Bytes) :
    readPort.run (portBytes port ++ s) = some (port, s) := by
  have hlen : (portBytes port).length = 2 := by rw [portBytes, List.length_reverse, length_leBytes]
  have hlt : port.toNat < 256 ^ 2 := port.toNat_lt
  have hget := getBytes_append (portBytes port) s
  rw [hlen] at hget
  rw [readPort, Get.run_bind_some hget, portBytes, List.reverse_reverse, leNat_leBytes,
    Nat.mod_eq_of_lt hlt, UInt16.ofNat_toNat]
  rfl

/-- Four bytes of a version are read, whatever it is. -/
theorem readVersion_append (nVersion : Int) (s : Bytes) :
    ∃ n, unserializeInt32.run (int32Bytes nVersion ++ s) = some (n, s) :=
  ⟨_, by rw [unserializeInt32, int32Bytes, Get.run_bind_some (getLE_append ..)]; rfl⟩

/-- The fields that are written are those that are read. -/
theorem roundTrip_record (nVersion : Int) :
    RoundTrip (AddrRecord.bytes nVersion) getRecord AddrRecord.InRange := by
  intro r hr s
  have hnTime : (r.nTime % 2 ^ 32).toNat < 256 ^ 4 := by omega
  have hnServices : r.nServices.toNat < 256 ^ 8 := r.nServices.toNat_lt
  obtain ⟨version, hversion⟩ := readVersion_append nVersion (leBytes 4 (r.nTime % 2 ^ 32).toNat ++
    (leBytes 8 r.nServices.toNat ++ (r.service.ip.val ++ (portBytes r.service.port ++ (r.source.val ++
      (int64Bytes r.nLastSuccess ++ (int32Bytes r.nAttempts ++ s)))))))
  have hbytes : r.bytes nVersion ++ s = int32Bytes nVersion ++ (leBytes 4 (r.nTime % 2 ^ 32).toNat ++
      (leBytes 8 r.nServices.toNat ++ (r.service.ip.val ++ (portBytes r.service.port ++ (r.source.val ++
        (int64Bytes r.nLastSuccess ++ (int32Bytes r.nAttempts ++ s))))))) := by
    simp only [AddrRecord.bytes, CAddrInfo.bytes, AddrRecord.onto, List.append_assoc]
  rw [hbytes, getRecord, Get.run_bind_some hversion, Get.run_bind_some (roundTrip_le 4 _ hnTime _),
    Get.run_bind_some (roundTrip_le 8 _ hnServices _), Get.run_bind_some (readNetAddr_append ..),
    Get.run_bind_some (readPort_append ..), Get.run_bind_some (readNetAddr_append ..),
    Get.run_bind_some (exact_int64.roundTrip _ hr.nLastSuccess _),
    Get.run_bind_some (exact_int32.roundTrip _ hr.nAttempts _), Get.run_pure]
  have htime : (((r.nTime % 2 ^ 32).toNat : Nat) : Int) = r.nTime := by
    have := hr.nTime
    omega
  have hservices : UInt64.ofNat r.nServices.toNat = r.nServices := UInt64.ofNat_toNat
  rw [htime, hservices]

/-! ## Entries that are saved -/

namespace CAddrMan

variable (m : CAddrMan CNetAddr)

/-- The record of an entry. -/
def recordAt (x : Int) : AddrRecord := ((m.mapInfo x).getD .blank).record

/-- The entry has references. -/
def isNew (x : Int) : Bool := (m.mapInfo x).any fun info => decide (info.nRefCount ≠ 0)

/-- The entry is tried. -/
def isTried (x : Int) : Bool := (m.mapInfo x).any (·.fInTried)

end CAddrMan

section

variable {hashes : AddrHashes CNetAddr} {m : CAddrMan CNetAddr} {ids : List Int}

/-- The first loop of `Serialize`. -/
theorem writeNew_ok (nVersion : Int) (hids : ids.Nodup)
    (hinfo : ∀ x ∈ ids, ∃ info, m.mapInfo x = some info) (nIds : Int) (mapUnkIds : Int → Int)
    (hle : nIds + (ids.filter m.isNew).length ≤ m.nNew) :
    ∃ mapUnkIds', m.writeNew nVersion ids nIds mapUnkIds =
        .ok ((ids.filter m.isNew).flatMap fun x => (m.recordAt x).bytes nVersion, mapUnkIds') ∧
      (∀ x, x ∉ ids → mapUnkIds' x = mapUnkIds x) ∧
      ∀ x ∈ ids.filter m.isNew, mapUnkIds' x = nIds + (ids.filter m.isNew).idxOf x := by
  induction ids generalizing nIds mapUnkIds with
  | nil => exact ⟨mapUnkIds, rfl, fun _ _ => rfl, fun x hx => absurd hx List.not_mem_nil⟩
  | cons nId ids ih =>
    obtain ⟨hid, hids⟩ := List.nodup_cons.mp hids
    obtain ⟨info, hi⟩ := hinfo nId (List.mem_cons_self ..)
    have hrest : ∀ x ∈ ids, ∃ info, m.mapInfo x = some info := fun x hx =>
      hinfo x (List.mem_cons_of_mem _ hx)
    have hnew : m.isNew nId = decide (info.nRefCount ≠ 0) := by rw [CAddrMan.isNew, hi, Option.any_some]
    rw [CAddrMan.writeNew, CAddrMan.infoAt, hi]
    simp only [ok_bind]
    by_cases href : info.nRefCount ≠ 0
    · have hcons : (nId :: ids).filter m.isNew = nId :: ids.filter m.isNew :=
        List.filter_cons_of_pos (by rw [hnew]; exact decide_eq_true href)
      rw [hcons, List.length_cons] at hle
      obtain ⟨mapUnkIds', hwrite, hother, hidx⟩ := ih hids hrest (nIds + 1) (update mapUnkIds nId nIds)
        (by omega)
      have hassert : assertAddr (nIds != m.nNew) = .ok () := by
        rw [assertAddr, if_pos (bne_iff_ne.mpr (by omega))]
      have hself : mapUnkIds' nId = nIds := by rw [hother nId hid, Function.update_self]
      have hbytes : info.bytes nVersion = (m.recordAt nId).bytes nVersion := by
        rw [CAddrMan.recordAt, hi]
        rfl
      refine ⟨mapUnkIds', ?_, fun x hx => ?_, fun x hx => ?_⟩
      · rw [if_pos href, hassert, ok_bind, hwrite, ok_bind, hcons, List.flatMap_cons, hbytes]
        rfl
      · rw [List.mem_cons, not_or] at hx
        rw [hother x hx.2, Function.update_of_ne hx.1]
      · rw [hcons] at hx ⊢
        rcases List.mem_cons.mp hx with rfl | hx
        · rw [hself, List.idxOf_cons_self, Int.natCast_zero, Int.add_zero]
        · have hne : nId ≠ x := fun heq => hid (heq ▸ (List.mem_filter.mp hx).1)
          rw [hidx x hx, List.idxOf_cons_ne _ hne]
          omega
    · have hcons : (nId :: ids).filter m.isNew = ids.filter m.isNew :=
        List.filter_cons_of_neg (by rw [hnew, decide_eq_false href]; exact Bool.false_ne_true)
      rw [hcons] at hle ⊢
      obtain ⟨mapUnkIds', hwrite, hother, hidx⟩ := ih hids hrest nIds (update mapUnkIds nId nIds) hle
      refine ⟨mapUnkIds', by rw [if_neg href, hwrite], fun x hx => ?_, hidx⟩
      rw [List.mem_cons, not_or] at hx
      rw [hother x hx.2, Function.update_of_ne hx.1]

/-- The second loop of `Serialize`. -/
theorem writeTried_ok (nVersion : Int) (hinfo : ∀ x ∈ ids, ∃ info, m.mapInfo x = some info) (nIds : Int)
    (hle : nIds + (ids.filter m.isTried).length ≤ m.nTried) :
    m.writeTried nVersion ids nIds =
      .ok ((ids.filter m.isTried).flatMap fun x => (m.recordAt x).bytes nVersion) := by
  induction ids generalizing nIds with
  | nil => rfl
  | cons nId ids ih =>
    obtain ⟨info, hi⟩ := hinfo nId (List.mem_cons_self ..)
    have hrest : ∀ x ∈ ids, ∃ info, m.mapInfo x = some info := fun x hx =>
      hinfo x (List.mem_cons_of_mem _ hx)
    have htried : m.isTried nId = info.fInTried := by rw [CAddrMan.isTried, hi, Option.any_some]
    rw [CAddrMan.writeTried, CAddrMan.infoAt, hi]
    simp only [ok_bind]
    by_cases ht : info.fInTried = true
    · have hcons : (nId :: ids).filter m.isTried = nId :: ids.filter m.isTried :=
        List.filter_cons_of_pos (by rw [htried, ht])
      rw [hcons, List.length_cons] at hle
      have hassert : assertAddr (nIds != m.nTried) = .ok () := by
        rw [assertAddr, if_pos (bne_iff_ne.mpr (by omega))]
      have hbytes : info.bytes nVersion = (m.recordAt nId).bytes nVersion := by
        rw [CAddrMan.recordAt, hi]
        rfl
      rw [if_pos ht, hassert, ok_bind, ih hrest (nIds + 1) (by omega), ok_bind, hcons, List.flatMap_cons,
        hbytes]
      rfl
    · have hcons : (nId :: ids).filter m.isTried = ids.filter m.isTried :=
        List.filter_cons_of_neg (by rw [htried]; exact ht)
      rw [hcons] at hle ⊢
      rw [if_neg ht, ih hrest nIds hle]

end

/-- `ids` are the keys of `mapInfo`. -/
structure Keys (m : CAddrMan CNetAddr) (ids : List Int) : Prop where
  nodup : ids.Nodup
  mem : ∀ x, x ∈ ids ↔ ∃ info, m.mapInfo x = some info

/-- The keys in the order in which their entries are written: the new ones, then the tried ones. -/
def savedIds (m : CAddrMan CNetAddr) (ids : List Int) : List Int :=
  ids.filter m.isNew ++ ids.filter m.isTried

/-- The key that the entry with the key `x` gets when it is loaded. -/
def renumber (saved : List Int) (x : Int) : Int := if x ∈ saved then saved.idxOf x else -1

section

variable {hashes : AddrHashes CNetAddr} {m : CAddrMan CNetAddr} {ids : List Int}

theorem mem_isNew (h : Indexes hashes ∅ 0 m) {x : Int} :
    m.isNew x = true ↔ ∃ info, m.mapInfo x = some info ∧ info.fInTried = false := by
  rw [CAddrMan.isNew]
  cases hinfo : m.mapInfo x with
  | none => exact iff_of_false Bool.false_ne_true fun ⟨_, h, _⟩ => by cases h
  | some info =>
    rw [Option.any_some, decide_eq_true_iff]
    simp only [Option.some_inj, exists_eq_left']
    constructor
    · intro href
      by_contra ht
      exact href (h.tried x info hinfo (Bool.not_eq_false _ ▸ ht)).1
    · intro ht
      have := h.new x info hinfo ht (Set.notMem_empty x)
      omega

theorem mem_isTried {x : Int} :
    m.isTried x = true ↔ ∃ info, m.mapInfo x = some info ∧ info.fInTried = true := by
  rw [CAddrMan.isTried]
  cases m.mapInfo x with
  | none => exact iff_of_false Bool.false_ne_true fun ⟨_, h, _⟩ => by cases h
  | some info => rw [Option.any_some]; simp only [Option.some_inj, exists_eq_left']

variable (h : Indexes hashes ∅ 0 m) (hids : Keys m ids)

include h hids

theorem mem_newIds {x : Int} :
    x ∈ ids.filter m.isNew ↔ ∃ info, m.mapInfo x = some info ∧ info.fInTried = false := by
  rw [List.mem_filter, mem_isNew h, hids.mem]
  exact and_iff_right_of_imp fun ⟨info, hinfo, _⟩ => ⟨info, hinfo⟩

omit h in
theorem mem_triedIds {x : Int} :
    x ∈ ids.filter m.isTried ↔ ∃ info, m.mapInfo x = some info ∧ info.fInTried = true := by
  rw [List.mem_filter, mem_isTried, hids.mem]
  exact and_iff_right_of_imp fun ⟨info, hinfo, _⟩ => ⟨info, hinfo⟩

/-- Every entry is saved. -/
theorem mem_savedIds {x : Int} : x ∈ savedIds m ids ↔ ∃ info, m.mapInfo x = some info := by
  rw [savedIds, List.mem_append, mem_newIds h hids, mem_triedIds hids]
  constructor
  · rintro (⟨info, hinfo, -⟩ | ⟨info, hinfo, -⟩) <;> exact ⟨info, hinfo⟩
  · rintro ⟨info, hinfo⟩
    cases ht : info.fInTried with
    | false => exact .inl ⟨info, hinfo, ht⟩
    | true => exact .inr ⟨info, hinfo, ht⟩

/-- And once. -/
theorem savedIds_nodup : (savedIds m ids).Nodup := by
  refine List.nodup_append.mpr ⟨hids.nodup.filter _, hids.nodup.filter _, ?_⟩
  rintro x hx _ hy rfl
  obtain ⟨i, hi, hf⟩ := (mem_newIds h hids).mp hx
  obtain ⟨j, hj, ht⟩ := (mem_triedIds hids).mp hy
  rw [hi] at hj
  cases hj
  rw [hf] at ht
  cases ht

theorem length_newIds : m.nNew = (ids.filter m.isNew).length := by
  have hset : m.entries false = (ids.filter m.isNew).toFinset := by
    ext x
    rw [mem_addrEntries h.random, List.mem_toFinset, mem_newIds h hids]
  have := h.nNew
  rw [hset, List.toFinset_card_of_nodup (hids.nodup.filter _)] at this
  omega

theorem length_triedIds : m.nTried = (ids.filter m.isTried).length := by
  have hset : m.entries true = (ids.filter m.isTried).toFinset := by
    ext x
    rw [mem_addrEntries h.random, List.mem_toFinset, mem_triedIds hids]
  have := h.nTried
  rw [hset, List.toFinset_card_of_nodup (hids.nodup.filter _)] at this
  exact this

theorem vvNew_mem {slot : NewSlot} (hslot : m.vvNew slot ≠ -1) :
    m.vvNew slot ∈ ids.filter m.isNew := by
  obtain ⟨info, hinfo, -⟩ := h.newSlots slot hslot
  exact (mem_newIds h hids).mpr ⟨info, hinfo, h.not_tried rfl hinfo⟩

theorem vvTried_mem {slot : TriedSlot} (hslot : m.vvTried slot ≠ -1) :
    m.vvTried slot ∈ ids.filter m.isTried := by
  obtain ⟨info, hinfo, ht, -⟩ := h.triedSlots slot hslot
  exact (mem_triedIds hids).mpr ⟨info, hinfo, ht⟩

/-- Each entry has a slot. -/
theorem newIds_slot {x : Int} (hx : x ∈ ids.filter m.isNew) : ∃ slot, m.vvNew slot = x := by
  obtain ⟨info, hinfo, ht⟩ := (mem_newIds h hids).mp hx
  have hrefs := h.refs x info hinfo
  have hpos := h.new x info hinfo ht (Set.notMem_empty x)
  exact occurrences_pos.mp (by omega)

theorem triedIds_slot {x : Int} (hx : x ∈ ids.filter m.isTried) : ∃ slot, m.vvTried slot = x := by
  obtain ⟨info, hinfo, ht⟩ := (mem_triedIds hids).mp hx
  exact ⟨_, (h.tried x info hinfo ht).2⟩

theorem length_newIds_le : (ids.filter m.isNew).length ≤ 65536 := by
  have hle := length_le_slots (hids.nodup.filter _) fun x hx => newIds_slot h hids hx
  rwa [Fintype.card_prod, Fintype.card_fin, Fintype.card_fin] at hle

theorem length_triedIds_le : (ids.filter m.isTried).length ≤ 16384 := by
  have hle := length_le_slots (hids.nodup.filter _) fun x hx => triedIds_slot h hids hx
  rwa [Fintype.card_prod, Fintype.card_fin, Fintype.card_fin] at hle

end

/-! ## The file -/

theorem renumber_mem {saved : List Int} {x : Int} (hx : x ∈ saved) :
    renumber saved x = saved.idxOf x := if_pos hx

theorem renumber_ne {saved : List Int} {x : Int} (hx : x ∈ saved) : renumber saved x ≠ -1 := by
  rw [renumber_mem hx]
  omega

/-- The key is the place in the list. -/
theorem renumber_getElem? {saved : List Int} (hsaved : saved.Nodup) {x : Int} {n : Nat}
    (hx : saved[n]? = some x) : renumber saved x = n := by
  obtain ⟨hlt, heq⟩ := List.getElem?_eq_some_iff.mp hx
  rw [renumber_mem (List.mem_of_getElem? hx), ← heq, hsaved.idxOf_getElem]

theorem renumber_inj {saved : List Int} {x y : Int} (hx : x ∈ saved) (hy : y ∈ saved)
    (h : renumber saved x = renumber saved y) : x = y := by
  rw [renumber_mem hx, renumber_mem hy] at h
  exact (List.idxOf_inj hx).mp (Int.ofNat.inj h)

/-- The indexes that are written for a bucket. -/
def savedIndexes (m : CAddrMan CNetAddr) (saved : List Int) (bucket : Fin ADDRMAN_NEW_BUCKET_COUNT) :
    List Int :=
  (m.usedPositions bucket).map fun i => renumber saved (m.vvNew (bucket, i))

def putIndexes (nIndexes : List Int) : Bytes :=
  int32Bytes nIndexes.length ++ nIndexes.flatMap int32Bytes

def getIndexes : Get (List Int) := do
  let nSize ← unserializeInt32
  getMany unserializeInt32 nSize.toNat

/-- The file of the manager `m`, whose keys are `ids`. -/
def savedBytes (nVersion : Int) (nKey : UInt256) (m : CAddrMan CNetAddr) (ids : List Int) : Bytes :=
  [1, 32] ++ (uint256Bytes nKey ++ (int32Bytes m.nNew ++ (int32Bytes m.nTried ++
    (uint32Bytes (UInt32.ofNat ADDRMAN_NEW_BUCKET_COUNT ^^^ ((1 : UInt32) <<< (30 : UInt32))) ++
      (((ids.filter m.isNew).map m.recordAt).flatMap (AddrRecord.bytes nVersion) ++
        (((ids.filter m.isTried).map m.recordAt).flatMap (AddrRecord.bytes nVersion) ++
          ((List.finRange _).map (savedIndexes m (savedIds m ids))).flatMap putIndexes))))))

section

variable {hashes : AddrHashes CNetAddr} {m : CAddrMan CNetAddr} {ids : List Int}
  (h : Indexes hashes ∅ 0 m) (hids : Keys m ids)

include h hids

/-- No assertion of `Serialize` fails. -/
theorem serialize_ok (nVersion : Int) (nKey : UInt256) :
    m.serialize nVersion nKey ids = .ok (savedBytes nVersion nKey m ids) := by
  have hinfo : ∀ x ∈ ids, ∃ info, m.mapInfo x = some info := fun x hx => (hids.mem x).mp hx
  have hnNew := length_newIds h hids
  have hnTried := length_triedIds h hids
  obtain ⟨mapUnkIds, hnew, -, hidx⟩ := writeNew_ok nVersion hids.nodup hinfo 0 (fun _ => 0)
    (by rw [Int.zero_add, hnNew])
  have htried := writeTried_ok nVersion hinfo 0 (by rw [Int.zero_add, hnTried])
  have hbucket : m.bucketBytes mapUnkIds = fun bucket =>
      putIndexes (savedIndexes m (savedIds m ids) bucket) := by
    funext bucket
    rw [CAddrMan.bucketBytes, putIndexes, savedIndexes, List.length_map, List.flatMap_map]
    congr 1
    refine List.flatMap_congr fun i hi => ?_
    have hslot : m.vvNew (bucket, i) ≠ -1 := bne_iff_ne.mp (List.mem_filter.mp hi).2
    have hmem := vvNew_mem h hids hslot
    rw [hidx _ hmem, savedIds, renumber_mem (List.mem_append_left _ hmem),
      List.idxOf_append_of_mem hmem, Int.zero_add]
  rw [CAddrMan.serialize, hnew, ok_bind]
  simp only [htried, ok_bind]
  rw [savedBytes, List.flatMap_map, List.flatMap_map, List.flatMap_map, hbucket]
  rfl

end

/-! ## Reading the indexes -/

/-- The number of the indexes and the indexes are `int`s. -/
def IndexesInRange (nIndexes : List Int) : Prop :=
  nIndexes.length < 2 ^ 31 ∧ ∀ i ∈ nIndexes, -2 ^ 31 ≤ i ∧ i < 2 ^ 31

theorem roundTrip_indexes : RoundTrip putIndexes getIndexes IndexesInRange := by
  intro nIndexes hrange s
  have hsize : -2 ^ 31 ≤ (nIndexes.length : Int) ∧ (nIndexes.length : Int) < 2 ^ 31 := by
    have := hrange.1
    omega
  rw [putIndexes, List.append_assoc, getIndexes, Get.run_bind_some (exact_int32.roundTrip _ hsize _),
    Int.toNat_natCast]
  exact exact_int32.roundTrip.getMany nIndexes hrange.2 s

/-- The indexes of a bucket are put at the end. -/
def putPositions (bucket : Nat) (nIndexes : List Int) (ps : List (Nat × Int)) : List (Nat × Int) :=
  ps ++ nIndexes.map fun nIndex => (bucket, nIndex)

theorem loadIndexes_reads (bucket : Nat) :
    Load.Reads (fun _ => (do
      let nIndex ← readField unserializeInt32
      .modify fun ps => ps ++ [(bucket, nIndex)] : Load AddrFileError (List (Nat × Int)) Unit))
      unserializeInt32 (fun _ nIndex ps => ps ++ [(bucket, nIndex)]) (fun _ _ _ => True)
      AddrFileError.endOfData := by
  intro n ps s
  cases hget : unserializeInt32.run s with
  | none => exact .inr ⟨rfl, ps, s, Load.bind_error (Load.read_error hget), trivial⟩
  | some p => exact .inl ⟨p.1, p.2, rfl, Load.bind_ok (Load.read_ok hget)⟩

theorem putAll_indexes (bucket n : Nat) (nIndexes : List Int) (ps : List (Nat × Int)) :
    Load.putAll (fun _ nIndex ps => ps ++ [(bucket, nIndex)]) n nIndexes ps =
      putPositions bucket nIndexes ps := by
  induction nIndexes generalizing n ps with
  | nil => rw [Load.putAll, putPositions, List.map_nil, List.append_nil]
  | cons nIndex nIndexes ih =>
    rw [Load.putAll, ih, putPositions, putPositions, List.map_cons, List.append_assoc,
      List.singleton_append]

theorem loadBucket_reads :
    Load.Reads (AddrLoad.loadBucket fun bucket nIndex ps => ps ++ [(bucket, nIndex)]) getIndexes
      putPositions (fun _ _ _ => True) AddrFileError.endOfData := by
  intro bucket ps s
  cases hsize : unserializeInt32.run s with
  | none =>
    refine .inr ⟨?_, ps, s, Load.bind_error (Load.read_error hsize), trivial⟩
    rw [getIndexes, Get.run_bind, hsize]
    rfl
  | some p =>
    obtain ⟨nSize, s₁⟩ := p
    rw [getIndexes, Get.run_bind_some hsize, AddrLoad.loadBucket, Load.bind_ok (Load.read_ok hsize)]
    rcases Load.times_reads (loadIndexes_reads bucket) nSize.toNat 0 ps s₁ with
      ⟨nIndexes, s', hmany, -, hrun⟩ | ⟨hmany, nIndexes, ps', s', -, hrun, -⟩
    · rw [putAll_indexes] at hrun
      exact .inl ⟨nIndexes, s', hmany, hrun⟩
    · exact .inr ⟨hmany, ps', s', hrun, trivial⟩

/-- The buckets and indexes of the lists, from the bucket `n` on. -/
theorem putAll_positions (n : Nat) (lists : List (List Int)) (ps : List (Nat × Int)) :
    Load.putAll putPositions n lists ps =
      ps ++ (lists.zipIdx n).flatMap fun p => p.1.map fun nIndex => (p.2, nIndex) := by
  induction lists generalizing n ps with
  | nil => rw [Load.putAll, List.zipIdx_nil, List.flatMap_nil, List.append_nil]
  | cons nIndexes lists ih =>
    rw [Load.putAll, ih, putPositions, List.zipIdx_cons, List.flatMap_cons, List.append_assoc]

/-- The indexes of a table are read to the end. -/
theorem readPositions_ok {lists : List (List Int)} (hrange : ∀ l ∈ lists, IndexesInRange l) :
    readPositions lists.length ([], lists.flatMap putIndexes) =
      .ok () ((lists.zipIdx).flatMap fun p => p.1.map fun nIndex => (p.2, nIndex), []) := by
  have hget := roundTrip_indexes.getMany lists hrange []
  rw [List.append_nil] at hget
  rcases Load.times_reads loadBucket_reads lists.length 0 [] (lists.flatMap putIndexes) with
    ⟨lists', s', hmany, -, hrun⟩ | ⟨hmany, -⟩
  · rw [hget] at hmany
    cases hmany
    rw [readPositions, hrun, putAll_positions, List.nil_append]
  · rw [hget] at hmany
    cases hmany

/-- A table by its rows. -/
theorem zipIdx_finRange {α : Type} {n : Nat} (f : Fin n → α) :
    ((List.finRange n).map f).zipIdx = (List.finRange n).map fun i => (f i, i.val) := by
  refine List.ext_getElem (by rw [List.length_zipIdx, List.length_map, List.length_map]) fun i hi hi' => ?_
  rw [List.getElem_zipIdx, List.getElem_map, List.getElem_map, List.getElem_finRange]
  rw [Nat.zero_add]
  rfl

/-! ## The slots -/

/-- The records of the new entries, as they are saved. -/
def newRecords (m : CAddrMan CNetAddr) (ids : List Int) : List AddrRecord :=
  (ids.filter m.isNew).map m.recordAt

/-- The records of the tried entries, as they are saved. -/
def triedRecords (m : CAddrMan CNetAddr) (ids : List Int) : List AddrRecord :=
  (ids.filter m.isTried).map m.recordAt

/-- The indexes with their buckets, as they are saved. -/
def savedPositions (m : CAddrMan CNetAddr) (ids : List Int) : List (Nat × Int) :=
  ((List.finRange ADDRMAN_NEW_BUCKET_COUNT).map (savedIndexes m (savedIds m ids))).zipIdx.flatMap
    fun p => p.1.map fun nIndex => (p.2, nIndex)

/-- The slots of `vvNew` that have an entry. -/
def usedSlots (m : CAddrMan CNetAddr) : List NewSlot :=
  (List.finRange ADDRMAN_NEW_BUCKET_COUNT).flatMap fun bucket =>
    (m.usedPositions bucket).map fun i => (bucket, i)

theorem mem_usedSlots {m : CAddrMan CNetAddr} {slot : NewSlot} :
    slot ∈ usedSlots m ↔ m.vvNew slot ≠ -1 := by
  rw [usedSlots, List.mem_flatMap]
  constructor
  · rintro ⟨bucket, -, hmem⟩
    obtain ⟨i, hi, rfl⟩ := List.mem_map.mp hmem
    exact bne_iff_ne.mp (List.mem_filter.mp hi).2
  · intro hslot
    refine ⟨slot.1, List.mem_finRange _, List.mem_map.mpr ⟨slot.2, ?_, rfl⟩⟩
    exact List.mem_filter.mpr ⟨List.mem_finRange _, bne_iff_ne.mpr hslot⟩

theorem usedSlots_nodup (m : CAddrMan CNetAddr) : (usedSlots m).Nodup := by
  refine List.nodup_flatMap.mpr ⟨fun bucket _ => ?_, (List.nodup_finRange _).imp fun {b c} hbc => ?_⟩
  · exact ((List.nodup_finRange _).filter _).map fun i j hij => (Prod.mk.inj hij).2
  · intro slot hb hc
    obtain ⟨i, -, rfl⟩ := List.mem_map.mp hb
    obtain ⟨j, -, heq⟩ := List.mem_map.mp hc
    exact hbc (Prod.mk.inj heq).1.symm

section

variable {hashes : AddrHashes CNetAddr} {m : CAddrMan CNetAddr} {ids : List Int}
  (h : Indexes hashes ∅ 0 m) (hids : Keys m ids)

include h hids

/-- A slot with an entry is the one that its index is for. -/
theorem candidate_saved {slot : NewSlot} (hslot : m.vvNew slot ≠ -1) :
    candidate hashes true (newRecords m ids) (slot.1.val, renumber (savedIds m ids) (m.vvNew slot)) =
      some (slot, renumber (savedIds m ids) (m.vvNew slot)) := by
  have hmem := vvNew_mem h hids hslot
  obtain ⟨info, hinfo, hpos⟩ := h.newSlots slot hslot
  have hindex : renumber (savedIds m ids) (m.vvNew slot) =
      Int.ofNat ((ids.filter m.isNew).idxOf (m.vvNew slot)) := by
    rw [savedIds, renumber_mem (List.mem_append_left _ hmem), List.idxOf_append_of_mem hmem]
    rfl
  have hrecord : (newRecords m ids)[(ids.filter m.isNew).idxOf (m.vvNew slot)]? =
      some info.record := by
    rw [newRecords, List.getElem?_map, List.getElem?_idxOf hmem, Option.map_some,
      CAddrMan.recordAt, hinfo, Option.getD_some]
  have hcond : true = true ∧ slot.1.val < ADDRMAN_NEW_BUCKET_COUNT := ⟨rfl, slot.1.isLt⟩
  rw [hindex, candidate, dif_pos hcond, hrecord, Option.map_some]
  exact congrArg (fun slot => some (slot, _)) hpos.symm

/-- The candidates are the slots that are used. -/
theorem candidates_saved : candidates hashes true (newRecords m ids) (savedPositions m ids) =
    (usedSlots m).map fun slot => (slot, renumber (savedIds m ids) (m.vvNew slot)) := by
  rw [candidates, if_pos rfl, List.nil_append, savedPositions, zipIdx_finRange, List.flatMap_map,
    List.filterMap_flatMap, usedSlots, List.map_flatMap]
  refine List.flatMap_congr fun bucket _ => ?_
  rw [savedIndexes, List.map_map, List.map_map, List.filterMap_map]
  exact List.filterMap_eq_map_iff_forall_eq_some.mpr fun i hi =>
    candidate_saved h hids (bne_iff_ne.mp (List.mem_filter.mp hi).2)

theorem renumber_neg_one : renumber (savedIds m ids) (-1) = -1 := by
  refine if_neg fun hmem => ?_
  obtain ⟨info, hinfo⟩ := (mem_savedIds h hids).mp hmem
  exact h.ne_neg_one hinfo rfl

theorem vvNew_saved {slot : NewSlot} (hslot : m.vvNew slot ≠ -1) : m.vvNew slot ∈ savedIds m ids :=
  List.mem_append_left _ (vvNew_mem h hids hslot)

/-- An index is in no more slots than the entry it is for. -/
theorem count_saved {b : Int} (hb : b ≠ -1) :
    ((usedSlots m).map fun slot => renumber (savedIds m ids) (m.vvNew slot)).count b ≤
      ADDRMAN_NEW_BUCKETS_PER_ADDRESS := by
  by_cases hmem : b ∈ (usedSlots m).map fun slot => renumber (savedIds m ids) (m.vvNew slot)
  · obtain ⟨slot₀, hslot₀, rfl⟩ := List.mem_map.mp hmem
    have hused := mem_usedSlots.mp hslot₀
    obtain ⟨info, hinfo, -⟩ := h.newSlots slot₀ hused
    have hrefs := h.refs _ info hinfo
    have hle := h.refs_le _ info hinfo
    have hsame : ∀ slot ∈ (usedSlots m).filter fun slot => renumber (savedIds m ids) (m.vvNew slot) ==
        renumber (savedIds m ids) (m.vvNew slot₀), m.vvNew slot = m.vvNew slot₀ := fun slot hslot => by
      obtain ⟨hslot, heq⟩ := List.mem_filter.mp hslot
      exact renumber_inj (vvNew_saved h hids (mem_usedSlots.mp hslot)) (vvNew_saved h hids hused)
        (beq_iff_eq.mp heq)
    have hcount : ((usedSlots m).map fun slot => renumber (savedIds m ids) (m.vvNew slot)).count
        (renumber (savedIds m ids) (m.vvNew slot₀)) ≤ occurrences m.vvNew (m.vvNew slot₀) := by
      rw [List.count_eq_countP, List.countP_map, List.countP_eq_length_filter]
      exact length_le_occurrences ((usedSlots_nodup m).filter _) hsame
    omega
  · rw [List.count_eq_zero_of_not_mem hmem]
    exact Nat.zero_le _

/-- The slots are given out as they were. -/
theorem loadedSlots_saved (slot : NewSlot) :
    loadedSlots hashes true (newRecords m ids) (savedPositions m ids) slot =
      renumber (savedIds m ids) (m.vvNew slot) := by
  rw [loadedSlots, candidates_saved h hids]
  have hfst : ((usedSlots m).map fun slot => (slot, renumber (savedIds m ids) (m.vvNew slot))).map
      Prod.fst = usedSlots m := by
    rw [List.map_map]
    exact List.map_id _
  have hsnd : ((usedSlots m).map fun slot => (slot, renumber (savedIds m ids) (m.vvNew slot))).map
      Prod.snd = (usedSlots m).map fun slot => renumber (savedIds m ids) (m.vvNew slot) := by
    rw [List.map_map]
    rfl
  have hfree : ∀ c ∈ (usedSlots m).map fun slot => (slot, renumber (savedIds m ids) (m.vvNew slot)),
      (-1 : Int) = -1 ∧ c.2 ≠ -1 :=
    List.forall_mem_map.mpr fun slot hslot =>
      ⟨rfl, renumber_ne (vvNew_saved h hids (mem_usedSlots.mp hslot))⟩
  have hcount : ∀ b : Int, b ≠ -1 → occurrences (fun _ : NewSlot => (-1 : Int)) b +
      (((usedSlots m).map fun slot => (slot, renumber (savedIds m ids) (m.vvNew slot))).map
        Prod.snd).count b ≤ ADDRMAN_NEW_BUCKETS_PER_ADDRESS := fun b hb => by
    rw [hsnd, occurrences_eq_zero.mpr fun _ => Ne.symm hb, Nat.zero_add]
    exact count_saved h hids hb
  obtain ⟨hmem, hrest⟩ := fillAll_all (by rw [hfst]; exact usedSlots_nodup m) hfree hcount
  by_cases hslot : m.vvNew slot = -1
  · rw [hslot, renumber_neg_one h hids]
    refine hrest slot ?_
    rw [hfst]
    exact fun hused => mem_usedSlots.mp hused hslot
  · exact hmem (slot, renumber (savedIds m ids) (m.vvNew slot))
      (List.mem_map.mpr ⟨slot, mem_usedSlots.mpr hslot, rfl⟩)

end

/-! ## Other keys -/

/-- `m'` is `m` with the key `f x` for each `x`: each entry with the fields that are saved and its
status, and the slots. -/
structure Renamed (f : Int → Int) (m m' : CAddrMan CNetAddr) : Prop where
  inj : ∀ x y info info', m.mapInfo x = some info → m.mapInfo y = some info' → f x = f y → x = y
  neg : ∀ x, f x = -1 ↔ m.mapInfo x = none
  info : ∀ x info, m.mapInfo x = some info → ∃ info', m'.mapInfo (f x) = some info' ∧
    info'.record = info.record ∧ info'.fInTried = info.fInTried ∧ info'.nRefCount = info.nRefCount
  onto : ∀ y info', m'.mapInfo y = some info' → ∃ x info, m.mapInfo x = some info ∧ f x = y
  mapAddr : ∀ ip, m'.mapAddr ip = (m.mapAddr ip).map f
  vvNew : ∀ slot, m'.vvNew slot = f (m.vvNew slot)
  vvTried : ∀ slot, m'.vvTried slot = f (m.vvTried slot)
  nNew : m'.nNew = m.nNew
  nTried : m'.nTried = m.nTried

namespace Renamed

variable {hashes : AddrHashes CNetAddr} {f : Int → Int} {m m' : CAddrMan CNetAddr}
  (hf : Renamed f m m')

include hf

/-- An entry of `m'` is one of `m`. -/
theorem of {y : Int} {info' : CAddrInfo CNetAddr} (hy : m'.mapInfo y = some info') :
    ∃ x info, m.mapInfo x = some info ∧ f x = y ∧ info'.service = info.service ∧
      info'.fInTried = info.fInTried ∧ info'.nRefCount = info.nRefCount := by
  obtain ⟨x, info, hx, rfl⟩ := hf.onto y info' hy
  obtain ⟨i, hi, hrecord, ht, hr⟩ := hf.info x info hx
  rw [hy] at hi
  cases hi
  exact ⟨x, info, hx, rfl, congrArg (·.service) hrecord, ht, hr⟩

theorem eq_iff {x y : Int} {info : CAddrInfo CNetAddr} (hx : m.mapInfo x = some info) :
    f y = f x ↔ y = x := by
  refine ⟨fun heq => ?_, fun heq => heq ▸ rfl⟩
  cases hy : m.mapInfo y with
  | none =>
    rw [(hf.neg y).mpr hy] at heq
    rw [(hf.neg x).mp heq.symm] at hx
    cases hx
  | some info' => exact hf.inj y x info' info hy hx heq

/-- There are as many entries of each kind. -/
theorem entries (h : Framework.Indexed m.vRandom m.posOf) (h' : Framework.Indexed m'.vRandom m'.posOf)
    (b : Bool) :
    (m'.entries b).card = (m.entries b).card := by
  have hset : m'.entries b = (m.entries b).image f := by
    ext y
    rw [mem_addrEntries h', Finset.mem_image]
    constructor
    · rintro ⟨info', hy, rfl⟩
      obtain ⟨x, info, hx, hfx, -, ht, -⟩ := hf.of hy
      exact ⟨x, (mem_addrEntries h).mpr ⟨info, hx, ht.symm⟩, hfx⟩
    · rintro ⟨x, hx, rfl⟩
      obtain ⟨info, hinfo, rfl⟩ := (mem_addrEntries h).mp hx
      obtain ⟨info', hy, -, ht, -⟩ := hf.info x info hinfo
      exact ⟨info', hy, ht⟩
  rw [hset, Finset.card_image_of_injOn]
  intro x hx y hy heq
  obtain ⟨info, hx, -⟩ := (mem_addrEntries h).mp hx
  obtain ⟨info', hy, -⟩ := (mem_addrEntries h).mp hy
  exact hf.inj x y info info' hx hy heq

/-- The indexes agree with other keys if they do at all. -/
theorem indexes (h : Indexes hashes ∅ 0 m) (h' : Framework.Indexed m'.vRandom m'.posOf) :
    Indexes hashes ∅ 0 m' := by
  have hnone : f (-1) = -1 := (hf.neg (-1)).mpr h.noId
  refine ⟨h', ?_, fun ip y => ?_, fun slot hslot => ?_, fun slot hslot => ?_, fun y info' hy => ?_,
    fun y info' hy => ?_, fun y info' hy ht => ?_, fun y info' hy ht _ => ?_, ?_, ?_⟩
  · cases hy : m'.mapInfo (-1) with
    | none => rfl
    | some info' =>
      obtain ⟨x, info, hx, hfx, -⟩ := hf.of hy
      rw [(hf.neg x).mp hfx] at hx
      cases hx
  · rw [hf.mapAddr, Option.map_eq_some_iff]
    constructor
    · rintro ⟨x, hx, rfl⟩
      obtain ⟨info, hinfo, rfl⟩ := (h.addr ip x).mp hx
      obtain ⟨info', hy, hrecord, -⟩ := hf.info x info hinfo
      exact ⟨info', hy, congrArg (·.service.ip) hrecord⟩
    · rintro ⟨info', hy, rfl⟩
      obtain ⟨x, info, hx, hfx, hs, -⟩ := hf.of hy
      exact ⟨x, (h.addr _ x).mpr ⟨info, hx, by rw [hs]⟩, hfx⟩
  · rw [hf.vvNew] at hslot ⊢
    obtain ⟨info, hinfo, hpos⟩ := h.newSlots slot fun heq => hslot (by rw [heq, hnone])
    obtain ⟨info', hy, hrecord, -⟩ := hf.info _ info hinfo
    exact ⟨info', hy, by rw [show info'.service = info.service from congrArg (·.service) hrecord]; exact hpos⟩
  · rw [hf.vvTried] at hslot ⊢
    obtain ⟨info, hinfo, ht, hpos⟩ := h.triedSlots slot fun heq => hslot (by rw [heq, hnone])
    obtain ⟨info', hy, hrecord, ht', -⟩ := hf.info _ info hinfo
    exact ⟨info', hy, ht'.trans ht,
      by rw [show info'.service = info.service from congrArg (·.service) hrecord]; exact hpos⟩
  · obtain ⟨x, info, hx, rfl, -, -, hr⟩ := hf.of hy
    rw [hr, h.refs x info hx]
    refine congrArg Nat.cast (occurrences_congr fun slot => ?_)
    rw [hf.vvNew, hf.eq_iff hx]
  · obtain ⟨x, info, hx, rfl, -, -, hr⟩ := hf.of hy
    rw [hr]
    exact h.refs_le x info hx
  · obtain ⟨x, info, hx, rfl, hs, ht', hr⟩ := hf.of hy
    obtain ⟨hzero, hslot⟩ := h.tried x info hx (ht'.symm.trans ht)
    exact ⟨hr.trans hzero, by rw [hs, hf.vvTried, hslot]⟩
  · obtain ⟨x, info, hx, rfl, -, ht', hr⟩ := hf.of hy
    rw [hr]
    exact h.new x info hx (ht'.symm.trans ht) (Set.notMem_empty x)
  · rw [hf.nTried, hf.entries h.random h', h.nTried]
  · rw [hf.nNew, hf.entries h.random h', h.nNew]

end Renamed

/-! ## The manager that is loaded -/

section

variable {hashes : AddrHashes CNetAddr} {m : CAddrMan CNetAddr} {ids : List Int}
  (h : Indexes hashes ∅ 0 m) (hids : Keys m ids)

include h hids

omit h hids in
/-- The records in the order in which they are saved. -/
theorem savedRecords : newRecords m ids ++ triedRecords m ids = (savedIds m ids).map m.recordAt := by
  rw [newRecords, triedRecords, savedIds, List.map_append]

/-- The record of an entry is at its new key. -/
theorem savedRecords_getElem? {n : Nat} {r : AddrRecord} :
    (newRecords m ids ++ triedRecords m ids)[n]? = some r ↔
      ∃ x info, m.mapInfo x = some info ∧ renumber (savedIds m ids) x = n ∧ info.record = r := by
  rw [savedRecords, List.getElem?_map, Option.map_eq_some_iff]
  constructor
  · rintro ⟨x, hx, rfl⟩
    obtain ⟨info, hinfo⟩ := (mem_savedIds h hids).mp (List.mem_of_getElem? hx)
    exact ⟨x, info, hinfo, renumber_getElem? (savedIds_nodup h hids) hx,
      by rw [CAddrMan.recordAt, hinfo, Option.getD_some]⟩
  · rintro ⟨x, info, hinfo, hn, rfl⟩
    have hmem := (mem_savedIds h hids).mpr ⟨info, hinfo⟩
    rw [renumber_mem hmem] at hn
    cases Int.ofNat.inj hn
    exact ⟨x, List.getElem?_idxOf hmem, by rw [CAddrMan.recordAt, hinfo, Option.getD_some]⟩

/-- The tried slot of a tried entry has it. -/
theorem vvTried_recordAt {x : Int} (hx : x ∈ ids.filter m.isTried) :
    m.vvTried (triedSlotOf hashes (m.recordAt x)) = x := by
  obtain ⟨info, hinfo, ht⟩ := (mem_triedIds hids).mp hx
  rw [CAddrMan.recordAt, hinfo, Option.getD_some]
  exact (h.tried x info hinfo ht).2

/-- No tried record finds its slot taken. -/
theorem placedTried_saved : placedTried hashes (triedRecords m ids) = triedRecords m ids := by
  refine firsts_eq ?_
  rw [List.nil_append, triedRecords, List.map_map]
  refine (hids.nodup.filter _).map_on fun x hx y hy heq => ?_
  rw [← vvTried_recordAt h hids hx, ← vvTried_recordAt h hids hy]
  exact congrArg m.vvTried heq

/-- The new records have the first keys. -/
theorem renumber_lt {x : Int} {info : CAddrInfo CNetAddr} (hinfo : m.mapInfo x = some info) :
    ∃ n : Nat, renumber (savedIds m ids) x = n ∧ decide ((newRecords m ids).length ≤ n) = info.fInTried := by
  have hmem := (mem_savedIds h hids).mpr ⟨info, hinfo⟩
  refine ⟨_, renumber_mem hmem, ?_⟩
  rw [newRecords, List.length_map, savedIds]
  cases ht : info.fInTried with
  | false =>
    have hnew := (mem_newIds h hids).mpr ⟨info, hinfo, ht⟩
    rw [List.idxOf_append_of_mem hnew]
    exact decide_eq_false (Nat.not_le.mpr (List.idxOf_lt_length_of_mem hnew))
  | true =>
    have hnot : x ∉ ids.filter m.isNew := fun hnew => by
      obtain ⟨i, hi, hf⟩ := (mem_newIds h hids).mp hnew
      rw [hinfo] at hi
      cases hi
      rw [ht] at hf
      cases hf
    rw [List.idxOf_append_of_notMem hnot]
    exact decide_eq_true (Nat.le_add_right ..)

theorem renumber_eq_neg_one {x : Int} : renumber (savedIds m ids) x = -1 ↔ m.mapInfo x = none := by
  cases hx : m.mapInfo x with
  | none =>
    refine iff_of_true (if_neg fun hmem => ?_) rfl
    obtain ⟨info, hinfo⟩ := (mem_savedIds h hids).mp hmem
    rw [hx] at hinfo
    cases hinfo
  | some info =>
    exact iff_of_false (renumber_ne ((mem_savedIds h hids).mpr ⟨info, hx⟩)) fun h => by cases h

/-- The new keys differ. -/
theorem renumber_entry {x y : Int} {info : CAddrInfo CNetAddr} (hx : m.mapInfo x = some info) :
    renumber (savedIds m ids) y = renumber (savedIds m ids) x ↔ y = x := by
  refine ⟨fun heq => ?_, fun heq => heq ▸ rfl⟩
  have hmem := (mem_savedIds h hids).mpr ⟨info, hx⟩
  cases hy : m.mapInfo y with
  | none =>
    rw [(renumber_eq_neg_one h hids).mpr hy] at heq
    exact absurd heq.symm (renumber_ne hmem)
  | some info' => exact renumber_inj ((mem_savedIds h hids).mpr ⟨info', hy⟩) hmem heq

variable {vvNew : NewSlot → Int} (nIdCount : Int)

omit h hids in
theorem built_mapAddr (news trieds : List AddrRecord) (nTried nNew : Int) (ip : CNetAddr) :
    ((built hashes news trieds vvNew nIdCount nTried nNew).mapAddr ip = none ∧
      ∀ r ∈ news ++ trieds, r.service.ip ≠ ip) ∨
    ∃ (n : Nat) (r : AddrRecord), (news ++ trieds)[n]? = some r ∧ r.service.ip = ip ∧
      (built hashes news trieds vvNew nIdCount nTried nNew).mapAddr ip = some (n : Int) := by
  rcases assign_cases (fun n => some (n : Int)) (fun r : AddrRecord => r.service.ip) (fun _ => none) 0
    (news ++ trieds) ip with ⟨hnone, hne⟩ | ⟨n, r, hr, hip, hsome⟩
  · exact .inl ⟨hnone, hne⟩
  · rw [Nat.zero_add] at hsome
    exact .inr ⟨n, r, hr, hip, hsome⟩

/-- `mapAddr` has the new keys. -/
theorem built_addr (nTried nNew : Int) (ip : CNetAddr) :
    (built hashes (newRecords m ids) (triedRecords m ids) vvNew nIdCount nTried nNew).mapAddr ip =
      (m.mapAddr ip).map (renumber (savedIds m ids)) := by
  rcases @built_mapAddr hashes vvNew nIdCount (newRecords m ids) (triedRecords m ids) nTried nNew ip with
    ⟨hnone, hne⟩ | ⟨n, r, hr, hip, hsome⟩
  · cases haddr : m.mapAddr ip with
    | none => exact hnone
    | some x =>
      obtain ⟨info, hinfo, hip⟩ := (h.addr ip x).mp haddr
      obtain ⟨n, hn, -⟩ := renumber_lt h hids hinfo
      have hr := (savedRecords_getElem? h hids).mpr ⟨x, info, hinfo, hn, rfl⟩
      exact absurd hip (hne _ (List.mem_of_getElem? hr))
  · obtain ⟨x, info, hinfo, hn, rfl⟩ := (savedRecords_getElem? h hids).mp hr
    rw [hsome, (h.addr ip x).mpr ⟨info, hinfo, hip⟩, Option.map_some, hn]

/-- `vvTried` has the new keys. -/
theorem built_tried (nTried nNew : Int) (slot : TriedSlot) :
    (built hashes (newRecords m ids) (triedRecords m ids) vvNew nIdCount nTried nNew).vvTried slot =
      renumber (savedIds m ids) (m.vvTried slot) := by
  rcases assign_cases (Nat.cast : Nat → Int) (triedSlotOf hashes) (fun _ => -1)
    (newRecords m ids).length (triedRecords m ids) slot with ⟨hnone, hne⟩ | ⟨n, r, hr, hslot, hsome⟩
  · refine hnone.trans ?_
    by_cases htaken : m.vvTried slot = -1
    · rw [htaken, renumber_neg_one h hids]
    · obtain ⟨info, hinfo, ht, hpos⟩ := h.triedSlots slot htaken
      refine absurd ?_ (hne (m.recordAt (m.vvTried slot))
        (List.mem_map_of_mem (vvTried_mem h hids htaken)))
      rw [CAddrMan.recordAt, hinfo, Option.getD_some]
      exact hpos.symm
  · refine hsome.trans ?_
    rw [triedRecords, List.getElem?_map, Option.map_eq_some_iff] at hr
    obtain ⟨x, hx, rfl⟩ := hr
    have hplace : (savedIds m ids)[(newRecords m ids).length + n]? = some x := by
      rw [newRecords, List.length_map, savedIds, List.getElem?_append_right (Nat.le_add_right ..),
        Nat.add_sub_cancel_left, hx]
    rw [← hslot, vvTried_recordAt h hids (List.mem_of_getElem? hx),
      renumber_getElem? (savedIds_nodup h hids) hplace]

/-- What is built of the saved records is what was saved, with other keys. -/
theorem built_renamed (hvvNew : ∀ slot, vvNew slot = renumber (savedIds m ids) (m.vvNew slot)) :
    Renamed (renumber (savedIds m ids)) m
    (built hashes (newRecords m ids) (triedRecords m ids) vvNew nIdCount m.nTried m.nNew) := by
  refine ⟨fun x y info info' hx hy heq => ((renumber_entry h hids hy).mp heq),
    fun x => renumber_eq_neg_one h hids, fun x info hinfo => ?_, fun y info' hy => ?_,
    built_addr h hids nIdCount m.nTried m.nNew, hvvNew, built_tried h hids nIdCount m.nTried m.nNew,
    rfl, rfl⟩
  · obtain ⟨n, hn, ht⟩ := renumber_lt h hids hinfo
    have hr := (savedRecords_getElem? h hids).mpr ⟨x, info, hinfo, hn, rfl⟩
    have hrefs : info.nRefCount = occurrences vvNew (n : Int) := by
      rw [h.refs x info hinfo]
      refine congrArg Nat.cast (occurrences_congr fun slot => ?_)
      rw [hvvNew, ← hn, renumber_entry h hids hinfo]
    rw [hn]
    exact ⟨_, builtInfos_eq_some.mpr ⟨n, _, rfl, hr, rfl⟩, rfl, ht, hrefs.symm⟩
  · obtain ⟨n, r, rfl, hr, -⟩ := builtInfos_eq_some.mp hy
    obtain ⟨x, info, hinfo, hn, -⟩ := (savedRecords_getElem? h hids).mp hr
    exact ⟨x, info, hinfo, hn⟩

end

/-! ## Saving and loading -/

/-- A consistent manager without an entry -1. -/
theorem Consistent.indexes {hashes : AddrHashes CNetAddr} {m : CAddrMan CNetAddr}
    (h : Consistent hashes m) (hid : m.mapInfo (-1) = none) : Indexes hashes ∅ 0 m := by
  refine ⟨fun i x => ?_, hid, h.bijection, fun slot hslot => ?_, fun slot hslot => ?_,
    fun x info hinfo => ?_, fun x info hinfo => ?_, fun x info hinfo ht => ?_,
    fun x info hinfo ht _ => (h.new x info hinfo ht).1, h.nTried, ?_⟩
  · rw [h.permutation, CAddrMan.posOf, Option.map_eq_some_iff]
  · obtain ⟨info, hinfo⟩ := (h.known_new slot).resolve_left hslot
    cases ht : info.fInTried with
    | false => exact ⟨info, hinfo, (h.new _ info hinfo ht).2.2.2.1 slot rfl⟩
    | true => exact absurd rfl ((h.tried _ info hinfo ht).2.2 slot)
  · obtain ⟨info, hinfo⟩ := (h.known_tried slot).resolve_left hslot
    cases ht : info.fInTried with
    | false => exact absurd rfl ((h.new _ info hinfo ht).2.2.2.2 slot)
    | true => exact ⟨info, hinfo, ht, ((h.tried _ info hinfo ht).2.1 slot).mp rfl⟩
  · cases ht : info.fInTried with
    | false => exact (h.new x info hinfo ht).2.2.1
    | true =>
      rw [(h.tried x info hinfo ht).1, occurrences_eq_zero.mpr (h.tried x info hinfo ht).2.2]
      rfl
  · cases ht : info.fInTried with
    | false => exact (h.new x info hinfo ht).2.1
    | true =>
      rw [(h.tried x info hinfo ht).1]
      decide
  · exact ⟨(h.tried x info hinfo ht).1, ((h.tried x info hinfo ht).2.1 _).mpr rfl⟩
  · have := h.nNew
    omega

theorem getStart_append (nVersion : UInt8) (nKey : UInt256) (s : Bytes) :
    getStart.run (nVersion :: 32 :: (uint256Bytes nKey ++ s)) = some ((nVersion, nKey), s) := by
  have h32 : ¬ (32 : UInt8) ≠ 32 := not_not_intro rfl
  rw [getStart, Get.run_bind_some (getByte_cons ..), Get.run_bind_some (getByte_cons ..), if_neg h32,
    Get.run_bind_some (exact_uint256.roundTrip nKey trivial s), Get.run_pure]

/-- The number of buckets as it is written. -/
def savedCount : UInt32 :=
  UInt32.ofNat ADDRMAN_NEW_BUCKET_COUNT ^^^ ((1 : UInt32) <<< (30 : UInt32))

theorem savedBuckets : AddrLoad.numBuckets 1 savedCount =
    UInt32.ofNat ADDRMAN_NEW_BUCKET_COUNT := by decide

theorem savedRounds :
    AddrLoad.bucketRounds (UInt32.ofNat ADDRMAN_NEW_BUCKET_COUNT) = ADDRMAN_NEW_BUCKET_COUNT := by
  have hcount : (UInt32.ofNat ADDRMAN_NEW_BUCKET_COUNT).toNat = 1024 := by decide
  unfold AddrLoad.bucketRounds
  rw [hcount, wrapInt, Int.bmod_eq_of_le (by omega) (by omega)]
  rfl

section

variable {hashes : AddrHashes CNetAddr} {m : CAddrMan CNetAddr} {ids : List Int}
  (h : Indexes hashes ∅ 0 m) (hids : Keys m ids)

include h hids

/-- The loops leave a consistent manager. -/
theorem loaded_saved : ∃ f,
    Renamed f m (loaded hashes true (newRecords m ids) (triedRecords m ids) m.nTried
      (savedPositions m ids)) ∧
    Indexes hashes ∅ 0 (loaded hashes true (newRecords m ids) (triedRecords m ids) m.nTried
      (savedPositions m ids)) := by
  have hnew : ((newRecords m ids).length : Int) = m.nNew := by
    rw [newRecords, List.length_map, length_newIds h hids]
  have htried : m.nTried - ((triedRecords m ids).length - (triedRecords m ids).length : Int) =
      m.nTried := by omega
  rw [loaded, placedTried_saved h hids, hnew, htried]
  have hf := built_renamed h hids (newRecords m ids ++ triedRecords m ids).length
    (loadedSlots_saved h hids)
  exact ⟨_, hf, hf.indexes h built_indexed⟩

/-- The indexes that are saved are in range. -/
theorem savedIndexes_range :
    ∀ l ∈ (List.finRange _).map (savedIndexes m (savedIds m ids)), IndexesInRange l := by
  refine List.forall_mem_map.mpr fun bucket _ => ⟨?_, ?_⟩
  · have hle := List.length_filter_le (fun i => m.vvNew (bucket, i) != -1)
      (List.finRange ADDRMAN_BUCKET_SIZE)
    rw [List.length_finRange] at hle
    have hsize : ADDRMAN_BUCKET_SIZE = 64 := rfl
    rw [savedIndexes, List.length_map]
    have hle : (m.usedPositions bucket).length ≤ ADDRMAN_BUCKET_SIZE := hle
    omega
  · refine List.forall_mem_map.mpr fun i hi => ?_
    have hslot : m.vvNew (bucket, i) ≠ -1 := bne_iff_ne.mp (List.mem_filter.mp hi).2
    have hmem := vvNew_mem h hids hslot
    have hlt := List.idxOf_lt_length_of_mem hmem
    have hle := length_newIds_le h hids
    rw [savedIds, renumber_mem (List.mem_append_left _ hmem), List.idxOf_append_of_mem hmem]
    omega

end

/-- **Round trip.** The file of a consistent manager is read to its end, and gives a consistent
manager with the same key, where every entry has its saved fields, its status and its slots. -/
theorem addrMan_roundTrip (hashesOf : UInt256 → AddrHashes CNetAddr) (randHash nKey₀ nKey : UInt256)
    (nVersion : Int) {m : CAddrMan CNetAddr} (h : Consistent (hashesOf nKey) m)
    (hid : m.mapInfo (-1) = none) {ids : List Int} (hids : Keys m ids)
    (hrange : ∀ x info, m.mapInfo x = some info → info.record.InRange) :
    ∃ bytes db f, m.serialize nVersion nKey ids = .ok bytes ∧
      (AddrDB.fresh nKey₀).unserialize hashesOf randHash bytes = .ok (db, .ok []) ∧
      db.nKey = nKey ∧ Consistent (hashesOf nKey) db.man ∧ Renamed f m db.man := by
  have h := h.indexes hid
  have hnNew := length_newIds h hids
  have hnTried := length_triedIds h hids
  have hnew_le := length_newIds_le h hids
  have htried_le := length_triedIds_le h hids
  obtain ⟨f, hf, hindexes⟩ := loaded_saved h hids
  -- the parts of the file, from the end
  obtain ⟨table, htable⟩ : ∃ table, table =
    ((List.finRange _).map (savedIndexes m (savedIds m ids))).flatMap putIndexes := ⟨_, rfl⟩
  obtain ⟨triedBytes, htriedBytes⟩ : ∃ s, s =
    (triedRecords m ids).flatMap (AddrRecord.bytes nVersion) ++ table := ⟨_, rfl⟩
  obtain ⟨newBytes, hnewBytes⟩ : ∃ s, s =
    (newRecords m ids).flatMap (AddrRecord.bytes nVersion) ++ triedBytes := ⟨_, rfl⟩
  have hrecords : ∀ r ∈ newRecords m ids ++ triedRecords m ids, r.InRange := fun r hr => by
    obtain ⟨n, hn⟩ := List.mem_iff_getElem?.mp hr
    obtain ⟨x, info, hinfo, -, rfl⟩ := (savedRecords_getElem? h hids).mp hn
    exact hrange x info hinfo
  have hposition := readPositions_ok (savedIndexes_range h hids)
  have hlists : ((List.finRange _).map (savedIndexes m (savedIds m ids))).length =
      ADDRMAN_NEW_BUCKET_COUNT := by rw [List.length_map, List.length_finRange]
  rw [hlists, ← htable, ← savedPositions] at hposition
  have hnews : (getMany getRecord m.nNew.toNat).run newBytes = some (newRecords m ids, triedBytes) := by
    have hlen : m.nNew.toNat = (newRecords m ids).length := by
      rw [newRecords, List.length_map, hnNew, Int.toNat_natCast]
    rw [hlen, hnewBytes]
    exact (roundTrip_record nVersion).getMany _ (fun r hr => hrecords r (List.mem_append_left _ hr)) _
  have htrieds : (getMany getRecord m.nTried.toNat).run triedBytes = some (triedRecords m ids, table) := by
    have hlen : m.nTried.toNat = (triedRecords m ids).length := by
      rw [triedRecords, List.length_map, hnTried, Int.toNat_natCast]
    rw [hlen, htriedBytes]
    exact (roundTrip_record nVersion).getMany _ (fun r hr => hrecords r (List.mem_append_right _ hr)) _
  have hstart : getStart.run (savedBytes nVersion nKey m ids) = some ((1, nKey),
      int32Bytes m.nNew ++ (int32Bytes m.nTried ++ (uint32Bytes savedCount ++ newBytes))) := by
    rw [savedBytes, ← newRecords, ← triedRecords, ← htable, ← htriedBytes, ← hnewBytes, ← savedCount]
    exact getStart_append 1 nKey _
  obtain ⟨nLost, hload⟩ := loadTables_entries (hashesOf nKey) 1 nKey m.nTried savedCount (by omega) hnews
    htrieds
  have huse : AddrLoad.useTable 1 (UInt32.ofNat ADDRMAN_NEW_BUCKET_COUNT) = true := by decide
  rw [savedBuckets, savedRounds, hposition, huse] at hload
  simp only [Load.mapOutcome] at hload
  have hcounts : AddrLoad.loadCounts (hashesOf nKey) 1 (⟨⟨nKey, CAddrMan.fresh⟩, 0⟩,
      int32Bytes m.nNew ++ (int32Bytes m.nTried ++ (uint32Bytes savedCount ++ newBytes))) =
      AddrLoad.loadTables (hashesOf nKey) 1 m.nNew m.nTried savedCount
        (counted (hashesOf nKey) nKey m.nTried m.nNew, newBytes) :=
    loadCounts_tables 1 nKey (exact_int32.roundTrip m.nNew (by omega) _)
      (exact_int32.roundTrip m.nTried (by omega) _) (exact_uint32.roundTrip savedCount trivial newBytes)
  have hused : ∀ x, ¬ (loaded (hashesOf nKey) true (newRecords m ids) (triedRecords m ids) m.nTried
      (savedPositions m ids)).UnusedAt x := fun x hx => by
    obtain ⟨info, hinfo, ht, hzero⟩ := hx
    have := hindexes.new x info hinfo ht (Set.notMem_empty x)
    omega
  refine ⟨_, ⟨nKey, loaded (hashesOf nKey) true (newRecords m ids) (triedRecords m ids) m.nTried
    (savedPositions m ids)⟩, f, serialize_ok h hids nVersion nKey, ?_, rfl, hindexes.consistent, hf⟩
  rcases load_cases hashesOf randHash nKey₀ (savedBytes nVersion nKey m ids) with ⟨hnone, -⟩ |
    ⟨version, key, s, hsome, hrun⟩
  · rw [hstart] at hnone
    cases hnone
  · rw [hstart] at hsome
    cases hsome
    rw [AddrDB.unserialize, hrun, hcounts, hload, AddrLoad.finish]
    simp only [pruneNew_none _ hused]
    rfl

/-! ### A manager with two entries -/

/-- An address that was seen, with one byte of its IP. -/
def seenAt (b : UInt8) : CAddress CNetAddr :=
  ⟨⟨⟨b :: List.replicate 15 0, by rw [List.length_cons, List.length_replicate]⟩, 8333⟩, 1, 1000000000⟩

/-- An entry for `seenAt 1` in the table of the new ones. -/
def oneNew : CAddrMan CNetAddr :=
  { (CAddrMan.fresh.create (seenAt 1) .zero).modifyInfo 0 fun info =>
      { info with nRefCount := info.nRefCount + 1 } with
    vvNew := update (fun _ => -1) (oneBucket.newSlot (seenAt 1).service ⟨0, newBucketCount_pos⟩) 0
    nNew := 1 }

/-- And an entry for `seenAt 2` in that of the tried ones. -/
def newAndTried : CAddrMan CNetAddr :=
  { (oneNew.create (seenAt 2) .zero).modifyInfo 1 fun info => { info with fInTried := true } with
    vvTried := update (fun _ => -1) (oneBucket.triedSlot (seenAt 2).service) 1
    nTried := 1 }

theorem create_mapInfo (m : CAddrMan CNetAddr) (addr : CAddress CNetAddr) (source : CNetAddr) :
    (m.create addr source).mapInfo m.nIdCount =
      some { addr with source := source, nRandomPos := m.vRandom.length } := by
  rw [CAddrMan.create]
  exact Function.update_self ..

theorem oneNew_indexes : Indexes oneBucket ∅ 0 oneNew := by
  have hcreate := create_ok (fresh_indexes oneBucket) (seenAt 1) .zero (by decide) rfl rfl
  have hslot : oneBucket.newSlot (seenAt 1).service ⟨0, newBucketCount_pos⟩ =
      oneBucket.newSlot (seenAt 1).service (oneBucket.newSlot (seenAt 1).service ⟨0, newBucketCount_pos⟩).1 := rfl
  exact (hcreate.setSlot rfl (create_mapInfo ..) rfl hslot (by decide)).countNew

theorem newAndTried_indexes : Indexes oneBucket ∅ 0 newAndTried := by
  have hid : oneNew.nIdCount = 1 := by decide
  have hcreate := create_ok oneNew_indexes (seenAt 2) .zero (by decide) (by decide) (by decide)
  have h := hcreate.setTried (create_mapInfo ..) rfl rfl rfl
  rw [hid] at h
  exact h

theorem newAndTried_mapInfo (x : Int) : newAndTried.mapInfo x =
    if x = 1 then some { seenAt 2 with source := .zero, fInTried := true, nRandomPos := 1 }
    else if x = 0 then some { seenAt 1 with source := .zero, nRefCount := 1, nRandomPos := 0 }
    else none := by
  split
  · next h =>
    rw [h]
    rfl
  · next hone =>
    split
    · next h =>
      rw [h]
      rfl
    · next hzero =>
      rw [newAndTried, CAddrMan.modifyInfo, CAddrMan.create]
      refine (Function.update_of_ne hone ..).trans ((Function.update_of_ne hone ..).trans ?_)
      rw [oneNew, CAddrMan.modifyInfo, CAddrMan.create]
      exact (Function.update_of_ne hzero ..).trans (Function.update_of_ne hzero ..)

theorem newAndTried_keys : Keys newAndTried [0, 1] where
  nodup := by decide
  mem x := by
    rw [newAndTried_mapInfo, List.mem_pair]
    split
    · next h => exact iff_of_true (.inr h) ⟨_, rfl⟩
    · next hone =>
      split
      · next h => exact iff_of_true (.inl h) ⟨_, rfl⟩
      · next hzero => exact iff_of_false (not_or.mpr ⟨hzero, hone⟩) fun ⟨_, h⟩ => by cases h

theorem newAndTried_record {x : Int} {info : CAddrInfo CNetAddr}
    (hinfo : newAndTried.mapInfo x = some info) : info.record.InRange := by
  rw [newAndTried_mapInfo] at hinfo
  split at hinfo
  · cases hinfo
    exact ⟨by decide, by decide, by decide⟩
  · split at hinfo
    · cases hinfo
      exact ⟨by decide, by decide, by decide⟩
    · cases hinfo

theorem newAndTried_loaded : ∃ bytes db f, newAndTried.serialize 70002 7 [0, 1] = .ok bytes ∧
    (AddrDB.fresh 0).unserialize (fun _ => oneBucket) 0 bytes = .ok (db, .ok []) ∧
      db.nKey = 7 ∧ Consistent oneBucket db.man ∧ Renamed f newAndTried db.man :=
  addrMan_roundTrip (fun _ => oneBucket) 0 0 7 70002 newAndTried_indexes.consistent
    newAndTried_indexes.noId newAndTried_keys fun _ _ => newAndTried_record

end GC
