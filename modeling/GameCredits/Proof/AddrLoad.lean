import GameCredits.Model.AddrFile
import GameCredits.Proof.AddrMan
import GameCredits.Proof.Wire

/-!
# The loops that load the addresses

What the loops of `CAddrMan::Unserialize` make of a new manager, in terms of the records of the file:

* `built`: the manager that has been built from records;
* `putNew_built`, `placeTried_built`, `placePosition_built`: one round of each loop, from one built
  manager to another;
* `loadNew_reads`, `loadTried_reads`, `positions_spec`: the loops, as far as the file goes.
-/

namespace GC

open Framework
open Function (update)

/-! ## Records -/

/-- The fields of an entry that are in the file. -/
structure AddrRecord extends CAddress CNetAddr where
  source : CNetAddr
  nLastSuccess : Int
  nAttempts : Int

/-- The fields that are in the file. -/
def CAddrInfo.record (info : CAddrInfo CNetAddr) : AddrRecord := { info with }

/-- An entry with the fields of the file. -/
def AddrRecord.onto (r : AddrRecord) (info : CAddrInfo CNetAddr) : CAddrInfo CNetAddr :=
  { info with toCAddress := r.toCAddress, source := r.source, nLastSuccess := r.nLastSuccess,
              nAttempts := r.nAttempts }

/-- A record of the file. -/
def getRecord : Get AddrRecord := do
  let _ ← unserializeInt32
  let nTime ← getLE 4
  let nServices ← getLE 8
  let ip ← readNetAddr
  let port ← readPort
  let source ← readNetAddr
  let nLastSuccess ← unserializeInt64
  let nAttempts ← unserializeInt32
  return { service := ⟨ip, port⟩, nServices := UInt64.ofNat nServices, nTime := nTime, source,
           nLastSuccess, nAttempts }

theorem unserializeInfo_sets :
    Load.Sets id unserializeInfo getRecord AddrRecord.onto AddrFileError.endOfData :=
  .modify <| .read fun _ => .read fun _ => .modify <| .read fun _ => .modify <| .read fun _ => .modify <|
    .read fun _ => .modify <| .read fun _ => .modify <| .read fun _ => .modify <| .read fun _ =>
      .done fun _ => rfl

/-! ## The manager that is built -/

section

variable (hashes : AddrHashes CNetAddr)

/-- The tried slot of a record. -/
def triedSlotOf (r : AddrRecord) : TriedSlot := hashes.triedSlot r.service

variable (news trieds : List AddrRecord) (vvNew : NewSlot → Int)

/-- The entry of a record. -/
def builtInfo (n : Nat) (r : AddrRecord) : CAddrInfo CNetAddr :=
  { r.onto .blank with
    nRefCount := occurrences vvNew n
    fInTried := decide (news.length ≤ n)
    nRandomPos := n }

/-- The entries of the records, whose keys are their indexes. -/
def builtInfos : Int → Option (CAddrInfo CNetAddr)
  | .ofNat n => (news ++ trieds)[n]?.map (builtInfo news vvNew n)
  | .negSucc _ => none

/-- The manager for the new records `news` and the tried ones `trieds`, where the slots of `vvNew` have
been given out as in `vvNew`. -/
def built (nIdCount nTried nNew : Int) : CAddrMan CNetAddr where
  nIdCount := nIdCount
  mapInfo := builtInfos news trieds vvNew
  mapAddr := assign (fun n => some (n : Int)) (·.service.ip) 0 (news ++ trieds) fun _ => none
  vRandom := (List.range (news ++ trieds).length).map Nat.cast
  nTried := nTried
  vvTried := assign Nat.cast (triedSlotOf hashes) news.length trieds fun _ => -1
  nNew := nNew
  vvNew := vvNew
  nLastGood := 1

end

variable {hashes : AddrHashes CNetAddr} {news trieds : List AddrRecord} {vvNew : NewSlot → Int}
  {nIdCount nTried nNew : Int} {r : AddrRecord}

theorem fresh_built (hashes : AddrHashes CNetAddr) :
    (CAddrMan.fresh : CAddrMan CNetAddr) = built hashes [] [] (fun _ => -1) 0 0 0 := by
  have hmap : builtInfos [] [] (fun _ => -1) = fun _ => none := by
    funext x
    cases x <;> rfl
  rw [built, hmap]
  rfl

theorem builtInfos_nat (n : Nat) :
    builtInfos news trieds vvNew n = (news ++ trieds)[n]?.map (builtInfo news vvNew n) := rfl

theorem builtInfos_eq_some {x : Int} {info : CAddrInfo CNetAddr} :
    builtInfos news trieds vvNew x = some info ↔ ∃ (n : Nat) (r : AddrRecord), x = n ∧
      (news ++ trieds)[n]? = some r ∧ builtInfo news vvNew n r = info := by
  cases x with
  | negSucc n =>
    refine iff_of_false (fun h => by cases h) ?_
    rintro ⟨n, r, h, -⟩
    cases h
  | ofNat n =>
    show builtInfos news trieds vvNew (n : Int) = some info ↔ _
    rw [builtInfos_nat, Option.map_eq_some_iff]
    constructor
    · rintro ⟨r, hr, h⟩
      exact ⟨n, r, rfl, hr, h⟩
    · rintro ⟨k, r, hk, hr, h⟩
      cases Int.ofNat.inj hk
      exact ⟨r, hr, h⟩

/-- The slots refer to the records so far. -/
def Below (vvNew : NewSlot → Int) (n : Nat) : Prop := ∀ slot, vvNew slot < n

theorem Below.mono {n' : Nat} (h : Below vvNew n) (hn : n ≤ n') : Below vvNew n' := fun slot =>
  lt_of_lt_of_le (h slot) (Int.ofNat_le.mpr hn)

theorem Below.occurrences (h : Below vvNew n) (k : Nat) (hk : n ≤ k) :
    Framework.occurrences vvNew (k : Int) = 0 :=
  occurrences_eq_zero.mpr fun slot heq => by
    have := h slot
    omega

theorem Below.fill {k : Nat} (h : Below vvNew n) (hk : k < n) (slot : NewSlot) :
    Below (Framework.fill (-1) ADDRMAN_NEW_BUCKETS_PER_ADDRESS vvNew (slot, (k : Int))) n :=
  fill_all (p := fun _ x => x < (n : Int)) h (show (k : Int) < n by omega)

/-! ## Rounds -/

/-- An entry gets one more slot. -/
theorem built_fill {n : Nat} {slot : NewSlot} (hr : (news ++ trieds)[n]? = some r)
    (hslot : vvNew slot = -1) :
    { (built hashes news trieds vvNew nIdCount nTried nNew).modifyInfo n
        fun info => { info with nRefCount := info.nRefCount + 1 } with
      vvNew := update vvNew slot n } =
      built hashes news trieds (update vvNew slot n) nIdCount nTried nNew := by
  have hmap : update (builtInfos news trieds vvNew) n ((builtInfos news trieds vvNew n).map
      fun info => { info with nRefCount := info.nRefCount + 1 }) =
      builtInfos news trieds (update vvNew slot n) := by
    funext x
    cases x with
    | negSucc k =>
      rw [Function.update_of_ne (by omega)]
      rfl
    | ofNat k =>
      rw [Int.ofNat_eq_natCast]
      by_cases hk : k = n
      · subst hk
        have hocc : occurrences (update vvNew slot (k : Int)) k = occurrences vvNew (k : Int) + 1 :=
          occurrences_add (by rw [hslot]; omega)
        rw [Function.update_self, builtInfos_nat, builtInfos_nat, hr, Option.map_some, Option.map_some,
          Option.map_some, builtInfo, builtInfo, hocc]
        rfl
      · have hocc : occurrences (update vvNew slot (n : Int)) k = occurrences vvNew (k : Int) :=
          occurrences_other (by rw [hslot]; omega) (by omega)
        have hinfo : builtInfo news (update vvNew slot (n : Int)) k = builtInfo news vvNew k := by
          funext r
          rw [builtInfo, hocc]
          rfl
        rw [Function.update_of_ne (by omega), builtInfos_nat, builtInfos_nat, hinfo]
  rw [CAddrMan.modifyInfo, built, hmap]
  rfl

/-- The candidate of a record for a slot. -/
theorem built_fill_if {n : Nat} {slot : NewSlot} (hr : (news ++ trieds)[n]? = some r) :
    (if vvNew slot = -1 ∧ (occurrences vvNew (n : Int) : Int) < ADDRMAN_NEW_BUCKETS_PER_ADDRESS then
      { (built hashes news trieds vvNew nIdCount nTried nNew).modifyInfo n
          fun info => { info with nRefCount := info.nRefCount + 1 } with
        vvNew := update vvNew slot n }
    else built hashes news trieds vvNew nIdCount nTried nNew) =
      built hashes news trieds (fill (-1) ADDRMAN_NEW_BUCKETS_PER_ADDRESS vvNew (slot, (n : Int)))
        nIdCount nTried nNew := by
  rw [fill]
  by_cases h : vvNew slot = -1 ∧ occurrences vvNew (n : Int) < ADDRMAN_NEW_BUCKETS_PER_ADDRESS
  · rw [if_pos h, if_pos ⟨h.1, Int.ofNat_lt.mpr h.2⟩]
    exact built_fill hr h.1
  · rw [if_neg h, if_neg fun h' => h ⟨h'.1, Int.ofNat_lt.mp h'.2⟩]

/-- The entry of one more record. -/
theorem builtInfos_push (news' trieds' : List AddrRecord) (h : Below vvNew (news ++ trieds).length)
    (happ : news' ++ trieds' = news ++ trieds ++ [r])
    (htried : ∀ k < (news ++ trieds).length, news'.length ≤ k ↔ news.length ≤ k) :
    update (builtInfos news trieds vvNew) (news ++ trieds).length
      (some { r.onto .blank with
        fInTried := decide (news'.length ≤ (news ++ trieds).length)
        nRandomPos := (news ++ trieds).length }) = builtInfos news' trieds' vvNew := by
  funext x
  cases x with
  | negSucc k =>
    rw [Function.update_of_ne (by omega)]
    rfl
  | ofNat k =>
    rw [Int.ofNat_eq_natCast, builtInfos_nat, happ]
    rcases Nat.lt_trichotomy k (news ++ trieds).length with hk | rfl | hk
    · have hinfo : builtInfo news' vvNew k = builtInfo news vvNew k := by
        funext r'
        rw [builtInfo, decide_eq_decide.mpr (htried k hk)]
        rfl
      rw [Function.update_of_ne (by omega), builtInfos_nat, List.getElem?_append_left hk, hinfo]
    · rw [Function.update_self, List.getElem?_concat_length, Option.map_some, builtInfo,
        h.occurrences _ (Nat.le_refl _)]
      rfl
    · rw [Function.update_of_ne (by omega), builtInfos_nat, List.getElem?_eq_none (by omega),
        List.getElem?_eq_none]
      · rfl
      · rw [List.length_append, List.length_singleton]
        omega

/-- A new record at the end. -/
theorem built_push (h : Below vvNew news.length) :
    { built hashes news [] vvNew nIdCount nTried nNew with
      mapAddr := update (built hashes news [] vvNew nIdCount nTried nNew).mapAddr r.service.ip
        (some (news.length : Int))
      mapInfo := update (builtInfos news [] vvNew) news.length
        (some { r.onto .blank with nRandomPos := news.length })
      vRandom := (built hashes news [] vvNew nIdCount nTried nNew).vRandom ++ [(news.length : Int)] } =
      built hashes (news ++ [r]) [] vvNew nIdCount nTried nNew := by
  have hlen : (news ++ [r]).length = news.length + 1 := by rw [List.length_append, List.length_singleton]
  have hmap : update (builtInfos news [] vvNew) news.length
      (some { r.onto .blank with nRandomPos := news.length }) = builtInfos (news ++ [r]) [] vvNew := by
    have hbelow : Below vvNew (news ++ []).length := by rw [List.append_nil]; exact h
    have happ : news ++ [r] ++ [] = news ++ [] ++ [r] := by rw [List.append_nil, List.append_nil]
    have hpush := builtInfos_push (news ++ [r]) [] hbelow happ fun k hk => by
      rw [List.append_nil] at hk
      omega
    rw [List.append_nil, decide_eq_false (by omega)] at hpush
    exact hpush
  have haddr : update (assign (fun n => some (n : Int)) (fun r : AddrRecord => r.service.ip) 0 news
      fun _ => none) r.service.ip (some (news.length : Int)) =
      assign (fun n => some (n : Int)) (fun r : AddrRecord => r.service.ip) 0 (news ++ [r])
        fun _ => none := by
    rw [assign_append, Nat.zero_add]
  have hrandom : (List.range news.length).map (Nat.cast : Nat → Int) ++ [(news.length : Int)] =
      (List.range (news ++ [r]).length).map Nat.cast := by
    rw [hlen, List.range_succ, List.map_append, List.map_singleton]
  simp only [built, List.append_nil, hmap, haddr, hrandom]
  rfl

/-- What a round of the loop over the new entries does with its record. -/
def putNew (hashes : AddrHashes CNetAddr) (fUseTable : Bool) (n : Nat) (r : AddrRecord) :
    AddrLoad → AddrLoad :=
  AddrLoad.modifyMan fun m => CAddrMan.placeNew hashes fUseTable n
    { m with mapInfo := update m.mapInfo n (some (r.onto ((m.mapInfo n).getD .blank))) }

/-- The slot that a new record is put into where the positions are not used. -/
def sourceSlot (hashes : AddrHashes CNetAddr) (r : AddrRecord) : NewSlot :=
  hashes.newSlot r.service (hashes.getNewBucket r.service r.source)

theorem putNew_built {fUseTable : Bool} {nKey : UInt256} {nLost : Int} (h : Below vvNew news.length) :
    putNew hashes fUseTable news.length r
        ⟨⟨nKey, built hashes news [] vvNew nIdCount nTried nNew⟩, nLost⟩ =
      ⟨⟨nKey, built hashes (news ++ [r]) []
        (if fUseTable then vvNew else fill (-1) ADDRMAN_NEW_BUCKETS_PER_ADDRESS vvNew
          (sourceSlot hashes r, (news.length : Int))) nIdCount nTried nNew⟩, nLost⟩ := by
  have hpush := @built_push hashes news vvNew nIdCount nTried nNew r h
  have hnone : (built hashes news [] vvNew nIdCount nTried nNew).mapInfo (news.length : Int) = none := by
    show builtInfos news [] vvNew (news.length : Int) = none
    rw [builtInfos_nat, List.append_nil, List.getElem?_eq_none (Nat.le_refl _)]
    rfl
  have hlast : (news ++ [r] ++ [])[news.length]? = some r := by
    rw [List.append_nil, List.getElem?_concat_length]
  have hvRandom : (built hashes news [] vvNew nIdCount nTried nNew).vRandom.length = news.length := by
    rw [built, List.append_nil, List.length_map, List.length_range]
  have hocc : (occurrences vvNew (news.length : Int) : Int) < ADDRMAN_NEW_BUCKETS_PER_ADDRESS := by
    rw [h.occurrences _ (Nat.le_refl _)]
    decide
  have hfill := @built_fill_if hashes (news ++ [r]) [] vvNew nIdCount nTried nNew r news.length
    (sourceSlot hashes r) hlast
  simp only [hocc, and_true] at hfill
  rw [putNew, AddrLoad.modifyMan]
  congr 2
  simp only [CAddrMan.placeNew, hnone, Option.getD_none, Function.update_self, Function.update_idem,
    hvRandom]
  cases fUseTable with
  | true => exact hpush
  | false =>
    simp only [Bool.false_eq_true, ↓reduceIte]
    rw [← hfill, ← hpush]
    rfl

/-- The slots of `vvTried` that are taken. -/
theorem built_vvTried (r : AddrRecord) :
    (built hashes news trieds vvNew nIdCount nTried nNew).vvTried (triedSlotOf hashes r) = -1 ↔
      triedSlotOf hashes r ∉ trieds.map (triedSlotOf hashes) := by
  rw [List.mem_map, not_exists]
  show assign Nat.cast (triedSlotOf hashes) news.length trieds (fun _ => -1) _ = (-1 : Int) ↔ _
  rcases assign_cases (Nat.cast : Nat → Int) (triedSlotOf hashes) (fun _ => -1) news.length trieds
    (triedSlotOf hashes r) with ⟨heq, hnone⟩ | ⟨i, a, hi, ha, heq⟩
  · rw [heq]
    exact iff_of_true rfl fun a ha => hnone a ha.1 ha.2
  · rw [heq]
    refine iff_of_false (by omega) fun h => ?_
    exact h a ⟨List.mem_of_getElem? hi, ha⟩

/-- A round of the loop over the tried entries. -/
theorem placeTried_built {nKey : UInt256} {nLost : Int} (h : Below vvNew news.length) :
    AddrLoad.placeTried hashes (r.onto .blank)
        ⟨⟨nKey, built hashes news trieds vvNew ((news ++ trieds).length : Int) nTried nNew⟩, nLost⟩ =
      if triedSlotOf hashes r ∈ trieds.map (triedSlotOf hashes) then
        ⟨⟨nKey, built hashes news trieds vvNew ((news ++ trieds).length : Int) nTried nNew⟩, nLost + 1⟩
      else ⟨⟨nKey, built hashes news (trieds ++ [r]) vvNew ((news ++ (trieds ++ [r])).length : Int)
        nTried nNew⟩, nLost⟩ := by
  have hslot := @built_vvTried hashes news trieds vvNew ((news ++ trieds).length : Int) nTried nNew r
  have happ : news ++ (trieds ++ [r]) = news ++ trieds ++ [r] := (List.append_assoc ..).symm
  have hlen : (news ++ trieds ++ [r]).length = (news ++ trieds).length + 1 := by
    rw [← List.concat_eq_append, List.length_concat]
  rw [AddrLoad.placeTried]
  split_ifs with hmem hfree hfree
  · exact absurd (hslot.mp hmem) (not_not_intro hfree)
  · have hbelow : Below vvNew (news ++ trieds).length := h.mono (by rw [List.length_append]; omega)
    have hmap := builtInfos_push news (trieds ++ [r]) hbelow happ fun k _ => Iff.rfl
    have haddr : update (assign (fun n => some (n : Int)) (fun r : AddrRecord => r.service.ip) 0
        (news ++ trieds) fun _ => none) r.service.ip (some ((news ++ trieds).length : Int)) =
        assign (fun n => some (n : Int)) (fun r : AddrRecord => r.service.ip) 0
          (news ++ trieds ++ [r]) fun _ => none := by
      rw [assign_append, Nat.zero_add]
    have hvvTried : update (assign Nat.cast (triedSlotOf hashes) news.length trieds fun _ => (-1 : Int))
        (triedSlotOf hashes r) ((news ++ trieds).length : Int) =
        assign Nat.cast (triedSlotOf hashes) news.length (trieds ++ [r]) fun _ => -1 := by
      rw [assign_append, List.length_append]
    have hrandom : (List.range (news ++ trieds).length).map (Nat.cast : Nat → Int) ++
        [((news ++ trieds).length : Int)] =
        (List.range (news ++ trieds ++ [r]).length).map Nat.cast := by
      rw [hlen, List.range_succ, List.map_append, List.map_singleton]
    have hids : ((news ++ trieds).length : Int) + 1 = ((news ++ trieds ++ [r]).length : Int) := by
      rw [hlen, Int.natCast_add, Int.natCast_one]
    have htried : decide (news.length ≤ (news ++ trieds).length) = true :=
      decide_eq_true (by rw [List.length_append]; omega)
    rw [htried] at hmap
    congr 2
    simp only [built, List.length_map, List.length_range, hids, happ]
    rw [← hvvTried, ← hmap, ← haddr, ← hrandom]
    rfl
  · rfl
  · exact absurd (hslot.mpr hfree) hmem

/-- The slot that an index of the file is for, where the positions are used. -/
def candidate (hashes : AddrHashes CNetAddr) (fUseTable : Bool) (news : List AddrRecord) :
    Nat × Int → Option (NewSlot × Int)
  | (bucket, .ofNat n) =>
    if h : fUseTable = true ∧ bucket < ADDRMAN_NEW_BUCKET_COUNT then
      news[n]?.map fun r => (hashes.newSlot r.service ⟨bucket, CAddrMan.bucket_lt_of_used h⟩, (n : Int))
    else none
  | (_, .negSucc _) => none

theorem candidate_below {fUseTable : Bool} {p : Nat × Int} {c : NewSlot × Int}
    (h : candidate hashes fUseTable news p = some c) : ∃ (n : Nat) (r : AddrRecord), c.2 = n ∧
      news[n]? = some r ∧ c.1 = hashes.newSlot r.service c.1.1 := by
  obtain ⟨bucket, nIndex⟩ := p
  cases nIndex with
  | negSucc n => cases h
  | ofNat n =>
    rw [candidate] at h
    split_ifs at h with huse
    obtain ⟨r, hr, rfl⟩ := Option.map_eq_some_iff.mp h
    exact ⟨n, r, rfl, hr, rfl⟩

/-- An index of the file. -/
theorem placePosition_built {fUseTable : Bool} {bucket : Nat} {nIndex : Int} :
    CAddrMan.placePosition hashes fUseTable bucket nIndex
        (built hashes news trieds vvNew nIdCount nTried news.length) =
      built hashes news trieds
        (fillAll (-1) ADDRMAN_NEW_BUCKETS_PER_ADDRESS
          (candidate hashes fUseTable news (bucket, nIndex)).toList vvNew) nIdCount nTried
        news.length := by
  have hnNew : (built hashes news trieds vvNew nIdCount nTried news.length).nNew = news.length := rfl
  rw [CAddrMan.placePosition, hnNew]
  cases nIndex with
  | negSucc n =>
    rw [if_neg (by omega)]
    rfl
  | ofNat n =>
    by_cases hlt : n < news.length
    · obtain ⟨r, hr⟩ : ∃ r, news[n]? = some r := ⟨_, List.getElem?_eq_getElem hlt⟩
      have hr' : (news ++ trieds)[n]? = some r := by rw [List.getElem?_append_left hlt, hr]
      have hinfo : (built hashes news trieds vvNew nIdCount nTried news.length).mapInfo (Int.ofNat n) =
          some (builtInfo news vvNew n r) := by
        show builtInfos news trieds vvNew (n : Int) = _
        rw [builtInfos_nat, hr', Option.map_some]
      have hcond : 0 ≤ Int.ofNat n ∧ Int.ofNat n < (news.length : Int) :=
        ⟨Int.natCast_nonneg n, Int.ofNat_lt.mpr hlt⟩
      rw [if_pos hcond, hinfo]
      by_cases huse : fUseTable = true ∧ bucket < ADDRMAN_NEW_BUCKET_COUNT
      · have hfill := @built_fill_if hashes news trieds vvNew nIdCount nTried news.length r n
          (hashes.newSlot r.service ⟨bucket, huse.2⟩) hr'
        rw [candidate, dif_pos huse, hr]
        simp only [dif_pos huse]
        exact hfill
      · rw [candidate, dif_neg huse]
        simp only [dif_neg huse]
        rfl
    · have hcond : ¬ (0 ≤ Int.ofNat n ∧ Int.ofNat n < (news.length : Int)) := fun h =>
        hlt (Int.ofNat_lt.mp h.2)
      have hnone : candidate hashes fUseTable news (bucket, Int.ofNat n) = none := by
        rw [candidate, List.getElem?_eq_none (Nat.le_of_not_lt hlt)]
        split_ifs <;> rfl
      rw [if_neg hcond, hnone]
      rfl

/-! ## Loops -/

theorem loadNew_reads (hashes : AddrHashes CNetAddr) (fUseTable : Bool) :
    Load.Reads (AddrLoad.loadNew hashes fUseTable) getRecord (putNew hashes fUseTable)
      (fun n d d' => ∃ info, d' = d.modifyMan fun m =>
        { m with mapInfo := update m.mapInfo n (some info) })
      AddrFileError.endOfData := by
  intro n d s
  rcases unserializeInfo_sets ((d.man.mapInfo n).getD .blank) s with ⟨r, s', hget, hrun⟩ |
    ⟨hget, info, s', hrun⟩
  · have hread : AddrLoad.readInfoAt n (d, s) = .ok () (d.modifyMan fun m =>
        { m with mapInfo := update m.mapInfo n (some (r.onto ((d.man.mapInfo n).getD .blank))) },
        s') := by
      simp only [id_eq] at hrun
      rw [AddrLoad.readInfoAt, Load.within, hrun]
    refine .inl ⟨r, s', hget, ?_⟩
    rw [AddrLoad.loadNew, Load.bind_ok hread]
    rfl
  · refine .inr ⟨hget, _, s', ?_, info, rfl⟩
    rw [AddrLoad.loadNew, Load.bind_error]
    rw [AddrLoad.readInfoAt, Load.within]
    simp only [id_eq] at hrun
    rw [hrun]

theorem loadTried_reads (hashes : AddrHashes CNetAddr) :
    Load.Reads (AddrLoad.loadTried hashes) getRecord
      (fun _ r => AddrLoad.placeTried hashes (r.onto .blank)) (fun _ d d' => d' = d)
      AddrFileError.endOfData := by
  intro n d s
  rcases unserializeInfo_sets .blank s with ⟨r, s', hget, hrun⟩ | ⟨hget, info, s', hrun⟩
  · have hread : (Load.newly .blank unserializeInfo : Load AddrFileError AddrLoad _) (d, s) =
        .ok (r.onto .blank) (d, s') := by
      simp only [id_eq] at hrun
      rw [Load.newly, hrun]
    refine .inl ⟨r, s', hget, ?_⟩
    rw [AddrLoad.loadTried, Load.bind_ok hread]
    rfl
  · refine .inr ⟨hget, d, s', ?_, rfl⟩
    rw [AddrLoad.loadTried, Load.bind_error]
    simp only [id_eq] at hrun
    rw [Load.newly, hrun]

/-- The slots of the new records by their sources. -/
def sourceSlots (hashes : AddrHashes CNetAddr) (n : Nat) (rs : List AddrRecord) : List (NewSlot × Int) :=
  (rs.zipIdx n).map fun p => (sourceSlot hashes p.1, (p.2 : Int))

section

variable {nKey : UInt256} {nLost : Int}

/-- The new records are put into the manager. -/
theorem putAll_new {fUseTable : Bool} (h : Below vvNew news.length) (rs : List AddrRecord) :
    Load.putAll (putNew hashes fUseTable) news.length rs
        ⟨⟨nKey, built hashes news [] vvNew nIdCount nTried nNew⟩, nLost⟩ =
      ⟨⟨nKey, built hashes (news ++ rs) []
        (fillAll (-1) ADDRMAN_NEW_BUCKETS_PER_ADDRESS
          (if fUseTable then [] else sourceSlots hashes news.length rs) vvNew)
        nIdCount nTried nNew⟩, nLost⟩ := by
  induction rs generalizing news vvNew with
  | nil =>
    rw [List.append_nil]
    cases fUseTable <;> rfl
  | cons r rs ih =>
    have hlen : (news ++ [r]).length = news.length + 1 := by
      rw [List.length_append, List.length_singleton]
    have happ : news ++ r :: rs = news ++ [r] ++ rs := by rw [List.append_assoc, List.singleton_append]
    have hbelow : Below vvNew (news ++ [r]).length := h.mono (by omega)
    rw [Load.putAll, putNew_built h, ← hlen, happ]
    cases fUseTable with
    | true => exact ih hbelow
    | false =>
      have hfill := hbelow.fill (k := news.length) (by omega) (sourceSlot hashes r)
      have hcons : sourceSlots hashes news.length (r :: rs) =
          (sourceSlot hashes r, (news.length : Int)) :: sourceSlots hashes (news ++ [r]).length rs := by
        rw [hlen]
        rfl
      have hrest := ih hfill
      simp only [Bool.false_eq_true, ↓reduceIte] at hrest ⊢
      rw [hrest, hcons, fillAll_cons]

/-- The tried records are put into the manager, but for those that find their slot taken. -/
theorem putAll_tried (h : Below vvNew news.length) (n : Nat) (rs : List AddrRecord) :
    Load.putAll (fun _ r => AddrLoad.placeTried hashes (r.onto .blank)) n rs
        ⟨⟨nKey, built hashes news trieds vvNew ((news ++ trieds).length : Int) nTried nNew⟩, nLost⟩ =
      ⟨⟨nKey, built hashes news (firsts (triedSlotOf hashes) trieds rs) vvNew
        ((news ++ firsts (triedSlotOf hashes) trieds rs).length : Int) nTried nNew⟩,
        nLost + (trieds.length + rs.length - (firsts (triedSlotOf hashes) trieds rs).length)⟩ := by
  induction rs generalizing trieds nLost n with
  | nil =>
    have hzero : (trieds.length : Int) + ([] : List AddrRecord).length - trieds.length = 0 := by
      rw [List.length_nil]
      omega
    rw [Load.putAll, firsts, hzero, add_zero]
  | cons r rs ih =>
    rw [Load.putAll, placeTried_built h, firsts]
    by_cases hmem : triedSlotOf hashes r ∈ trieds.map (triedSlotOf hashes)
    · have hlost (k : Int) : nLost + 1 + (trieds.length + rs.length - k) =
          nLost + (trieds.length + (r :: rs).length - k) := by
        rw [List.length_cons]
        omega
      rw [if_pos hmem, if_pos hmem, ih, hlost]
    · have hlost (k : Int) : nLost + ((trieds ++ [r]).length + rs.length - k) =
          nLost + (trieds.length + (r :: rs).length - k) := by
        rw [List.length_cons, List.length_append, List.length_singleton]
        omega
      rw [if_neg hmem, if_neg hmem, ih, hlost]

/-- The indexes of the file are put into the manager. -/
theorem placeAll_built {fUseTable : Bool} (ps : List (Nat × Int)) :
    ps.foldl (fun m p => CAddrMan.placePosition hashes fUseTable p.1 p.2 m)
        (built hashes news trieds vvNew nIdCount nTried news.length) =
      built hashes news trieds
        (fillAll (-1) ADDRMAN_NEW_BUCKETS_PER_ADDRESS (ps.filterMap (candidate hashes fUseTable news))
          vvNew) nIdCount nTried news.length := by
  induction ps generalizing vvNew with
  | nil => rfl
  | cons p ps ih =>
    have hcons : (p :: ps).filterMap (candidate hashes fUseTable news) =
        (candidate hashes fUseTable news p).toList ++ ps.filterMap (candidate hashes fUseTable news) := by
      rw [List.filterMap_cons]
      cases candidate hashes fUseTable news p <;> rfl
    rw [List.foldl_cons, placePosition_built, ih, hcons, fillAll_append]

end

/-- The buckets and indexes of the table at the end of the file, as far as it goes. -/
def readPositions (nUBuckets : Nat) : Load AddrFileError (List (Nat × Int)) Unit :=
  .times (AddrLoad.loadBucket fun bucket nIndex ps => ps ++ [(bucket, nIndex)]) nUBuckets 0

/-- The loop over the buckets does to the manager what the indexes in the file say. -/
theorem loadBuckets_maps (fUseTable : Bool) (n : Nat) (d : AddrLoad) :
    Load.Maps (fun ps => d.modifyMan fun m =>
        ps.foldl (fun m p => CAddrMan.placePosition hashes fUseTable p.1 p.2 m) m)
      (readPositions n)
      (.times (AddrLoad.loadBucket fun bucket nIndex =>
        AddrLoad.modifyMan (CAddrMan.placePosition hashes fUseTable bucket nIndex)) n 0) := by
  refine .times (fun bucket => ?_) n 0
  refine (Load.Maps.read _ _).bind fun nSize => .times (fun _ => ?_) nSize.toNat 0
  refine (Load.Maps.read _ _).bind fun nIndex => .modify fun ps => ?_
  rw [AddrLoad.modifyMan, List.foldl_append]
  rfl

/-! ## The tables -/

/-- The candidates for the slots of `vvNew`, in their order. -/
def candidates (hashes : AddrHashes CNetAddr) (fUseTable : Bool) (news : List AddrRecord)
    (ps : List (Nat × Int)) : List (NewSlot × Int) :=
  (if fUseTable then [] else sourceSlots hashes 0 news) ++
    ps.filterMap (candidate hashes fUseTable news)

/-- The slots of `vvNew` as the candidates get them. -/
def loadedSlots (hashes : AddrHashes CNetAddr) (fUseTable : Bool) (news : List AddrRecord)
    (ps : List (Nat × Int)) : NewSlot → Int :=
  fillAll (-1) ADDRMAN_NEW_BUCKETS_PER_ADDRESS (candidates hashes fUseTable news ps) fun _ => -1

/-- The tried records that are kept. -/
def placedTried (hashes : AddrHashes CNetAddr) (trieds : List AddrRecord) : List AddrRecord :=
  firsts (triedSlotOf hashes) [] trieds

/-- The manager that the loops leave, before the pruning. -/
def loaded (hashes : AddrHashes CNetAddr) (fUseTable : Bool) (news trieds : List AddrRecord)
    (nTried : Int) (ps : List (Nat × Int)) : CAddrMan CNetAddr :=
  built hashes news (placedTried hashes trieds) (loadedSlots hashes fUseTable news ps)
    (news ++ placedTried hashes trieds).length
    (nTried - (trieds.length - (placedTried hashes trieds).length)) news.length

theorem candidates_below {fUseTable : Bool} {ps : List (Nat × Int)} {c : NewSlot × Int}
    (h : c ∈ candidates hashes fUseTable news ps) : ∃ (n : Nat) (r : AddrRecord), c.2 = n ∧
      news[n]? = some r ∧ c.1 = hashes.newSlot r.service c.1.1 := by
  rcases List.mem_append.mp h with h | h
  · cases fUseTable with
    | true => exact absurd h List.not_mem_nil
    | false =>
      obtain ⟨⟨r, n⟩, hmem, rfl⟩ := List.mem_map.mp h
      have hr := List.mem_zipIdx_iff_getElem?.mp hmem
      exact ⟨n, r, rfl, hr, rfl⟩
  · obtain ⟨p, -, hp⟩ := List.mem_filterMap.mp h
    exact candidate_below hp

theorem loadedSlots_append (fUseTable : Bool) (ps : List (Nat × Int)) :
    loadedSlots hashes fUseTable news ps = fillAll (-1) ADDRMAN_NEW_BUCKETS_PER_ADDRESS
      (ps.filterMap (candidate hashes fUseTable news)) (loadedSlots hashes fUseTable news []) := by
  rw [loadedSlots, loadedSlots, candidates, candidates, List.filterMap_nil, List.append_nil,
    fillAll_append]

/-- A slot of `vvNew` that is taken has the index of a new record. -/
theorem loadedSlots_cases (fUseTable : Bool) (ps : List (Nat × Int)) (slot : NewSlot) :
    loadedSlots hashes fUseTable news ps slot = -1 ∨ ∃ (n : Nat) (r : AddrRecord),
      loadedSlots hashes fUseTable news ps slot = n ∧ news[n]? = some r ∧
      slot = hashes.newSlot r.service slot.1 :=
  fillAll_of (p := fun slot (x : Int) => x = -1 ∨ ∃ (n : Nat) (r : AddrRecord), x = n ∧
    news[n]? = some r ∧ slot = hashes.newSlot r.service slot.1) (fun _ => .inl rfl)
    (fun _ hc => .inr (candidates_below hc)) slot

theorem loadedSlots_below (hashes : AddrHashes CNetAddr) (news : List AddrRecord) (fUseTable : Bool)
    (ps : List (Nat × Int)) :
    Below (loadedSlots hashes fUseTable news ps) news.length := fun slot => by
  rcases loadedSlots_cases fUseTable ps slot with h | ⟨n, r, h, hr, -⟩
  · rw [h]
    omega
  · have := (List.getElem?_eq_some_iff.mp hr).1
    rw [h]
    omega

/-- The loop over the new entries, from a new manager. -/
theorem loadNews_spec (hashes : AddrHashes CNetAddr) (fUseTable : Bool) (nKey : UInt256)
    (nTried nNew : Int) (left : Nat) (s : Bytes) :
    (∃ news s', (getMany getRecord left).run s = some (news, s') ∧ news.length = left ∧
      Load.times (AddrLoad.loadNew hashes fUseTable) left 0
        (⟨⟨nKey, built hashes [] [] (fun _ => -1) 0 nTried nNew⟩, 0⟩, s) =
        .ok () (⟨⟨nKey, built hashes news [] (loadedSlots hashes fUseTable news []) 0 nTried nNew⟩, 0⟩,
          s')) ∨
    ((getMany getRecord left).run s = none ∧ ∃ news info d s', news.length < left ∧
      Load.times (AddrLoad.loadNew hashes fUseTable) left 0
        (⟨⟨nKey, built hashes [] [] (fun _ => -1) 0 nTried nNew⟩, 0⟩, s) =
        .error .endOfData (d, s') ∧
      d.man = { built hashes news [] (loadedSlots hashes fUseTable news []) 0 nTried nNew with
        mapInfo := update (builtInfos news [] (loadedSlots hashes fUseTable news [])) news.length
          (some info) }) := by
  have hput (rs : List AddrRecord) : Load.putAll (putNew hashes fUseTable) 0 rs
      ⟨⟨nKey, built hashes [] [] (fun _ => -1) 0 nTried nNew⟩, 0⟩ =
      ⟨⟨nKey, built hashes rs [] (loadedSlots hashes fUseTable rs []) 0 nTried nNew⟩, 0⟩ := by
    have hbelow : Below (fun _ => -1) ([] : List AddrRecord).length := fun _ => neg_one_lt_zero
    rw [loadedSlots, candidates, List.filterMap_nil, List.append_nil]
    exact putAll_new hbelow rs
  rcases Load.times_reads (loadNew_reads hashes fUseTable) left 0
    ⟨⟨nKey, built hashes [] [] (fun _ => -1) 0 nTried nNew⟩, 0⟩ s with
    ⟨news, s', hmany, hlen, hrun⟩ | ⟨hmany, news, d, s', hlen, hrun, info, hd⟩
  · refine .inl ⟨news, s', hmany, hlen, ?_⟩
    rw [hrun, hput]
  · refine .inr ⟨hmany, news, info, d, s', hlen, hrun, ?_⟩
    rw [hd, hput, Nat.zero_add]
    rfl

/-- The loop over the tried entries, after the one over the new ones. -/
theorem loadTrieds_spec (hashes : AddrHashes CNetAddr) (h : Below vvNew news.length) (nKey : UInt256)
    (nTried nNew : Int) (left : Nat) (s : Bytes) :
    (∃ trieds s', (getMany getRecord left).run s = some (trieds, s') ∧ trieds.length = left ∧
      Load.times (AddrLoad.loadTried hashes) left 0
        (⟨⟨nKey, built hashes news [] vvNew news.length nTried nNew⟩, 0⟩, s) =
        .ok () (⟨⟨nKey, built hashes news (placedTried hashes trieds) vvNew
          (news ++ placedTried hashes trieds).length nTried nNew⟩,
          trieds.length - (placedTried hashes trieds).length⟩, s')) ∨
    ((getMany getRecord left).run s = none ∧ ∃ trieds nIdCount d s', trieds.length < left ∧
      Load.times (AddrLoad.loadTried hashes) left 0
        (⟨⟨nKey, built hashes news [] vvNew news.length nTried nNew⟩, 0⟩, s) =
        .error .endOfData (d, s') ∧ d.man = built hashes news trieds vvNew nIdCount nTried nNew) := by
  have hput (rs : List AddrRecord) :
      Load.putAll (fun _ r => AddrLoad.placeTried hashes (r.onto .blank)) 0 rs
        ⟨⟨nKey, built hashes news [] vvNew news.length nTried nNew⟩, 0⟩ =
      ⟨⟨nKey, built hashes news (placedTried hashes rs) vvNew (news ++ placedTried hashes rs).length
        nTried nNew⟩, rs.length - (placedTried hashes rs).length⟩ := by
    have hall := @putAll_tried hashes news [] vvNew nTried nNew nKey 0 h 0 rs
    rw [List.append_nil, List.length_nil, Int.natCast_zero, Int.zero_add, Int.zero_add] at hall
    exact hall
  rcases Load.times_reads (loadTried_reads hashes) left 0
    ⟨⟨nKey, built hashes news [] vvNew news.length nTried nNew⟩, 0⟩ s with
    ⟨trieds, s', hmany, hlen, hrun⟩ | ⟨hmany, trieds, d, s', hlen, hrun, rfl⟩
  · rw [hput] at hrun
    exact .inl ⟨trieds, s', hmany, hlen, hrun⟩
  · rw [hput] at hrun
    refine .inr ⟨hmany, placedTried hashes trieds, _, _, s', ?_, hrun, rfl⟩
    exact lt_of_le_of_lt ((firsts_length_le []).trans_eq (Nat.zero_add _)) hlen

/-- A new manager after the counts are read. -/
def counted (hashes : AddrHashes CNetAddr) (nKey : UInt256) (nTried nNew : Int) : AddrLoad :=
  ⟨⟨nKey, built hashes [] [] (fun _ => -1) 0 nTried nNew⟩, 0⟩

section

variable (nVersion : UInt8) (nKey : UInt256) {nNew nTried : Int} (nUBuckets : UInt32) {s s₁ s₂ : Bytes}

/-- The keys of the tried entries begin after the new ones. -/
theorem assignIds (hashes : AddrHashes CNetAddr) (news : List AddrRecord) (nKey : UInt256)
    (vvNew : NewSlot → Int) (nIdCount nTried nNew : Int) (s : Bytes) :
    Load.modify (AddrLoad.modifyMan fun m => { m with nIdCount := nIdCount })
        (⟨⟨nKey, built hashes news [] vvNew 0 nTried nNew⟩, 0⟩, s) =
      (.ok () (⟨⟨nKey, built hashes news [] vvNew nIdCount nTried nNew⟩, 0⟩, s) :
        EStateM.Result AddrFileError _ _) := rfl

variable (hashes nTried) in
/-- A new entry is missing. -/
theorem loadTables_noNew (h : (getMany getRecord nNew.toNat).run s = none) :
    ∃ news info vvNew d s', news.length < nNew.toNat ∧
      AddrLoad.loadTables hashes nVersion nNew nTried nUBuckets (counted hashes nKey nTried nNew, s) =
        .error .endOfData (d, s') ∧
      d.man = { built hashes news [] vvNew 0 nTried nNew with
        mapInfo := update (builtInfos news [] vvNew) news.length (some info) } := by
  rcases loadNews_spec hashes (AddrLoad.useTable nVersion (AddrLoad.numBuckets nVersion nUBuckets)) nKey
    nTried nNew nNew.toNat s with ⟨news, s', hmany, -⟩ | ⟨-, news, info, d, s', hlen, hrun, hd⟩
  · rw [h] at hmany
    cases hmany
  · exact ⟨news, info, _, d, s', hlen, Load.bind_error hrun, hd⟩

variable (hnNew : 0 ≤ nNew) {news trieds : List AddrRecord}
  (hnews : (getMany getRecord nNew.toNat).run s = some (news, s₁))

include hnNew hnews

/-- The new entries are there. -/
theorem loadTables_new (hashes : AddrHashes CNetAddr) (fUseTable : Bool) (nTried : Int) :
    nNew = news.length ∧
      Load.times (AddrLoad.loadNew hashes fUseTable) nNew.toNat 0 (counted hashes nKey nTried nNew, s) =
        .ok () (⟨⟨nKey, built hashes news [] (loadedSlots hashes fUseTable news []) 0 nTried nNew⟩, 0⟩,
          s₁) := by
  rcases loadNews_spec hashes fUseTable nKey nTried nNew nNew.toNat s with
    ⟨news', s', hmany, hlen, hrun⟩ | ⟨hmany, -⟩
  · obtain ⟨rfl, rfl⟩ := Prod.mk.inj (Option.some.inj (hnews.symm.trans hmany))
    exact ⟨by omega, hrun⟩
  · rw [hnews] at hmany
    cases hmany

variable (hashes nTried) in
/-- A tried entry is missing. -/
theorem loadTables_noTried (h : (getMany getRecord nTried.toNat).run s₁ = none) :
    ∃ trieds vvNew nIdCount d s', trieds.length < nTried.toNat ∧
      AddrLoad.loadTables hashes nVersion nNew nTried nUBuckets (counted hashes nKey nTried nNew, s) =
        .error .endOfData (d, s') ∧
      d.man = built hashes news trieds vvNew nIdCount nTried nNew := by
  obtain ⟨fUseTable, huse⟩ : ∃ b, b = AddrLoad.useTable nVersion
    (AddrLoad.numBuckets nVersion nUBuckets) := ⟨_, rfl⟩
  obtain ⟨hlen, hrun⟩ := loadTables_new nKey hnNew hnews hashes fUseTable nTried
  rcases loadTrieds_spec hashes (loadedSlots_below hashes news fUseTable []) nKey nTried nNew
    nTried.toNat s₁ with ⟨trieds, s', hmany, -⟩ | ⟨-, trieds, nIdCount, d, s', hlen', hrun', hd⟩
  · rw [h] at hmany
    cases hmany
  · have hids := assignIds hashes news nKey (loadedSlots hashes fUseTable news []) nNew nTried nNew s₁
    rw [← hlen] at hrun'
    refine ⟨trieds, _, nIdCount, d, s', hlen', ?_, hd⟩
    rw [AddrLoad.loadTables, ← huse, Load.bind_ok hrun, Load.bind_ok hids, Load.bind_error hrun']

variable (hashes nTried) in
/-- All entries are there. -/
theorem loadTables_entries
    (htrieds : (getMany getRecord nTried.toNat).run s₁ = some (trieds, s₂)) :
    ∃ nLost, AddrLoad.loadTables hashes nVersion nNew nTried nUBuckets
        (counted hashes nKey nTried nNew, s) =
      Load.mapOutcome (fun ps => ⟨⟨nKey, loaded hashes (AddrLoad.useTable nVersion
          (AddrLoad.numBuckets nVersion nUBuckets)) news trieds nTried ps⟩, nLost⟩)
        (readPositions (AddrLoad.bucketRounds (AddrLoad.numBuckets nVersion nUBuckets)) ([], s₂)) := by
  obtain ⟨fUseTable, huse⟩ : ∃ b, b = AddrLoad.useTable nVersion
    (AddrLoad.numBuckets nVersion nUBuckets) := ⟨_, rfl⟩
  obtain ⟨hlen, hrun⟩ := loadTables_new nKey hnNew hnews hashes fUseTable nTried
  rcases loadTrieds_spec hashes (loadedSlots_below hashes news fUseTable []) nKey nTried nNew
    nTried.toNat s₁ with ⟨trieds', s', hmany, hlen', hrun'⟩ | ⟨hmany, -⟩
  · obtain ⟨rfl, rfl⟩ := Prod.mk.inj (Option.some.inj (htrieds.symm.trans hmany))
    obtain ⟨kept, hkept⟩ : ∃ kept, kept = placedTried hashes trieds := ⟨_, rfl⟩
    have hids := assignIds hashes news nKey (loadedSlots hashes fUseTable news []) nNew nTried nNew s₁
    have hlost : Load.modify
        (fun d : AddrLoad => { d with man := { d.man with nTried := d.man.nTried - d.nLost } })
        (⟨⟨nKey, built hashes news kept (loadedSlots hashes fUseTable news []) (news ++ kept).length
          nTried nNew⟩, trieds.length - kept.length⟩, s₂) =
        (.ok () (⟨⟨nKey, built hashes news kept (loadedSlots hashes fUseTable news [])
          (news ++ kept).length (nTried - (trieds.length - kept.length)) nNew⟩,
          trieds.length - kept.length⟩, s₂) : EStateM.Result AddrFileError _ _) := rfl
    rw [← hlen, ← hkept] at hrun'
    refine ⟨trieds.length - kept.length, ?_⟩
    rw [AddrLoad.loadTables, ← huse, Load.bind_ok hrun, Load.bind_ok hids, Load.bind_ok hrun',
      Load.bind_ok hlost, hlen]
    refine (loadBuckets_maps fUseTable _ ⟨⟨nKey, built hashes news kept
      (loadedSlots hashes fUseTable news []) (news ++ kept).length
      (nTried - (trieds.length - kept.length)) news.length⟩, trieds.length - kept.length⟩ [] s₂).trans ?_
    congr 1
    funext ps
    rw [AddrLoad.modifyMan, placeAll_built, ← loadedSlots_append, loaded, hkept]
  · rw [htrieds] at hmany
    cases hmany

end

/-! ## The header -/

/-- The version and the key. -/
def getStart : Get (UInt8 × UInt256) := do
  let nVersion ← getByte
  let nKeySize ← getByte
  if nKeySize ≠ 32 then Get.fail
  else do
    let nKey ← unserializeUInt256
    return (nVersion, nKey)

/-- The file ends before the counts, or its key has another size, or the counts are next. -/
theorem load_cases (hashesOf : UInt256 → AddrHashes CNetAddr) (randHash nKey₀ : UInt256) (s : Bytes) :
    (getStart.run s = none ∧ ∃ e nKey s', AddrLoad.load hashesOf randHash (⟨.fresh nKey₀, 0⟩, s) =
      .error e (⟨⟨nKey, CAddrMan.fresh⟩, 0⟩, s')) ∨
    ∃ nVersion nKey s₁, getStart.run s = some ((nVersion, nKey), s₁) ∧
      AddrLoad.load hashesOf randHash (⟨.fresh nKey₀, 0⟩, s) =
        AddrLoad.loadCounts (hashesOf nKey) nVersion (⟨⟨nKey, CAddrMan.fresh⟩, 0⟩, s₁) := by
  have hclear : Load.modify (fun d : AddrLoad => { d with nKey := randHash, man := d.man.clear })
      (⟨.fresh nKey₀, 0⟩, s) = (.ok () (⟨⟨randHash, CAddrMan.fresh⟩, 0⟩, s) :
        EStateM.Result AddrFileError _ _) := rfl
  rw [AddrLoad.load, Load.bind_ok hclear, getStart]
  cases hversion : getByte.run s with
  | none =>
    exact .inl ⟨by rw [Get.run_bind, hversion]; rfl, _, _, _,
      Load.bind_error (Load.read_error hversion)⟩
  | some p =>
    obtain ⟨nVersion, s⟩ := p
    rw [Get.run_bind_some hversion, Load.bind_ok (Load.read_ok hversion)]
    cases hsize : getByte.run s with
    | none =>
      exact .inl ⟨by rw [Get.run_bind, hsize]; rfl, _, _, _, Load.bind_error (Load.read_error hsize)⟩
    | some p =>
      obtain ⟨nKeySize, s⟩ := p
      rw [Get.run_bind_some hsize, Load.bind_ok (Load.read_ok hsize)]
      by_cases h32 : nKeySize ≠ 32
      · rw [if_pos h32]
        exact .inl ⟨rfl, _, _, _, by simp only [if_pos h32]; rfl⟩
      · simp only [if_neg h32]
        cases hkey : unserializeUInt256.run s with
        | none =>
          exact .inl ⟨by rw [Get.run_bind, hkey]; rfl, _, _, _, Load.bind_error (Load.read_error hkey)⟩
        | some p =>
          obtain ⟨nKey, s⟩ := p
          refine .inr ⟨nVersion, nKey, s, by rw [Get.run_bind_some hkey]; rfl, ?_⟩
          exact Load.bind_ok (Load.read_ok hkey)

section

variable (nVersion : UInt8) (nKey : UInt256) {nNew nTried : Int} {nUBuckets : UInt32}
  {s s₁ s₂ s₃ : Bytes}

theorem loadCounts_noNew (h : unserializeInt32.run s = none) :
    AddrLoad.loadCounts hashes nVersion (⟨⟨nKey, CAddrMan.fresh⟩, 0⟩, s) =
      .error .endOfData (⟨⟨nKey, CAddrMan.fresh⟩, 0⟩, s) :=
  Load.bind_error (Load.read_error h)

variable (h₁ : unserializeInt32.run s = some (nNew, s₁))

include h₁

theorem loadCounts_noTried (h : unserializeInt32.run s₁ = none) :
    AddrLoad.loadCounts hashes nVersion (⟨⟨nKey, CAddrMan.fresh⟩, 0⟩, s) =
      .error .endOfData (counted hashes nKey 0 nNew, s₁) := by
  have hnNew : Load.modify (AddrLoad.modifyMan fun m => { m with nNew }) (counted hashes nKey 0 0, s₁) =
      (.ok () (counted hashes nKey 0 nNew, s₁) : EStateM.Result AddrFileError _ _) := rfl
  rw [fresh_built hashes, AddrLoad.loadCounts, Load.bind_ok (Load.read_ok h₁), ← counted,
    Load.bind_ok hnNew, Load.bind_error (Load.read_error h)]

variable (h₂ : unserializeInt32.run s₁ = some (nTried, s₂))

include h₂

theorem loadCounts_read : AddrLoad.loadCounts hashes nVersion (⟨⟨nKey, CAddrMan.fresh⟩, 0⟩, s) =
    (do
      let nUBuckets ← readField unserializeUInt32
      AddrLoad.loadTables hashes nVersion nNew nTried nUBuckets)
      (counted hashes nKey nTried nNew, s₂) := by
  have hnNew : Load.modify (AddrLoad.modifyMan fun m => { m with nNew }) (counted hashes nKey 0 0, s₁) =
      (.ok () (counted hashes nKey 0 nNew, s₁) : EStateM.Result AddrFileError _ _) := rfl
  have hnTried : Load.modify (AddrLoad.modifyMan fun m => { m with nTried })
      (counted hashes nKey 0 nNew, s₂) =
      (.ok () (counted hashes nKey nTried nNew, s₂) : EStateM.Result AddrFileError _ _) := rfl
  rw [fresh_built hashes, AddrLoad.loadCounts, Load.bind_ok (Load.read_ok h₁), ← counted,
    Load.bind_ok hnNew, Load.bind_ok (Load.read_ok h₂), Load.bind_ok hnTried]

theorem loadCounts_noBuckets (h : unserializeUInt32.run s₂ = none) :
    AddrLoad.loadCounts hashes nVersion (⟨⟨nKey, CAddrMan.fresh⟩, 0⟩, s) =
      .error .endOfData (counted hashes nKey nTried nNew, s₂) := by
  rw [loadCounts_read nVersion nKey h₁ h₂, Load.bind_error (Load.read_error h)]

theorem loadCounts_tables (h₃ : unserializeUInt32.run s₂ = some (nUBuckets, s₃)) :
    AddrLoad.loadCounts hashes nVersion (⟨⟨nKey, CAddrMan.fresh⟩, 0⟩, s) =
      AddrLoad.loadTables hashes nVersion nNew nTried nUBuckets
        (counted hashes nKey nTried nNew, s₃) := by
  rw [loadCounts_read nVersion nKey h₁ h₂, Load.bind_ok (Load.read_ok h₃)]

end

end GC
