import GameCredits.Proof.AddrLoad

/-!
# Loading any file of addresses

What `CAddrMan::Unserialize` leaves behind, for every file:

* `pruneNew_ok`: the pruning takes out the entries that are in no table;
* `checked_built`, `checked_pruned`: which managers are as `Check_` wants them, by the records read;
* `unserialize_checked_iff`: which files leave such a manager, read to the end or not.
-/

namespace GC

open Framework
open Function (update)

/-! ## Check_ -/

/-- The counts, `vRandom`, `mapAddr` and the references are as `Check_` wants them. -/
structure Checked {NetAddr : Type} (m : CAddrMan NetAddr) : Prop where
  random : Framework.Indexed m.vRandom m.posOf
  addr : ∀ nId info, m.mapInfo nId = some info → m.mapAddr info.service.ip = some nId
  refs : ∀ nId info, m.mapInfo nId = some info → info.fInTried = false →
    1 ≤ info.nRefCount ∧ info.nRefCount = occurrences m.vvNew nId
  nTried : m.nTried = (m.entries true).card
  nNew : m.nNew = (m.entries false).card

/-! ## Pruning -/

/-- An entry that is not tried, and that no slot refers to. -/
def CAddrInfo.Unused {NetAddr : Type} (info : CAddrInfo NetAddr) : Prop :=
  info.fInTried = false ∧ info.nRefCount = 0

/-- `m` has an unused entry. -/
def CAddrMan.UnusedAt {NetAddr : Type} (m : CAddrMan NetAddr) (x : Int) : Prop :=
  ∃ info, m.mapInfo x = some info ∧ info.Unused

section

variable {NetAddr : Type} {m m' m₁ : CAddrMan NetAddr} {x : Int}

theorem SameInfo.symm (h : SameInfo m m' x) : SameInfo m' m x := Eq.symm h

theorem SameInfo.trans (h : SameInfo m m₁ x) (h' : SameInfo m₁ m' x) : SameInfo m m' x := Eq.trans h' h

theorem SameInfo.unusedAt (h : SameInfo m m' x) (hx : m.UnusedAt x) : m'.UnusedAt x := by
  obtain ⟨info, hinfo, hunused⟩ := hx
  obtain ⟨nRandomPos, hinfo'⟩ := h.get hinfo
  exact ⟨_, hinfo', hunused⟩

/-- An entry of `m'` is one of `m`, but for its place. -/
theorem SameInfo.of {info' : CAddrInfo NetAddr} (h : SameInfo m m' x) (hinfo : m'.mapInfo x = some info') :
    ∃ info, m.mapInfo x = some info ∧ info.service = info'.service ∧
      info.nRefCount = info'.nRefCount ∧ info.fInTried = info'.fInTried := by
  obtain ⟨nRandomPos, hinfo'⟩ := h.symm.get hinfo
  exact ⟨_, hinfo', rfl, rfl, rfl⟩

end

/-- What is left of `m` after the unused entries with the keys `ids` are deleted. -/
structure Pruned {NetAddr : Type} (ids : List Int) (m m' : CAddrMan NetAddr) : Prop where
  random : Framework.Indexed m'.vRandom m'.posOf
  kept : ∀ x, ¬ (x ∈ ids ∧ m.UnusedAt x) → SameInfo m m' x
  gone : ∀ x ∈ ids, m.UnusedAt x → m'.mapInfo x = none
  addr : ∀ ip, (∀ x ∈ ids, ∀ info, m.mapInfo x = some info → info.Unused → info.service.ip ≠ ip) →
    m'.mapAddr ip = m.mapAddr ip
  addr_gone : ∀ x ∈ ids, ∀ info, m.mapInfo x = some info → info.Unused →
    m'.mapAddr info.service.ip = none
  vvNew : m'.vvNew = m.vvNew
  nTried : m'.nTried = m.nTried
  tried : (m'.entries true).card = (m.entries true).card
  nNew : m'.nNew - (m'.entries false).card = m.nNew - (m.entries false).card

theorem Pruned.nil {NetAddr : Type} {m : CAddrMan NetAddr} (h : Framework.Indexed m.vRandom m.posOf) :
    Pruned [] m m where
  random := h
  kept _ _ := rfl
  gone _ hx := absurd hx List.not_mem_nil
  addr _ _ := rfl
  addr_gone _ hx := absurd hx List.not_mem_nil
  vvNew := rfl
  nTried := rfl
  tried := rfl
  nNew := rfl

section

variable {m : CAddrMan CNetAddr}

/-- The pruning goes on after an entry is deleted. -/
theorem Pruned.cons {nId : Int} {ids : List Int} {info : CAddrInfo CNetAddr} {m₁ m₂ m' : CAddrMan CNetAddr}
    (hinfo : m.mapInfo nId = some info) (hunused : info.Unused) (hid : nId ∉ ids)
    (hm : Framework.Indexed m.vRandom m.posOf) (hm₁ : Framework.Indexed m₁.vRandom m₁.posOf)
    (hshuffled : Shuffled m m₁)
    (hlast : m₁.vRandom = m₁.vRandom.dropLast ++ [nId])
    (hm₂ : m₂ = { m₁ with
      vRandom := m₁.vRandom.dropLast
      mapAddr := update m₁.mapAddr info.service.ip none
      mapInfo := update m₁.mapInfo nId none
      nNew := m₁.nNew - 1 }) (h : Pruned ids m₂ m') : Pruned (nId :: ids) m m' := by
  have hlist : m₂.vRandom = m₁.vRandom.dropLast := by rw [hm₂]
  have hmap : m₂.mapInfo = update m₁.mapInfo nId none := by rw [hm₂]
  have haddr : m₂.mapAddr = update m.mapAddr info.service.ip none := by rw [hm₂, ← hshuffled.mapAddr]
  obtain ⟨nRandomPos, hinfo₁⟩ := (hshuffled.info nId).get hinfo
  have hself : m₂.mapInfo nId = none := by rw [hmap, Function.update_self]
  have hsame : ∀ x, x ≠ nId → SameInfo m m₂ x := fun x hx => by
    have := hshuffled.info x
    rwa [SameInfo, ← Function.update_of_ne hx none m₁.mapInfo, ← hmap] at this
  have hentries : ∀ b, (m₁.entries b).card = (m.entries b).card := fun b => by
    congr 1
    ext x
    rw [mem_addrEntries hm₁, mem_addrEntries hm]
    constructor
    · rintro ⟨i', hi', rfl⟩
      obtain ⟨i, hi, -, -, ht⟩ := (hshuffled.info x).of hi'
      exact ⟨i, hi, ht⟩
    · rintro ⟨i, hi, rfl⟩
      obtain ⟨_, hi'⟩ := (hshuffled.info x).get hi
      exact ⟨_, hi', rfl⟩
  have htrue : (m₂.entries true).card = (m.entries true).card := by
    rw [removed_entries_ne hm₁ hlast hlist hmap hinfo₁ (by rw [hunused.1]; decide), hentries]
  have hfalse : (m₂.entries false).card + 1 = (m.entries false).card := by
    have := removed_entries hm₁ hlast hlist hmap hinfo₁
    rw [← hentries]
    rwa [hunused.1] at this
  -- the keys after `nId` are as unused as before
  have hsub : ∀ x ∈ ids, ∀ i, m.mapInfo x = some i → ∃ i₂, m₂.mapInfo x = some i₂ ∧
      i₂.service = i.service ∧ (i₂.Unused ↔ i.Unused) := fun x hx i hi => by
    have hne : x ≠ nId := fun h => hid (h ▸ hx)
    obtain ⟨_, hi₂⟩ := (hsame x hne).get hi
    exact ⟨_, hi₂, rfl, Iff.rfl⟩
  refine ⟨h.random, fun x hx => ?_, fun x hx hunused' => ?_, fun ip hip => ?_, fun x hx i hi hi' => ?_,
    ?_, ?_, ?_, ?_⟩
  · have hne : x ≠ nId := fun heq => hx ⟨heq ▸ List.mem_cons_self .., info, heq ▸ hinfo, hunused⟩
    refine (hsame x hne).trans (h.kept x fun hmem => hx ?_)
    exact ⟨List.mem_cons_of_mem _ hmem.1, (hsame x hne).symm.unusedAt hmem.2⟩
  · by_cases heq : x = nId
    · subst heq
      have hkept := h.kept x fun hmem => hid hmem.1
      rw [SameInfo, hself] at hkept
      exact Option.map_eq_none_iff.mp hkept
    · have hmem := (List.mem_cons.mp hx).resolve_left heq
      exact h.gone x hmem ((hsame x heq).unusedAt hunused')
  · have hne : ip ≠ info.service.ip := fun heq =>
      hip nId (List.mem_cons_self ..) info hinfo hunused heq.symm
    rw [h.addr ip fun x hx i₂ hi₂ hi₂' => ?_, haddr, Function.update_of_ne hne]
    have hxne : x ≠ nId := fun h => hid (h ▸ hx)
    obtain ⟨i, hi, hs, hr, ht⟩ := (hsame x hxne).of hi₂
    rw [← hs]
    exact hip x (List.mem_cons_of_mem _ hx) i hi ⟨ht.trans hi₂'.1, hr.trans hi₂'.2⟩
  · rcases List.mem_cons.mp hx with rfl | hmem
    · rw [hinfo] at hi
      cases hi
      by_cases hlater : ∀ y ∈ ids, ∀ i₂, m₂.mapInfo y = some i₂ → i₂.Unused →
          i₂.service.ip ≠ info.service.ip
      · rw [h.addr _ hlater, haddr, Function.update_self]
      · push Not at hlater
        obtain ⟨y, hy, i₂, hi₂, hi₂', hip⟩ := hlater
        rw [← hip]
        exact h.addr_gone y hy i₂ hi₂ hi₂'
    · obtain ⟨i₂, hi₂, hs, hu⟩ := hsub x hmem i hi
      rw [← hs]
      exact h.addr_gone x hmem i₂ hi₂ (hu.mpr hi')
  · rw [h.vvNew, hm₂, ← hshuffled.vvNew]
  · rw [h.nTried, hm₂, ← hshuffled.nTried]
  · rw [h.tried, htrue]
  · have hnew := h.nNew
    have hcount : m₂.nNew = m.nNew - 1 := by rw [hm₂, ← hshuffled.nNew]
    omega

/-- A key without an unused entry. -/
theorem Pruned.skip {nId : Int} {ids : List Int} {m' : CAddrMan CNetAddr} (h : Pruned ids m m')
    (hunused : ¬ m.UnusedAt nId) : Pruned (nId :: ids) m m' := by
  have hmem : ∀ x, x ∈ nId :: ids → m.UnusedAt x → x ∈ ids := fun x hx hu =>
    (List.mem_cons.mp hx).resolve_left fun heq => hunused (heq ▸ hu)
  exact { h with
    kept := fun x hx => h.kept x fun hx' => hx ⟨List.mem_cons_of_mem _ hx'.1, hx'.2⟩
    gone := fun x hx hu => h.gone x (hmem x hx hu) hu
    addr := fun ip hip => h.addr ip fun x hx => hip x (List.mem_cons_of_mem _ hx)
    addr_gone := fun x hx i hi hu => h.addr_gone x (hmem x hx ⟨i, hi, hu⟩) i hi hu }

/-- No deletion fails. -/
theorem pruneNew_ok (ids : List Int) (hids : ids.Nodup) (h : Framework.Indexed m.vRandom m.posOf) :
    ∃ m', CAddrMan.pruneNew ids m = .ok m' ∧ Pruned ids m m' := by
  induction ids generalizing m with
  | nil => exact ⟨m, rfl, .nil h⟩
  | cons nId ids ih =>
    obtain ⟨hid, hids⟩ := List.nodup_cons.mp hids
    rw [CAddrMan.pruneNew]
    by_cases hunused : m.UnusedAt nId
    · obtain ⟨info, hinfo, hu⟩ := hunused
      obtain ⟨m₁, hm₁, hshuffled, hlast, hdelete⟩ := delete_shuffled h hinfo hu.1 hu.2
      obtain ⟨m₂, hm₂⟩ : ∃ m₂, m₂ = { m₁ with
        vRandom := m₁.vRandom.dropLast
        mapAddr := update m₁.mapAddr info.service.ip none
        mapInfo := update m₁.mapInfo nId none
        nNew := m₁.nNew - 1 } := ⟨_, rfl⟩
      have hindexed : Framework.Indexed m₂.vRandom m₂.posOf :=
        removed_indexed hm₁ hlast (by rw [hm₂]) (by rw [hm₂])
      obtain ⟨m', hprune, hpruned⟩ := ih hids hindexed
      refine ⟨m', ?_, .cons hinfo hu hid h hm₁ hshuffled hlast hm₂ hpruned⟩
      simp only [hinfo]
      have hu : info.fInTried = false ∧ info.nRefCount = 0 := hu
      rw [if_pos hu, hdelete, ok_bind, ← hm₂, hprune]
    · obtain ⟨m', hprune, hpruned⟩ := ih hids h
      refine ⟨m', ?_, hpruned.skip hunused⟩
      cases hinfo : m.mapInfo nId with
      | none => exact hprune
      | some info =>
        simp only
        have hu : ¬ (info.fInTried = false ∧ info.nRefCount = 0) := fun hu => hunused ⟨info, hinfo, hu⟩
        rw [if_neg hu, hprune]

end

/-! ## Built managers -/

section

variable {hashes : AddrHashes CNetAddr} {news trieds : List AddrRecord} {vvNew : NewSlot → Int}
  {nIdCount nTried nNew : Int}

theorem built_indexed : Framework.Indexed (built hashes news trieds vvNew nIdCount nTried nNew).vRandom
    (built hashes news trieds vvNew nIdCount nTried nNew).posOf := by
  intro i x
  show ((List.range (news ++ trieds).length).map Nat.cast)[i]? = some x ↔
    (builtInfos news trieds vvNew x).map (·.nRandomPos) = some i
  rw [List.getElem?_map, Option.map_eq_some_iff, Option.map_eq_some_iff]
  constructor
  · rintro ⟨k, hk, rfl⟩
    obtain ⟨hlt, heq⟩ := List.getElem?_eq_some_iff.mp hk
    rw [List.getElem_range] at heq
    rw [List.length_range] at hlt
    subst heq
    exact ⟨_, builtInfos_eq_some.mpr ⟨i, _, rfl, List.getElem?_eq_getElem hlt, rfl⟩, rfl⟩
  · rintro ⟨info, hinfo, rfl⟩
    obtain ⟨n, r, rfl, hr, rfl⟩ := builtInfos_eq_some.mp hinfo
    exact ⟨n, List.getElem?_range (List.getElem?_eq_some_iff.mp hr).1, rfl⟩

/-- The new records have the first keys, the tried ones the others. -/
theorem mem_builtEntries {b : Bool} {x : Int} :
    x ∈ (built hashes news trieds vvNew nIdCount nTried nNew).entries b ↔ ∃ n : Nat, x = n ∧
      n < (news ++ trieds).length ∧ decide (news.length ≤ n) = b := by
  rw [mem_addrEntries built_indexed]
  show (∃ info, builtInfos news trieds vvNew x = some info ∧ info.fInTried = b) ↔ _
  constructor
  · rintro ⟨info, hinfo, rfl⟩
    obtain ⟨n, r, rfl, hr, rfl⟩ := builtInfos_eq_some.mp hinfo
    exact ⟨n, rfl, (List.getElem?_eq_some_iff.mp hr).1, rfl⟩
  · rintro ⟨n, rfl, hlt, rfl⟩
    exact ⟨_, builtInfos_eq_some.mpr ⟨n, _, rfl, List.getElem?_eq_getElem hlt, rfl⟩, rfl⟩

theorem builtEntries_new :
    ((built hashes news trieds vvNew nIdCount nTried nNew).entries false).card = news.length := by
  have hset : (built hashes news trieds vvNew nIdCount nTried nNew).entries false =
      (Finset.range news.length).image Nat.cast := by
    ext x
    rw [mem_builtEntries, Finset.mem_image]
    constructor
    · rintro ⟨n, rfl, -, hn⟩
      exact ⟨n, Finset.mem_range.mpr (Nat.lt_of_not_le (of_decide_eq_false hn)), rfl⟩
    · rintro ⟨n, hn, rfl⟩
      have hlt := Finset.mem_range.mp hn
      exact ⟨n, rfl, by rw [List.length_append]; omega, decide_eq_false (by omega)⟩
  rw [hset, Finset.card_image_of_injective _ Nat.cast_injective, Finset.card_range]

theorem builtEntries_tried :
    ((built hashes news trieds vvNew nIdCount nTried nNew).entries true).card = trieds.length := by
  have hsum := card_entries (@built_indexed hashes news trieds vvNew nIdCount nTried nNew)
  have hlen : (built hashes news trieds vvNew nIdCount nTried nNew).vRandom.length =
      (news ++ trieds).length := by
    rw [built, List.length_map, List.length_range]
  rw [builtEntries_new, hlen, List.length_append] at hsum
  omega

/-- No other record has the address of one that is kept. -/
def DistinctKept (news trieds : List AddrRecord) (vvNew : NewSlot → Int) : Prop :=
  ∀ (n : Nat) (r : AddrRecord), (news ++ trieds)[n]? = some r →
    (n < news.length → ∃ slot, vvNew slot = n) →
    ∀ (k : Nat) (r' : AddrRecord), (news ++ trieds)[k]? = some r' →
      r'.service.ip = r.service.ip → k = n

theorem DistinctKept.addr (h : DistinctKept news trieds vvNew) {n : Nat} {r : AddrRecord}
    (hr : (news ++ trieds)[n]? = some r) (hkept : n < news.length → ∃ slot, vvNew slot = n) :
    (built hashes news trieds vvNew nIdCount nTried nNew).mapAddr r.service.ip = some (n : Int) := by
  have := assign_unique (fun n => some (n : Int)) (fun r : AddrRecord => r.service.ip) (fun _ => none) 0
    hr fun k r' hk hip => h n r hr hkept k r' hk hip
  rw [Nat.zero_add] at this
  exact this

/-- A manager that is not pruned. -/
theorem checked_built : Checked (built hashes news trieds vvNew nIdCount nTried nNew) ↔
    nTried = trieds.length ∧ nNew = news.length ∧
      (∀ n < news.length, ∃ slot, vvNew slot = (n : Int)) ∧ DistinctKept news trieds vvNew := by
  constructor
  · intro h
    have hrefs : ∀ n < news.length, ∃ slot, vvNew slot = (n : Int) := fun n hn => by
      obtain ⟨r, hr⟩ : ∃ r, (news ++ trieds)[n]? = some r :=
        ⟨_, List.getElem?_eq_getElem (by rw [List.length_append]; omega)⟩
      have := (h.refs n _ (builtInfos_eq_some.mpr ⟨n, r, rfl, hr, rfl⟩)
        (decide_eq_false (by omega))).1
      exact occurrences_pos.mp (Int.ofNat_lt.mp this)
    refine ⟨?_, ?_, hrefs, fun n r hr _ k r' hk hip => ?_⟩
    · rw [← @builtEntries_tried hashes news trieds vvNew nIdCount nTried nNew]
      exact h.nTried
    · rw [← @builtEntries_new hashes news trieds vvNew nIdCount nTried nNew]
      exact h.nNew
    · have hn := h.addr n _ (builtInfos_eq_some.mpr ⟨n, r, rfl, hr, rfl⟩)
      have hk := h.addr k _ (builtInfos_eq_some.mpr ⟨k, r', rfl, hk, rfl⟩)
      simp only [builtInfo, AddrRecord.onto] at hn hk
      rw [hip, hn] at hk
      exact (Int.ofNat.inj (Option.some.inj hk)).symm
  · rintro ⟨hnTried, hnNew, hrefs, hdistinct⟩
    refine ⟨built_indexed, fun x info hinfo => ?_, fun x info hinfo ht => ?_, ?_, ?_⟩
    · obtain ⟨n, r, rfl, hr, rfl⟩ := builtInfos_eq_some.mp hinfo
      exact hdistinct.addr hr fun hn => hrefs n hn
    · obtain ⟨n, r, rfl, hr, rfl⟩ := builtInfos_eq_some.mp hinfo
      have hn : n < news.length := Nat.lt_of_not_le (of_decide_eq_false ht)
      exact ⟨Int.ofNat_lt.mpr (occurrences_pos.mpr (hrefs n hn)), rfl⟩
    · rw [builtEntries_tried]
      exact hnTried
    · rw [builtEntries_new]
      exact hnNew

theorem built_unusedAt {x : Int} :
    (built hashes news trieds vvNew nIdCount nTried nNew).UnusedAt x ↔ ∃ n : Nat, x = n ∧
      n < news.length ∧ ∀ slot, vvNew slot ≠ (n : Int) := by
  constructor
  · rintro ⟨info, hinfo, ht, hzero⟩
    obtain ⟨n, r, rfl, hr, rfl⟩ := builtInfos_eq_some.mp hinfo
    exact ⟨n, rfl, Nat.lt_of_not_le (of_decide_eq_false ht),
      occurrences_eq_zero.mp (Int.ofNat.inj hzero)⟩
  · rintro ⟨n, rfl, hn, hzero⟩
    obtain ⟨r, hr⟩ : ∃ r, (news ++ trieds)[n]? = some r :=
      ⟨_, List.getElem?_eq_getElem (by rw [List.length_append]; omega)⟩
    exact ⟨_, builtInfos_eq_some.mpr ⟨n, r, rfl, hr, rfl⟩, decide_eq_false (by omega),
      congrArg Nat.cast (occurrences_eq_zero.mpr hzero)⟩

section

variable {m' : CAddrMan CNetAddr} (h : Pruned ((List.range (news ++ trieds).length).map Int.ofNat)
  (built hashes news trieds vvNew nIdCount nTried nNew) m')

include h

/-- An entry that is kept is there still. -/
theorem Pruned.kept_info {n : Nat} {r : AddrRecord} (hr : (news ++ trieds)[n]? = some r)
    (hslot : n < news.length → ∃ slot, vvNew slot = (n : Int)) :
    ∃ nRandomPos, m'.mapInfo n = some { builtInfo news vvNew n r with nRandomPos } := by
  refine (h.kept n fun hu => ?_).get (builtInfos_eq_some.mpr ⟨n, r, rfl, hr, rfl⟩)
  obtain ⟨n', hn', hlt, hzero⟩ := built_unusedAt.mp hu.2
  cases Int.ofNat.inj hn'
  obtain ⟨slot, hslot⟩ := hslot hlt
  exact hzero slot hslot

/-- What is there still was kept. -/
theorem Pruned.info_kept {x : Int} {info : CAddrInfo CNetAddr} (hinfo : m'.mapInfo x = some info) :
    ∃ (n : Nat) (r : AddrRecord), x = n ∧ (news ++ trieds)[n]? = some r ∧
      (n < news.length → ∃ slot, vvNew slot = (n : Int)) ∧
      (builtInfo news vvNew n r).service = info.service ∧
      (builtInfo news vvNew n r).nRefCount = info.nRefCount ∧
      (builtInfo news vvNew n r).fInTried = info.fInTried := by
  have hused : ¬ (x ∈ (List.range (news ++ trieds).length).map Int.ofNat ∧
      (built hashes news trieds vvNew nIdCount nTried nNew).UnusedAt x) := fun hu => by
    rw [h.gone x hu.1 hu.2] at hinfo
    cases hinfo
  obtain ⟨i, hi, hs, hrefs, ht⟩ := (h.kept x hused).of hinfo
  obtain ⟨n, r, rfl, hr, rfl⟩ := builtInfos_eq_some.mp hi
  have hlt := (List.getElem?_eq_some_iff.mp hr).1
  refine ⟨n, r, rfl, hr, fun hn => ?_, hs, hrefs, ht⟩
  by_contra hnone
  exact hused ⟨List.mem_map.mpr ⟨n, List.mem_range.mpr hlt, rfl⟩,
    built_unusedAt.mpr ⟨n, rfl, hn, not_exists.mp hnone⟩⟩

/-- The counts go with the entries. -/
theorem Pruned.counts : (m'.nTried = (m'.entries true).card ↔ nTried = trieds.length) ∧
    (m'.nNew = (m'.entries false).card ↔ nNew = news.length) := by
  have htried := h.tried
  have hnTried := h.nTried
  have hnNew := h.nNew
  have hfields : (built hashes news trieds vvNew nIdCount nTried nNew).nTried = nTried ∧
      (built hashes news trieds vvNew nIdCount nTried nNew).nNew = nNew := ⟨rfl, rfl⟩
  rw [builtEntries_tried] at htried
  rw [builtEntries_new, hfields.2] at hnNew
  rw [hfields.1] at hnTried
  omega

/-- A manager that is pruned. -/
theorem checked_pruned :
    Checked m' ↔ nTried = trieds.length ∧ nNew = news.length ∧ DistinctKept news trieds vvNew := by
  obtain ⟨hcTried, hcNew⟩ := h.counts
  constructor
  · intro hc
    refine ⟨hcTried.mp hc.nTried, hcNew.mp hc.nNew, fun n r hr hslot k r' hr' hip => ?_⟩
    obtain ⟨_, hinfo⟩ := h.kept_info hr hslot
    have haddr := hc.addr n _ hinfo
    by_cases hslot' : k < news.length → ∃ slot, vvNew slot = (k : Int)
    · obtain ⟨_, hinfo'⟩ := h.kept_info hr' hslot'
      have haddr' := hc.addr k _ hinfo'
      simp only [builtInfo, AddrRecord.onto] at haddr haddr'
      rw [hip, haddr] at haddr'
      exact (Int.ofNat.inj (Option.some.inj haddr')).symm
    · -- an unused entry has taken the address with it
      push Not at hslot'
      have hmem : (k : Int) ∈ (List.range (news ++ trieds).length).map Int.ofNat :=
        List.mem_map.mpr ⟨k, List.mem_range.mpr (List.getElem?_eq_some_iff.mp hr').1, rfl⟩
      have hgone := h.addr_gone k hmem _ (builtInfos_eq_some.mpr ⟨k, r', rfl, hr', rfl⟩)
        ⟨decide_eq_false (by omega), congrArg Nat.cast (occurrences_eq_zero.mpr hslot'.2)⟩
      simp only [builtInfo, AddrRecord.onto] at haddr hgone
      rw [hip, haddr] at hgone
      cases hgone
  · rintro ⟨hnTried, hnNew, hdistinct⟩
    refine ⟨h.random, fun x info' hinfo' => ?_, fun x info' hinfo' ht => ?_, hcTried.mpr hnTried,
      hcNew.mpr hnNew⟩
    · obtain ⟨n, r, rfl, hr, hslot, hs, -, -⟩ := h.info_kept hinfo'
      have hip : (built hashes news trieds vvNew nIdCount nTried nNew).mapAddr r.service.ip =
        some (n : Int) := hdistinct.addr hr hslot
      rw [← hs]
      refine (h.addr _ fun x hx i hi hu heq => ?_).trans hip
      obtain ⟨k, r', rfl, hr', rfl⟩ := builtInfos_eq_some.mp hi
      have hk := hdistinct n r hr hslot k r' hr' heq
      subst hk
      obtain ⟨slot, hslot⟩ := hslot (Nat.lt_of_not_le (of_decide_eq_false hu.1))
      exact occurrences_eq_zero.mp (Int.ofNat.inj hu.2) slot hslot
    · obtain ⟨n, r, rfl, hr, hslot, -, hrefs, htried⟩ := h.info_kept hinfo'
      have hn : n < news.length := Nat.lt_of_not_le (of_decide_eq_false (htried.trans ht))
      rw [← hrefs, h.vvNew]
      exact ⟨Int.ofNat_lt.mpr (occurrences_pos.mpr (hslot hn)), rfl⟩

end

end

/-! ## Any file -/

/-- No other record has the address of one that is kept; and where the indexes do not go to the end,
every new entry has a slot already. -/
def SoundIndexes (hashes : AddrHashes CNetAddr) (fUseTable : Bool) (news trieds : List AddrRecord) :
    EStateM.Result AddrFileError (List (Nat × Int) × Bytes) Unit → Prop
  | .ok () (ps, _) =>
    DistinctKept news (placedTried hashes trieds) (loadedSlots hashes fUseTable news ps)
  | .error _ (ps, _) =>
    (∀ n < news.length, ∃ slot, loadedSlots hashes fUseTable news ps slot = (n : Int)) ∧
      DistinctKept news (placedTried hashes trieds) (loadedSlots hashes fUseTable news ps)

/-- The counts are not negative, all entries are there, and the indexes are as they should be. -/
def SoundTables (hashes : AddrHashes CNetAddr) (nVersion : UInt8) (nNew nTried : Int)
    (nUBuckets : UInt32) (s : Bytes) : Prop :=
  0 ≤ nNew ∧ 0 ≤ nTried ∧ ∃ news s₁ trieds s₂,
    (getMany getRecord nNew.toNat).run s = some (news, s₁) ∧
    (getMany getRecord nTried.toNat).run s₁ = some (trieds, s₂) ∧
    SoundIndexes hashes (AddrLoad.useTable nVersion (AddrLoad.numBuckets nVersion nUBuckets)) news trieds
      (readPositions (AddrLoad.bucketRounds (AddrLoad.numBuckets nVersion nUBuckets)) ([], s₂))

/-- The file leaves a manager as `Check_` wants it. -/
def SoundFile (hashesOf : UInt256 → AddrHashes CNetAddr) (s : Bytes) : Prop :=
  match getStart.run s with
  | none => True
  | some ((nVersion, nKey), s) =>
    match unserializeInt32.run s with
    | none => True
    | some (nNew, s) =>
      match unserializeInt32.run s with
      | none => nNew = 0
      | some (nTried, s) =>
        match unserializeUInt32.run s with
        | none => nNew = 0 ∧ nTried = 0
        | some (nUBuckets, s) => SoundTables (hashesOf nKey) nVersion nNew nTried nUBuckets s

section

variable {hashes : AddrHashes CNetAddr} (nVersion : UInt8) (nKey : UInt256) {nNew nTried : Int}
  (nUBuckets : UInt32) {s : Bytes}

/-- A manager without entries. -/
theorem checked_counted :
    Checked (counted hashes nKey nTried nNew).man ↔ nNew = 0 ∧ nTried = 0 := by
  rw [counted, checked_built]
  constructor
  · rintro ⟨hnTried, hnNew, -⟩
    exact ⟨hnNew, hnTried⟩
  · rintro ⟨hnNew, hnTried⟩
    exact ⟨hnTried, hnNew, fun n hn => absurd hn (Nat.not_lt_zero n), fun n r hr => by cases hr⟩

/-- The entries are all tried, and `nNew` is what the file says. -/
def OnlyTried (nNew : Int) (d : AddrLoad) : Prop :=
  d.man.nNew = nNew ∧ ∀ x info, d.man.mapInfo x = some info → info.fInTried = true

/-- Where `nNew` is negative there are tried entries only. -/
theorem loadTables_negative (h : nNew < 0) : Load.Keeps (OnlyTried nNew)
    (AddrLoad.loadTables hashes nVersion nNew nTried nUBuckets) := by
  have hzero : nNew.toNat = 0 := Int.toNat_of_nonpos (by omega)
  rw [AddrLoad.loadTables, hzero]
  refine Load.Keeps.bind (.pure ()) fun _ => Load.Keeps.bind (.modify fun d hd => hd) fun _ => ?_
  refine Load.Keeps.bind (.times (fun _ => ?_) _ _) fun _ => ?_
  · refine Load.Keeps.bind (.newly _ _) fun info => .modify fun d hd => ?_
    unfold AddrLoad.placeTried
    simp only
    split_ifs
    · refine ⟨hd.1, fun x info' hinfo => ?_⟩
      simp only at hinfo
      by_cases hx : x = d.man.nIdCount
      · subst hx
        rw [Function.update_self] at hinfo
        cases hinfo
        rfl
      · rw [Function.update_of_ne hx] at hinfo
        exact hd.2 x info' hinfo
    · exact hd
  · refine Load.Keeps.bind (.modify fun d hd => hd) fun _ => .times (fun bucket => ?_) _ _
    refine Load.Keeps.bind (.read _ _) fun nSize => .times (fun _ => ?_) _ _
    refine Load.Keeps.bind (.read _ _) fun nIndex => .modify fun d hd => ?_
    have hnNew := hd.1
    have hsame (fUseTable : Bool) :
        CAddrMan.placePosition hashes fUseTable bucket nIndex d.man = d.man := by
      rw [CAddrMan.placePosition, if_neg (by omega)]
    simp only [AddrLoad.modifyMan, hsame]
    exact hd

/-- Where no entry is unused nothing is deleted. -/
theorem pruneNew_none (ids : List Int) {m : CAddrMan CNetAddr} (h : ∀ x, ¬ m.UnusedAt x) :
    CAddrMan.pruneNew ids m = .ok m := by
  induction ids with
  | nil => rfl
  | cons nId ids ih =>
    rw [CAddrMan.pruneNew]
    cases hinfo : m.mapInfo nId with
    | none => exact ih
    | some info =>
      have hu : ¬ (info.fInTried = false ∧ info.nRefCount = 0) := fun hu => h nId ⟨info, hinfo, hu⟩
      simp only
      rw [if_neg hu, ih]

variable (hashes s) in
/-- The manager that is left, where `nNew` is negative. -/
theorem finish_negative (h : nNew < 0) (nTried : Int) : ∃ db r,
    AddrLoad.finish (AddrLoad.loadTables hashes nVersion nNew nTried nUBuckets
      (counted hashes nKey nTried nNew, s)) = .ok (db, r) ∧ ¬ Checked db.man := by
  have hstart : OnlyTried nNew (counted hashes nKey nTried nNew) := by
    refine ⟨rfl, fun x info hinfo => ?_⟩
    obtain ⟨n, r, -, hr, -⟩ := builtInfos_eq_some.mp hinfo
    cases hr
  have hend : OnlyTried nNew (Load.final (AddrLoad.loadTables hashes nVersion nNew nTried nUBuckets
      (counted hashes nKey nTried nNew, s))) := loadTables_negative nVersion nUBuckets h _ s hstart
  have hbroken : ∀ {d : AddrLoad}, OnlyTried nNew d → ¬ Checked d.man := fun {d} hd hc => by
    have := hc.nNew
    rw [hd.1] at this
    omega
  cases hrun : AddrLoad.loadTables hashes nVersion nNew nTried nUBuckets
      (counted hashes nKey nTried nNew, s) with
  | ok a p =>
    obtain ⟨d, s'⟩ := p
    rw [hrun] at hend
    have hend : OnlyTried nNew d := hend
    have hused : ∀ x, ¬ d.man.UnusedAt x := fun x ⟨info, hinfo, ht, _⟩ => by
      rw [hend.2 x info hinfo] at ht
      cases ht
    refine ⟨{ d.toAddrDB with man := d.man }, .ok s', ?_, hbroken hend⟩
    rw [AddrLoad.finish, pruneNew_none _ hused]
    rfl
  | error e p =>
    rw [hrun] at hend
    exact ⟨p.1.toAddrDB, .error e, rfl, hbroken hend⟩

/-- An entry that is in `mapInfo` and not in `vRandom`. -/
theorem not_checked_partial {news : List AddrRecord} {vvNew : NewSlot → Int} {nIdCount : Int}
    {info : CAddrInfo CNetAddr} :
    ¬ Checked { built hashes news [] vvNew nIdCount nTried nNew with
      mapInfo := update (builtInfos news [] vvNew) news.length (some info) } := by
  intro hc
  have hpos := (hc.random info.nRandomPos news.length).mpr (by
    simp only [CAddrMan.posOf, Function.update_self, Option.map_some])
  have hmem : (news.length : Int) ∈ (List.range (news ++ []).length).map Nat.cast :=
    List.mem_of_getElem? hpos
  obtain ⟨n, hn, heq⟩ := List.mem_map.mp hmem
  rw [List.append_nil, List.mem_range] at hn
  omega

/-- The manager that is left, where all entries are there. -/
theorem finish_entries (h : 0 ≤ nNew) (nTried : Int) {news trieds : List AddrRecord} {s₁ s₂ : Bytes}
    (hnews : (getMany getRecord nNew.toNat).run s = some (news, s₁))
    (htrieds : (getMany getRecord nTried.toNat).run s₁ = some (trieds, s₂)) : ∃ db r,
    AddrLoad.finish (AddrLoad.loadTables hashes nVersion nNew nTried nUBuckets
      (counted hashes nKey nTried nNew, s)) = .ok (db, r) ∧
    (Checked db.man ↔ SoundTables hashes nVersion nNew nTried nUBuckets s) := by
  obtain ⟨nLost, hload⟩ := loadTables_entries hashes nVersion nKey nTried nUBuckets h hnews
    htrieds
  have hlen := length_getMany htrieds
  obtain ⟨fUseTable, huse⟩ : ∃ b, b = AddrLoad.useTable nVersion
    (AddrLoad.numBuckets nVersion nUBuckets) := ⟨_, rfl⟩
  obtain ⟨outcome, hout⟩ : ∃ outcome, outcome =
    readPositions (AddrLoad.bucketRounds (AddrLoad.numBuckets nVersion nUBuckets)) ([], s₂) := ⟨_, rfl⟩
  have hsound : SoundTables hashes nVersion nNew nTried nUBuckets s ↔ 0 ≤ nTried ∧
      SoundIndexes hashes fUseTable news trieds outcome := by
    rw [SoundTables, ← huse]
    constructor
    · rintro ⟨-, hnTried, news', s₁', trieds', s₂', hnews', htrieds', hps⟩
      rw [hnews] at hnews'
      cases hnews'
      rw [htrieds] at htrieds'
      cases htrieds'
      rw [← hout] at hps
      exact ⟨hnTried, hps⟩
    · rintro ⟨hnTried, hps⟩
      refine ⟨h, hnTried, news, s₁, trieds, s₂, hnews, htrieds, ?_⟩
      rw [← hout]
      exact hps
  have hcount : nTried - (trieds.length - (placedTried hashes trieds).length : Int) =
      (placedTried hashes trieds).length ↔ 0 ≤ nTried := by omega
  rw [hload, hsound, ← huse, ← hout]
  cases outcome with
  | ok a p =>
    obtain ⟨ps, s'⟩ := p
    obtain ⟨m', hprune, hpruned⟩ := pruneNew_ok (m := loaded hashes fUseTable news trieds nTried ps)
      ((List.range (news ++ placedTried hashes trieds).length).map Int.ofNat)
      (List.nodup_range.map fun _ _ => Int.ofNat.inj) built_indexed
    refine ⟨⟨nKey, m'⟩, .ok s', ?_, ?_⟩
    · rw [Load.mapOutcome, AddrLoad.finish]
      have hids : (loaded hashes fUseTable news trieds nTried ps).nIdCount.toNat =
          (news ++ placedTried hashes trieds).length := Int.toNat_natCast _
      simp only [hids, hprune]
      rfl
    · rw [checked_pruned hpruned, hcount, SoundIndexes]
      simp only [true_and]
  | error e p =>
    obtain ⟨ps, s'⟩ := p
    refine ⟨⟨nKey, loaded hashes fUseTable news trieds nTried ps⟩, .error e, rfl, ?_⟩
    rw [loaded, checked_built, hcount, SoundIndexes]
    simp only [true_and]

/-- The manager that is left, where `nNew` is not negative. -/
theorem finish_nonneg (h : 0 ≤ nNew) (nTried : Int) : ∃ db r,
    AddrLoad.finish (AddrLoad.loadTables hashes nVersion nNew nTried nUBuckets
      (counted hashes nKey nTried nNew, s)) = .ok (db, r) ∧
    (Checked db.man ↔ SoundTables hashes nVersion nNew nTried nUBuckets s) := by
  cases hnews : (getMany getRecord nNew.toNat).run s with
  | none =>
    obtain ⟨news, info, vvNew, d, s', hlen, hload, hd⟩ := loadTables_noNew hashes
      nVersion nKey nTried nUBuckets hnews
    refine ⟨d.toAddrDB, .error .endOfData, by rw [hload]; rfl, iff_of_false (fun hc => ?_) ?_⟩
    · rw [hd] at hc
      exact not_checked_partial hc
    · rintro ⟨-, -, news, s₁, trieds, s₂, hnews', -⟩
      rw [hnews] at hnews'
      cases hnews'
  | some p =>
    obtain ⟨news, s₁⟩ := p
    cases htrieds : (getMany getRecord nTried.toNat).run s₁ with
    | none =>
      obtain ⟨trieds, vvNew, nIdCount, d, s', hlen, hload, hd⟩ := loadTables_noTried
        hashes nVersion nKey nTried nUBuckets h hnews htrieds
      refine ⟨d.toAddrDB, .error .endOfData, by rw [hload]; rfl, iff_of_false (fun hc => ?_) ?_⟩
      · rw [hd, checked_built] at hc
        have := hc.1
        omega
      · rintro ⟨-, -, news', s₁', trieds', s₂, hnews', htrieds', -⟩
        rw [hnews] at hnews'
        cases hnews'
        rw [htrieds] at htrieds'
        cases htrieds'
    | some p => exact finish_entries nVersion nKey nUBuckets h nTried hnews htrieds

/-- Which files leave a manager as `Check_` wants it, whether they are read to the end or not. -/
theorem unserialize_checked_iff (hashesOf : UInt256 → AddrHashes CNetAddr) (randHash nKey₀ : UInt256)
    (s : Bytes) : ∃ db r,
    (AddrDB.fresh nKey₀).unserialize hashesOf randHash s = .ok (db, r) ∧
      (Checked db.man ↔ SoundFile hashesOf s) := by
  have hfresh : Checked (CAddrMan.fresh : CAddrMan CNetAddr) := by
    rw [fresh_built (hashesOf 0)]
    exact (checked_counted 0).mpr ⟨rfl, rfl⟩
  rw [AddrDB.unserialize, SoundFile]
  rcases load_cases hashesOf randHash nKey₀ s with ⟨hstart, e, nKey, s', hload⟩ |
    ⟨nVersion, nKey, s₁, hstart, hload⟩
  · rw [hload, hstart]
    exact ⟨_, _, rfl, iff_of_true hfresh trivial⟩
  · rw [hload, hstart]
    simp only
    cases h₁ : unserializeInt32.run s₁ with
    | none =>
      rw [loadCounts_noNew nVersion nKey h₁]
      exact ⟨_, _, rfl, iff_of_true hfresh trivial⟩
    | some p =>
      obtain ⟨nNew, s₂⟩ := p
      simp only
      cases h₂ : unserializeInt32.run s₂ with
      | none =>
        rw [loadCounts_noTried nVersion nKey h₁ h₂]
        refine ⟨_, _, rfl, (checked_counted nKey).trans ?_⟩
        simp only [and_true]
      | some p =>
        obtain ⟨nTried, s₃⟩ := p
        simp only
        cases h₃ : unserializeUInt32.run s₃ with
        | none =>
          rw [loadCounts_noBuckets nVersion nKey h₁ h₂ h₃]
          exact ⟨_, _, rfl, checked_counted nKey⟩
        | some p =>
          obtain ⟨nUBuckets, s₄⟩ := p
          simp only
          rw [loadCounts_tables nVersion nKey h₁ h₂ h₃]
          by_cases h : 0 ≤ nNew
          · exact finish_nonneg nVersion nKey nUBuckets h nTried
          · obtain ⟨db, r, hfinish, hbroken⟩ := finish_negative (hashesOf nKey)
              nVersion nKey nUBuckets s₄ (Int.lt_of_not_ge h) nTried
            exact ⟨db, r, hfinish, iff_of_false hbroken fun hs => h hs.1⟩

end

/-! ### A file that ends early -/

/-- One bucket and one position for all addresses. -/
def oneBucket : AddrHashes CNetAddr where
  getTriedBucket _ := ⟨0, triedBucketCount_pos⟩
  getNewBucket _ _ := ⟨0, newBucketCount_pos⟩
  getBucketPosition _ _ _ := ⟨0, bucketSize_pos⟩
  isRoutable _ := true

/-- A file that ends after it says that five new entries follow. -/
def cutFile : Bytes := [1, 32] ++ (List.replicate 32 0 ++ [5, 0, 0, 0])

theorem cutFile_counterexample : ∃ db,
    (AddrDB.fresh 0).unserialize (fun _ => oneBucket) 0 cutFile = .ok (db, .error .endOfData) ∧
      ¬ Checked db.man := by
  have hstart : getStart.run cutFile = some ((1, 0), [5, 0, 0, 0]) := by decide
  have hnNew : unserializeInt32.run [5, 0, 0, 0] = some (5, []) := by decide
  rcases load_cases (fun _ => oneBucket) 0 0 cutFile with ⟨hnone, -⟩ | ⟨nVersion, nKey, s₁, hsome, hload⟩
  · rw [hstart] at hnone
    cases hnone
  · rw [hstart] at hsome
    cases hsome
    have hcounts : AddrLoad.loadCounts oneBucket 1 (⟨⟨0, CAddrMan.fresh⟩, 0⟩, [5, 0, 0, 0]) =
        .error .endOfData (counted oneBucket 0 0 5, []) := loadCounts_noTried 1 0 hnNew rfl
    rw [AddrDB.unserialize, hload, hcounts]
    exact ⟨_, rfl, fun hc => by cases ((checked_counted 0).mp hc).1⟩

end GC
