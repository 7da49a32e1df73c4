import Mathlib.Data.Finset.Card
import Mathlib.Data.Fintype.Prod
import GameCredits.Framework.Indexed
import GameCredits.Framework.Slots
import GameCredits.Model.AddrMan

/-!
# The indexes of the address manager

Within a call the indexes of a `CAddrMan` agree but for some entries that are in no table yet, and for
`nNew`, which can be ahead (`Indexes`). There is one lemma for each way in which a call changes an
entry and its slots:

* `Indexes.change`: what one entry and its slots need;
* `Indexes.clearSlot`, `Indexes.setSlot`: a reference in `vvNew` less and more;
* `Indexes.untry`, `Indexes.setTried`: out of `vvTried` and into it.
-/

namespace GC

open Framework
open Function (update)

variable {NetAddr : Type}

/-! ## Entries -/

namespace CAddrMan

/-- The position of an entry in `vRandom`. -/
def posOf (m : CAddrMan NetAddr) (nId : Int) : Option Nat := (m.mapInfo nId).map (·.nRandomPos)

/-- The ids of the entries that are tried, or of those that are not. -/
def entries (m : CAddrMan NetAddr) (fInTried : Bool) : Finset Int :=
  m.vRandom.toFinset.filter fun nId => (m.mapInfo nId).any (·.fInTried == fInTried)

end CAddrMan

section

variable {m : CAddrMan NetAddr} {nId x : Int} {f : CAddrInfo NetAddr → CAddrInfo NetAddr}
  {info : CAddrInfo NetAddr}

theorem mem_addrEntries (h : Indexed m.vRandom m.posOf) {fInTried : Bool} :
    x ∈ m.entries fInTried ↔ ∃ info, m.mapInfo x = some info ∧ info.fInTried = fInTried := by
  rw [CAddrMan.entries, Finset.mem_filter, List.mem_toFinset, h.mem_iff, CAddrMan.posOf]
  cases m.mapInfo x with
  | none => simp
  | some info => simp

theorem mapInfo_modifyInfo (h : m.mapInfo nId = some info) :
    (m.modifyInfo nId f).mapInfo = update m.mapInfo nId (some (f info)) := by
  rw [CAddrMan.modifyInfo, h, Option.map_some]

theorem posOf_modifyInfo (hf : ∀ info, (f info).nRandomPos = info.nRandomPos) :
    (m.modifyInfo nId f).posOf = m.posOf := by
  funext x
  unfold CAddrMan.posOf CAddrMan.modifyInfo
  by_cases hx : x = nId
  · subst hx
    simp only [Function.update_self, Option.map_map]
    congr 1
    funext info
    exact hf info
  · simp only [Function.update_of_ne hx]

end

/-! ## Consistency -/

/-- The indexes agree, but for the entries `P`, which are in no table yet, and but for `nNew`, which
is `k` ahead. -/
structure Indexes (hashes : AddrHashes NetAddr) (P : Set Int) (k : Int) (m : CAddrMan NetAddr) :
    Prop where
  random : Indexed m.vRandom m.posOf
  noId : m.mapInfo (-1) = none
  addr : ∀ ip nId, m.mapAddr ip = some nId ↔ ∃ info, m.mapInfo nId = some info ∧ info.service.ip = ip
  newSlots : ∀ slot, m.vvNew slot ≠ -1 → ∃ info, m.mapInfo (m.vvNew slot) = some info ∧
    slot = hashes.newSlot info.service slot.1
  triedSlots : ∀ slot, m.vvTried slot ≠ -1 → ∃ info, m.mapInfo (m.vvTried slot) = some info ∧
    info.fInTried = true ∧ slot = hashes.triedSlot info.service
  refs : ∀ nId info, m.mapInfo nId = some info → info.nRefCount = occurrences m.vvNew nId
  refs_le : ∀ nId info, m.mapInfo nId = some info → info.nRefCount ≤ ADDRMAN_NEW_BUCKETS_PER_ADDRESS
  tried : ∀ nId info, m.mapInfo nId = some info → info.fInTried = true →
    info.nRefCount = 0 ∧ m.vvTried (hashes.triedSlot info.service) = nId
  new : ∀ nId info, m.mapInfo nId = some info → info.fInTried = false → nId ∉ P →
    1 ≤ info.nRefCount
  nTried : m.nTried = (m.entries true).card
  nNew : m.nNew + k = (m.entries false).card

namespace Indexes

variable {hashes : AddrHashes NetAddr} {P : Set Int} {k : Int} {m : CAddrMan NetAddr} {nId : Int}
  {info : CAddrInfo NetAddr} {f : CAddrInfo NetAddr → CAddrInfo NetAddr}

theorem ne_neg_one (h : Indexes hashes P k m) (hinfo : m.mapInfo nId = some info) : nId ≠ -1 := by
  rintro rfl
  rw [h.noId] at hinfo
  cases hinfo

/-- Entries are modified in ways that no table shows. -/
theorem congr {m' : CAddrMan NetAddr} (h : Indexes hashes P k m)
    (hrandom : Indexed m'.vRandom m'.posOf)
    (hinfo : ∀ x, (m'.mapInfo x).map (fun i => (i.service, i.nRefCount, i.fInTried)) =
      (m.mapInfo x).map fun i => (i.service, i.nRefCount, i.fInTried))
    (haddr : m'.mapAddr = m.mapAddr) (hvvNew : m'.vvNew = m.vvNew) (hvvTried : m'.vvTried = m.vvTried)
    (hnNew : m'.nNew = m.nNew) (hnTried : m'.nTried = m.nTried) : Indexes hashes P k m' := by
  have hget : ∀ {x info'}, m'.mapInfo x = some info' → ∃ info, m.mapInfo x = some info ∧
      info.service = info'.service ∧ info.nRefCount = info'.nRefCount ∧
      info.fInTried = info'.fInTried := fun {x info'} hx => by
    have hx' := hinfo x
    rw [hx, Option.map_some] at hx'
    obtain ⟨info, hm, heq⟩ := Option.map_eq_some_iff.mp hx'.symm
    simp only [Prod.mk.injEq] at heq
    exact ⟨info, hm, heq⟩
  have hget' : ∀ {x info}, m.mapInfo x = some info → ∃ info', m'.mapInfo x = some info' ∧
      info'.service = info.service ∧ info'.nRefCount = info.nRefCount ∧
      info'.fInTried = info.fInTried := fun {x info} hx => by
    have hx' := hinfo x
    rw [hx, Option.map_some] at hx'
    obtain ⟨info', hm, heq⟩ := Option.map_eq_some_iff.mp hx'
    simp only [Prod.mk.injEq] at heq
    exact ⟨info', hm, heq⟩
  have hentries : ∀ b, m'.entries b = m.entries b := fun b => by
    ext x
    rw [mem_addrEntries hrandom, mem_addrEntries h.random]
    constructor
    · rintro ⟨info', hx, hb⟩
      obtain ⟨info, hx', -, -, htried⟩ := hget hx
      exact ⟨info, hx', htried.trans hb⟩
    · rintro ⟨info, hx, hb⟩
      obtain ⟨info', hx', -, -, htried⟩ := hget' hx
      exact ⟨info', hx', htried.trans hb⟩
  refine ⟨hrandom, ?_, fun ip x => ?_, fun slot hslot => ?_, fun slot hslot => ?_, fun x info' hx => ?_,
    fun x info' hx => ?_, fun x info' hx ht => ?_, fun x info' hx ht hP => ?_, ?_, ?_⟩
  · cases hm : m'.mapInfo (-1) with
    | none => rfl
    | some info' =>
      obtain ⟨info, hx, -⟩ := hget hm
      exact (h.ne_neg_one hx rfl).elim
  · rw [haddr, h.addr]
    constructor
    · rintro ⟨info, hx, hip⟩
      obtain ⟨info', hx', hs, -⟩ := hget' hx
      exact ⟨info', hx', by rw [hs, hip]⟩
    · rintro ⟨info', hx, hip⟩
      obtain ⟨info, hx', hs, -⟩ := hget hx
      exact ⟨info, hx', by rw [hs, hip]⟩
  · rw [hvvNew] at hslot ⊢
    obtain ⟨info, hx, hpos⟩ := h.newSlots slot hslot
    obtain ⟨info', hx', hs, -⟩ := hget' hx
    exact ⟨info', hx', by rw [hs]; exact hpos⟩
  · rw [hvvTried] at hslot ⊢
    obtain ⟨info, hx, ht, hpos⟩ := h.triedSlots slot hslot
    obtain ⟨info', hx', hs, -, ht'⟩ := hget' hx
    exact ⟨info', hx', ht'.trans ht, by rw [hs]; exact hpos⟩
  · obtain ⟨info, hx', -, hr, -⟩ := hget hx
    rw [hvvNew, ← hr, h.refs x info hx']
  · obtain ⟨info, hx', -, hr, -⟩ := hget hx
    rw [← hr]
    exact h.refs_le x info hx'
  · obtain ⟨info, hx', hs, hr, ht'⟩ := hget hx
    rw [← hs, ← hr, hvvTried]
    exact h.tried x info hx' (ht'.trans ht)
  · obtain ⟨info, hx', -, hr, ht'⟩ := hget hx
    rw [← hr]
    exact h.new x info hx' (ht'.trans ht) hP
  · rw [hnTried, hentries, h.nTried]
  · rw [hnNew, hentries, h.nNew]

/-- An assignment to fields that no table shows. -/
theorem modifyInfo (h : Indexes hashes P k m) (hpos : ∀ info, (f info).nRandomPos = info.nRandomPos)
    (hf : ∀ info, ((f info).service, (f info).nRefCount, (f info).fInTried) =
      (info.service, info.nRefCount, info.fInTried)) : Indexes hashes P k (m.modifyInfo nId f) := by
  refine h.congr (by rw [posOf_modifyInfo hpos]; exact h.random) (fun x => ?_) rfl rfl rfl rfl rfl
  unfold CAddrMan.modifyInfo
  by_cases hx : x = nId
  · subst hx
    simp only [Function.update_self, Option.map_map]
    congr 1
    funext info
    exact hf info
  · simp only [Function.update_of_ne hx]

theorem mono {Q : Set Int} (h : Indexes hashes P k m) (hPQ : P ⊆ Q) : Indexes hashes Q k m :=
  { h with new := fun x info hx ht hQ => h.new x info hx ht fun hP => hQ (hPQ hP) }

/-- An entry that is referred to is in a table. -/
theorem settle (h : Indexes hashes (insert nId P) k m) (hinfo : m.mapInfo nId = some info)
    (href : 1 ≤ info.nRefCount) : Indexes hashes P k m :=
  { h with
    new := fun x info' hx ht hP => by
      by_cases hxn : x = nId
      · subst hxn
        rw [hinfo] at hx
        cases hx
        exact href
      · exact h.new x info' hx ht fun hmem => hmem.elim hxn hP }

section

variable {m' : CAddrMan NetAddr} {info' : CAddrInfo NetAddr}

theorem posOf_update (hinfo : m.mapInfo nId = some info)
    (hmap : m'.mapInfo = update m.mapInfo nId (some info')) (hpos : info'.nRandomPos = info.nRandomPos) :
    m'.posOf = m.posOf := by
  funext x
  unfold CAddrMan.posOf
  rw [hmap]
  by_cases hx : x = nId
  · subst hx
    rw [Function.update_self, hinfo, Option.map_some, Option.map_some, hpos]
  · rw [Function.update_of_ne hx]

/-- One entry changes, and the slots that have it. -/
theorem change {P' : Set Int} {k' : Int} (h : Indexes hashes P k m) (hinfo : m.mapInfo nId = some info)
    (hmap : m'.mapInfo = update m.mapInfo nId (some info')) (hservice : info'.service = info.service)
    (hpos : info'.nRandomPos = info.nRandomPos) (hrandom : m'.vRandom = m.vRandom)
    (haddr : m'.mapAddr = m.mapAddr)
    (hvvNew : ∀ slot, m'.vvNew slot = m.vvNew slot ∨ m'.vvNew slot = -1 ∨
      (m'.vvNew slot = nId ∧ slot = hashes.newSlot info.service slot.1))
    (hothers : ∀ x, x ≠ nId → x ≠ -1 → occurrences m'.vvNew x = occurrences m.vvNew x)
    (hvvTried : ∀ slot, (m'.vvTried slot = m.vvTried slot ∧ m.vvTried slot ≠ nId) ∨
      m'.vvTried slot = -1 ∨
      (m'.vvTried slot = nId ∧ info'.fInTried = true ∧ slot = hashes.triedSlot info.service))
    (hothersTried : ∀ slot, m.vvTried slot ≠ nId → m.vvTried slot ≠ -1 →
      m'.vvTried slot = m.vvTried slot)
    (hrefs : info'.nRefCount = occurrences m'.vvNew nId)
    (hle : info'.nRefCount ≤ ADDRMAN_NEW_BUCKETS_PER_ADDRESS)
    (htried : info'.fInTried = true →
      info'.nRefCount = 0 ∧ m'.vvTried (hashes.triedSlot info.service) = nId)
    (hnew : info'.fInTried = false → nId ∉ P' → 1 ≤ info'.nRefCount) (hP : P ⊆ insert nId P')
    (hnTried : m'.nTried = (m'.entries true).card) (hnNew : m'.nNew + k' = (m'.entries false).card) :
    Indexes hashes P' k' m' := by
  have hself : m'.mapInfo nId = some info' := by rw [hmap, Function.update_self]
  have hne : ∀ {x}, x ≠ nId → m'.mapInfo x = m.mapInfo x := fun {x} hx => by
    rw [hmap, Function.update_of_ne hx]
  have hid := h.ne_neg_one hinfo
  refine ⟨?_, ?_, fun ip x => ?_, fun slot hslot => ?_, fun slot hslot => ?_, fun x i hx => ?_,
    fun x i hx => ?_, fun x i hx ht => ?_, fun x i hx ht hx' => ?_, hnTried, hnNew⟩
  · rw [hrandom, posOf_update hinfo hmap hpos]
    exact h.random
  · rw [hne (Ne.symm hid)]
    exact h.noId
  · rw [haddr, h.addr]
    by_cases hx : x = nId
    · subst hx
      rw [hinfo, hself]
      simp only [Option.some_inj, exists_eq_left', hservice]
    · rw [hne hx]
  · rcases hvvNew slot with heq | heq | ⟨heq, hpos⟩
    · rw [heq] at hslot ⊢
      obtain ⟨i, hi, hpos⟩ := h.newSlots slot hslot
      by_cases hx : m.vvNew slot = nId
      · rw [hx, hinfo] at hi
        cases hi
        exact ⟨info', by rw [hx, hself], by rw [hservice]; exact hpos⟩
      · exact ⟨i, by rw [hne hx, hi], hpos⟩
    · exact (hslot heq).elim
    · exact ⟨info', by rw [heq, hself], by rw [hservice]; exact hpos⟩
  · rcases hvvTried slot with ⟨heq, hx⟩ | heq | ⟨heq, ht, hpos⟩
    · rw [heq] at hslot ⊢
      obtain ⟨i, hi, ht, hpos⟩ := h.triedSlots slot hslot
      exact ⟨i, by rw [hne hx, hi], ht, hpos⟩
    · exact (hslot heq).elim
    · exact ⟨info', by rw [heq, hself], ht, by rw [hservice]; exact hpos⟩
  · by_cases hx' : x = nId
    · subst hx'
      rw [hself] at hx
      cases hx
      exact hrefs
    · rw [hne hx'] at hx
      rw [h.refs x i hx, hothers x hx' (h.ne_neg_one hx)]
  · by_cases hx' : x = nId
    · subst hx'
      rw [hself] at hx
      cases hx
      exact hle
    · rw [hne hx'] at hx
      exact h.refs_le x i hx
  · by_cases hx' : x = nId
    · subst hx'
      rw [hself] at hx
      cases hx
      rw [hservice]
      exact htried ht
    · rw [hne hx'] at hx
      obtain ⟨hzero, hslot⟩ := h.tried x i hx ht
      refine ⟨hzero, ?_⟩
      rw [hothersTried _ (by rw [hslot]; exact hx') (by rw [hslot]; exact h.ne_neg_one hx), hslot]
  · by_cases hxn : x = nId
    · subst hxn
      rw [hself] at hx
      cases hx
      exact hnew ht hx'
    · rw [hne hxn] at hx
      exact h.new x i hx ht fun hmem => (hP hmem).elim hxn hx'

theorem entries_same (h : Indexes hashes P k m) (hinfo : m.mapInfo nId = some info)
    (hmap : m'.mapInfo = update m.mapInfo nId (some info')) (hrandom : m'.vRandom = m.vRandom)
    (hpos : info'.nRandomPos = info.nRandomPos) (htried : info'.fInTried = info.fInTried) (b : Bool) :
    m'.entries b = m.entries b := by
  ext x
  rw [mem_addrEntries (by rw [hrandom, posOf_update hinfo hmap hpos]; exact h.random),
    mem_addrEntries h.random, hmap]
  by_cases hx : x = nId
  · subst hx
    rw [Function.update_self, hinfo]
    simp only [Option.some_inj, exists_eq_left', htried]
  · rw [Function.update_of_ne hx]

/-- The entry is counted with those that it is now one of. -/
theorem entries_insert (h : Indexes hashes P k m) (hinfo : m.mapInfo nId = some info)
    (hmap : m'.mapInfo = update m.mapInfo nId (some info')) (hrandom : m'.vRandom = m.vRandom)
    (hpos : info'.nRandomPos = info.nRandomPos) (hflip : info'.fInTried = !info.fInTried) :
    (m'.entries info'.fInTried).card = (m.entries info'.fInTried).card + 1 := by
  have hset : m'.entries info'.fInTried = insert nId (m.entries info'.fInTried) := by
    ext x
    rw [mem_addrEntries (by rw [hrandom, posOf_update hinfo hmap hpos]; exact h.random), Finset.mem_insert,
      mem_addrEntries h.random, hmap]
    by_cases hx : x = nId
    · subst hx
      rw [Function.update_self]
      exact iff_of_true ⟨info', rfl, rfl⟩ (.inl rfl)
    · rw [Function.update_of_ne hx]
      exact ⟨.inr, fun h => h.resolve_left hx⟩
  rw [hset, Finset.card_insert_of_notMem]
  rw [mem_addrEntries h.random, hinfo]
  rintro ⟨i, hi, ht⟩
  cases hi
  rw [hflip] at ht
  cases hf : info.fInTried <;> rw [hf] at ht <;> cases ht

theorem entries_erase (h : Indexes hashes P k m) (hinfo : m.mapInfo nId = some info)
    (hmap : m'.mapInfo = update m.mapInfo nId (some info')) (hrandom : m'.vRandom = m.vRandom)
    (hpos : info'.nRandomPos = info.nRandomPos) (hflip : info'.fInTried = !info.fInTried) :
    (m'.entries info.fInTried).card + 1 = (m.entries info.fInTried).card := by
  have hset : m'.entries info.fInTried = (m.entries info.fInTried).erase nId := by
    ext x
    rw [mem_addrEntries (by rw [hrandom, posOf_update hinfo hmap hpos]; exact h.random), Finset.mem_erase,
      mem_addrEntries h.random, hmap]
    by_cases hx : x = nId
    · subst hx
      rw [Function.update_self]
      refine iff_of_false ?_ fun h => h.1 rfl
      rintro ⟨i, hi, ht⟩
      cases hi
      rw [hflip] at ht
      cases hf : info.fInTried <;> rw [hf] at ht <;> cases ht
    · rw [Function.update_of_ne hx]
      exact ⟨fun h => ⟨hx, h⟩, fun h => h.2⟩
  rw [hset]
  exact Finset.card_erase_add_one ((mem_addrEntries h.random).mpr ⟨info, hinfo, rfl⟩)

end

/-- An entry in a slot of `vvNew` is not tried. -/
theorem not_tried (h : Indexes hashes P k m) {slot : NewSlot} (hslot : m.vvNew slot = nId)
    (hinfo : m.mapInfo nId = some info) : info.fInTried = false := by
  cases ht : info.fInTried with
  | false => rfl
  | true =>
    have hzero := (h.tried nId info hinfo ht).1
    have hpos : 0 < occurrences m.vvNew nId := occurrences_pos.mpr ⟨slot, hslot⟩
    have := h.refs nId info hinfo
    omega

/-- An entry that is not tried is in no slot of `vvTried`. -/
theorem vvTried_ne (h : Indexes hashes P k m) (hinfo : m.mapInfo nId = some info)
    (ht : info.fInTried = false) (slot : TriedSlot) : m.vvTried slot ≠ nId := by
  intro heq
  obtain ⟨i, hi, ht', -⟩ := h.triedSlots slot (by rw [heq]; exact h.ne_neg_one hinfo)
  rw [heq, hinfo] at hi
  cases hi
  rw [ht] at ht'
  cases ht'

/-- A slot of `vvNew` is cleared. -/
theorem clearSlot (h : Indexes hashes P k m) {slot : NewSlot} (hslot : m.vvNew slot = nId)
    (hinfo : m.mapInfo nId = some info) :
    Indexes hashes (insert nId P) k
      { m.modifyInfo nId fun info => { info with nRefCount := info.nRefCount - 1 } with
        vvNew := update m.vvNew slot (-1) } := by
  have hid := h.ne_neg_one hinfo
  have hocc := occurrences_remove hslot (Ne.symm hid)
  have hrefs := h.refs nId info hinfo
  have hle := h.refs_le nId info hinfo
  have ht := h.not_tried hslot hinfo
  have hentries : ∀ b, CAddrMan.entries { m.modifyInfo nId fun info =>
      { info with nRefCount := info.nRefCount - 1 } with vvNew := update m.vvNew slot (-1) } b =
      m.entries b := h.entries_same hinfo (mapInfo_modifyInfo hinfo) rfl rfl rfl
  refine h.change hinfo (mapInfo_modifyInfo hinfo) rfl rfl rfl rfl (fun s => ?_) (fun x hx hx' => ?_)
    (fun s => .inl ⟨rfl, h.vvTried_ne hinfo ht s⟩) (fun _ _ _ => rfl) ?_ ?_
    (fun ht' => ?_) (fun _ hP => (hP (.inl rfl)).elim) (fun x hx => .inr (.inr hx)) ?_ ?_
  · by_cases hs : s = slot
    · exact .inr (.inl (by rw [hs]; exact Function.update_self ..))
    · exact .inl (Function.update_of_ne hs ..)
  · exact occurrences_other (by rw [hslot]; exact Ne.symm hx) (Ne.symm hx')
  · show info.nRefCount - 1 = (occurrences (update m.vvNew slot (-1)) nId : Int)
    omega
  · show info.nRefCount - 1 ≤ _
    omega
  · rw [ht] at ht'
    cases ht'
  · rw [hentries]
    exact h.nTried
  · rw [hentries]
    exact h.nNew

/-- A slot of `vvNew` that is clear gets an entry. -/
theorem setSlot (h : Indexes hashes (insert nId P) k m) {slot : NewSlot} (hslot : m.vvNew slot = -1)
    (hinfo : m.mapInfo nId = some info) (ht : info.fInTried = false)
    (hpos : slot = hashes.newSlot info.service slot.1)
    (hlt : info.nRefCount < ADDRMAN_NEW_BUCKETS_PER_ADDRESS) :
    Indexes hashes P k
      { m.modifyInfo nId fun info => { info with nRefCount := info.nRefCount + 1 } with
        vvNew := update m.vvNew slot nId } := by
  have hid := h.ne_neg_one hinfo
  have hocc : occurrences (update m.vvNew slot nId) nId = occurrences m.vvNew nId + 1 :=
    occurrences_add (by rw [hslot]; exact Ne.symm hid)
  have hrefs := h.refs nId info hinfo
  have hentries : ∀ b, CAddrMan.entries { m.modifyInfo nId fun info =>
      { info with nRefCount := info.nRefCount + 1 } with vvNew := update m.vvNew slot nId } b =
      m.entries b := h.entries_same hinfo (mapInfo_modifyInfo hinfo) rfl rfl rfl
  refine h.change hinfo (mapInfo_modifyInfo hinfo) rfl rfl rfl rfl (fun s => ?_) (fun x hx hx' => ?_)
    (fun s => .inl ⟨rfl, h.vvTried_ne hinfo ht s⟩) (fun _ _ _ => rfl) ?_ ?_
    (fun ht' => ?_) (fun _ _ => ?_) (fun x hx => hx) ?_ ?_
  · by_cases hs : s = slot
    · exact .inr (.inr ⟨by rw [hs]; exact Function.update_self .., by rw [hs]; exact hpos⟩)
    · exact .inl (Function.update_of_ne hs ..)
  · exact occurrences_other (by rw [hslot]; exact Ne.symm hx') (Ne.symm hx)
  · show info.nRefCount + 1 = (occurrences (update m.vvNew slot nId) nId : Int)
    omega
  · show info.nRefCount + 1 ≤ _
    omega
  · rw [ht] at ht'
    cases ht'
  · show 1 ≤ info.nRefCount + 1
    omega
  · rw [hentries]
    exact h.nTried
  · rw [hentries]
    exact h.nNew

/-- An entry is taken out of `vvTried`. -/
theorem untry (h : Indexes hashes P k m) {slot : TriedSlot} (hslot : m.vvTried slot = nId)
    (hinfo : m.mapInfo nId = some info) :
    Indexes hashes (insert nId P) (k + 1)
      { m.modifyInfo nId fun info => { info with fInTried := false } with
        vvTried := update m.vvTried slot (-1), nTried := m.nTried - 1 } := by
  have hid := h.ne_neg_one hinfo
  obtain ⟨i, hi, ht, hpos⟩ := h.triedSlots slot (by rw [hslot]; exact hid)
  rw [hslot, hinfo] at hi
  cases hi
  obtain ⟨m', hm'⟩ : ∃ m', m' = { m.modifyInfo nId fun info => { info with fInTried := false } with
    vvTried := update m.vvTried slot (-1), nTried := m.nTried - 1 } := ⟨_, rfl⟩
  have hmap : m'.mapInfo = update m.mapInfo nId (some { info with fInTried := false }) := by
    rw [hm']
    exact mapInfo_modifyInfo hinfo
  have hrandom : m'.vRandom = m.vRandom := by rw [hm']; rfl
  have hinsert : (m'.entries false).card = (m.entries false).card + 1 :=
    h.entries_insert hinfo hmap hrandom rfl (by rw [ht]; rfl)
  have herase := h.entries_erase hinfo hmap hrandom rfl (by rw [ht]; rfl)
  rw [hm', ht] at herase
  rw [hm'] at hinsert
  have hnTried := h.nTried
  have hnNew := h.nNew
  refine h.change hinfo (mapInfo_modifyInfo hinfo) rfl rfl rfl rfl (fun s => .inl rfl)
    (fun x hx hx' => rfl) (fun s => ?_) (fun s hs hs' => ?_) (h.refs nId info hinfo)
    (h.refs_le nId info hinfo) (fun ht' => by cases ht') (fun _ hP => (hP (.inl rfl)).elim) (fun x hx => .inr (.inr hx)) ?_ ?_
  · by_cases hs : s = slot
    · exact .inr (.inl (by rw [hs]; exact Function.update_self ..))
    · refine .inl ⟨Function.update_of_ne hs .., fun heq => hs ?_⟩
      obtain ⟨i, hi, -, hpos'⟩ := h.triedSlots s (by rw [heq]; exact hid)
      rw [heq, hinfo] at hi
      cases hi
      rw [hpos', hpos]
  · have : s ≠ slot := by
      rintro rfl
      exact hs hslot
    exact Function.update_of_ne this ..
  · show m.nTried - 1 = _
    omega
  · show m.nNew + (k + 1) = _
    omega

/-- An entry that is in no slot is put into `vvTried`. -/
theorem setTried (h : Indexes hashes (insert nId P) (k + 1) m) (hinfo : m.mapInfo nId = some info)
    (ht : info.fInTried = false) (hzero : info.nRefCount = 0)
    (hslot : m.vvTried (hashes.triedSlot info.service) = -1) :
    Indexes hashes P k
      { m.modifyInfo nId fun info => { info with fInTried := true } with
        vvTried := update m.vvTried (hashes.triedSlot info.service) nId, nTried := m.nTried + 1 } := by
  obtain ⟨m', hm'⟩ : ∃ m', m' = { m.modifyInfo nId fun info => { info with fInTried := true } with
    vvTried := update m.vvTried (hashes.triedSlot info.service) nId, nTried := m.nTried + 1 } :=
    ⟨_, rfl⟩
  have hmap : m'.mapInfo = update m.mapInfo nId (some { info with fInTried := true }) := by
    rw [hm']
    exact mapInfo_modifyInfo hinfo
  have hrandom : m'.vRandom = m.vRandom := by rw [hm']; rfl
  have hinsert : (m'.entries true).card = (m.entries true).card + 1 :=
    h.entries_insert hinfo hmap hrandom rfl (by rw [ht]; rfl)
  have herase := h.entries_erase hinfo hmap hrandom rfl (by rw [ht]; rfl)
  rw [hm', ht] at herase
  rw [hm'] at hinsert
  have hnTried := h.nTried
  have hnNew := h.nNew
  refine h.change hinfo (mapInfo_modifyInfo hinfo) rfl rfl rfl rfl (fun s => .inl rfl)
    (fun x hx hx' => rfl) (fun s => ?_) (fun s hs hs' => ?_) (h.refs nId info hinfo)
    (h.refs_le nId info hinfo) (fun _ => ⟨hzero, Function.update_self ..⟩) (fun ht' => by cases ht') (fun x hx => hx) ?_ ?_
  · by_cases hs : s = hashes.triedSlot info.service
    · exact .inr (.inr ⟨by rw [hs]; exact Function.update_self .., rfl, hs⟩)
    · exact .inl ⟨Function.update_of_ne hs .., h.vvTried_ne hinfo ht s⟩
  · have : s ≠ hashes.triedSlot info.service := by
      rintro rfl
      exact hs' hslot
    exact Function.update_of_ne this ..
  · show m.nTried + 1 = _
    omega
  · show m.nNew + k = _
    omega

/-- `nNew` catches up. -/
theorem countNew (h : Indexes hashes P (k + 1) m) : Indexes hashes P k { m with nNew := m.nNew + 1 } :=
  { h with
    nNew := by
      have := h.nNew
      show m.nNew + 1 + k = ((m.entries false).card : Int)
      omega }

theorem uncountNew (h : Indexes hashes P k m) : Indexes hashes P (k + 1) { m with nNew := m.nNew - 1 } :=
  { h with
    nNew := by
      have := h.nNew
      show m.nNew - 1 + (k + 1) = ((m.entries false).card : Int)
      omega }

end Indexes

end GC
