import GameCredits.Framework.Outcome
import GameCredits.Proof.AddrIndexes

/-!
# The calls of the address manager

No assertion of a call fails, and the five indexes agree after it:

* `swapRandom_ok`, `delete_ok`, `clearNew_ok`, `makeTried_ok`: the parts of calls, each from any state
  within a call;
* `addrMan_consistent`: runs, as long as `nIdCount` is free for each new entry;
* `shortCalls_consistent`: it is in runs of fewer than `2 ^ 31` calls;
* `wrappedCalls_inconsistent`: a run where it is not.
-/

namespace GC

open Framework
open Function (update)

variable {NetAddr : Type}

/-! ## vRandom -/

/-- An entry without its position in `vRandom`. -/
def CAddrInfo.unplaced (info : CAddrInfo NetAddr) : CAddrInfo NetAddr := { info with nRandomPos := 0 }

/-- The entries are the same at `x`, but for the position in `vRandom`. -/
def SameInfo (m m' : CAddrMan NetAddr) (x : Int) : Prop :=
  (m'.mapInfo x).map CAddrInfo.unplaced = (m.mapInfo x).map CAddrInfo.unplaced

theorem SameInfo.get {m m' : CAddrMan NetAddr} {x : Int} {info : CAddrInfo NetAddr}
    (h : SameInfo m m' x) (hinfo : m.mapInfo x = some info) :
    ∃ nRandomPos, m'.mapInfo x = some { info with nRandomPos } := by
  rw [SameInfo, hinfo, Option.map_some] at h
  obtain ⟨info', hinfo', heq⟩ := Option.map_eq_some_iff.mp h
  refine ⟨info'.nRandomPos, ?_⟩
  rw [hinfo']
  have : { info'.unplaced with nRandomPos := info'.nRandomPos } =
    { info.unplaced with nRandomPos := info'.nRandomPos } := by rw [heq]
  exact congrArg some this

section

variable {hashes : AddrHashes NetAddr} {P : Set Int} {k : Int} {m : CAddrMan NetAddr} {nId : Int}
  {info : CAddrInfo NetAddr}

/-- `m'` is `m` but for the order of `vRandom`. -/
structure Shuffled (m m' : CAddrMan NetAddr) : Prop where
  info : ∀ x, SameInfo m m' x
  nIdCount : m'.nIdCount = m.nIdCount
  mapAddr : m'.mapAddr = m.mapAddr
  nTried : m'.nTried = m.nTried
  vvTried : m'.vvTried = m.vvTried
  nNew : m'.nNew = m.nNew
  vvNew : m'.vvNew = m.vvNew
  length : m'.vRandom.length = m.vRandom.length

theorem Shuffled.refl (m : CAddrMan NetAddr) : Shuffled m m :=
  ⟨fun _ => rfl, rfl, rfl, rfl, rfl, rfl, rfl, rfl⟩

/-- `SwapRandom` finds both ids, if `vRandom` has the entries. -/
theorem swapRandom_shuffled (h : Indexed m.vRandom m.posOf) {i j : Nat} (hi : i < m.vRandom.length)
    (hj : j < m.vRandom.length) :
    ∃ m', m.swapRandom i j = .ok m' ∧ Indexed m'.vRandom m'.posOf ∧ Shuffled m m' ∧
      m'.vRandom[j]? = m.vRandom[i]? := by
  by_cases hij : i = j
  · exact ⟨m, if_pos hij, h, .refl m, by rw [hij]⟩
  · obtain ⟨a, ha⟩ : ∃ a, m.vRandom[i]? = some a := ⟨_, List.getElem?_eq_getElem hi⟩
    obtain ⟨b, hb⟩ : ∃ b, m.vRandom[j]? = some b := ⟨_, List.getElem?_eq_getElem hj⟩
    have hposa := (h i a).mp ha
    have hposb := (h j b).mp hb
    obtain ⟨infoa, hinfoa, hia⟩ := Option.map_eq_some_iff.mp hposa
    obtain ⟨infob, hinfob, hjb⟩ := Option.map_eq_some_iff.mp hposb
    obtain ⟨m', hm'⟩ : ∃ m', m' = { m with
        mapInfo := update (update m.mapInfo a (some { infoa with nRandomPos := j })) b
          (some { infob with nRandomPos := i })
        vRandom := (m.vRandom.set i b).set j a } := ⟨_, rfl⟩
    have hpos : m'.posOf = update (update m.posOf a (some j)) b (some i) := by
      funext x
      rw [hm']
      unfold CAddrMan.posOf
      by_cases hxb : x = b
      · subst hxb
        simp only [Function.update_self, Option.map_some]
      · by_cases hxa : x = a
        · subst hxa
          simp only [Function.update_of_ne hxb, Function.update_self, Option.map_some]
        · simp only [Function.update_of_ne hxb, Function.update_of_ne hxa]
    have hsame : ∀ x, SameInfo m m' x := fun x => by
      unfold SameInfo
      rw [hm']
      by_cases hxb : x = b
      · subst hxb
        simp only [Function.update_self, hinfob, Option.map_some]
        rfl
      · by_cases hxa : x = a
        · subst hxa
          simp only [Function.update_of_ne hxb, Function.update_self, hinfoa, Option.map_some]
          rfl
        · simp only [Function.update_of_ne hxb, Function.update_of_ne hxa]
    refine ⟨m', ?_, ?_, ⟨hsame, by rw [hm'], by rw [hm'], by rw [hm'], by rw [hm'],
      by rw [hm'], by rw [hm'], by rw [hm', List.length_set, List.length_set]⟩, ?_⟩
    · rw [CAddrMan.swapRandom, if_neg hij, ha, hb, hm']
      simp only [CAddrMan.assertInfo, hinfoa, hinfob]
      rfl
    · rw [hpos, hm']
      exact h.swap ha hb hij
    · rw [hm', ha]
      exact List.getElem?_set_self (by rw [List.length_set]; exact hj)

/-- The tables do not show the order of `vRandom`. -/
theorem Indexes.shuffle (h : Indexes hashes P k m) {m' : CAddrMan NetAddr} (hshuffled : Shuffled m m')
    (hrandom : Indexed m'.vRandom m'.posOf) : Indexes hashes P k m' := by
  refine h.congr hrandom (fun x => ?_) hshuffled.mapAddr hshuffled.vvNew hshuffled.vvTried
    hshuffled.nNew hshuffled.nTried
  have := congrArg (Option.map fun i : CAddrInfo NetAddr => (i.service, i.nRefCount, i.fInTried))
    (hshuffled.info x)
  rwa [Option.map_map, Option.map_map] at this

/-- `SwapRandom` within a call. -/
theorem swapRandom_ok (h : Indexes hashes P k m) {i j : Nat} (hi : i < m.vRandom.length)
    (hj : j < m.vRandom.length) :
    ∃ m', m.swapRandom i j = .ok m' ∧ Indexes hashes P k m' ∧ Shuffled m m' ∧
      m'.vRandom[j]? = m.vRandom[i]? := by
  obtain ⟨m', hswap, hrandom, hshuffled, hj⟩ := swapRandom_shuffled h.random hi hj
  exact ⟨m', hswap, h.shuffle hshuffled hrandom, hshuffled, hj⟩

/-- The loop of `GetAddr_` swaps entries of `vRandom`. -/
theorem gatherAddr_ok (h : Indexes hashes P k m) (nNow : Int) (rnd : Nat → Nat) (nNodes : Nat)
    {left n : Nat} (hlen : n + left = m.vRandom.length) (vAddr : List (CAddress NetAddr)) :
    ∃ vAddr' m', CAddrMan.gatherAddr nNow rnd nNodes left n vAddr m = .ok (vAddr', m') ∧
      Indexes hashes P k m' := by
  induction left generalizing n vAddr m with
  | zero => exact ⟨vAddr, m, rfl, h⟩
  | succ left ih =>
    rw [CAddrMan.gatherAddr]
    split_ifs
    · exact ⟨vAddr, m, rfl, h⟩
    · have hmod : rnd n % (left + 1) < left + 1 := Nat.mod_lt _ (Nat.succ_pos left)
      obtain ⟨m₁, hswap, h₁, hshuffled, -⟩ := swapRandom_ok h
        (show n < m.vRandom.length by omega)
        (show rnd n % (left + 1) + n < m.vRandom.length by omega)
      have hlen₁ := hshuffled.length
      obtain ⟨x, hx⟩ : ∃ x, m₁.vRandom[n]? = some x :=
        ⟨_, List.getElem?_eq_getElem (show n < m₁.vRandom.length by omega)⟩
      obtain ⟨ai, hai, -⟩ := Option.map_eq_some_iff.mp ((h₁.random n x).mp hx)
      obtain ⟨vAddr', m', hrest, h'⟩ := ih h₁ (show n + 1 + left = m₁.vRandom.length by omega)
        (if ai.isTerrible nNow then vAddr else vAddr ++ [ai.toCAddress])
      refine ⟨vAddr', m', ?_, h'⟩
      rw [hswap, ok_bind, hx]
      simp only [CAddrMan.assertInfo, hai, ok_bind]
      exact hrest

/-! ## Lookups -/

theorem find_eq {ip : NetAddr} (hfind : m.find ip = some (nId, info)) : m.mapInfo nId = some info := by
  unfold CAddrMan.find at hfind
  simp only [Option.bind_eq_bind, Option.bind_eq_some_iff, Option.pure_def, Option.some.injEq,
    Prod.mk.injEq] at hfind
  obtain ⟨x, -, i, hi, rfl, rfl⟩ := hfind
  exact hi

theorem find_none (h : Indexes hashes P k m) {ip : NetAddr} (hfind : m.find ip = none) :
    m.mapAddr ip = none := by
  cases haddr : m.mapAddr ip with
  | none => rfl
  | some x =>
    obtain ⟨i, hi, -⟩ := (h.addr ip x).mp haddr
    unfold CAddrMan.find at hfind
    rw [haddr] at hfind
    simp only [Option.bind_eq_bind, Option.bind_some, hi, Option.pure_def] at hfind
    cases hfind

theorem modifyInfo_congr {f g : CAddrInfo NetAddr → CAddrInfo NetAddr} (hinfo : m.mapInfo nId = some info)
    (hfg : f info = g info) : m.modifyInfo nId f = m.modifyInfo nId g := by
  rw [CAddrMan.modifyInfo, CAddrMan.modifyInfo, hinfo, Option.map_some, Option.map_some, hfg]

/-- The loop takes the entry out of the new buckets that it goes through. -/
theorem removeFromNew_ok (buckets : List (Fin ADDRMAN_NEW_BUCKET_COUNT))
    (h : Indexes hashes (insert nId P) k m) (hinfo : m.mapInfo nId = some info) :
    ∃ m', CAddrMan.removeFromNew hashes nId info.service buckets m = m' ∧
      Indexes hashes (insert nId P) k m' ∧
      (∃ nRefCount, m'.mapInfo nId = some { info with nRefCount }) ∧
      (∀ x, x ≠ nId → m'.mapInfo x = m.mapInfo x) ∧ m'.vvTried = m.vvTried ∧
      ∀ slot, m'.vvNew slot = nId → m.vvNew slot = nId ∧ slot.1 ∉ buckets := by
  induction buckets generalizing m info with
  | nil => exact ⟨m, rfl, h, ⟨_, hinfo⟩, fun _ _ => rfl, rfl, fun _ h => ⟨h, List.not_mem_nil⟩⟩
  | cons bucket buckets ih =>
    -- a slot with the entry in this bucket is the one that the loop looks at
    have hbucket : ∀ slot, m.vvNew slot = nId → slot.1 = bucket →
        slot = hashes.newSlot info.service bucket := fun slot hslot hb => by
      obtain ⟨i, hi, hpos⟩ := h.newSlots slot (by rw [hslot]; exact h.ne_neg_one hinfo)
      rw [hslot, hinfo] at hi
      cases hi
      rw [hpos, hb]
    by_cases hslot : m.vvNew (hashes.newSlot info.service bucket) = nId
    · obtain ⟨m₁, hm₁⟩ : ∃ m₁, m₁ =
        { m.modifyInfo nId fun info => { info with nRefCount := info.nRefCount - 1 } with
          vvNew := update m.vvNew (hashes.newSlot info.service bucket) (-1) } := ⟨_, rfl⟩
      have h₁ : Indexes hashes (insert nId P) k m₁ := by
        rw [hm₁, ← Set.insert_idem nId P]
        exact h.clearSlot hslot hinfo
      have hinfo₁ : m₁.mapInfo nId = some { info with nRefCount := info.nRefCount - 1 } := by
        rw [hm₁]
        exact (congrFun (mapInfo_modifyInfo hinfo) nId).trans (Function.update_self ..)
      have hvvNew₁ : m₁.vvNew = update m.vvNew (hashes.newSlot info.service bucket) (-1) := by rw [hm₁]
      obtain ⟨m', hloop, h', ⟨nRefCount, hinfo'⟩, hother, hvvTried, hvvNew⟩ := ih h₁ hinfo₁
      refine ⟨m', ?_, h', ⟨nRefCount, hinfo'⟩, fun x hx => ?_, ?_, fun slot hs => ?_⟩
      · rw [CAddrMan.removeFromNew, if_pos hslot, ← hm₁]
        exact hloop
      · rw [hother x hx, hm₁]
        exact Function.update_of_ne hx ..
      · rw [hvvTried, hm₁]
        rfl
      · obtain ⟨hs, hmem⟩ := hvvNew slot hs
        have hne : slot ≠ hashes.newSlot info.service bucket := by
          rintro heq
          rw [hvvNew₁, heq, Function.update_self] at hs
          exact h.ne_neg_one hinfo hs.symm
        rw [hvvNew₁, Function.update_of_ne hne] at hs
        exact ⟨hs, fun hmem' => (List.mem_cons.mp hmem').elim (fun hb => hne (hbucket slot hs hb)) hmem⟩
    · obtain ⟨m', hloop, h', hinfo', hother, hvvTried, hvvNew⟩ := ih h hinfo
      refine ⟨m', ?_, h', hinfo', hother, hvvTried, fun slot hs => ?_⟩
      · rw [CAddrMan.removeFromNew, if_neg hslot]
        exact hloop
      · obtain ⟨hs, hmem⟩ := hvvNew slot hs
        refine ⟨hs, fun hmem' => (List.mem_cons.mp hmem').elim (fun hb => hslot ?_) hmem⟩
        rw [← hbucket slot hs hb]
        exact hs

/-! ## Delete and Create -/

/-- What a deletion of `nId` leaves as it is. -/
structure Deleted (m m' : CAddrMan NetAddr) (nId : Int) : Prop where
  info : ∀ x, x ≠ nId → SameInfo m m' x
  gone : m'.mapInfo nId = none
  nIdCount : m'.nIdCount = m.nIdCount
  vvTried : m'.vvTried = m.vvTried
  vvNew : m'.vvNew = m.vvNew

variable [DecidableEq NetAddr]

section

variable {m' : CAddrMan NetAddr} {l : List Int} (h : Indexed m.vRandom m.posOf)
  (hrandom : m.vRandom = l ++ [nId]) (hlist : m'.vRandom = l)
  (hmap : m'.mapInfo = update m.mapInfo nId none)

include h hrandom hlist hmap

omit [DecidableEq NetAddr] in
/-- The last id of `vRandom` is removed, and its entry. -/
theorem removed_indexed : Indexed m'.vRandom m'.posOf := by
  have hpos : m'.posOf = update m.posOf nId none := by
    funext x
    by_cases hx : x = nId
    · subst hx
      rw [Function.update_self, CAddrMan.posOf, hmap, Function.update_self]
      rfl
    · rw [Function.update_of_ne hx, CAddrMan.posOf, hmap, Function.update_of_ne hx]
      rfl
  rw [hpos, hlist]
  refine Indexed.pop (a := nId) ?_
  rw [← hrandom]
  exact h

omit [DecidableEq NetAddr] in
theorem removed_entries_ne {b : Bool} (hinfo : m.mapInfo nId = some info) (hb : info.fInTried ≠ b) :
    m'.entries b = m.entries b := by
  ext x
  rw [mem_addrEntries (removed_indexed h hrandom hlist hmap), mem_addrEntries h, hmap]
  by_cases hx : x = nId
  · subst hx
    rw [Function.update_self, hinfo]
    refine iff_of_false (fun ⟨_, h, _⟩ => by cases h) ?_
    rintro ⟨i, hi, hi'⟩
    cases hi
    exact hb hi'
  · rw [Function.update_of_ne hx]

omit [DecidableEq NetAddr] in
theorem removed_entries (hinfo : m.mapInfo nId = some info) :
    (m'.entries info.fInTried).card + 1 = (m.entries info.fInTried).card := by
  have hset : m'.entries info.fInTried = (m.entries info.fInTried).erase nId := by
    ext x
    rw [mem_addrEntries (removed_indexed h hrandom hlist hmap), Finset.mem_erase, mem_addrEntries h, hmap]
    by_cases hx : x = nId
    · subst hx
      rw [Function.update_self]
      exact iff_of_false (fun ⟨_, h, _⟩ => by cases h) fun h => h.1 rfl
    · rw [Function.update_of_ne hx]
      exact ⟨fun h => ⟨hx, h⟩, fun h => h.2⟩
  rw [hset]
  exact Finset.card_erase_add_one ((mem_addrEntries h).mpr ⟨info, hinfo, rfl⟩)

end

/-- The last id of `vRandom` is removed. -/
theorem Indexes.remove (h : Indexes hashes (insert nId P) k m) {l : List Int}
    (hrandom : m.vRandom = l ++ [nId]) (hinfo : m.mapInfo nId = some info)
    (ht : info.fInTried = false) (hzero : info.nRefCount = 0) :
    Indexes hashes P k { m with
      vRandom := l
      mapAddr := update m.mapAddr info.service.ip none
      mapInfo := update m.mapInfo nId none
      nNew := m.nNew - 1 } := by
  have hid := h.ne_neg_one hinfo
  have hunused : ∀ slot, m.vvNew slot ≠ nId := by
    have := h.refs nId info hinfo
    exact occurrences_eq_zero.mp (by omega)
  have hip := (h.addr info.service.ip nId).mpr ⟨info, hinfo, rfl⟩
  obtain ⟨m', hm'⟩ : ∃ m', m' = { m with
      vRandom := l
      mapAddr := update m.mapAddr info.service.ip none
      mapInfo := update m.mapInfo nId none
      nNew := m.nNew - 1 } := ⟨_, rfl⟩
  have hne : ∀ {x}, x ≠ nId → m'.mapInfo x = m.mapInfo x := fun {x} hx => by
    rw [hm']
    exact Function.update_of_ne hx ..
  have hself : m'.mapInfo nId = none := by
    rw [hm']
    exact Function.update_self ..
  have hget : ∀ {x i}, m'.mapInfo x = some i → x ≠ nId ∧ m.mapInfo x = some i := fun {x i} hx => by
    have hxn : x ≠ nId := by
      rintro rfl
      rw [hself] at hx
      cases hx
    exact ⟨hxn, by rw [← hne hxn, hx]⟩
  have hmap : m'.mapInfo = update m.mapInfo nId none := by rw [hm']
  have hlist : m'.vRandom = l := by rw [hm']
  have hindexed := removed_indexed h.random hrandom hlist hmap
  have htrue : m'.entries true = m.entries true :=
    removed_entries_ne h.random hrandom hlist hmap hinfo (by rw [ht]; decide)
  have hfalse : (m'.entries false).card + 1 = (m.entries false).card := by
    rw [← ht]
    exact removed_entries h.random hrandom hlist hmap hinfo
  rw [← hm']
  refine ⟨hindexed, ?_, fun ip x => ?_, fun slot hslot => ?_, fun slot hslot => ?_, fun x i hx => ?_,
    fun x i hx => ?_, fun x i hx ht' => ?_, fun x i hx ht' hP => ?_, ?_, ?_⟩
  · rw [hne (Ne.symm hid)]
    exact h.noId
  · have haddr : m'.mapAddr = update m.mapAddr info.service.ip none := by rw [hm']
    rw [haddr]
    by_cases hipeq : ip = info.service.ip
    · subst hipeq
      rw [Function.update_self]
      refine iff_of_false (fun h => by cases h) ?_
      rintro ⟨i, hi, hieq⟩
      obtain ⟨hx, hi⟩ := hget hi
      have := (h.addr _ x).mpr ⟨i, hi, hieq⟩
      rw [hip] at this
      exact hx (Option.some.inj this).symm
    · rw [Function.update_of_ne hipeq, h.addr]
      by_cases hx : x = nId
      · subst hx
        rw [hself, hinfo]
        refine iff_of_false ?_ fun ⟨_, h, _⟩ => by cases h
        rintro ⟨i, hi, hieq⟩
        cases hi
        exact hipeq hieq.symm
      · rw [hne hx]
  · have hvv : m'.vvNew = m.vvNew := by rw [hm']
    rw [hvv] at hslot ⊢
    rw [hne (hunused slot)]
    exact h.newSlots slot hslot
  · have hvv : m'.vvTried = m.vvTried := by rw [hm']
    rw [hvv] at hslot ⊢
    rw [hne (h.vvTried_ne hinfo ht slot)]
    exact h.triedSlots slot hslot
  · have hvv : m'.vvNew = m.vvNew := by rw [hm']
    rw [hvv]
    exact h.refs x i (hget hx).2
  · exact h.refs_le x i (hget hx).2
  · have hvv : m'.vvTried = m.vvTried := by rw [hm']
    rw [hvv]
    exact h.tried x i (hget hx).2 ht'
  · exact h.new x i (hget hx).2 ht' fun hmem => hmem.elim (hget hx).1 hP
  · have hcount : m'.nTried = m.nTried := by rw [hm']
    rw [hcount, htrue]
    exact h.nTried
  · have hcount : m'.nNew = m.nNew - 1 := by rw [hm']
    have := h.nNew
    rw [hcount]
    omega

/-- `Delete` puts an entry that is in no table at the end of `vRandom`, and takes it off. -/
theorem delete_shuffled (h : Indexed m.vRandom m.posOf) (hinfo : m.mapInfo nId = some info)
    (ht : info.fInTried = false) (hzero : info.nRefCount = 0) :
    ∃ m₁, Indexed m₁.vRandom m₁.posOf ∧ Shuffled m m₁ ∧ m₁.vRandom = m₁.vRandom.dropLast ++ [nId] ∧
      m.delete nId = .ok { m₁ with
        vRandom := m₁.vRandom.dropLast
        mapAddr := update m₁.mapAddr info.service.ip none
        mapInfo := update m₁.mapInfo nId none
        nNew := m₁.nNew - 1 } := by
  have hpos : m.posOf nId = some info.nRandomPos := by rw [CAddrMan.posOf, hinfo, Option.map_some]
  have hlt := h.lt hpos
  obtain ⟨m₁, hswap, h₁, hshuffled, hlast⟩ :=
    swapRandom_shuffled h hlt (show m.vRandom.length - 1 < m.vRandom.length by omega)
  rw [(h _ _).mpr hpos] at hlast
  have hrandom : m₁.vRandom = m₁.vRandom.dropLast ++ [nId] := by
    have hlast' : m₁.vRandom.getLast? = some nId := by
      rw [List.getLast?_eq_getElem?, hshuffled.length, hlast]
    have hne : m₁.vRandom ≠ [] := by
      rintro hnil
      rw [hnil] at hlast'
      cases hlast'
    rw [List.getLast?_eq_some_getLast hne] at hlast'
    conv => lhs; rw [← List.dropLast_append_getLast hne]
    rw [Option.some.inj hlast']
  refine ⟨m₁, h₁, hshuffled, hrandom, ?_⟩
  simp only [CAddrMan.delete, CAddrMan.assertInfo, hinfo, ht, hzero, hswap, assertAddr, ok_bind,
    Bool.not_false, beq_self_eq_true, ↓reduceIte]
  rfl

/-- `Delete` takes out an entry that is in no table. -/
theorem delete_ok (h : Indexes hashes (insert nId P) k m) (hinfo : m.mapInfo nId = some info)
    (ht : info.fInTried = false) (hzero : info.nRefCount = 0) :
    ∃ m', m.delete nId = .ok m' ∧ Indexes hashes P k m' ∧ Deleted m m' nId := by
  obtain ⟨m₁, hindexed, hshuffled, hrandom, hdelete⟩ := delete_shuffled h.random hinfo ht hzero
  obtain ⟨nRandomPos, hinfo₁⟩ := (hshuffled.info nId).get hinfo
  have hremove := (h.shuffle hshuffled hindexed).remove hrandom hinfo₁ ht hzero
  refine ⟨_, hdelete, hremove, fun x hx => ?_, ?_, hshuffled.nIdCount, hshuffled.vvTried,
    hshuffled.vvNew⟩
  · have : ∀ (g : Int → Option (CAddrInfo NetAddr)), update g nId none x = g x := fun g =>
      Function.update_of_ne hx ..
    unfold SameInfo
    simp only [this]
    exact hshuffled.info x
  · exact Function.update_self ..

/-- What `Create` adds: an entry in no table, at the end of `vRandom`. -/
structure Created (m m' : CAddrMan NetAddr) (nId : Int) (info : CAddrInfo NetAddr) : Prop where
  free : m.mapInfo nId = none
  mapInfo : m'.mapInfo = update m.mapInfo nId (some info)
  untried : info.fInTried = false
  unreferenced : info.nRefCount = 0
  pos : info.nRandomPos = m.vRandom.length
  vRandom : m'.vRandom = m.vRandom ++ [nId]
  mapAddr : m'.mapAddr = update m.mapAddr info.service.ip (some nId)
  vvNew : m'.vvNew = m.vvNew
  vvTried : m'.vvTried = m.vvTried
  nTried : m'.nTried = m.nTried
  nNew : m'.nNew = m.nNew

namespace Created

variable {m' : CAddrMan NetAddr} (C : Created m m' nId info)

include C

theorem self : m'.mapInfo nId = some info := by rw [C.mapInfo, Function.update_self]

theorem other {x : Int} (hx : x ≠ nId) : m'.mapInfo x = m.mapInfo x := by
  rw [C.mapInfo, Function.update_of_ne hx]

theorem ne_of_known {x : Int} {i : CAddrInfo NetAddr} (hx : m.mapInfo x = some i) : x ≠ nId := by
  rintro rfl
  rw [C.free] at hx
  cases hx

theorem kept {x : Int} {i : CAddrInfo NetAddr} (hx : m.mapInfo x = some i) : m'.mapInfo x = some i := by
  rw [C.other (C.ne_of_known hx), hx]

theorem info_cases {x : Int} {i : CAddrInfo NetAddr} (hx : m'.mapInfo x = some i) :
    x = nId ∧ i = info ∨ m.mapInfo x = some i := by
  by_cases hxn : x = nId
  · rw [hxn, C.self] at hx
    exact .inl ⟨hxn, (Option.some.inj hx).symm⟩
  · exact .inr (C.other hxn ▸ hx)

theorem indexed (h : Indexed m.vRandom m.posOf) : Indexed m'.vRandom m'.posOf := by
  have hposOf : m'.posOf = update m.posOf nId (some m.vRandom.length) := by
    funext x
    by_cases hx : x = nId
    · rw [hx, Function.update_self, CAddrMan.posOf, C.self, Option.map_some, C.pos]
    · rw [Function.update_of_ne hx, CAddrMan.posOf, C.other hx]
      rfl
  rw [C.vRandom, hposOf]
  refine h.push ?_
  rw [CAddrMan.posOf, C.free]
  rfl

theorem entries_true (h : Indexed m.vRandom m.posOf) : m'.entries true = m.entries true := by
  ext x
  rw [mem_addrEntries (C.indexed h), mem_addrEntries h]
  constructor
  · rintro ⟨i, hi, htried⟩
    rcases C.info_cases hi with ⟨-, rfl⟩ | hi
    · rw [C.untried] at htried
      cases htried
    · exact ⟨i, hi, htried⟩
  · rintro ⟨i, hi, htried⟩
    exact ⟨i, C.kept hi, htried⟩

theorem card_entries_false (h : Indexed m.vRandom m.posOf) :
    (m'.entries false).card = (m.entries false).card + 1 := by
  have hset : m'.entries false = insert nId (m.entries false) := by
    ext x
    rw [mem_addrEntries (C.indexed h), Finset.mem_insert, mem_addrEntries h]
    constructor
    · rintro ⟨i, hi, htried⟩
      exact (C.info_cases hi).imp And.left fun hi => ⟨i, hi, htried⟩
    · rintro (rfl | ⟨i, hi, htried⟩)
      · exact ⟨info, C.self, C.untried⟩
      · exact ⟨i, C.kept hi, htried⟩
  rw [hset]
  refine Finset.card_insert_of_notMem fun hmem => ?_
  obtain ⟨i, hi, -⟩ := (mem_addrEntries h).mp hmem
  exact C.ne_of_known hi rfl

/-- The new address leads to the new entry, and the others where they did. -/
theorem addr_iff (h : Indexes hashes P k m) (hnew : m.mapAddr info.service.ip = none) (ip : NetAddr)
    (x : Int) : m'.mapAddr ip = some x ↔ ∃ i, m'.mapInfo x = some i ∧ i.service.ip = ip := by
  have hold : (∃ i, m'.mapInfo x = some i ∧ i.service.ip = ip) ↔
      x = nId ∧ info.service.ip = ip ∨ m.mapAddr ip = some x := by
    rw [h.addr]
    constructor
    · rintro ⟨i, hi, hip⟩
      rcases C.info_cases hi with ⟨rfl, rfl⟩ | hi
      · exact .inl ⟨rfl, hip⟩
      · exact .inr ⟨i, hi, hip⟩
    · rintro (⟨rfl, hip⟩ | ⟨i, hi, hip⟩)
      · exact ⟨info, C.self, hip⟩
      · exact ⟨i, C.kept hi, hip⟩
  rw [hold, C.mapAddr]
  by_cases hip : ip = info.service.ip
  · rw [hip, Function.update_self, hnew, Option.some_inj]
    exact ⟨fun hx => .inl ⟨hx.symm, rfl⟩, fun hx => hx.elim (fun hx => hx.1.symm) fun hx => by cases hx⟩
  · rw [Function.update_of_ne hip]
    exact ⟨.inr, fun hx => hx.resolve_left fun hx => hip hx.2.symm⟩

/-- No table has the new entry. -/
theorem indexes (h : Indexes hashes P k m) (hid : nId ≠ -1) (hnew : m.mapAddr info.service.ip = none) :
    Indexes hashes (insert nId P) (k + 1) m' := by
  have hunused : ∀ slot, m.vvNew slot ≠ nId := fun slot heq => by
    obtain ⟨i, hi, -⟩ := h.newSlots slot (by rw [heq]; exact hid)
    exact C.ne_of_known hi heq
  constructor
  case random => exact C.indexed h.random
  case noId =>
    rw [C.other (Ne.symm hid)]
    exact h.noId
  case addr => exact C.addr_iff h hnew
  case newSlots =>
    intro slot hslot
    rw [C.vvNew] at hslot ⊢
    obtain ⟨i, hi, hpos⟩ := h.newSlots slot hslot
    exact ⟨i, C.kept hi, hpos⟩
  case triedSlots =>
    intro slot hslot
    rw [C.vvTried] at hslot ⊢
    obtain ⟨i, hi, hpos⟩ := h.triedSlots slot hslot
    exact ⟨i, C.kept hi, hpos⟩
  case refs =>
    intro x i hx
    rw [C.vvNew]
    rcases C.info_cases hx with ⟨rfl, rfl⟩ | hx
    · rw [C.unreferenced, occurrences_eq_zero.mpr hunused]
      rfl
    · exact h.refs x i hx
  case refs_le =>
    intro x i hx
    rcases C.info_cases hx with ⟨-, rfl⟩ | hx
    · rw [C.unreferenced]
      decide
    · exact h.refs_le x i hx
  case tried =>
    intro x i hx htried
    rcases C.info_cases hx with ⟨-, rfl⟩ | hx
    · rw [C.untried] at htried
      cases htried
    · rw [C.vvTried]
      exact h.tried x i hx htried
  case new =>
    intro x i hx htried hP
    rcases C.info_cases hx with ⟨rfl, -⟩ | hx
    · exact (hP (.inl rfl)).elim
    · exact h.new x i hx htried fun hmem => hP (.inr hmem)
  case nTried =>
    rw [C.nTried, C.entries_true h.random]
    exact h.nTried
  case nNew =>
    have := h.nNew
    rw [C.nNew, C.card_entries_false h.random]
    omega

end Created

/-- `Create`, with an id that is not in use. -/
theorem create_ok (h : Indexes hashes P k m) (addr : CAddress NetAddr) (source : NetAddr)
    (hid : m.nIdCount ≠ -1) (hfree : m.mapInfo m.nIdCount = none)
    (hnew : m.mapAddr addr.service.ip = none) :
    Indexes hashes (insert m.nIdCount P) (k + 1) (m.create addr source) := by
  obtain ⟨info, hservice, C⟩ : ∃ info : CAddrInfo NetAddr, info.service = addr.service ∧
      Created m (m.create addr source) m.nIdCount info :=
    ⟨_, rfl, hfree, rfl, rfl, rfl, rfl, rfl, rfl, rfl, rfl, rfl, rfl⟩
  exact C.indexes h hid (hservice ▸ hnew)

/-! ## ClearNew -/

/-- `ClearNew` clears the slot, and leaves all other entries as they are. -/
theorem clearNew_ok (h : Indexes hashes P k m) (slot : NewSlot) :
    ∃ m', m.clearNew slot = .ok m' ∧ Indexes hashes P k m' ∧
      (∀ x, x ≠ m.vvNew slot → SameInfo m m' x) ∧ m'.nIdCount = m.nIdCount ∧
      m'.vvTried = m.vvTried ∧ m'.vvNew = update m.vvNew slot (-1) := by
  by_cases hempty : m.vvNew slot = -1
  · refine ⟨m, if_pos hempty, h, fun _ _ => rfl, rfl, rfl, ?_⟩
    rw [← hempty, Function.update_eq_self]
  · obtain ⟨nId, hnId⟩ : ∃ nId, m.vvNew slot = nId := ⟨_, rfl⟩
    obtain ⟨info, hinfo, -⟩ := h.newSlots slot hempty
    rw [hnId] at hinfo hempty
    have ht := h.not_tried hnId hinfo
    have hrefs := h.refs nId info hinfo
    have hpos : 0 < occurrences m.vvNew nId := occurrences_pos.mpr ⟨slot, hnId⟩
    have hassert : assertAddr (decide (0 < info.nRefCount)) = .ok () := by
      rw [decide_eq_true (show 0 < info.nRefCount by omega)]
      rfl
    obtain ⟨m₁, hm₁⟩ : ∃ m₁, m₁ =
      { m.modifyInfo nId fun info => { info with nRefCount := info.nRefCount - 1 } with
        vvNew := update m.vvNew slot (-1) } := ⟨_, rfl⟩
    have h₁ : Indexes hashes (insert nId P) k m₁ := by
      rw [hm₁]
      exact h.clearSlot hnId hinfo
    have hinfo₁ : m₁.mapInfo nId = some { info with nRefCount := info.nRefCount - 1 } := by
      rw [hm₁]
      exact (congrFun (mapInfo_modifyInfo hinfo) nId).trans (Function.update_self ..)
    have hother : ∀ x, x ≠ nId → m₁.mapInfo x = m.mapInfo x := fun x hx => by
      rw [hm₁]
      exact Function.update_of_ne hx ..
    have heval : m.clearNew slot =
        if info.nRefCount - 1 = 0 then m₁.delete nId else .ok m₁ := by
      rw [CAddrMan.clearNew, if_neg (by rw [hnId]; exact hempty), hnId, hm₁]
      simp only [CAddrMan.infoAt, hinfo, hassert, ok_bind]
      rfl
    rw [hnId]
    by_cases hlast : info.nRefCount - 1 = 0
    · obtain ⟨m', hdelete, h', hdeleted⟩ := delete_ok h₁ hinfo₁ ht hlast
      refine ⟨m', by rw [heval, if_pos hlast, hdelete], h', fun x hx => ?_, ?_, ?_, ?_⟩
      · have := hdeleted.info x hx
        rwa [SameInfo, hother x hx] at this
      · rw [hdeleted.nIdCount, hm₁]
        rfl
      · rw [hdeleted.vvTried, hm₁]
        rfl
      · rw [hdeleted.vvNew, hm₁]
    · refine ⟨m₁, by rw [heval, if_neg hlast], h₁.settle hinfo₁ ?_, fun x hx => ?_, ?_, ?_, ?_⟩
      · show 1 ≤ info.nRefCount - 1
        omega
      · rw [SameInfo, hother x hx]
      · rw [hm₁]
        rfl
      · rw [hm₁]
        rfl
      · rw [hm₁]

/-! ## MakeTried -/

/-- The entry in the slot of `vvTried` goes back to a new bucket. -/
theorem evictTried_ok (h : Indexes hashes P k m) (slot : TriedSlot) :
    ∃ m', m.evictTried hashes slot = .ok m' ∧ Indexes hashes P k m' ∧
      m'.vvTried = update m.vvTried slot (-1) ∧
      ∀ x, x ≠ m.vvTried slot → (∀ s, m.vvNew s ≠ x) → SameInfo m m' x := by
  by_cases hempty : m.vvTried slot = -1
  · refine ⟨m, if_pos hempty, h, ?_, fun _ _ _ => rfl⟩
    rw [← hempty, Function.update_eq_self]
  · obtain ⟨nId, hnId⟩ : ∃ nId, m.vvTried slot = nId := ⟨_, rfl⟩
    obtain ⟨info, hinfo, ht, -⟩ := h.triedSlots slot hempty
    rw [hnId] at hinfo hempty
    obtain ⟨m₁, hm₁⟩ : ∃ m₁, m₁ = { m.modifyInfo nId fun info => { info with fInTried := false } with
        vvTried := update m.vvTried slot (-1), nTried := m.nTried - 1 } := ⟨_, rfl⟩
    have h₁ : Indexes hashes (insert nId P) (k + 1) m₁ := by
      rw [hm₁]
      exact h.untry hnId hinfo
    have hinfo₁ : m₁.mapInfo nId = some { info with fInTried := false } := by
      rw [hm₁]
      exact (congrFun (mapInfo_modifyInfo hinfo) nId).trans (Function.update_self ..)
    have hzero := (h.tried nId info hinfo ht).1
    have hvvNew₁ : m₁.vvNew = m.vvNew := by rw [hm₁]; rfl
    have hunused : ∀ s, m₁.vvNew s ≠ nId := by
      have := h.refs nId info hinfo
      rw [hvvNew₁]
      exact occurrences_eq_zero.mp (by omega)
    obtain ⟨uSlot, huSlot⟩ : ∃ uSlot, uSlot =
      hashes.newSlot info.service (hashes.getNewBucket info.service info.source) := ⟨_, rfl⟩
    obtain ⟨m₂, hclear, h₂, hsame, -, hvvTried₂, hvvNew₂⟩ := clearNew_ok h₁ uSlot
    obtain ⟨nRandomPos, hinfo₂⟩ := (hsame nId (Ne.symm (hunused uSlot))).get hinfo₁
    have hcleared : m₂.vvNew uSlot = -1 := by
      rw [hvvNew₂]
      exact Function.update_self ..
    have hset := h₂.setSlot hcleared hinfo₂ rfl (by rw [huSlot]; rfl) (by
      show info.nRefCount < _
      rw [hzero]
      decide)
    rw [modifyInfo_congr (g := fun info => { info with nRefCount := 1 }) hinfo₂ (by
      show ({ info with fInTried := false, nRandomPos, nRefCount := info.nRefCount + 1 } :
        CAddrInfo NetAddr) = _
      rw [hzero]
      rfl)] at hset
    refine ⟨_, ?_, hset.countNew, ?_, fun x hx hx' => ?_⟩
    · rw [CAddrMan.evictTried, if_neg (by rw [hnId]; exact hempty), hnId]
      simp only [CAddrMan.assertInfo, hinfo, ok_bind, ← huSlot, ← hm₁, hclear, hcleared, assertAddr,
        beq_self_eq_true, ↓reduceIte]
      rfl
    · show m₂.vvTried = _
      rw [hvvTried₂, hm₁]
    · have hxn : x ≠ nId := by
        rw [← hnId]
        exact hx
      have hsame' := hsame x (by rw [hvvNew₁]; exact Ne.symm (hx' uSlot))
      unfold SameInfo at hsame' ⊢
      rw [hm₁] at hsame'
      have hup : ∀ (g : Int → Option (CAddrInfo NetAddr)) v, update g nId v x = g x := fun g v =>
        Function.update_of_ne hxn ..
      simp only [CAddrMan.modifyInfo, hup] at hsame' ⊢
      exact hsame'

/-- `MakeTried` moves an entry from the new buckets to its slot of `vvTried`. -/
theorem makeTried_ok (h : Indexes hashes P 0 m) (hinfo : m.mapInfo nId = some info)
    (ht : info.fInTried = false) :
    ∃ m', m.makeTried hashes nId = .ok m' ∧ Indexes hashes P 0 m' := by
  obtain ⟨m₁, hloop, h₁, ⟨nRefCount, hinfo₁⟩, -, hvvTried₁, hvvNew₁⟩ :=
    removeFromNew_ok (List.finRange _) (h.mono (Set.subset_insert nId P)) hinfo
  have hunused : ∀ slot, m₁.vvNew slot ≠ nId := fun slot hslot =>
    (hvvNew₁ slot hslot).2 (List.mem_finRange _)
  have hzero : nRefCount = 0 := by
    have := h₁.refs nId _ hinfo₁
    rw [occurrences_eq_zero.mpr hunused] at this
    exact this
  subst hzero
  obtain ⟨slot, hslot⟩ : ∃ slot, slot = hashes.triedSlot info.service := ⟨_, rfl⟩
  obtain ⟨m₂, hevict, h₂, hvvTried₂, hsame⟩ := evictTried_ok h₁.uncountNew slot
  have htried : m₁.vvTried slot ≠ nId := h₁.vvTried_ne hinfo₁ ht slot
  obtain ⟨nRandomPos, hinfo₂⟩ := (hsame nId (Ne.symm htried) hunused).get hinfo₁
  have hcleared : m₂.vvTried slot = -1 := by
    rw [hvvTried₂]
    exact Function.update_self ..
  have hset := h₂.setTried hinfo₂ ht rfl (by
    show m₂.vvTried (hashes.triedSlot info.service) = -1
    rw [← hslot]
    exact hcleared)
  refine ⟨_, ?_, hset⟩
  simp only [CAddrMan.makeTried, CAddrMan.infoAt, hinfo, ok_bind, hloop, hinfo₁, assertAddr,
    beq_self_eq_true, ↓reduceIte, ← hslot, hevict, hcleared]
  rfl

/-! ## The calls -/

/-- The end of `Add_` puts an entry that has room for a reference into its slot, or takes it out
where there is none. -/
theorem insertNew_ok (h : Indexes hashes (insert nId P) k m) (hinfo : m.mapInfo nId = some info)
    (ht : info.fInTried = false) (hlt : info.nRefCount < ADDRMAN_NEW_BUCKETS_PER_ADDRESS)
    (source : NetAddr) (nNow : Int) :
    ∃ m', m.insertNew hashes nId source nNow = .ok m' ∧ Indexes hashes P k m' := by
  obtain ⟨slot, hslot⟩ : ∃ slot, slot =
    hashes.newSlot info.service (hashes.getNewBucket info.service source) := ⟨_, rfl⟩
  have hrefs := h.refs nId info hinfo
  by_cases hthere : m.vvNew slot = nId
  · have hpos : 0 < occurrences m.vvNew nId := occurrences_pos.mpr ⟨slot, hthere⟩
    refine ⟨m, ?_, h.settle hinfo (by omega)⟩
    simp only [CAddrMan.insertNew, CAddrMan.infoAt, hinfo, ok_bind, ← hslot, if_pos hthere]
    rfl
  · obtain ⟨fInsert, hfInsert⟩ : ∃ fInsert, m.fInsertNew slot info.nRefCount nNow = .ok fInsert := by
      by_cases hempty : m.vvNew slot = -1
      · exact ⟨true, if_pos hempty⟩
      · obtain ⟨i, hi, -⟩ := h.newSlots slot hempty
        rw [CAddrMan.fInsertNew, if_neg hempty, CAddrMan.infoAt, hi]
        exact ⟨_, rfl⟩
    have heval : m.insertNew hashes nId source nNow =
        if fInsert = true then (m.clearNew slot).bind fun m =>
          .ok { m.modifyInfo nId fun info => { info with nRefCount := info.nRefCount + 1 } with
            vvNew := update m.vvNew slot nId }
        else if info.nRefCount = 0 then m.delete nId else .ok m := by
      simp only [CAddrMan.insertNew, CAddrMan.infoAt, hinfo, ok_bind, ← hslot, if_neg hthere, hfInsert]
      rfl
    cases fInsert with
    | true =>
      obtain ⟨m₁, hclear, h₁, hsame, -, -, hvvNew⟩ := clearNew_ok h slot
      obtain ⟨nRandomPos, hinfo₁⟩ := (hsame nId (Ne.symm hthere)).get hinfo
      have hcleared : m₁.vvNew slot = -1 := by
        rw [hvvNew]
        exact Function.update_self ..
      refine ⟨_, ?_, h₁.setSlot hcleared hinfo₁ ht (by rw [hslot]; rfl) hlt⟩
      rw [heval, if_pos rfl, hclear]
      rfl
    | false =>
      rw [if_neg Bool.false_ne_true] at heval
      by_cases hzero : info.nRefCount = 0
      · obtain ⟨m', hdelete, h', -⟩ := delete_ok h hinfo ht hzero
        exact ⟨m', by rw [heval, if_pos hzero, hdelete], h'⟩
      · exact ⟨m, by rw [heval, if_neg hzero], h.settle hinfo (by omega)⟩

/-- An id for a new entry: not the mark of an empty slot, and not in use. -/
def CAddrMan.IdFree (m : CAddrMan NetAddr) : Prop := m.nIdCount ≠ -1 ∧ m.mapInfo m.nIdCount = none

theorem createNew_ok (h : Indexes hashes P k m) (addr : CAddress NetAddr) (source : NetAddr)
    (nTimePenalty : Int) (hid : m.nIdCount ≠ -1) (hfree : m.mapInfo m.nIdCount = none)
    (hnew : m.mapAddr addr.service.ip = none) :
    Indexes hashes (insert m.nIdCount P) k (m.createNew addr source nTimePenalty) ∧
      ∃ info, (m.createNew addr source nTimePenalty).mapInfo m.nIdCount = some info ∧
        info.fInTried = false ∧ info.nRefCount = 0 := by
  have hmodify : Indexes hashes (insert m.nIdCount P) (k + 1)
      ((m.create addr source).modifyInfo m.nIdCount fun info =>
        { info with nTime := max 0 (info.nTime - nTimePenalty) % 2 ^ 32 }) :=
    (create_ok h addr source hid hfree hnew).modifyInfo (fun _ => rfl) fun _ => rfl
  exact ⟨hmodify.countNew, _, (congrFun (mapInfo_modifyInfo (Function.update_self ..)) m.nIdCount).trans
    (Function.update_self ..), rfl, rfl⟩

theorem add_ok (h : Indexes hashes ∅ 0 m) (addr : CAddress NetAddr) (source : NetAddr)
    (nTimePenalty nNow : Int) (nRnd : Nat)
    (hfree : m.find addr.service.ip = none → m.IdFree) :
    ∃ fNew m', m.add_ hashes addr source nTimePenalty nNow nRnd = .ok (fNew, m') ∧
      Indexes hashes ∅ 0 m' := by
  unfold CAddrMan.add_
  by_cases hroutable : hashes.isRoutable addr.service = true
  · rw [hroutable, Bool.not_true, if_neg Bool.false_ne_true]
    cases hfind : m.find addr.service.ip with
    | some r =>
      obtain ⟨nId, info⟩ := r
      have hinfo := find_eq hfind
      have hmodify : Indexes hashes ∅ 0
          (m.modifyInfo nId fun info => CAddrMan.refreshInfo info addr nTimePenalty nNow) :=
        h.modifyInfo (fun _ => rfl) fun _ => rfl
      have hinfo' := (congrFun (mapInfo_modifyInfo (f := fun info =>
        CAddrMan.refreshInfo info addr nTimePenalty nNow) hinfo) nId).trans (Function.update_self ..)
      simp only
      split_ifs with hold ht hmax hrnd
      · exact ⟨_, _, rfl, hmodify⟩
      · exact ⟨_, _, rfl, hmodify⟩
      · exact ⟨_, _, rfl, hmodify⟩
      · exact ⟨_, _, rfl, hmodify⟩
      · have hlt : (CAddrMan.refreshInfo info addr nTimePenalty nNow).nRefCount <
            (ADDRMAN_NEW_BUCKETS_PER_ADDRESS : Int) :=
          lt_of_le_of_ne (hmodify.refs_le nId _ hinfo') hmax
        obtain ⟨m', hinsert, h'⟩ := insertNew_ok (hmodify.mono (Set.subset_insert nId ∅)) hinfo'
          (Bool.eq_false_iff.mpr ht) hlt source nNow
        exact ⟨false, m', by rw [hinsert]; rfl, h'⟩
    | none =>
      obtain ⟨hid, hunused⟩ := hfree hfind
      obtain ⟨hnew, info', hinfo', ht, hzero⟩ :=
        createNew_ok h addr source nTimePenalty hid hunused (find_none h hfind)
      have hlt : info'.nRefCount < (ADDRMAN_NEW_BUCKETS_PER_ADDRESS : Int) := by
        rw [hzero]
        decide
      obtain ⟨m', hinsert, h'⟩ := insertNew_ok hnew hinfo' ht hlt source nNow
      exact ⟨true, m', by simp only [hinsert]; rfl, h'⟩
  · exact ⟨false, m, by rw [Bool.eq_false_iff.mpr hroutable]; rfl, h⟩

theorem good_ok (h : Indexes hashes ∅ 0 m) (addr : CService NetAddr) (nTime : Int) (nRnd : Nat) :
    ∃ m', m.good_ hashes addr nTime nRnd = .ok m' ∧ Indexes hashes ∅ 0 m' := by
  have h₀ : Indexes hashes ∅ 0 { m with nLastGood := nTime } := { h with }
  unfold CAddrMan.good_
  simp only
  cases hfind : CAddrMan.find { m with nLastGood := nTime } addr.ip with
  | none => exact ⟨_, rfl, h₀⟩
  | some r =>
    obtain ⟨nId, info⟩ := r
    have hinfo := find_eq hfind
    have hmodify : Indexes hashes ∅ 0 (CAddrMan.modifyInfo { m with nLastGood := nTime } nId fun info =>
        { info with nLastSuccess := nTime, nLastTry := nTime, nAttempts := 0 }) :=
      h₀.modifyInfo (fun _ => rfl) fun _ => rfl
    have hinfo' := (congrFun (mapInfo_modifyInfo (f := fun info =>
      { info with nLastSuccess := nTime, nLastTry := nTime, nAttempts := 0 }) hinfo) nId).trans
        (Function.update_self ..)
    simp only
    split_ifs with hservice ht hfound
    · exact ⟨_, rfl, h₀⟩
    · exact ⟨_, rfl, hmodify⟩
    · exact ⟨_, rfl, hmodify⟩
    · exact makeTried_ok hmodify hinfo' (Bool.eq_false_iff.mpr ht)

theorem attempt_ok (h : Indexes hashes ∅ 0 m) (addr : CService NetAddr) (fCountFailure : Bool)
    (nTime : Int) : Indexes hashes ∅ 0 (m.attempt_ addr fCountFailure nTime) := by
  unfold CAddrMan.attempt_
  split
  · exact h
  · split_ifs
    · exact h
    · refine h.modifyInfo (fun info => ?_) fun info => ?_
      · split_ifs <;> rfl
      · split_ifs <;> rfl

theorem connected_ok (h : Indexes hashes ∅ 0 m) (addr : CService NetAddr) (nTime : Int) :
    Indexes hashes ∅ 0 (m.connected_ addr nTime) := by
  unfold CAddrMan.connected_
  split
  · exact h
  · split_ifs
    · exact h
    · refine h.modifyInfo (fun info => ?_) fun info => ?_
      · split_ifs <;> rfl
      · split_ifs <;> rfl

end

/-! ## Runs -/

/-- The five indexes of an address manager agree. -/
structure Consistent (hashes : AddrHashes NetAddr) (m : CAddrMan NetAddr) : Prop where
  bijection : ∀ ip nId, m.mapAddr ip = some nId ↔
    ∃ info, m.mapInfo nId = some info ∧ info.service.ip = ip
  permutation : ∀ i nId, m.vRandom[i]? = some nId ↔
    ∃ info, m.mapInfo nId = some info ∧ info.nRandomPos = i
  nTried : m.nTried = (m.entries true).card
  nNew : m.nNew = (m.entries false).card
  sum : m.nNew + m.nTried = m.vRandom.length
  tried : ∀ nId info, m.mapInfo nId = some info → info.fInTried = true →
    info.nRefCount = 0 ∧ (∀ slot, m.vvTried slot = nId ↔ slot = hashes.triedSlot info.service) ∧
      ∀ slot, m.vvNew slot ≠ nId
  new : ∀ nId info, m.mapInfo nId = some info → info.fInTried = false →
    1 ≤ info.nRefCount ∧ info.nRefCount ≤ 8 ∧ info.nRefCount = occurrences m.vvNew nId ∧
      (∀ slot, m.vvNew slot = nId → slot = hashes.newSlot info.service slot.1) ∧
      ∀ slot, m.vvTried slot ≠ nId
  known_new : ∀ slot, m.vvNew slot = -1 ∨ ∃ info, m.mapInfo (m.vvNew slot) = some info
  known_tried : ∀ slot, m.vvTried slot = -1 ∨ ∃ info, m.mapInfo (m.vvTried slot) = some info

section

variable {hashes : AddrHashes NetAddr} {m : CAddrMan NetAddr}

/-- Every entry is counted once. -/
theorem card_entries (h : Indexed m.vRandom m.posOf) :
    (m.entries true).card + (m.entries false).card = m.vRandom.length := by
  rw [← Finset.card_union_of_disjoint, ← List.toFinset_card_of_nodup h.nodup]
  · congr 1
    ext x
    rw [Finset.mem_union, mem_addrEntries h, mem_addrEntries h, List.mem_toFinset, h.mem_iff, CAddrMan.posOf]
    cases m.mapInfo x with
    | none => simp
    | some info => cases hf : info.fInTried <;> simp [hf]
  · rw [Finset.disjoint_left]
    intro x htrue hfalse
    obtain ⟨i, hi, ht⟩ := (mem_addrEntries h).mp htrue
    obtain ⟨j, hj, hf⟩ := (mem_addrEntries h).mp hfalse
    rw [hi] at hj
    cases hj
    rw [ht] at hf
    cases hf

theorem Indexes.consistent (h : Indexes hashes ∅ 0 m) : Consistent hashes m where
  bijection := h.addr
  permutation i nId := by
    rw [h.random i nId, CAddrMan.posOf, Option.map_eq_some_iff]
  nTried := h.nTried
  nNew := by
    have := h.nNew
    omega
  sum := by
    have := h.nNew
    have := h.nTried
    have := card_entries h.random
    omega
  tried nId info hinfo ht := by
    obtain ⟨hzero, hslot⟩ := h.tried nId info hinfo ht
    have hrefs := h.refs nId info hinfo
    refine ⟨hzero, fun slot => ⟨fun heq => ?_, fun heq => by rw [heq, hslot]⟩,
      occurrences_eq_zero.mp (by omega)⟩
    obtain ⟨i, hi, -, hpos⟩ := h.triedSlots slot (by rw [heq]; exact h.ne_neg_one hinfo)
    rw [heq, hinfo] at hi
    cases hi
    exact hpos
  new nId info hinfo ht := by
    refine ⟨h.new nId info hinfo ht (Set.notMem_empty _), h.refs_le nId info hinfo,
      h.refs nId info hinfo, fun slot heq => ?_, h.vvTried_ne hinfo ht⟩
    obtain ⟨i, hi, hpos⟩ := h.newSlots slot (by rw [heq]; exact h.ne_neg_one hinfo)
    rw [heq, hinfo] at hi
    cases hi
    exact hpos
  known_new slot := (eq_or_ne _ _).imp_right fun hne => by
    obtain ⟨info, hinfo, -⟩ := h.newSlots slot hne
    exact ⟨info, hinfo⟩
  known_tried slot := (eq_or_ne _ _).imp_right fun hne => by
    obtain ⟨info, hinfo, -⟩ := h.triedSlots slot hne
    exact ⟨info, hinfo⟩

theorem fresh_indexes (hashes : AddrHashes NetAddr) :
    Indexes hashes ∅ 0 (CAddrMan.fresh : CAddrMan NetAddr) where
  random := Indexed.nil
  noId := rfl
  addr _ _ := ⟨fun h => (by cases h), fun ⟨_, h, _⟩ => (by cases h)⟩
  newSlots _ h := (h rfl).elim
  triedSlots _ h := (h rfl).elim
  refs _ _ h := by cases h
  refs_le _ _ h := by cases h
  tried _ _ h := by cases h
  new _ _ h := by cases h
  nTried := rfl
  nNew := rfl

variable [DecidableEq NetAddr]

/-- The id is free for the entry that a call creates, if it does. -/
def CAddrMan.CreatesFree (m : CAddrMan NetAddr) : AddrManOp NetAddr → Prop
  | .add addr _ _ _ _ => m.find addr.service.ip = none → m.IdFree
  | _ => True

/-- The id is free whenever one of the calls creates an entry. -/
def CAddrMan.AllFree (hashes : AddrHashes NetAddr) : CAddrMan NetAddr → List (AddrManOp NetAddr) → Prop
  | _, [] => True
  | m, op :: ops => m.CreatesFree op ∧
      ∀ m', m.call hashes op = .ok m' → CAddrMan.AllFree hashes m' ops

theorem call_ok (h : Indexes hashes ∅ 0 m) (op : AddrManOp NetAddr) (hfree : m.CreatesFree op) :
    ∃ m', m.call hashes op = .ok m' ∧ Indexes hashes ∅ 0 m' := by
  cases op with
  | add addr source nTimePenalty nNow nRnd =>
    obtain ⟨fNew, m', hadd, h'⟩ := add_ok h addr source nTimePenalty nNow nRnd hfree
    exact ⟨m', by rw [CAddrMan.call, hadd]; rfl, h'⟩
  | good addr nTime nRnd => exact good_ok h addr nTime nRnd
  | attempt addr fCountFailure nTime => exact ⟨_, rfl, attempt_ok h addr fCountFailure nTime⟩
  | connected addr nTime => exact ⟨_, rfl, connected_ok h addr nTime⟩
  | getAddr nNow rnd vAddr =>
    obtain ⟨vAddr', m', hgather, h'⟩ := gatherAddr_ok h nNow rnd
      (min (ADDRMAN_GETADDR_MAX_PCT * m.vRandom.length / 100) ADDRMAN_GETADDR_MAX)
      (Nat.zero_add m.vRandom.length) vAddr
    exact ⟨m', by rw [CAddrMan.call, CAddrMan.getAddr_]; simp only [hgather]; rfl, h'⟩

theorem calls_ok (h : Indexes hashes ∅ 0 m) (ops : List (AddrManOp NetAddr))
    (hfree : m.AllFree hashes ops) : ∃ m', m.calls hashes ops = .ok m' ∧ Indexes hashes ∅ 0 m' := by
  induction ops generalizing m with
  | nil => exact ⟨m, rfl, h⟩
  | cons op ops ih =>
    obtain ⟨m₁, hcall, h₁⟩ := call_ok h op hfree.1
    obtain ⟨m', hcalls, h'⟩ := ih h₁ (hfree.2 m₁ hcall)
    exact ⟨m', by rw [CAddrMan.calls, hcall, ok_bind, hcalls], h'⟩

/-- **Consistency.** Where `nIdCount` is free whenever an entry is created, no assertion fails in a run
of calls from a new address manager, and its indexes agree at the end. -/
theorem addrMan_consistent (hashes : AddrHashes NetAddr) (ops : List (AddrManOp NetAddr))
    (hfree : CAddrMan.fresh.AllFree hashes ops) :
    ∃ m, CAddrMan.fresh.calls hashes ops = .ok m ∧ Consistent hashes m := by
  obtain ⟨m, hcalls, h⟩ := calls_ok (fresh_indexes hashes) ops hfree
  exact ⟨m, hcalls, h.consistent⟩

end

/-! ### Short runs -/

/-- `m'` has no entry that `m` has not, and gives out the same id next. -/
structure NoNewIds (m m' : CAddrMan NetAddr) : Prop where
  nIdCount : m'.nIdCount = m.nIdCount
  known : ∀ x, m.mapInfo x = none → m'.mapInfo x = none

section

variable {m : CAddrMan NetAddr}

theorem NoNewIds.refl (m : CAddrMan NetAddr) : NoNewIds m m := ⟨rfl, fun _ h => h⟩

theorem NoNewIds.trans {m₁ m₂ m₃ : CAddrMan NetAddr} (h : NoNewIds m₁ m₂) (h' : NoNewIds m₂ m₃) :
    NoNewIds m₁ m₃ := ⟨h'.nIdCount.trans h.nIdCount, fun x hx => h'.known x (h.known x hx)⟩

theorem noNewIds_modifyInfo (nId : Int) (f : CAddrInfo NetAddr → CAddrInfo NetAddr) :
    NoNewIds m (m.modifyInfo nId f) := ⟨rfl, fun x hx => by
  unfold CAddrMan.modifyInfo
  by_cases hx' : x = nId
  · subst hx'
    simp only [Function.update_self, hx, Option.map_none]
  · simp only [Function.update_of_ne hx', hx]⟩

/-- What a part of a call returns has no new ids. -/
abbrev KeepsIds (m : CAddrMan NetAddr) (r : AddrManResult (CAddrMan NetAddr)) : Prop :=
  Safe (fun _ => True) (NoNewIds m) r

theorem KeepsIds.after {m₀ : CAddrMan NetAddr} {r : AddrManResult (CAddrMan NetAddr)}
    (h : NoNewIds m₀ m) (hr : KeepsIds m r) : KeepsIds m₀ r := hr.mono fun _ h' => h.trans h'

theorem swapRandom_keepsIds (i j : Nat) : KeepsIds m (m.swapRandom i j) := by
  unfold CAddrMan.swapRandom
  split_ifs
  · exact .refl m
  · split
    · rename_i nId1 nId2 _ _
      cases h₁ : m.mapInfo nId1 with
      | none => simp only [CAddrMan.assertInfo, h₁]; trivial
      | some info1 =>
        cases h₂ : m.mapInfo nId2 with
        | none => simp only [CAddrMan.assertInfo, h₁, h₂]; trivial
        | some info2 =>
          simp only [CAddrMan.assertInfo, h₁, h₂, ok_bind]
          refine ⟨rfl, fun x hx => ?_⟩
          have hx₁ : x ≠ nId1 := by
            rintro rfl
            rw [h₁] at hx
            cases hx
          have hx₂ : x ≠ nId2 := by
            rintro rfl
            rw [h₂] at hx
            cases hx
          simp only [Function.update_of_ne hx₂, Function.update_of_ne hx₁, hx]
    · trivial

theorem removeFromNew_keepsIds {hashes : AddrHashes NetAddr} (nId : Int) (service : CService NetAddr)
    (buckets : List (Fin ADDRMAN_NEW_BUCKET_COUNT)) :
    NoNewIds m (CAddrMan.removeFromNew hashes nId service buckets m) := by
  induction buckets generalizing m with
  | nil => exact .refl m
  | cons bucket buckets ih =>
    rw [CAddrMan.removeFromNew]
    split_ifs
    · have hmodify := noNewIds_modifyInfo (m := m) nId
        fun info => { info with nRefCount := info.nRefCount - 1 }
      refine NoNewIds.trans ?_ ih
      exact ⟨hmodify.nIdCount, hmodify.known⟩
    · exact ih

theorem gatherAddr_keepsIds (nNow : Int) (rnd : Nat → Nat) (nNodes left n : Nat)
    (vAddr : List (CAddress NetAddr)) :
    Safe (fun _ => True) (fun r => NoNewIds m r.2)
      (CAddrMan.gatherAddr nNow rnd nNodes left n vAddr m) := by
  induction left generalizing n vAddr m with
  | zero => exact .refl m
  | succ left ih =>
    rw [CAddrMan.gatherAddr]
    split_ifs
    · exact .refl m
    · refine (swapRandom_keepsIds _ _).bind fun m₁ h₁ => ?_
      split
      · trivial
      · exact Safe.of_rest fun ai => (ih (n + 1) _).mono fun r hr => h₁.trans hr

/-- The ids that were given out are those below `n`. -/
structure IdsBelow (n : Nat) (m : CAddrMan NetAddr) : Prop where
  nIdCount : m.nIdCount = n
  known : ∀ x, m.mapInfo x ≠ none → 0 ≤ x ∧ x < n

theorem IdsBelow.noNew {n : Nat} {m' : CAddrMan NetAddr} (h : IdsBelow n m) (h' : NoNewIds m m') :
    IdsBelow n m' :=
  ⟨h'.nIdCount.trans h.nIdCount, fun x hx => h.known x fun hx' => hx (h'.known x hx')⟩

theorem IdsBelow.idFree {n : Nat} (h : IdsBelow n m) : m.IdFree := by
  refine ⟨by rw [h.nIdCount]; omega, ?_⟩
  by_contra hx
  have := h.known _ hx
  rw [h.nIdCount] at this
  omega

variable [DecidableEq NetAddr]

theorem delete_keepsIds (nId : Int) : KeepsIds m (m.delete nId) := by
  refine Safe.of_rest fun info => Safe.of_rest fun _ => Safe.of_rest fun _ => ?_
  refine (swapRandom_keepsIds _ _).bind fun m₁ h₁ => ⟨h₁.nIdCount, fun x hx => ?_⟩
  by_cases hx' : x = nId
  · subst hx'
    exact Function.update_self ..
  · exact (Function.update_of_ne hx' ..).trans (h₁.known x hx)

theorem clearNew_keepsIds (slot : NewSlot) : KeepsIds m (m.clearNew slot) := by
  unfold CAddrMan.clearNew
  split_ifs
  · exact .refl m
  · refine Safe.of_rest fun infoDelete => Safe.of_rest fun _ => ?_
    have hmodify := noNewIds_modifyInfo (m := m) (m.vvNew slot)
      fun info => { info with nRefCount := info.nRefCount - 1 }
    split_ifs
    · refine KeepsIds.after ?_ (delete_keepsIds _)
      exact ⟨hmodify.nIdCount, hmodify.known⟩
    · exact ⟨hmodify.nIdCount, hmodify.known⟩

variable {hashes : AddrHashes NetAddr}

theorem insertNew_keepsIds (nId : Int) (source : NetAddr) (nNow : Int) :
    KeepsIds m (m.insertNew hashes nId source nNow) := by
  refine Safe.of_rest fun info => ?_
  simp only
  split
  · exact .refl m
  · refine Safe.of_rest fun fInsert => ?_
    split_ifs
    · refine (clearNew_keepsIds _).bind fun m₁ h₁ => ?_
      have hmodify := noNewIds_modifyInfo (m := m₁) nId
        fun info => { info with nRefCount := info.nRefCount + 1 }
      exact h₁.trans ⟨hmodify.nIdCount, hmodify.known⟩
    · exact delete_keepsIds nId
    · exact .refl m

theorem evictTried_keepsIds (slot : TriedSlot) : KeepsIds m (m.evictTried hashes slot) := by
  unfold CAddrMan.evictTried
  split_ifs
  · exact .refl m
  · refine Safe.of_rest fun infoOld => ?_
    have hmodify := noNewIds_modifyInfo (m := m) (m.vvTried slot)
      fun info => { info with fInTried := false }
    refine Safe.bind (Q := NoNewIds m) ?_ fun m₁ h₁ => Safe.of_rest fun _ => ?_
    · refine KeepsIds.after ?_ (clearNew_keepsIds _)
      exact ⟨hmodify.nIdCount, hmodify.known⟩
    have hmodify₁ := noNewIds_modifyInfo (m := m₁) (m.vvTried slot)
      fun info => { info with nRefCount := 1 }
    exact h₁.trans ⟨hmodify₁.nIdCount, hmodify₁.known⟩

theorem makeTried_keepsIds (nId : Int) : KeepsIds m (m.makeTried hashes nId) := by
  unfold CAddrMan.makeTried
  generalize List.finRange ADDRMAN_NEW_BUCKET_COUNT = buckets
  refine Safe.of_rest fun info => ?_
  have hloop : NoNewIds m (CAddrMan.removeFromNew hashes nId info.service buckets m) :=
    removeFromNew_keepsIds nId info.service buckets
  refine Safe.of_rest fun _ => Safe.of_rest fun _ => ?_
  refine Safe.bind (Q := NoNewIds m) ?_ fun m₁ h₁ => Safe.of_rest fun _ => ?_
  · refine KeepsIds.after ?_ (evictTried_keepsIds _)
    exact ⟨hloop.nIdCount, hloop.known⟩
  have hmodify := noNewIds_modifyInfo (m := m₁) nId fun info => { info with fInTried := true }
  exact h₁.trans ⟨hmodify.nIdCount, hmodify.known⟩

theorem IdsBelow.createNew {n : Nat} (h : IdsBelow n m) (hn : n + 1 < 2 ^ 31)
    (addr : CAddress NetAddr) (source : NetAddr) (nTimePenalty : Int) :
    IdsBelow (n + 1) (m.createNew addr source nTimePenalty) := by
  have hcreate : IdsBelow (n + 1) (m.create addr source) := by
    constructor
    · show wrapInt (m.nIdCount + 1) = _
      rw [h.nIdCount, wrapInt, Int.bmod_eq_of_le (by omega) (by omega)]
      rfl
    · intro x hx
      by_cases hx' : x = m.nIdCount
      · rw [hx', h.nIdCount]
        omega
      · have := h.known x fun hnone => hx ((Function.update_of_ne hx' ..).trans hnone)
        omega
  have hmodify := noNewIds_modifyInfo (m := m.create addr source) m.nIdCount
    fun info => { info with nTime := max 0 (info.nTime - nTimePenalty) % 2 ^ 32 }
  exact hcreate.noNew ⟨hmodify.nIdCount, hmodify.known⟩

theorem good_keepsIds (addr : CService NetAddr) (nTime : Int) (nRnd : Nat) :
    KeepsIds m (m.good_ hashes addr nTime nRnd) := by
  have h₀ : NoNewIds m { m with nLastGood := nTime } := ⟨rfl, fun _ h => h⟩
  unfold CAddrMan.good_
  simp only
  cases hfind : CAddrMan.find { m with nLastGood := nTime } addr.ip with
  | none => exact h₀
  | some r =>
    obtain ⟨nId, info⟩ := r
    have hmodify := h₀.trans (noNewIds_modifyInfo nId fun info =>
      { info with nLastSuccess := nTime, nLastTry := nTime, nAttempts := 0 })
    simp only
    generalize CAddrMan.inNewBucket _ _ _ _ _ = found
    split_ifs with hservice ht hfound
    · exact h₀
    · exact hmodify
    · exact hmodify
    · exact KeepsIds.after hmodify (makeTried_keepsIds nId)

theorem attempt_noNewIds (addr : CService NetAddr) (fCountFailure : Bool) (nTime : Int) :
    NoNewIds m (m.attempt_ addr fCountFailure nTime) := by
  unfold CAddrMan.attempt_
  split
  · exact .refl m
  · split_ifs
    · exact .refl m
    · exact noNewIds_modifyInfo _ _

theorem connected_noNewIds (addr : CService NetAddr) (nTime : Int) :
    NoNewIds m (m.connected_ addr nTime) := by
  unfold CAddrMan.connected_
  split
  · exact .refl m
  · split_ifs
    · exact .refl m
    · exact noNewIds_modifyInfo _ _

theorem add_idsBelow {n : Nat} (h : IdsBelow n m) (hn : n + 1 < 2 ^ 31) (addr : CAddress NetAddr)
    (source : NetAddr) (nTimePenalty nNow : Int) (nRnd : Nat) :
    Safe (fun _ => True) (fun r => IdsBelow n r.2 ∨ IdsBelow (n + 1) r.2)
      (m.add_ hashes addr source nTimePenalty nNow nRnd) := by
  unfold CAddrMan.add_
  split_ifs
  · exact .inl h
  · split
    · rename_i nId info _
      have hmodify := noNewIds_modifyInfo (m := m) nId
        fun info => CAddrMan.refreshInfo info addr nTimePenalty nNow
      simp only
      split_ifs
      · exact .inl (h.noNew hmodify)
      · exact .inl (h.noNew hmodify)
      · exact .inl (h.noNew hmodify)
      · exact .inl (h.noNew hmodify)
      · exact (insertNew_keepsIds nId source nNow).bind fun m₁ h₁ =>
          .inl ((h.noNew hmodify).noNew h₁)
    · exact (insertNew_keepsIds m.nIdCount source nNow).bind fun m₁ h₁ =>
        .inr ((h.createNew hn addr source nTimePenalty).noNew h₁)

/-- A call gives out at most one id. -/
theorem call_idsBelow {n : Nat} (h : IdsBelow n m) (hn : n + 1 < 2 ^ 31) (op : AddrManOp NetAddr) :
    Safe (fun _ => True) (fun m' => IdsBelow n m' ∨ IdsBelow (n + 1) m') (m.call hashes op) := by
  cases op with
  | add addr source nTimePenalty nNow nRnd =>
    exact (add_idsBelow h hn addr source nTimePenalty nNow nRnd).bind fun r hr => hr
  | good addr nTime nRnd => exact (good_keepsIds addr nTime nRnd).mono fun m' h' => .inl (h.noNew h')
  | attempt addr fCountFailure nTime => exact .inl (h.noNew (attempt_noNewIds addr fCountFailure nTime))
  | connected addr nTime => exact .inl (h.noNew (connected_noNewIds addr nTime))
  | getAddr nNow rnd vAddr =>
    exact (gatherAddr_keepsIds nNow rnd _ _ _ vAddr).bind fun r hr => .inl (h.noNew hr)

theorem IdsBelow.allFree {n : Nat} (h : IdsBelow n m) (ops : List (AddrManOp NetAddr))
    (hn : n + ops.length < 2 ^ 31) : m.AllFree hashes ops := by
  induction ops generalizing m n with
  | nil => trivial
  | cons op ops ih =>
    rw [List.length_cons] at hn
    refine ⟨?_, fun m' hcall => ?_⟩
    · cases op with
      | add => exact fun _ => h.idFree
      | _ => trivial
    · rcases (call_idsBelow h (by omega) op).of_ok hcall with h' | h'
      · exact ih h' (by omega)
      · exact ih h' (by omega)

/-- In a run of fewer than `2 ^ 31` calls no id comes around. -/
theorem shortCalls_consistent (hashes : AddrHashes NetAddr) (ops : List (AddrManOp NetAddr))
    (hlen : ops.length < 2 ^ 31) :
    ∃ m, CAddrMan.fresh.calls hashes ops = .ok m ∧ Consistent hashes m := by
  have hfresh : IdsBelow 0 (CAddrMan.fresh : CAddrMan NetAddr) := ⟨rfl, fun _ h => (h rfl).elim⟩
  obtain ⟨m, hcalls, h⟩ := calls_ok (fresh_indexes hashes) ops (hfresh.allFree ops (by omega))
  exact ⟨m, hcalls, h.consistent⟩

end

/-- `Add_` for an address that is not known. -/
theorem call_add_new {NetAddr : Type} [DecidableEq NetAddr] {hashes : AddrHashes NetAddr}
    {m : CAddrMan NetAddr} {addr : CAddress NetAddr} {source : NetAddr} {nTimePenalty nNow : Int}
    {nRnd : Nat} (hroutable : hashes.isRoutable addr.service = true)
    (hfind : m.find addr.service.ip = none) :
    m.call hashes (.add addr source nTimePenalty nNow nRnd) =
      (m.createNew addr source nTimePenalty).insertNew hashes m.nIdCount source nNow := by
  simp only [CAddrMan.call, CAddrMan.add_, hroutable, hfind, Bool.not_true, Bool.false_eq_true,
    ↓reduceIte]
  cases (m.createNew addr source nTimePenalty).insertNew hashes m.nIdCount source nNow <;> rfl

/-! ### Ids that come around -/

/-- One bucket and one position for all addresses. -/
def oneSlot : AddrHashes Nat where
  getTriedBucket _ := ⟨0, triedBucketCount_pos⟩
  getNewBucket _ _ := ⟨0, newBucketCount_pos⟩
  getBucketPosition _ _ _ := ⟨0, bucketSize_pos⟩
  isRoutable _ := true

/-- `Add_` for the address `ip`, seen now. -/
def addNow (ip : Nat) : AddrManOp Nat :=
  .add ⟨⟨ip, 8333⟩, 1, 1000000000⟩ 0 0 1000000000 0

theorem threeCalls_consistent :
    ∃ m, CAddrMan.fresh.calls oneSlot
      [addNow 0, .good ⟨0, 8333⟩ 1000000000 5, .getAddr 1000000000 id []] = .ok m ∧
      Consistent oneSlot m :=
  addrMan_consistent oneSlot [addNow 0, .good ⟨0, 8333⟩ 1000000000 5, .getAddr 1000000000 id []]
    ⟨fun _ => ⟨by decide, rfl⟩, fun _ _ => ⟨trivial, fun _ _ => ⟨trivial, fun _ _ => trivial⟩⟩⟩

/-- The entry for the address 0. -/
def entry0 : CAddrInfo Nat :=
  { service := ⟨0, 8333⟩, nServices := 1, nTime := 1000000000, source := 0, nRefCount := 1,
    nRandomPos := 0 }

def slot0 : NewSlot := (⟨0, newBucketCount_pos⟩, ⟨0, bucketSize_pos⟩)

/-- The address manager with the entry for the address 0, at an id. -/
def oneEntry (nIdCount : Int) : CAddrMan Nat where
  nIdCount := nIdCount
  mapInfo := update (fun _ => none) 0 (some entry0)
  mapAddr := update (fun _ => none) 0 (some 0)
  vRandom := [0]
  nTried := 0
  vvTried _ := -1
  nNew := 1
  vvNew := update (fun _ => -1) slot0 0
  nLastGood := 1

theorem add_first : CAddrMan.fresh.call oneSlot (addNow 0) = .ok (oneEntry 1) := by
  rw [addNow, call_add_new rfl rfl]
  simp only [CAddrMan.createNew, CAddrMan.fresh, CAddrMan.create, CAddrMan.modifyInfo,
    CAddrMan.insertNew, CAddrMan.infoAt, CAddrMan.fInsertNew, CAddrMan.clearNew, ↓reduceIte,
    Function.update_self, Option.map_some, Function.update_idem, ok_bind, List.length_nil,
    List.nil_append]
  rfl

/-- `oneEntry` with an entry for the address 1, which is in no table. -/
def twoEntries (nIdCount : Int) : CAddrMan Nat :=
  { oneEntry (wrapInt (nIdCount + 1)) with
    mapInfo := update (oneEntry nIdCount).mapInfo nIdCount
      (some { entry0 with service := ⟨1, 8333⟩, nRefCount := 0, nRandomPos := 1 })
    mapAddr := update (oneEntry nIdCount).mapAddr 1 (some nIdCount)
    vRandom := [0, nIdCount]
    nNew := 2 }

theorem add_created (nIdCount : Int) : (oneEntry nIdCount).call oneSlot (addNow 1) =
    (twoEntries nIdCount).insertNew oneSlot nIdCount 0 1000000000 := by
  rw [addNow, call_add_new rfl rfl]
  congr 1
  simp only [CAddrMan.createNew, CAddrMan.create, CAddrMan.modifyInfo, Function.update_self,
    Option.map_some, Function.update_idem]
  rfl

/-- The slot is taken: the new entry is created and deleted, and the id is used up. -/
theorem add_second {nIdCount : Int} (h : nIdCount ≠ 0) :
    (oneEntry nIdCount).call oneSlot (addNow 1) = .ok (oneEntry (wrapInt (nIdCount + 1))) := by
  have hnew : (twoEntries nIdCount).mapInfo nIdCount =
      some { entry0 with service := ⟨1, 8333⟩, nRefCount := 0, nRandomPos := 1 } :=
    Function.update_self ..
  have hold : (twoEntries nIdCount).mapInfo 0 = some entry0 := Function.update_of_ne (Ne.symm h) ..
  have hslot : (twoEntries nIdCount).vvNew slot0 = 0 := rfl
  have hinsert : (twoEntries nIdCount).fInsertNew slot0 0 1000000000 = .ok false := by
    rw [CAddrMan.fInsertNew, hslot, if_neg (by decide), CAddrMan.infoAt, hold]
    rfl
  have hnone : ∀ {α : Type} [DecidableEq α] {β : Type} {g : α → Option β} {a : α}, g a = none →
      update g a none = g := fun h => by rw [← h, Function.update_eq_self]
  have hdelete : (twoEntries nIdCount).delete nIdCount = .ok (oneEntry (wrapInt (nIdCount + 1))) := by
    have hinfo : update (twoEntries nIdCount).mapInfo nIdCount none = (oneEntry nIdCount).mapInfo := by
      have hunused : (oneEntry nIdCount).mapInfo nIdCount = none := by
        show update (fun _ => none) 0 (some entry0) nIdCount = none
        rw [Function.update_of_ne h]
      rw [twoEntries, Function.update_idem, hnone hunused]
    have haddr : update (twoEntries nIdCount).mapAddr 1 none = (oneEntry nIdCount).mapAddr := by
      rw [twoEntries, Function.update_idem]
      exact hnone rfl
    simp only [CAddrMan.delete, CAddrMan.assertInfo, hnew, ok_bind]
    show Except.ok { twoEntries nIdCount with
      vRandom := [0]
      mapAddr := update (twoEntries nIdCount).mapAddr 1 none
      mapInfo := update (twoEntries nIdCount).mapInfo nIdCount none
      nNew := 2 - 1 } = _
    rw [hinfo, haddr]
    rfl
  have hs : oneSlot.newSlot ⟨1, 8333⟩ (oneSlot.getNewBucket ⟨1, 8333⟩ 0) = slot0 := rfl
  rw [add_created]
  simp only [CAddrMan.insertNew, CAddrMan.infoAt, hnew, ok_bind, hs, hslot, if_neg (Ne.symm h), hinsert,
    Bool.false_eq_true, ↓reduceIte]
  exact hdelete

theorem calls_append {NetAddr : Type} [DecidableEq NetAddr] (hashes : AddrHashes NetAddr)
    (m : CAddrMan NetAddr) (ops ops' : List (AddrManOp NetAddr)) :
    m.calls hashes (ops ++ ops') = m.calls hashes ops >>= fun m => m.calls hashes ops' := by
  induction ops generalizing m with
  | nil => rfl
  | cons op ops ih =>
    rw [List.cons_append, CAddrMan.calls, CAddrMan.calls]
    cases m.call hashes op with
    | error e => rfl
    | ok m₁ => exact ih m₁

/-- Each further call uses up an id. -/
theorem add_many (n : Nat) (hn : n < 2 ^ 32) :
    (oneEntry 1).calls oneSlot (List.replicate n (addNow 1)) = .ok (oneEntry (wrapInt (1 + n))) := by
  induction n with
  | zero => rfl
  | succ n ih =>
    have hne : wrapInt (1 + n) ≠ 0 := fun h => by
      have hdvd := Int.dvd_of_bmod_eq_zero h
      omega
    rw [List.replicate_succ', calls_append, ih (by omega), ok_bind, CAddrMan.calls, add_second hne]
    show Except.ok (oneEntry (wrapInt (wrapInt (1 + n) + 1))) = _
    rw [wrapInt, wrapInt, wrapInt, Int.bmod_add_bmod, Int.natCast_succ, add_assoc]

/-- After `2 ^ 32` calls the id of the first entry is given out again. -/
theorem wrappedCalls_inconsistent :
    ∃ m, CAddrMan.fresh.calls oneSlot (addNow 0 :: List.replicate (2 ^ 32) (addNow 1)) = .ok m ∧
      ¬ Consistent oneSlot m := by
  refine ⟨twoEntries 0, ?_, fun h => ?_⟩
  · have hmany := add_many (2 ^ 32 - 1) (by decide)
    have hwrap : wrapInt (1 + ((2 ^ 32 - 1 : Nat) : Int)) = 0 := by decide
    have hcount : 2 ^ 32 = 2 ^ 32 - 1 + 1 := by decide
    rw [hwrap] at hmany
    rw [CAddrMan.calls, add_first, ok_bind, hcount, List.replicate_succ', calls_append, hmany, ok_bind,
      CAddrMan.calls, add_created]
    rfl
  · obtain ⟨info, hinfo, hip⟩ := (h.bijection 0 0).mp rfl
    cases hinfo
    cases hip

end GC
