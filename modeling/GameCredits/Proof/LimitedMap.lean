import GameCredits.Framework.Run
import GameCredits.Model.LimitedMap

/-!
# The map of a limited size

`map` and `rmap` have the same elements (`Linked`), which each function keeps. The test of `insert`
counts the new element, so that an element is evicted when one less than the maximum are held and none
when the maximum is held already: `limitedmap` keeps what it promises (`Keeps`) as long as no new key is
inserted in these cases (`Roomy`, `limitedMap_keeps_iff`).
-/

namespace GC

open Framework (Throughout throughout_iff Multimap.insert_perm Multimap.sorted_insert Multimap.Sorted)
open Framework.Assoc (Map mem_entries entries_insert erase_entries entries_perm)

variable {K V : Type} [DecidableEq K] [LinearOrder V]

namespace LimitedMap

/-- `rmap` has one entry for each element of `map`: its value and an iterator to it. -/
structure Linked (map : Map K (V × Nat)) (rmap : List (V × Nat)) (nNodes : Nat) : Prop where
  links : rmap.Perm (map.entries.map Sigma.snd)
  sorted : Multimap.Sorted Prod.fst rmap
  nodes : (map.entries.map fun e => e.2.2).Nodup
  made : ∀ e ∈ map.entries, e.2.2 < nNodes

variable {map map' : Map K (V × Nat)} {rmap rmap' : List (V × Nat)} {nNodes it n : Nat} {k : K} {v w : V}

omit [DecidableEq K] [LinearOrder V] in
theorem mem_of_perm {m m' : Map K (V × Nat)} {e : Sigma fun _ : K => V × Nat}
    (h : m.entries.Perm (e :: m'.entries)) {x : Sigma fun _ : K => V × Nat} (hx : x ∈ m'.entries) :
    x ∈ m.entries := h.mem_iff.mpr (List.mem_cons_of_mem _ hx)

namespace Linked

/-- An element and its link are taken away. -/
theorem erase (h : Linked map rmap nNodes) (hk : map.lookup k = some (v, it))
    (hrmap : rmap.Perm ((v, it) :: rmap')) (hsub : rmap'.Sublist rmap) :
    Linked (map.erase k) rmap' nNodes := by
  have hperm := entries_perm hk
  refine ⟨?_, h.sorted.sublist hsub, ?_, fun e he => h.made e (mem_of_perm hperm he)⟩
  · exact (List.perm_cons _).mp (hrmap.symm.trans (h.links.trans (hperm.map Sigma.snd)))
  · exact (List.nodup_cons.mp ((hperm.map fun e => e.2.2).nodup_iff.mp h.nodes)).2

/-- An element and its link are put in. -/
theorem insert (h : Linked map rmap nNodes) (hk : map.lookup k = none)
    (hnew : ∀ e ∈ map.entries, e.2.2 ≠ it) (hmade : it < nNodes) :
    Linked (map.insert k (v, it)) (Framework.Multimap.insert Prod.fst (v, it) rmap) nNodes := by
  have hentries : (map.insert k (v, it)).entries = ⟨k, (v, it)⟩ :: map.entries := by
    rw [entries_insert, erase_entries hk]
  refine ⟨?_, Multimap.sorted_insert h.sorted, ?_, fun e he => ?_⟩
  · rw [hentries]
    exact (Multimap.insert_perm _ _).trans (h.links.cons _)
  · rw [hentries]
    refine List.nodup_cons.mpr ⟨fun hmem => ?_, h.nodes⟩
    obtain ⟨e, he, heq⟩ := List.mem_map.mp hmem
    exact hnew e he heq
  · rw [hentries] at he
    rcases List.mem_cons.mp he with rfl | he
    · exact hmade
    · exact h.made e he

/-- An entry of `rmap` points to an element with its value. -/
theorem exists_key (h : Linked map rmap nNodes) (he : (v, it) ∈ rmap) :
    ∃ k, map.lookup k = some (v, it) := by
  obtain ⟨⟨k, _⟩, he, rfl⟩ := List.mem_map.mp (h.links.mem_iff.mp he)
  exact ⟨k, mem_entries.mp he⟩

theorem mem_rmap (h : Linked map rmap nNodes) (hk : map.lookup k = some (v, it)) : (v, it) ∈ rmap :=
  h.links.mem_iff.mpr (List.mem_map_of_mem (mem_entries.mpr hk))

theorem eraseNode_eq (h : Linked map rmap nNodes) (hk : map.lookup k = some (v, it)) :
    eraseNode map it = some (map.erase k) := by
  unfold eraseNode
  cases hf : map.entries.find? fun e => e.2.2 = it with
  | none => exact absurd (List.find?_eq_none.mp hf _ (mem_entries.mpr hk)) (by simp)
  | some e =>
    have hit : e.2.2 = it := by simpa using List.find?_some hf
    rw [List.inj_on_of_nodup_map h.nodes (List.mem_of_find?_eq_some hf) (mem_entries.mpr hk) hit]
    rfl

end Linked

/-- The loop over the equal range finds an entry that is there. -/
theorem unlink_eq (h : (v, it) ∈ rmap) :
    ∃ rmap', unlink v it rmap = some rmap' ∧ rmap.Perm ((v, it) :: rmap') ∧ rmap'.Sublist rmap := by
  induction rmap with
  | nil => cases h
  | cons e rmap ih =>
    rw [unlink]
    split_ifs with he
    · exact ⟨rmap, rfl, he ▸ .refl _, List.sublist_cons_self _ _⟩
    · obtain ⟨rmap', heq, hperm, hsub⟩ := ih ((List.mem_cons.mp h).resolve_left (Ne.symm he))
      exact ⟨e :: rmap', by rw [heq]; rfl, (hperm.cons e).trans (.swap _ _ _), hsub.cons_cons e⟩

/-- The loop of `max_size` ends with a map of that size. -/
theorem shrink_eq (h : Linked map rmap nNodes) (n : Nat) :
    ∃ map' rmap', shrink n rmap map = some (map', rmap') ∧ Linked map' rmap' nNodes ∧
      map'.entries.length ≤ n := by
  induction rmap generalizing map with
  | nil =>
    have hlen := h.links.length_eq
    rw [List.length_map, List.length_nil] at hlen
    have hle : map.entries.length ≤ n := hlen ▸ Nat.zero_le n
    exact ⟨map, [], if_pos hle, h, hle⟩
  | cons e rmap ih =>
    rw [shrink]
    split_ifs with hle
    · exact ⟨map, e :: rmap, rfl, h, hle⟩
    · obtain ⟨v, it⟩ := e
      obtain ⟨k, hk⟩ := h.exists_key List.mem_cons_self
      rw [h.eraseNode_eq hk, Option.bind_some]
      exact ih (h.erase hk (.refl _) (List.sublist_cons_self _ _))

/-! ## What each function does -/

variable {s s' : LimitedMap K V}

abbrev IsLinked (s : LimitedMap K V) : Prop := Linked s.map s.rmap s.nNodes

theorem erase_eq (h : s.IsLinked) (k : K) : ∃ s', s.erase k = some s' ∧ s'.IsLinked ∧
    s'.nMaxSize = s.nMaxSize ∧ s'.size ≤ s.size := by
  unfold LimitedMap.erase
  cases hk : s.map.lookup k with
  | none => exact ⟨s, rfl, h, rfl, Nat.le_refl _⟩
  | some e =>
    obtain ⟨v, it⟩ := e
    obtain ⟨rmap, hrmap, hperm, hsub⟩ := unlink_eq (h.mem_rmap hk)
    refine ⟨{ s with map := s.map.erase k, rmap }, by simp [hrmap], h.erase hk hperm hsub, rfl, ?_⟩
    have hlen := (entries_perm hk).length_eq
    rw [List.length_cons] at hlen
    exact Nat.le_of_lt (Nat.lt_of_succ_le (Nat.le_of_eq hlen.symm))

theorem update_eq (h : s.IsLinked) (k : K) (w : V) : ∃ s', s.update k w = some s' ∧ s'.IsLinked ∧
    s'.nMaxSize = s.nMaxSize ∧ s'.size = s.size := by
  unfold update
  cases hk : s.map.lookup k with
  | none => exact ⟨s, rfl, h, rfl, rfl⟩
  | some e =>
    obtain ⟨v, it⟩ := e
    obtain ⟨rmap, hrmap, hperm, hsub⟩ := unlink_eq (h.mem_rmap hk)
    have hentries := entries_perm hk
    have herase := h.erase hk hperm hsub
    have hnew : ∀ e ∈ (s.map.erase k).entries, e.2.2 ≠ it := fun e he heq => by
      have hnodes := (hentries.map fun e => e.2.2).nodup_iff.mp h.nodes
      exact (List.nodup_cons.mp hnodes).1 (List.mem_map.mpr ⟨e, he, heq⟩)
    have hmade : it < s.nNodes := h.made ⟨k, (v, it)⟩ (mem_entries.mpr hk)
    have hinsert := herase.insert (AList.lookup_erase _ _) hnew hmade (v := w)
    refine ⟨{ s with map := s.map.insert k (w, it), rmap }.link w it, by simp [hrmap], ?_, rfl, ?_⟩
    · have hmap : (s.map.erase k).insert k (w, it) = s.map.insert k (w, it) :=
        AList.ext (by rw [entries_insert, entries_insert, erase_entries (AList.lookup_erase _ _)])
      rwa [hmap] at hinsert
    · have hlen := hentries.length_eq
      exact hlen.symm

theorem setMaxSize_eq (h : s.IsLinked) (n : Nat) : ∃ s', s.setMaxSize n = some s' ∧ s'.IsLinked ∧
    s'.nMaxSize = n ∧ (n ≠ 0 → s'.size ≤ n) := by
  unfold setMaxSize
  split_ifs with hn
  · exact ⟨{ s with nMaxSize := n }, rfl, h, rfl, fun hne => absurd hn hne⟩
  · obtain ⟨map, rmap, hshrink, hlinked, hle⟩ := shrink_eq h n
    exact ⟨{ s with map, rmap, nMaxSize := n }, by simp [hshrink], hlinked, rfl, fun _ => hle⟩

/-! ## The promise -/

/-- What `limitedmap` promises of a call: it is defined, `map` and `rmap` have the same elements
afterwards, no more than the maximum; and a new key evicts nothing while fewer than the maximum are held,
and exactly one element with the smallest value when the maximum is held. -/
structure Promise (call : Call K V) (s s' : LimitedMap K V) : Prop where
  linked : s'.IsLinked
  size_le : s'.nMaxSize ≠ 0 → s'.size ≤ s'.nMaxSize
  fits : ∀ k v, call = .insert k v → s.find k = none → (s.nMaxSize = 0 ∨ s.size < s.nMaxSize) →
    ∀ j, s'.find j = if j = k then some v else s.find j
  evicts : ∀ k v, call = .insert k v → s.find k = none → s.nMaxSize ≠ 0 → s.size = s.nMaxSize →
    ∃ k₀ v₀, s.find k₀ = some v₀ ∧ (∀ j w, s.find j = some w → v₀ ≤ w) ∧
      ∀ j, s'.find j = if j = k then some v else if j = k₀ then none else s.find j

def Keeps (call : Call K V) (s : LimitedMap K V) : Prop := ∃ s', step call s = some s' ∧ Promise call s s'

/-- No new key is inserted when one less than the maximum are held, or the maximum already. -/
def Roomy : Call K V → LimitedMap K V → Prop
  | .insert k _, s => s.find k = none → s.nMaxSize = 0 ∨ s.size + 1 < s.nMaxSize
  | _, _ => True

/-- What holds between the calls. -/
structure Limited (s : LimitedMap K V) : Prop where
  linked : s.IsLinked
  size_le : s.nMaxSize ≠ 0 → s.size ≤ s.nMaxSize

theorem limited_new (n : Nat) : Limited (new n : LimitedMap K V) :=
  ⟨⟨.nil, List.Pairwise.nil, List.nodup_nil, nofun⟩, fun _ => Nat.zero_le _⟩

omit [LinearOrder V] in
theorem find_none_iff : s.find k = none ↔ s.map.lookup k = none := Option.map_eq_none_iff

omit [LinearOrder V] in
theorem size_addNode (h : s.map.lookup k = none) : (s.addNode k v).size = s.size + 1 := by
  rw [size, addNode, entries_insert, erase_entries h]
  rfl

omit [LinearOrder V] in
theorem find_addNode (s : LimitedMap K V) (k : K) (v : V) (j : K) :
    (s.addNode k v).find j = if j = k then some v else s.find j := by
  unfold find addNode
  split_ifs with hj
  · rw [hj, AList.lookup_insert]
    rfl
  · rw [AList.lookup_insert_ne hj]

/-- A new key where the test of `insert` fails. -/
theorem insert_fits (h : s.IsLinked) (hk : s.map.lookup k = none)
    (hfits : ¬(s.nMaxSize ≠ 0 ∧ s.size + 1 = s.nMaxSize)) :
    ∃ s', s.insert k v = some s' ∧ s'.IsLinked ∧ s'.nMaxSize = s.nMaxSize ∧ s'.size = s.size + 1 ∧
      ∀ j, s'.find j = if j = k then some v else s.find j := by
  have hroom : (s.addNode k v).makeRoom = some (s.addNode k v) :=
    if_neg (by rw [size_addNode hk]; exact hfits)
  have hmono : Linked s.map s.rmap (s.nNodes + 1) :=
    ⟨h.links, h.sorted, h.nodes, fun e he => Nat.lt_succ_of_lt (h.made e he)⟩
  refine ⟨(s.addNode k v).link v s.nNodes, by simp [LimitedMap.insert, hk, hroom], ?_, rfl,
    size_addNode hk, find_addNode s k v⟩
  exact hmono.insert hk (fun e he => Nat.ne_of_lt (h.made e he)) (Nat.lt_succ_self _)

/-- A new key where the test of `insert` succeeds: an element is lost. -/
theorem insert_evicts (h : s.IsLinked) (hk : s.map.lookup k = none)
    (hfull : s.nMaxSize ≠ 0 ∧ s.size + 1 = s.nMaxSize) (hs' : s.insert k v = some s') :
    ∃ j w, s.find j = some w ∧ j ≠ k ∧ s'.find j = none := by
  have hroom : (s.addNode k v).makeRoom = (s.addNode k v).eraseFirst :=
    if_pos (by rw [size_addNode hk]; exact hfull)
  simp only [LimitedMap.insert, hk, hroom, eraseFirst, eraseNode] at hs'
  rw [show (s.addNode k v).rmap = s.rmap from rfl] at hs'
  cases hrmap : s.rmap with
  | nil =>
    rw [hrmap] at hs'
    cases hs'
  | cons first rmap =>
    simp only [hrmap, Option.map_map, Option.map_eq_some_iff] at hs'
    obtain ⟨e, hfind, rfl⟩ := hs'
    have hit : e.2.2 = first.2 := by simpa using List.find?_some hfind
    have hmem := List.mem_of_find?_eq_some hfind
    rw [addNode, entries_insert, erase_entries hk] at hmem
    -- the node is an old one
    have hfirst : (first.1, first.2) ∈ s.rmap := hrmap ▸ List.mem_cons_self
    obtain ⟨k₁, hk₁⟩ := h.exists_key hfirst
    have hold : first.2 < s.nNodes := h.made ⟨k₁, first⟩ (mem_entries.mpr hk₁)
    rcases List.mem_cons.mp hmem with rfl | hmem
    · exact absurd hit (Nat.ne_of_gt hold)
    · have hlookup : s.map.lookup e.1 = some e.2 := mem_entries.mp hmem
      refine ⟨e.1, e.2.1, by rw [find, hlookup]; rfl, fun heq => ?_, ?_⟩
      · rw [← heq, hlookup] at hk
        cases hk
      · exact find_none_iff.mpr (AList.lookup_erase _ _)

/-- A call keeps the promise if no new key is inserted at the wrong sizes. -/
theorem keeps_iff_roomy (h : Limited s) (call : Call K V) : Keeps call s ↔ Roomy call s := by
  cases call with
  | erase k =>
    obtain ⟨s', hs', hlinked, hmax, hsize⟩ := erase_eq h.linked k
    refine iff_of_true ⟨s', hs', hlinked, fun hne => ?_, nofun, nofun⟩ trivial
    rw [hmax] at hne ⊢
    exact Nat.le_trans hsize (h.size_le hne)
  | update k w =>
    obtain ⟨s', hs', hlinked, hmax, hsize⟩ := update_eq h.linked k w
    refine iff_of_true ⟨s', hs', hlinked, fun hne => ?_, nofun, nofun⟩ trivial
    rw [hmax] at hne ⊢
    exact hsize ▸ h.size_le hne
  | setMaxSize n =>
    obtain ⟨s', hs', hlinked, hmax, hsize⟩ := setMaxSize_eq h.linked n
    exact iff_of_true ⟨s', hs', hlinked, hmax ▸ hsize, nofun, nofun⟩ trivial
  | insert k v =>
    cases hk : s.map.lookup k with
    | some e =>
      have hfind : s.find k ≠ none := fun hnone => by
        rw [find_none_iff, hk] at hnone
        cases hnone
      have hs' : step (.insert k v) s = some s := by simp [step, LimitedMap.insert, hk]
      refine iff_of_true ⟨s, hs', h.linked, h.size_le, ?_, ?_⟩ fun hnone => absurd hnone hfind
      · rintro _ _ ⟨⟩ hnone
        exact absurd hnone hfind
      · rintro _ _ ⟨⟩ hnone
        exact absurd hnone hfind
    | none =>
      have hnone : s.find k = none := find_none_iff.mpr hk
      constructor
      · rintro ⟨s', hs', hpromise⟩ -
        by_contra hroom
        obtain ⟨hne, hle⟩ := not_or.mp hroom
        rcases Nat.lt_or_ge s.size s.nMaxSize with hlt | hge
        · obtain ⟨j, w, hj, hjk, hlost⟩ := insert_evicts h.linked hk ⟨hne, by omega⟩ hs'
          rw [hpromise.fits k v rfl hnone (.inr hlt) j, if_neg hjk, hj] at hlost
          cases hlost
        · obtain ⟨s₁, hs₁, -, hmax, hsize, -⟩ :=
            insert_fits h.linked hk (v := v) fun hfull => by omega
          cases hs₁.symm.trans hs'
          have := hpromise.size_le (hmax ▸ hne)
          omega
      · intro hroomy
        have hroom := hroomy hnone
        obtain ⟨s', hs', hlinked, hmax, hsize, hfind⟩ :=
          insert_fits h.linked hk (v := v) fun hfull => by omega
        refine ⟨s', hs', hlinked, fun hne => ?_, ?_, ?_⟩
        · rw [hmax] at hne ⊢
          omega
        · rintro _ _ ⟨⟩ - -
          exact hfind
        · rintro _ _ ⟨⟩ - hne hfull
          omega

theorem limited_step {call : Call K V} (h : Keeps call s) (hs' : step call s = some s') : Limited s' := by
  obtain ⟨t, ht, hpromise⟩ := h
  cases ht.symm.trans hs'
  exact ⟨hpromise.linked, hpromise.size_le⟩

theorem throughout_keeps {n : Nat} {calls : List (Call K V)} :
    Throughout step Keeps calls (new n) ↔ Throughout step Roomy calls (new n) :=
  throughout_iff (I := Limited) (fun call _ h => keeps_iff_roomy h call)
    (fun _ _ _ _ hkeeps hs' => limited_step hkeeps hs') (limited_new n)

end LimitedMap

open LimitedMap in
/-- Calls of `insert`, `erase`, `update` and `max_size`, one after another, keep the promise of
`limitedmap` if and only if no new key is inserted when one less than the maximum are held, or the
maximum already. -/
theorem limitedMap_keeps_iff (n : Nat) (calls : List (Call K V)) :
    Throughout step Keeps calls (new n) ↔ Throughout step Roomy calls (new n) := throughout_keeps

open LimitedMap in
/-- The second element of a map for two evicts the first. -/
theorem limitedMap_counterexample :
    ¬∀ (n : Nat) (calls : List (Call Char Nat)), 1 ≤ n → Throughout step Keeps calls (new n) := by
  intro h
  obtain ⟨-, hsecond⟩ := throughout_keeps.mp (h 2 [.insert 'a' 1, .insert 'b' 2] (by decide))
  have hroomy := (hsecond _ rfl).1 rfl
  revert hroomy
  decide

end GC
