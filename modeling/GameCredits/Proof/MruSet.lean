import Mathlib.Data.List.DropRight
import GameCredits.Model.MruSet

/-!
# The set of the most recent elements

`mruset` is a queue in a ring, with a set of the same elements (`Held`). An insertion that succeeds puts
an element into the set (`Held.addNode`), takes the first one of a full queue away (`Held.evict`) and puts
the new one at its end (`Held.append`), so that the queue is the last part of what was inserted
(`mruset_recent`).
-/

namespace GC

open Framework (nextPlace nextPlace_eq Queue)
open Framework.Assoc (Map mem_entries entries_insert erase_entries entries_erase_perm)

variable {T : Type} [DecidableEq T]

namespace MruSet

/-- An element of the set with its node. -/
abbrev Entry (T : Type) := Sigma fun _ : T => Nat

/-- The ring has the elements of `held`, oldest first; besides them the set has those of `extra`. -/
structure Held (s : MruSet T) (extra held : List (Entry T)) : Prop where
  pos : 0 < s.nMaxSize
  entries : s.set.entries.Perm (extra ++ held)
  nodes : ((extra ++ held).map Sigma.snd).Nodup
  made : ∀ e ∈ extra ++ held, e.2 < s.nNodes
  length : s.order.length = s.nMaxSize
  queue : Queue s.firstUsed (held.map fun e => some e.2) s.order
  le : held.length ≤ s.nMaxSize
  used : s.firstUsed < s.nMaxSize
  unused : s.firstUnused = (s.firstUsed + held.length) % s.nMaxSize

variable {s s' : MruSet T} {extra held : List (Entry T)} {x : T} {it : Nat}

@[simp] theorem nMaxSize_addNode (s : MruSet T) (x : T) : (s.addNode x).nMaxSize = s.nMaxSize := rfl

theorem held_clear (h : 0 < s.nMaxSize) : Held s.clear [] [] where
  pos := h
  entries := .nil
  nodes := List.nodup_nil
  made := nofun
  length := List.length_replicate
  queue := Queue.empty _ _
  le := Nat.zero_le _
  used := h
  unused := (Nat.zero_mod _).symm

namespace Held

theorem lookup_iff (h : Held s extra held) : s.set.lookup x = some it ↔ ⟨x, it⟩ ∈ extra ++ held :=
  mem_entries.symm.trans h.entries.mem_iff

/-- An element is in the set if it has a node. -/
theorem isSome_iff (h : Held s [] held) : (s.set.lookup x).isSome = true ↔ x ∈ held.map Sigma.fst := by
  rw [Option.isSome_iff_exists, List.mem_map]
  constructor
  · rintro ⟨it, hit⟩
    exact ⟨⟨x, it⟩, h.lookup_iff.mp hit, rfl⟩
  · rintro ⟨⟨_, it⟩, he, rfl⟩
    exact ⟨it, h.lookup_iff.mpr he⟩

/-- An iterator of the set points to its element. -/
theorem deref_eq (h : Held s extra held) (he : ⟨x, it⟩ ∈ extra ++ held) : s.deref it = some x := by
  unfold deref
  cases hf : s.set.entries.find? fun e => e.2 = it with
  | none => exact absurd (List.find?_eq_none.mp hf _ (h.entries.mem_iff.mpr he)) (by simp)
  | some e =>
    have hit : e.2 = it := by simpa using List.find?_some hf
    have hmem := h.entries.mem_iff.mp (List.mem_of_find?_eq_some hf)
    rw [List.inj_on_of_nodup_map h.nodes hmem he hit]
    rfl

/-- A new element is in the set first. -/
theorem addNode (h : Held s [] held) (hx : s.set.lookup x = none) :
    Held (s.addNode x) [⟨x, s.nNodes⟩] held where
  pos := h.pos
  entries := by
    rw [MruSet.addNode, entries_insert, erase_entries hx]
    exact h.entries.cons _
  nodes := by
    refine List.nodup_cons.mpr ⟨fun hmem => ?_, h.nodes⟩
    obtain ⟨e, he, heq⟩ := List.mem_map.mp hmem
    exact absurd heq (Nat.ne_of_lt (h.made e he))
  made e he := by
    rcases List.mem_cons.mp he with rfl | he
    · exact Nat.lt_succ_self _
    · exact Nat.lt_succ_of_lt (h.made e he)
  length := h.length
  queue := h.queue
  le := h.le
  used := h.used
  unused := h.unused

/-- The first element of the queue is erased. -/
theorem evict (h : Held s extra (⟨x, it⟩ :: held)) :
    ∃ s', s.evict = some s' ∧ s'.nMaxSize = s.nMaxSize ∧ Held s' extra held := by
  have hr : s.firstUsed < s.order.length := h.length ▸ h.used
  have hfront : s.order[s.firstUsed]? = some (some it) := h.queue.front hr
  have hderef : s.deref it = some x :=
    h.deref_eq (List.mem_append_right _ List.mem_cons_self)
  have hlen : held.length < s.nMaxSize := h.le
  have hpop := h.queue.pop hr (by rw [List.length_map, h.length]; exact hlen) none
  rw [h.length, ← nextPlace_eq h.used] at hpop
  have hnext : nextPlace s.nMaxSize s.firstUsed = (s.firstUsed + 1) % s.nMaxSize := nextPlace_eq h.used
  have hmiddle : (extra ++ ⟨x, it⟩ :: held).Perm (⟨x, it⟩ :: (extra ++ held)) := List.perm_middle
  refine ⟨{ s with
      set := s.set.erase x
      order := s.order.set s.firstUsed none
      firstUsed := nextPlace s.nMaxSize s.firstUsed },
    by simp [MruSet.evict, hfront, hderef], rfl, ?_⟩
  exact
    { pos := h.pos
      entries := entries_erase_perm (h.entries.trans hmiddle)
      nodes := (List.nodup_cons.mp ((hmiddle.map Sigma.snd).nodup_iff.mp h.nodes)).2
      made := fun e he => h.made e (hmiddle.mem_iff.mpr (List.mem_cons_of_mem _ he))
      length := List.length_set.trans h.length
      queue := hpop
      le := Nat.le_of_lt hlen
      used := hnext ▸ Nat.mod_lt _ h.pos
      unused := by
        show s.firstUnused = (nextPlace s.nMaxSize s.firstUsed + held.length) % s.nMaxSize
        rw [hnext, Nat.mod_add_mod, h.unused, List.length_cons, Nat.add_assoc, Nat.add_comm 1] }

/-- An element of the set is put after the last one of a queue that is not full. -/
theorem append (h : Held s [⟨x, it⟩] held) (hlt : held.length < s.nMaxSize) :
    ∃ s', s.append it = some s' ∧ s'.nMaxSize = s.nMaxSize ∧ Held s' [] (held ++ [⟨x, it⟩]) := by
  have hplace : s.firstUnused < s.nMaxSize := h.unused ▸ Nat.mod_lt _ h.pos
  have hpush := h.queue.push (by rw [List.length_map, h.length]; exact hlt) (some it)
  rw [h.length, List.length_map, ← h.unused] at hpush
  have hperm : ([⟨x, it⟩] ++ held : List (Entry T)).Perm ([] ++ (held ++ [⟨x, it⟩])) :=
    (List.perm_append_singleton _ _).symm
  refine ⟨_, if_pos (h.length ▸ hplace), rfl, ?_⟩
  exact
    { pos := h.pos
      entries := h.entries.trans hperm
      nodes := (hperm.map Sigma.snd).nodup_iff.mp h.nodes
      made := fun e he => h.made e (hperm.mem_iff.mpr he)
      length := List.length_set.trans h.length
      queue := by
        rw [List.map_append]
        exact hpush
      le := by
        rw [List.length_append]
        exact hlt
      used := h.used
      unused := by
        show nextPlace s.nMaxSize s.firstUnused = _
        rw [nextPlace_eq hplace, h.unused, Nat.mod_add_mod, List.length_append, List.length_singleton,
          Nat.add_assoc] }

end Held

/-! ## The last part of what was inserted -/

/-- The queue has the last elements of `inserted`. -/
def Recent (s : MruSet T) (inserted : List T) : Prop :=
  ∃ held, Held s [] held ∧ held.map Sigma.fst = inserted.rtake s.nMaxSize

theorem recent_clear (h : 0 < s.nMaxSize) : Recent s.clear [] :=
  ⟨[], held_clear h, (List.rtake_nil _).symm⟩

omit [DecidableEq T] in
/-- The last elements without the first of them are fewer. -/
theorem tail_rtake {l : List T} {n : Nat} (h : n < l.length) : (l.rtake (n + 1)).tail = l.rtake n := by
  rw [List.rtake, List.rtake, List.tail_drop]
  congr 1
  omega

omit [DecidableEq T] in
theorem rtake_of_length_le {l : List T} {n : Nat} (h : l.length ≤ n) : l.rtake n = l := by
  rw [List.rtake, Nat.sub_eq_zero_of_le h, List.drop_zero]

omit [DecidableEq T] in
theorem length_rtake (l : List T) (n : Nat) : (l.rtake n).length = min n l.length := by
  rw [List.rtake, List.length_drop]
  omega

namespace Recent

variable {inserted : List T}

theorem isSome_iff (h : Recent s inserted) :
    (s.set.lookup x).isSome = true ↔ x ∈ inserted.rtake s.nMaxSize := by
  obtain ⟨held, hheld, heq⟩ := h
  rw [hheld.isSome_iff, heq]

/-- The set with one more element inserted. -/
theorem insert_new (h : Recent s inserted) (hx : s.set.lookup x = none) :
    ∃ s', s.insert x = some ((s.nNodes, true), s') ∧ s'.nMaxSize = s.nMaxSize ∧
      Recent s' (inserted ++ [x]) := by
  obtain ⟨held, hheld, heq⟩ := h
  have hadd := hheld.addNode hx
  have hsize : (s.addNode x).size = held.length + 1 := hadd.entries.length_eq
  have hheldLen : held.length = min s.nMaxSize inserted.length := by
    rw [← length_rtake, ← heq, List.length_map]
  obtain ⟨n, hn⟩ := Nat.exists_eq_succ_of_ne_zero hheld.pos.ne'
  have hlast : (inserted ++ [x]).rtake s.nMaxSize = inserted.rtake n ++ [x] := by
    rw [hn, Nat.succ_eq_add_one, List.rtake_concat_succ]
  rcases Nat.lt_or_ge held.length s.nMaxSize with hlt | hge
  · -- the queue is not full
    obtain ⟨s', hs', hmax, hheld'⟩ := hadd.append hlt
    refine ⟨s', ?_, hmax, _, hheld', ?_⟩
    · have hroom : (s.addNode x).makeRoom = some (s.addNode x) :=
        if_neg (hsize ▸ fun hfull => Nat.ne_of_lt hlt (Nat.succ.inj hfull))
      simp [MruSet.insert, hx, hroom, hs']
    · rw [hmax, nMaxSize_addNode, hlast, List.map_append, heq, rtake_of_length_le (by omega),
        rtake_of_length_le (by omega)]
      rfl
  · -- its first element is evicted
    obtain ⟨⟨y, it⟩, rest, rfl⟩ : ∃ e rest, held = e :: rest := by
      cases held with
      | nil => exact absurd hge (Nat.not_le.mpr hheld.pos)
      | cons e rest => exact ⟨e, rest, rfl⟩
    obtain ⟨s₁, hs₁, hmax₁, hheld₁⟩ := hadd.evict
    obtain ⟨s', hs', hmax, hheld'⟩ := hheld₁.append (hmax₁ ▸ hheld.le)
    have hle : s.nMaxSize = (⟨y, it⟩ :: rest : List (Entry T)).length := Nat.le_antisymm hge hheld.le
    refine ⟨s', ?_, hmax.trans hmax₁, _, hheld', ?_⟩
    · have hroom : (s.addNode x).makeRoom = some s₁ :=
        (if_pos (hsize.trans (congrArg (· + 1) hle.symm))).trans hs₁
      simp [MruSet.insert, hx, hroom, hs']
    · have htail : rest.map Sigma.fst = inserted.rtake n := by
        rw [← tail_rtake (by omega), ← Nat.succ_eq_add_one, ← hn, ← heq]
        rfl
      rw [hmax, hmax₁, nMaxSize_addNode, hlast, List.map_append, htail]
      rfl

/-- An insertion is defined, and it succeeds if the element was not held. -/
theorem insert (h : Recent s inserted) (x : T) :
    ∃ it isNew s', s.insert x = some ((it, isNew), s') ∧ s'.nMaxSize = s.nMaxSize ∧
      (isNew = true ↔ x ∉ inserted.rtake s.nMaxSize) ∧
      Recent s' (if isNew then inserted ++ [x] else inserted) := by
  rw [← h.isSome_iff]
  cases hx : s.set.lookup x with
  | some it => exact ⟨it, false, s, by simp [MruSet.insert, hx], rfl, by simp, h⟩
  | none =>
    obtain ⟨s', hs', hmax, hrec⟩ := h.insert_new hx
    exact ⟨s.nNodes, true, s', hs', hmax, by simp, hrec⟩

/-- Every run of calls is defined. -/
theorem run (h : Recent s inserted) (hpos : 0 < s.nMaxSize) (calls : List (Call T)) :
    ∃ s' inserted', Framework.run step calls (s, inserted) = some (s', inserted') ∧
      s'.nMaxSize = s.nMaxSize ∧ Recent s' inserted' := by
  induction calls generalizing s inserted with
  | nil => exact ⟨s, inserted, rfl, rfl, h⟩
  | cons call calls ih =>
    cases call with
    | insert x =>
      obtain ⟨it, isNew, s₁, hs₁, hmax₁, -, hrec₁⟩ := h.insert x
      obtain ⟨s', inserted', hrun, hmax, hrec⟩ := ih hrec₁ (hmax₁ ▸ hpos)
      exact ⟨s', inserted', by rw [Framework.run, step, hs₁]; exact hrun, hmax.trans hmax₁, hrec⟩
    | clear => exact ih (recent_clear hpos) hpos

end Recent

/-- The set holds the last elements of `inserted`, in the order in which they were inserted in the ring
from `first_used` to `first_unused`. -/
structure HoldsLast (s : MruSet T) (inserted : List T) : Prop where
  count_iff : ∀ x, s.count x = 1 ↔ x ∈ inserted.rtake s.nMaxSize
  size_eq : s.size = min s.nMaxSize inserted.length
  ring : ∀ i < s.size, ∃ it x, s.order[(s.firstUsed + i) % s.nMaxSize]? = some (some it) ∧
    s.deref it = some x ∧ (inserted.rtake s.nMaxSize)[i]? = some x
  unused : s.firstUnused = (s.firstUsed + s.size) % s.nMaxSize

theorem Recent.holdsLast {inserted : List T} (h : Recent s inserted) : HoldsLast s inserted := by
  have hcount := fun x => h.isSome_iff (x := x)
  obtain ⟨held, hheld, heq⟩ := h
  have hsize : s.size = held.length := hheld.entries.length_eq
  refine ⟨fun x => ?_, ?_, fun i hi => ?_, ?_⟩
  · rw [← hcount, count]
    split_ifs with hx <;> simp [hx]
  · rw [hsize, ← length_rtake, ← heq, List.length_map]
  · rw [hsize] at hi
    refine ⟨held[i].2, held[i].1, ?_, hheld.deref_eq (List.getElem_mem hi), ?_⟩
    · have hqueue := hheld.queue i (by rwa [List.length_map])
      rw [hheld.length] at hqueue
      rw [hqueue, List.getElem?_map, List.getElem?_eq_getElem hi]
      rfl
    · rw [← heq, List.getElem?_map, List.getElem?_eq_getElem hi]
      rfl
  · rw [hsize, hheld.unused]

end MruSet

open MruSet in
/-- After any calls of `insert` and `clear`, all of which are defined, `mruset` holds the last
`nMaxSize` of the elements whose insertion succeeded since the last `clear`, and an insertion succeeds
if the element is not one of these. -/
theorem mruset_recent {nMaxSize : Nat} (h : 0 < nMaxSize) (calls : List (Call T)) :
    ∃ s inserted, Framework.run step calls (new nMaxSize, []) = some (s, inserted) ∧
      s.nMaxSize = nMaxSize ∧ s.HoldsLast inserted ∧
      ∀ x, ∃ it isNew s', s.insert x = some ((it, isNew), s') ∧
        (isNew = true ↔ x ∉ inserted.rtake nMaxSize) := by
  have hnew : Recent (new (T := T) nMaxSize) [] := recent_clear h
  obtain ⟨s, inserted, hrun, hmax, hrec⟩ := hnew.run h calls
  refine ⟨s, inserted, hrun, hmax, hrec.holdsLast, fun x => ?_⟩
  obtain ⟨it, isNew, s', hs', -, hiff, -⟩ := hrec.insert x
  rw [hmax] at hiff
  exact ⟨it, isNew, s', hs', hiff⟩

/-- A set for two elements in which the ring goes round: the third one puts out the first. -/
theorem mruset_recent_two :
    ∃ s, Framework.run MruSet.step [.insert 'a', .insert 'b', .insert 'c'] (MruSet.new 2, []) =
      some (s, ['a', 'b', 'c']) ∧ s.HoldsLast ['a', 'b', 'c'] ∧
      ['a', 'b', 'c'].map s.count = [0, 1, 1] := by
  obtain ⟨s, inserted, hrun, -, hlast, -⟩ :=
    mruset_recent (by decide : 0 < 2) [.insert 'a', .insert 'b', .insert 'c']
  cases hrun
  exact ⟨_, rfl, hlast, rfl⟩

end GC
