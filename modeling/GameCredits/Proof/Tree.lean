import Mathlib.Data.List.ReduceOption
import GameCredits.Model.ChainState
import GameCredits.Proof.Chain

/-!
# The tree of block index entries

What the entries look like as a forest (`ChainState.Tree`), and the active chain as a path in it
(`ChainState.Path`); both are kept by all operations.

* `getAncestor_iff`: the skip list leads to the ancestor of the given height.
* `contains_iff`: the active chain contains the ancestors of the tip.
* `updateTip_push`, `updateTip_pop`: moving the tip by one block.
-/

namespace GC

open Framework

namespace ChainState

def parent (s : ChainState) (p : Ptr) : Option Ptr := (s.node p).pprev

def height (s : ChainState) (p : Ptr) : Nat := (s.node p).nHeight

def status (s : ChainState) (p : Ptr) : BlockStatus := (s.node p).nStatus

/-- The entry is in the index. -/
def Known (s : ChainState) (p : Ptr) : Prop := p ∈ s.mapBlockIndex

instance (s : ChainState) (p : Ptr) : Decidable (s.Known p) :=
  inferInstanceAs (Decidable (p ∈ s.mapBlockIndex))

/-- `a` is `b` or an ancestor of it. -/
abbrev Anc (s : ChainState) (a b : Ptr) : Prop := Framework.Anc s.parent a b

/-- The entries form a forest, with the right skip pointers. Only blocks with a parent have undo
data. -/
structure Tree (s : ChainState) : Prop where
  graded : Graded s.parent s.height s.Known
  nodup : s.mapBlockIndex.Nodup
  skip : ∀ p q, s.Known p → s.parent p = some q →
    (s.node p).pskip = up s.parent (s.height p - getSkipHeight (s.height p)) p
  undo : ∀ p, s.Known p → (s.status p).haveUndo = true → s.parent p ≠ none

/-- The active chain is a path from a root. -/
structure Path (s : ChainState) : Prop where
  known : ∀ (i : Nat) (p : Ptr), s.vChain[i]? = some p → s.Known p
  height : ∀ (i : Nat) (p : Ptr), s.vChain[i]? = some p → s.height p = i
  link : ∀ (i : Nat) (p : Ptr), s.vChain[i + 1]? = some p → s.parent p = s.vChain[i]?

end ChainState

/-! ## Ancestors -/

section

variable {s s' : ChainState} {K : Ptr → Prop} {p q a : Ptr}

theorem ChainState.Tree.skipTree (T : s.Tree) : SkipTree s.node s.Known := ⟨T.graded, T.skip⟩

theorem SkipTree.chainAncestor (T : SkipTree s.node K) (hp : K p) {h : Nat} (hle : h ≤ s.height p) :
    s.getAncestor p h = up s.parent (s.height p - h) p := congrArg Option.join (T.getAncestor hp hle)

theorem getAncestor_iff (T : s.Tree) (hp : s.Known p) :
    s.getAncestor p (s.height a) = some a ↔ s.Anc a p := by
  rcases Nat.lt_or_ge (s.height p) (s.height a) with hlt | hle
  · rw [ChainState.getAncestor, getAncestor_none (.inr (Int.ofNat_lt.mpr hlt))]
    refine ⟨nofun, fun h => ?_⟩
    have := T.graded.height_le h hp
    omega
  · rw [T.skipTree.chainAncestor hp hle]
    exact ⟨fun h => (T.graded.up_anc hp h).1, (T.graded.anc_iff_up hp).mp⟩

/-! ## The active chain -/

theorem tip_getElem (P : s.Path) (h : s.tip = some p) : s.vChain[s.height p]? = some p := by
  have hlast : s.vChain[s.vChain.length - 1]? = some p := by
    rw [← List.getLast?_eq_getElem?]; exact h
  have := P.height _ _ hlast
  rwa [this]

theorem tip_length (P : s.Path) (h : s.tip = some p) : s.vChain.length = s.height p + 1 := by
  have hlast : s.vChain[s.vChain.length - 1]? = some p := by
    rw [← List.getLast?_eq_getElem?]; exact h
  have := P.height _ _ hlast
  have := (List.getElem?_eq_some_iff.mp hlast).1
  omega

theorem tip_known (P : s.Path) (h : s.tip = some p) : s.Known p := P.known _ _ (tip_getElem P h)

theorem tip_eq_none : s.tip = none ↔ s.vChain = [] := List.getLast?_eq_none_iff

/-- Entry `i` of the active chain is an ancestor of any later one. -/
theorem ChainState.Path.anc (P : s.Path) {i j : Nat} (hij : i ≤ j) (hi : s.vChain[i]? = some p)
    (hj : s.vChain[j]? = some q) : s.Anc p q := by
  induction j generalizing q with
  | zero =>
    obtain rfl : i = 0 := by omega
    rw [hi] at hj; cases hj; exact .refl
  | succ j ih =>
    rcases Nat.lt_or_ge i (j + 1) with hlt | hge
    · have hlink := P.link j q hj
      have hlen := (List.getElem?_eq_some_iff.mp hj).1
      have hr : s.vChain[j]? = some s.vChain[j] := List.getElem?_eq_getElem (by omega)
      exact .step (hlink.trans hr) (ih (by omega) hr)
    · obtain rfl : i = j + 1 := by omega
      rw [hi] at hj; cases hj; exact .refl

theorem contains_getElem : s.contains p = true ↔ s.vChain[s.height p]? = some p := by
  have hget : (s.vChain.map some)[s.height p]? = s.vChain[s.height p]?.map some := List.getElem?_map
  rw [ChainState.contains, CChain.contains, beq_iff_eq, CChain.get_natCast]
  show (s.vChain.map some)[s.height p]?.join = some p ↔ _
  rw [hget]
  cases s.vChain[s.height p]? <;> exact Iff.rfl

/-- The active chain contains the ancestors of the tip. -/
theorem contains_iff (T : s.Tree) (P : s.Path) :
    s.contains p = true ↔ ∃ t, s.tip = some t ∧ s.Anc p t := by
  rw [contains_getElem]
  constructor
  · intro h
    cases ht : s.tip with
    | none =>
      rw [tip_eq_none.mp ht] at h; cases h
    | some t =>
      have hlen := (List.getElem?_eq_some_iff.mp h).1
      have := tip_length P ht
      exact ⟨t, rfl, P.anc (by omega) h (tip_getElem P ht)⟩
  · rintro ⟨t, ht, hanc⟩
    have hk := tip_known P ht
    have hle := T.graded.height_le hanc hk
    have hlen := tip_length P ht
    have hr : s.vChain[s.height p]? = some s.vChain[s.height p] := List.getElem?_eq_getElem (by omega)
    have hanc' := P.anc hle hr (tip_getElem P ht)
    rw [hr, T.graded.ancestor_unique hanc' hanc hk (P.height _ _ hr)]

theorem contains_parent (T : s.Tree) (P : s.Path) (h : s.contains p = true)
    (hq : s.parent p = some q) : s.contains q = true := by
  obtain ⟨t, ht, hanc⟩ := (contains_iff T P).mp h
  exact (contains_iff T P).mpr ⟨t, ht, (Framework.Anc.parent_self hq).trans hanc⟩

/-- The height of a block on top of the active chain. -/
theorem height_next (T : s.Tree) (P : s.Path) (hp : s.Known p) (h : s.parent p = s.tip) :
    s.height p = s.vChain.length := by
  cases ht : s.tip with
  | none =>
    rw [ht] at h
    rw [T.graded.root p hp h, tip_eq_none.mp ht]; rfl
  | some t =>
    rw [ht] at h
    rw [T.graded.child p t hp h, tip_length P ht]

theorem ChainState.Path.branch (P : s.Path) (T : s.Tree) : s.cchain.Branch s.node s.tip := by
  cases ht : s.tip with
  | none =>
    show s.vChain.map some = []
    rw [tip_eq_none.mp ht]
    rfl
  | some t =>
    have hlen := tip_length P ht
    refine ⟨(List.length_map _).trans hlen, fun h hle => ?_⟩
    have hle' : h ≤ s.height t := hle
    have hget : s.vChain[h]? = some s.vChain[h] := List.getElem?_eq_getElem (by omega)
    have hanc := P.anc hle' hget (tip_getElem P ht)
    have hup := (T.graded.anc_iff_up (tip_known P ht)).mp hanc
    rw [P.height h _ hget] at hup
    show (s.vChain.map some)[h]? = _
    rw [List.getElem?_map, hget]
    exact congrArg some hup.symm

/-- `FindFork` finds the last ancestor on the active chain. -/
theorem fork_findFork (T : s.Tree) (P : s.Path) (hp : s.Known p) :
    CChain.Fork s.node s.cchain p (s.findFork p) := by
  have htip : ∀ t, s.tip = some t → t ∈ s.mapBlockIndex := fun t => tip_known P
  obtain ⟨fork, hfork, hspec⟩ := CChain.findFork_branch T.skipTree htip (P.branch T) hp
  rw [ChainState.findFork, hfork]
  exact hspec

theorem setTip_eq {vChain : List Ptr} (h : s.cchain.setTip s.node (some p) = some ⟨vChain.map some⟩) :
    s.setTip (some p) = vChain := by
  rw [ChainState.setTip, h, Option.elim_some, List.reduceOption, List.filterMap_map]
  exact List.filterMap_some

/-- The tip moves to a block on top of it. -/
theorem setTip_push (T : s.Tree) (P : s.Path) (hp : s.Known p) (h : s.parent p = s.tip) :
    s.setTip (some p) = s.vChain ++ [p] := by
  have hlen : (s.node p).nHeight = s.vChain.length := height_next T P hp h
  have hpar : (s.node p).pprev = s.tip := h
  have hresize : resize (s.vChain.map some) (s.vChain.length + 1) = s.vChain.map some ++ [none] := by
    rw [resize, List.take_of_length_le (by rw [List.length_map]; omega), List.length_map,
      Nat.add_sub_cancel_left]
    rfl
  have hset : (s.vChain.map some ++ [none]).set s.vChain.length (some p) = (s.vChain ++ [p]).map some := by
    rw [List.set_append_right _ _ (by rw [List.length_map]), List.length_map, Nat.sub_self, List.map_append]
    rfl
  refine setTip_eq ?_
  rw [CChain.setTip]
  show (CChain.setTipLoop s.node _ (resize (s.vChain.map some) ((s.node p).nHeight + 1)) _).map _ = _
  rw [hlen, hresize, CChain.setTipLoop, hlen, List.getElem?_append_right (by rw [List.length_map]),
    List.length_map, Nat.sub_self, List.getElem?_cons_zero, Option.bind_some, if_neg (by rintro ⟨⟩), hset,
    hpar]
  cases ht : s.tip with
  | none => cases s.vChain.length <;> rfl
  | some t =>
    -- the slot of the old tip is right
    have hslot : ((s.vChain ++ [p]).map some)[(s.node t).nHeight]? = some (some t) := by
      have hget : s.vChain[(s.node t).nHeight]? = some t := tip_getElem P ht
      rw [List.getElem?_map, List.getElem?_append_left (List.getElem?_eq_some_iff.mp hget).1, hget]
      rfl
    rw [tip_length P ht, CChain.setTipLoop, hslot, Option.bind_some, if_pos rfl]
    rfl

/-- The tip moves to its parent. -/
theorem setTip_pop (T : s.Tree) (P : s.Path) (ht : s.tip = some p) (h : s.parent p = some q) :
    s.setTip (some q) = s.vChain.dropLast := by
  have hq := contains_getElem.mp (contains_parent T P (contains_getElem.mpr (tip_getElem P ht)) h)
  have hlen := tip_length P ht
  have hh := T.graded.child p q (tip_known P ht) h
  have hresize : resize (s.vChain.map some) ((s.node q).nHeight + 1) = s.vChain.dropLast.map some := by
    have hlt : s.vChain.length - 1 = (s.node q).nHeight + 1 := by
      show s.vChain.length - 1 = s.height q + 1
      omega
    rw [resize, List.length_map, List.dropLast_eq_take, hlt, Nat.sub_eq_zero_of_le (by omega),
      ← List.map_take]
    exact List.append_nil _
  have hslot : (s.vChain.dropLast.map some)[(s.node q).nHeight]? = some (some q) := by
    rw [List.getElem?_map, List.getElem?_dropLast, if_pos (by show s.height q < _; omega)]
    exact congrArg (Option.map some) hq
  refine setTip_eq ?_
  rw [CChain.setTip]
  show (CChain.setTipLoop s.node _ (resize (s.vChain.map some) ((s.node q).nHeight + 1)) _).map _ = _
  rw [hresize, CChain.setTipLoop, hslot, Option.bind_some, if_pos rfl]
  rfl

/-! ## Steps that keep the tree -/

/-- What never changes in an entry. -/
def CBlockIndex.place (e : CBlockIndex) : UInt256 × Option Ptr × Option Ptr × Nat × Nat :=
  (e.phashBlock, e.pprev, e.pskip, e.nHeight, e.nChainWork)

namespace ChainState

/-- The same entries in the same places. -/
structure SameTree (s s' : ChainState) : Prop where
  index : s'.mapBlockIndex = s.mapBlockIndex
  place : ∀ p, (s'.node p).place = (s.node p).place

theorem SameTree.refl (s : ChainState) : s.SameTree s := ⟨rfl, fun _ => rfl⟩

theorem SameTree.trans {s s' s'' : ChainState} (h : s.SameTree s') (h' : s'.SameTree s'') :
    s.SameTree s'' := ⟨h'.index.trans h.index, fun p => (h'.place p).trans (h.place p)⟩

theorem SameTree.parent (h : s.SameTree s') : s'.parent = s.parent := funext fun p => by
  have := h.place p
  simp only [CBlockIndex.place, Prod.mk.injEq] at this
  exact this.2.1

theorem SameTree.anc (h : s.SameTree s') : s'.Anc a q ↔ s.Anc a q := by
  rw [show s'.Anc a q = Framework.Anc s'.parent a q from rfl, h.parent]

theorem SameTree.height (h : s.SameTree s') : s'.height = s.height := funext fun p => by
  have := h.place p
  simp only [CBlockIndex.place, Prod.mk.injEq] at this
  exact this.2.2.2.1

theorem SameTree.pskip (h : s.SameTree s') (p : Ptr) : (s'.node p).pskip = (s.node p).pskip := by
  have := h.place p
  simp only [CBlockIndex.place, Prod.mk.injEq] at this
  exact this.2.2.1

theorem SameTree.skipTree (h : s.SameTree s') (T : s.Tree) : SkipTree s'.node s.Known :=
  T.skipTree.touch fun p => ⟨congrFun h.parent p, h.pskip p, congrFun h.height p⟩

theorem SameTree.known (h : s.SameTree s') : s'.Known = s.Known := funext fun p => by
  rw [Known, Known, h.index]

/-- The tree is kept where undo data appears only for blocks with a parent. -/
theorem Tree.same (T : s.Tree) (h : s.SameTree s')
    (hundo : ∀ p, s.Known p → (s'.status p).haveUndo = true →
      (s.status p).haveUndo = true ∨ s.parent p ≠ none) : s'.Tree where
  graded := by rw [h.parent, h.height, h.known]; exact T.graded
  nodup := by rw [h.index]; exact T.nodup
  skip p q hp hq := by
    rw [h.known] at hp
    rw [h.parent] at hq ⊢
    rw [h.height, h.pskip]
    exact T.skip p q hp hq
  undo p hp hu := by
    rw [h.known] at hp
    rw [h.parent]
    exact (hundo p hp hu).elim (T.undo p hp) id

theorem Path.same (P : s.Path) (h : s.SameTree s') (hc : s'.vChain = s.vChain) : s'.Path where
  known i p hi := by rw [h.known]; exact P.known i p (hc ▸ hi)
  height i p hi := by rw [h.height]; exact P.height i p (hc ▸ hi)
  link i p hi := by rw [h.parent, hc]; exact P.link i p (hc ▸ hi)

theorem Path.push (T : s.Tree) (P : s.Path) (hp : s.Known p) (h : s.parent p = s.tip)
    (hs : s.SameTree s') (hc : s'.vChain = s.vChain ++ [p]) : s'.Path := by
  have hlen := height_next T P hp h
  have hget : ∀ (i : Nat) (q : Ptr), s'.vChain[i]? = some q →
      s.vChain[i]? = some q ∨ i = s.vChain.length ∧ q = p := by
    intro i q hi
    rw [hc, List.getElem?_append] at hi
    split_ifs at hi with hlt
    · exact .inl hi
    · have : i - s.vChain.length = 0 := by
        have := (List.getElem?_eq_some_iff.mp hi).1
        simpa using this
      rw [this] at hi
      cases hi
      exact .inr ⟨by omega, rfl⟩
  refine ⟨fun i q hi => ?_, fun i q hi => ?_, fun i q hi => ?_⟩
  · rw [hs.known]
    rcases hget i q hi with hi | ⟨-, rfl⟩
    · exact P.known i q hi
    · exact hp
  · rw [hs.height]
    rcases hget i q hi with hi | ⟨rfl, rfl⟩
    · exact P.height i q hi
    · exact hlen
  · rw [hs.parent]
    rcases hget _ q hi with hi | ⟨hi, rfl⟩
    · rw [P.link i q hi, hc, List.getElem?_append_left]
      have := (List.getElem?_eq_some_iff.mp hi).1
      omega
    · rw [h, tip, List.getLast?_eq_getElem?, hc, List.getElem?_append_left (by omega), ← hi]
      rfl

theorem Path.pop (P : s.Path) (hs : s.SameTree s') (hc : s'.vChain = s.vChain.dropLast) :
    s'.Path := by
  have hget : ∀ (i : Nat) (q : Ptr), s'.vChain[i]? = some q → s.vChain[i]? = some q := by
    intro i q hi
    rw [hc, List.getElem?_dropLast] at hi
    split_ifs at hi
    exact hi
  refine ⟨fun i q hi => ?_, fun i q hi => ?_, fun i q hi => ?_⟩
  · rw [hs.known]; exact P.known i q (hget i q hi)
  · rw [hs.height]; exact P.height i q (hget i q hi)
  · rw [hs.parent, P.link i q (hget _ q hi), hc, List.getElem?_dropLast, if_pos]
    have := (List.getElem?_eq_some_iff.mp hi).1
    rw [hc, List.length_dropLast] at this
    omega

end ChainState

end

end GC
