import GameCredits.Framework.Forest
import GameCredits.Model.Chain

/-!
# The skip list

In a tree whose skip pointers lead to the ancestors at the skip heights (`SkipTree`), `GetAncestor`
finds the ancestor that as many steps to the parent lead to (`SkipTree.getAncestor`). Every block tree is
such a tree (`BlockTree.skipTree`), by induction on its entries: `BuildSkip` itself calls `GetAncestor`
on the entries that are there.
-/

namespace GC

open Framework

/-- `pprev` of entries. -/
def parentOf (node : Ptr → CBlockIndex) (p : Ptr) : Option Ptr := (node p).pprev

/-- `nHeight` of entries. -/
def heightOf (node : Ptr → CBlockIndex) (p : Ptr) : Nat := (node p).nHeight

/-- Entries whose skip pointers lead to the ancestors at the skip heights. -/
structure SkipTree (node : Ptr → CBlockIndex) (K : Ptr → Prop) : Prop where
  graded : Graded (parentOf node) (heightOf node) K
  skip : ∀ p q, K p → parentOf node p = some q →
    (node p).pskip = up (parentOf node) (heightOf node p - getSkipHeight (heightOf node p)) p

section

variable {node node' : Ptr → CBlockIndex} {K : Ptr → Prop} {p q : Ptr} {known : List Ptr}

/-- No jump of the walk overshoots: it ends at the ancestor. -/
theorem SkipTree.loop_eq (T : SkipTree node K) {h n fuel : Nat} (hp : K p) (hn : heightOf node p = n)
    (hle : h ≤ n) (hfuel : n ≤ fuel) :
    getAncestorLoop node h fuel n (some p) = some (up (parentOf node) (n - h) p) := by
  induction fuel generalizing n p with
  | zero =>
    obtain rfl : n = 0 := by omega
    obtain rfl : h = 0 := by omega
    rfl
  | succ fuel ih =>
    rw [getAncestorLoop]
    by_cases hlt : h < n
    · rw [if_pos hlt, Option.bind_some]
      obtain ⟨q, hq⟩ := T.graded.parent_of_pos hp (by omega)
      have hqh := T.graded.child p q hp hq
      have hskip := getSkipHeight_lt (n := n) (by omega)
      dsimp only
      split_ifs with hcond
      · -- the skip pointer, to an entry that is not below the height
        obtain ⟨r, hr, hanc, hrh⟩ := T.graded.up_spec (n - getSkipHeight n) hp (by omega)
        have hsum : n - h = (n - getSkipHeight n) + (getSkipHeight n - h) := by omega
        have hpskip := T.skip p q hp hq
        rw [hn, hr] at hpskip
        rw [hpskip, ih (T.graded.anc_mem hanc hp) (by omega) (by omega) (by omega), hsum, up_add, hr,
          Option.bind_some]
      · have hprev : (node p).pprev = some q := hq
        have hsum : n - h = (n - 1 - h) + 1 := by omega
        rw [hprev, ih (T.graded.closed p q hp hq) (by omega) (by omega) (by omega), hsum, up, hq,
          Option.bind_some]
    · rw [if_neg hlt, Nat.sub_eq_zero_of_le (by omega)]
      rfl

theorem SkipTree.getAncestor (T : SkipTree node K) (hp : K p) {h : Nat} (hle : h ≤ heightOf node p) :
    GC.getAncestor node p h = some (up (parentOf node) (heightOf node p - h) p) := by
  have hle' : h ≤ (node p).nHeight := hle
  rw [GC.getAncestor, if_neg (by omega), Int.toNat_natCast]
  exact T.loop_eq hp rfl hle (Nat.le_refl _)

theorem getAncestor_none {h : Int} (hout : h < 0 ∨ heightOf node p < h) :
    getAncestor node p h = some none := by
  have hout : h < 0 ∨ ((node p).nHeight : Int) < h := hout
  rw [getAncestor, if_pos (by omega)]

/-- The skip list does not depend on what else is in the entries. -/
theorem SkipTree.touch (T : SkipTree node K) (hsame : ∀ p, (node' p).pprev = (node p).pprev ∧
    (node' p).pskip = (node p).pskip ∧ (node' p).nHeight = (node p).nHeight) : SkipTree node' K := by
  have hpar : parentOf node' = parentOf node := funext fun p => (hsame p).1
  have hh : heightOf node' = heightOf node := funext fun p => (hsame p).2.2
  refine ⟨?_, fun p q hp hq => ?_⟩
  · rw [hpar, hh]
    exact T.graded
  · rw [(hsame p).2.1, hpar, hh]
    rw [hpar] at hq
    exact T.skip p q hp hq

/-! ## Block trees -/

/-- The skip pointers of the entries that are there stay right, and that of a new entry is right. -/
theorem SkipTree.add (T : SkipTree node (· ∈ known)) {e : CBlockIndex} (hnew : p ∉ known)
    (hprev : e.pprev = some q) (hq : q ∈ known) (hheight : e.nHeight = (node q).nHeight + 1)
    (hskip : buildSkip node e = some e.pskip) :
    SkipTree (Function.update node p e) (· ∈ p :: known) := by
  have hself : Function.update node p e p = e := Function.update_self ..
  have hother : ∀ c ∈ known, Function.update node p e c = node c := fun c hc =>
    Function.update_of_ne (fun h : c = p => hnew (h ▸ hc)) e node
  have hpar : ∀ c ∈ known, parentOf (Function.update node p e) c = parentOf node c := fun c hc => by
    rw [parentOf, hother c hc, parentOf]
  have hh : ∀ c ∈ known, heightOf (Function.update node p e) c = heightOf node c := fun c hc => by
    rw [heightOf, hother c hc, heightOf]
  have hparp : parentOf (Function.update node p e) p = some q := by rw [parentOf, hself, hprev]
  have hhp : heightOf (Function.update node p e) p = heightOf node q + 1 := by
    rw [heightOf, hself, hheight, heightOf]
  have hgraded := T.graded.insert hpar hh hnew
    (fun b hb => by
      rw [hparp] at hb
      obtain rfl := Option.some.inj hb
      exact ⟨hq, hhp⟩)
    (fun h => by rw [hparp] at h; cases h)
  refine ⟨⟨fun a b ha => ?_, fun a b ha => ?_, fun a ha => ?_⟩, fun c r hc hr => ?_⟩
  · intro hab
    rcases hgraded.closed a b (List.mem_cons.mp ha).symm hab with hb | rfl
    · exact List.mem_cons_of_mem _ hb
    · exact List.mem_cons_self
  · exact hgraded.child a b (List.mem_cons.mp ha).symm
  · exact hgraded.root a (List.mem_cons.mp ha).symm
  · rcases List.mem_cons.mp hc with rfl | hc
    · -- the new entry: one step up, then what `GetAncestor` found from the parent
      have hlt := getSkipHeight_lt (n := heightOf node q + 1) (by omega)
      have hfound : e.pskip =
          up (parentOf node) (heightOf node q - getSkipHeight (heightOf node q + 1)) q := by
        rw [buildSkip, hprev, hheight] at hskip
        dsimp only at hskip
        rw [show (node q).nHeight = heightOf node q from rfl, T.getAncestor hq (by omega)] at hskip
        exact (Option.some.inj hskip).symm
      rw [hself, hfound, hhp,
        show heightOf node q + 1 - getSkipHeight (heightOf node q + 1) =
          heightOf node q - getSkipHeight (heightOf node q + 1) + 1 by omega,
        up, hparp, Option.bind_some, T.graded.up_congr hpar _ hq]
    · rw [hpar c hc] at hr
      rw [hother c hc, hh c hc, T.graded.up_congr hpar _ hc]
      exact T.skip c r hc hr

theorem BlockTree.skipTree (T : BlockTree node known) : SkipTree node (· ∈ known) := by
  induction T with
  | @genesis node p hprev hheight =>
    have hnone : ∀ a ∈ [p], parentOf node a = none := fun a ha => by
      rw [List.mem_singleton.mp ha]
      exact hprev
    refine ⟨⟨fun a b ha h => ?_, fun a b ha h => ?_, fun a ha _ => ?_⟩, fun a b ha h => ?_⟩
    · rw [hnone a ha] at h
      cases h
    · rw [hnone a ha] at h
      cases h
    · rw [List.mem_singleton.mp ha]
      exact hheight
    · rw [hnone a ha] at h
      cases h
  | add _ hnew hprev hq hheight hskip ih => exact ih.add hnew hprev hq hheight hskip
  | touch _ hsame ih => exact ih.touch hsame

/-- `GetAncestor` ends without a null pointer, with the entry at the height that the parents lead to;
outside the heights of an entry's ancestors it returns a null pointer. -/
theorem BlockTree.getAncestor_eq (T : BlockTree node known) (hp : p ∈ known) (height : Int) :
    (0 ≤ height ∧ height ≤ (node p).nHeight →
      ∃ a, getAncestor node p height = some (some a) ∧
        up (parentOf node) ((node p).nHeight - height.toNat) p = some a ∧ (node a).nHeight = height) ∧
    (height < 0 ∨ (node p).nHeight < height → getAncestor node p height = some none) := by
  constructor
  · rintro ⟨h₀, hle⟩
    obtain ⟨h, rfl⟩ := Int.eq_ofNat_of_zero_le h₀
    have hle' : h ≤ heightOf node p := Int.ofNat_le.mp hle
    obtain ⟨a, ha, -, hah⟩ := T.skipTree.graded.up_spec (heightOf node p - h) hp (by omega)
    refine ⟨a, ?_, ha, ?_⟩
    · rw [T.skipTree.getAncestor hp hle', ha]
    · show (heightOf node a : Int) = h
      omega
  · exact getAncestor_none

/-- `BlockTree.add` for an entry that is written already. -/
theorem BlockTree.grow (T : BlockTree node known) (hnew : p ∉ known) (hprev : (node p).pprev = some q)
    (hq : q ∈ known) (hheight : (node p).nHeight = (node q).nHeight + 1)
    (hskip : buildSkip node (node p) = some (node p).pskip) : BlockTree node (p :: known) := by
  have hadd := T.add hnew hprev hq hheight hskip
  rwa [Function.update_eq_self] at hadd

/-- Parents, skip pointers and heights: blocks 1, 2 and 3 are on top of the genesis block, and blocks 4
to 8 are a branch from block 1. -/
def branchTable : List (Option Ptr × Option Ptr × Nat) :=
  [(none, none, 0), (some 0, some 0, 1), (some 1, some 0, 2), (some 2, some 1, 3), (some 1, some 0, 2),
    (some 4, some 1, 3), (some 5, some 0, 4), (some 6, some 1, 5), (some 7, some 6, 6)]

def branchNode (p : Ptr) : CBlockIndex :=
  let (pprev, pskip, nHeight) := branchTable.getD p (none, none, 0)
  { CBlockIndex.ofHeader (Fin.ofNat _ p) ⟨2, 0, 0, 1392757230, 0x1e0ffff0, 0⟩ with
    pprev := pprev
    pskip := pskip
    nHeight := nHeight }

theorem branchTree : BlockTree branchNode [8, 7, 6, 5, 4, 3, 2, 1, 0] := by
  refine .grow (.grow (.grow (.grow (.grow (.grow (.grow (.grow (.genesis rfl rfl)
    ?_ rfl ?_ rfl ?_) ?_ rfl ?_ rfl ?_) ?_ rfl ?_ rfl ?_) ?_ rfl ?_ rfl ?_) ?_ rfl ?_ rfl ?_)
    ?_ rfl ?_ rfl ?_) ?_ rfl ?_ rfl ?_) ?_ rfl ?_ rfl ?_ <;>
  decide

theorem branchTree_getAncestor :
    getAncestor branchNode 8 2 = some (some 4) ∧ getAncestor branchNode 8 7 = some none := by
  obtain ⟨a, hget, hup, -⟩ := (branchTree.getAncestor_eq (p := 8) (by decide) 2).1 (by decide)
  obtain rfl : 4 = a := Option.some.inj hup
  exact ⟨hget, (branchTree.getAncestor_eq (p := 8) (by decide) 7).2 (.inr (by decide))⟩

end

end GC
