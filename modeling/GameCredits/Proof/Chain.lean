import GameCredits.Proof.Skip

/-!
# CChain is one branch

After any calls of `SetTip` the vector of a `CChain` holds the ancestors of the tip, each in the slot of
its height (`CChain.Branch`, `setTips_branch`): `SetTip` stops at a slot that holds the right entry
already, and everything below such a slot is right (`Sound`). `FindFork` then returns the last common
ancestor of an entry and the tip (`findFork_branch`).
-/

namespace GC

open Framework

variable {node : Ptr → CBlockIndex} {known : List Ptr} {c : CChain} {p q t : Ptr}

/-! ## The genesis block -/

/-- All entries of a block tree are on top of one root. -/
theorem BlockTree.root (T : BlockTree node known) :
    ∃ g ∈ known, heightOf node g = 0 ∧ ∀ p ∈ known, Anc (parentOf node) g p := by
  induction T with
  | @genesis node p _ hheight =>
    exact ⟨p, List.mem_cons_self, hheight, fun q hq => by
      rw [List.mem_singleton.mp hq]
      exact .refl⟩
  | @add node known p q e T hnew hprev hq hheight hskip ih =>
    obtain ⟨g, hg, hgh, hanc⟩ := ih
    have hother : ∀ c ∈ known, Function.update node p e c = node c := fun c hc =>
      Function.update_of_ne (fun h : c = p => hnew (h ▸ hc)) e node
    have hpar : ∀ c ∈ known, parentOf (Function.update node p e) c = parentOf node c := fun c hc => by
      rw [parentOf, hother c hc, parentOf]
    have hparp : parentOf (Function.update node p e) p = some q := by
      rw [parentOf, Function.update_self, hprev]
    have hold : ∀ c ∈ known, Anc (parentOf (Function.update node p e)) g c := fun c hc =>
      (T.skipTree.graded.anc_congr hpar hc).mpr (hanc c hc)
    refine ⟨g, List.mem_cons_of_mem _ hg, ?_, fun c hc => ?_⟩
    · rw [heightOf, hother g hg]
      exact hgh
    · rcases List.mem_cons.mp hc with rfl | hc
      · exact .step hparp (hold q hq)
      · exact hold c hc
  | @touch node node' known _ hsame ih =>
    have hpar : parentOf node' = parentOf node := funext fun p => (hsame p).1
    have hh : heightOf node' = heightOf node := funext fun p => (hsame p).2.2
    rw [hpar, hh]
    exact ih

/-! ## SetTip -/

/-- The vector holds the ancestors of the tip, each in the slot of its height. -/
def CChain.Branch (node : Ptr → CBlockIndex) (c : CChain) : Option Ptr → Prop
  | none => c.vChain = []
  | some t => c.vChain.length = heightOf node t + 1 ∧
      ∀ h, h ≤ heightOf node t → c.vChain[h]? = some (up (parentOf node) (heightOf node t - h) t)

/-- Below a slot that holds an ancestor of `p` at its height, everything is right. -/
def Sound (node : Ptr → CBlockIndex) (vChain : List (Option Ptr)) (p : Ptr) : Prop :=
  ∀ a, Anc (parentOf node) a p → vChain[heightOf node a]? = some (some a) →
    ∀ h, h ≤ heightOf node a → vChain[h]? = some (up (parentOf node) (heightOf node a - h) a)

theorem resize_length (vChain : List (Option Ptr)) (n : Nat) : (resize vChain n).length = n := by
  rw [resize, List.length_append, List.length_take, List.length_replicate]
  omega

theorem resize_getElem? {vChain : List (Option Ptr)} {n h : Nat} (hn : h < n)
    (hlen : h < vChain.length) : (resize vChain n)[h]? = vChain[h]? := by
  rw [resize, List.getElem?_append_left (by rw [List.length_take]; omega), List.getElem?_take,
    if_pos hn]

theorem resize_getElem?_some {vChain : List (Option Ptr)} {n h : Nat} {a : Ptr}
    (hget : (resize vChain n)[h]? = some (some a)) : vChain[h]? = some (some a) := by
  rw [resize, List.getElem?_append] at hget
  split_ifs at hget with hlt
  · rw [List.getElem?_take] at hget
    split_ifs at hget with hn
    · exact hget
  · rw [List.getElem?_replicate] at hget
    split_ifs at hget
    cases Option.some.inj hget

/-- A branch is sound for every entry. -/
theorem CChain.Branch.sound {tip : Option Ptr} (B : c.Branch node tip) (p : Ptr) :
    Sound node c.vChain p := by
  intro a _ hslot h hle
  have hlen := (List.getElem?_eq_some_iff.mp hslot).1
  cases tip with
  | none =>
    rw [show c.vChain = [] from B] at hlen
    exact absurd hlen (Nat.not_lt_zero _)
  | some t =>
    obtain ⟨hlength, hslots⟩ := B
    -- the slot says that `a` is the ancestor of the tip at its height
    have hat : up (parentOf node) (heightOf node t - heightOf node a) t = some a :=
      Option.some.inj ((hslots _ (by omega)).symm.trans hslot)
    have hsum : heightOf node t - h =
        (heightOf node t - heightOf node a) + (heightOf node a - h) := by omega
    rw [hslots h (by omega), hsum, up_add, hat, Option.bind_some]

/-- A resize for a new tip keeps the vector sound for it. -/
theorem Sound.resize {vChain : List (Option Ptr)} (hsound : Sound node vChain p)
    (T : SkipTree node (· ∈ known)) (hp : p ∈ known) :
    Sound node (GC.resize vChain (heightOf node p + 1)) p := by
  intro a ha hslot h hle
  have hold := resize_getElem?_some hslot
  have hlen := (List.getElem?_eq_some_iff.mp hold).1
  have hap := T.graded.height_le ha hp
  rw [resize_getElem? (by omega) (by omega)]
  exact hsound a ha hold h hle

/-- The loop writes the ancestors down to a slot that is right, and leaves the rest. -/
theorem CChain.setTipLoop_spec (T : SkipTree node (· ∈ known)) (fuel : Nat)
    {vChain : List (Option Ptr)} (hp : p ∈ known) (hlen : heightOf node p < vChain.length)
    (hsound : Sound node vChain p) (hfuel : heightOf node p < fuel) :
    ∃ vChain', CChain.setTipLoop node fuel vChain (some p) = some vChain' ∧
      vChain'.length = vChain.length ∧
      (∀ h, h ≤ heightOf node p →
        vChain'[h]? = some (up (parentOf node) (heightOf node p - h) p)) ∧
      ∀ h, heightOf node p < h → vChain'[h]? = vChain[h]? := by
  induction fuel generalizing p vChain with
  | zero => omega
  | succ fuel ih =>
    have hslot : vChain[(node p).nHeight]? = some vChain[heightOf node p] :=
      List.getElem?_eq_getElem hlen
    rw [CChain.setTipLoop, hslot, Option.bind_some]
    split_ifs with hmatch
    · exact ⟨vChain, rfl, rfl, hsound p .refl (hslot.trans (congrArg some hmatch)), fun h _ => rfl⟩
    have hset : ∀ h, (vChain.set (heightOf node p) (some p))[h]? =
        if heightOf node p = h then some (some p) else vChain[h]? := fun h => by
      rw [List.getElem?_set]
      split_ifs <;> rfl
    cases hprev : (node p).pprev with
    | none =>
      have hzero : heightOf node p = 0 := T.graded.root p hp hprev
      refine ⟨_, by cases fuel <;> rfl, List.length_set, fun h hle => ?_, fun h hlt => ?_⟩
      · obtain rfl : h = heightOf node p := by omega
        rw [show (node p).nHeight = heightOf node p from rfl, hset, if_pos rfl, Nat.sub_self]
        rfl
      · rw [show (node p).nHeight = heightOf node p from rfl, hset, if_neg (by omega)]
    | some q =>
      have hq : q ∈ known := T.graded.closed p q hp hprev
      have hqh : heightOf node p = heightOf node q + 1 := T.graded.child p q hp hprev
      have hsound' : Sound node (vChain.set (heightOf node p) (some p)) q := by
        intro a ha hslot' h hle
        have haq := T.graded.height_le ha hq
        rw [hset, if_neg (by omega)] at hslot' ⊢
        exact hsound a (.step hprev ha) hslot' h hle
      obtain ⟨vChain', hrun, hlen', hbelow, habove⟩ :=
        ih hq (by rw [List.length_set]; omega) hsound' (by omega)
      refine ⟨vChain', hrun, by rw [hlen', List.length_set], fun h hle => ?_, fun h hlt => ?_⟩
      · rcases Nat.eq_or_lt_of_le hle with rfl | hlt
        · rw [habove _ (by omega), hset, if_pos rfl, Nat.sub_self]
          rfl
        · have hsum : heightOf node p - h = (heightOf node q - h) + 1 := by omega
          have hprev' : parentOf node p = some q := hprev
          rw [hbelow h (by omega), hsum, up, hprev', Option.bind_some]
      · rw [habove h (by omega), hset, if_neg (by omega)]

/-- A call of `SetTip` makes a branch of the new tip. -/
theorem CChain.setTip_branch (T : SkipTree node (· ∈ known)) {tip : Option Ptr} (tip' : Option Ptr)
    (B : c.Branch node tip) (hp : ∀ p, tip' = some p → p ∈ known) :
    ∃ c', c.setTip node tip' = some c' ∧ c'.Branch node tip' := by
  cases tip' with
  | none => exact ⟨⟨[]⟩, rfl, rfl⟩
  | some p =>
    have hpk := hp p rfl
    obtain ⟨vChain', hrun, hlen, hslots, -⟩ := CChain.setTipLoop_spec T (heightOf node p + 1)
      hpk (by rw [resize_length]; omega) ((B.sound p).resize T hpk) (Nat.lt_succ_self _)
    refine ⟨⟨vChain'⟩, ?_, hlen.trans (resize_length _ _), hslots⟩
    exact congrArg (Option.map CChain.mk) hrun

theorem CChain.branch_empty : CChain.Branch node ⟨[]⟩ none := rfl

/-- The calls of `SetTip` never fail, and the last one decides the branch. -/
theorem CChain.setTips_branch (T : SkipTree node (· ∈ known)) {tip : Option Ptr}
    (calls : List (Option Ptr)) (B : c.Branch node tip) (hcalls : ∀ p, some p ∈ calls → p ∈ known) :
    ∃ c', c.setTips node calls = some c' ∧ c'.Branch node (calls.getLast?.getD tip) := by
  induction calls generalizing c tip with
  | nil => exact ⟨c, rfl, B⟩
  | cons call calls ih =>
    obtain ⟨c₁, hc₁, B₁⟩ := CChain.setTip_branch T call B fun p hp =>
      hcalls p (hp ▸ List.mem_cons_self)
    obtain ⟨c', hc', B'⟩ := ih B₁ fun p hp => hcalls p (List.mem_cons_of_mem _ hp)
    refine ⟨c', ?_, ?_⟩
    · rw [CChain.setTips, List.foldlM_cons, hc₁]
      exact hc'
    · rw [List.getLast?_cons]
      exact B'

/-! ## What a branch contains -/

theorem CChain.get_natCast (c : CChain) (h : Nat) : c.get h = c.vChain[h]?.join := by
  rw [CChain.get]
  split_ifs with hout
  · rw [List.getElem?_eq_none (by omega)]
    rfl
  · rw [Int.toNat_natCast]

namespace CChain.Branch

theorem height_eq {tip : Option Ptr} (B : c.Branch node tip) :
    c.height = tip.elim (-1) fun t => (heightOf node t : Int) := by
  cases tip with
  | none => rw [CChain.height, show c.vChain = [] from B]; rfl
  | some t =>
    rw [CChain.height, B.1, Option.elim_some]
    omega

theorem get_eq (B : c.Branch node (some t)) {h : Nat} (hle : h ≤ heightOf node t) :
    c.get h = up (parentOf node) (heightOf node t - h) t := by
  rw [CChain.get_natCast, B.2 h hle]
  rfl

theorem get_above (B : c.Branch node (some t)) {h : Int} (hlt : heightOf node t < h) :
    c.get h = none := by
  rw [CChain.get, if_pos (by rw [B.1]; omega)]

theorem tip_eq {tip : Option Ptr} (B : c.Branch node tip) : c.tip = tip := by
  cases tip with
  | none => rw [CChain.tip, show c.vChain = [] from B]; rfl
  | some t =>
    rw [CChain.tip, List.getLast?_eq_getElem?, B.1, Nat.add_sub_cancel, B.2 _ (Nat.le_refl _),
      Nat.sub_self]
    rfl

/-- The chain contains the ancestors of the tip. -/
theorem contains_iff (B : c.Branch node (some t)) (T : SkipTree node (· ∈ known)) (ht : t ∈ known) :
    c.contains node p = true ↔ Anc (parentOf node) p t := by
  rw [CChain.contains, beq_iff_eq]
  constructor
  · intro h
    rcases Nat.lt_or_ge (heightOf node t) (heightOf node p) with hlt | hle
    · rw [show (node p).nHeight = heightOf node p from rfl, B.get_above (by omega)] at h
      cases h
    · rw [show (node p).nHeight = heightOf node p from rfl, B.get_eq hle] at h
      exact (T.graded.up_anc ht h).1
  · intro h
    rw [show (node p).nHeight = heightOf node p from rfl, B.get_eq (T.graded.height_le h ht)]
    exact (T.graded.anc_iff_up ht).mp h

end CChain.Branch

/-! ## FindFork -/

/-- What `FindFork` finds: the last ancestor that the chain contains, if it contains any. -/
structure CChain.Fork (node : Ptr → CBlockIndex) (c : CChain) (p : Ptr) (fork : Option Ptr) : Prop where
  contains : ∀ f, fork = some f → c.contains node f = true ∧ Anc (parentOf node) f p
  last : ∀ a, Anc (parentOf node) a p → c.contains node a = true →
    ∃ f, fork = some f ∧ Anc (parentOf node) a f

/-- From an ancestor that is not below what the chain contains. -/
theorem CChain.Fork.of_anc {b : Ptr} {fork : Option Ptr} (h : CChain.Fork node c b fork)
    (hb : Anc (parentOf node) b p)
    (hbelow : ∀ a, Anc (parentOf node) a p → c.contains node a = true → Anc (parentOf node) a b) :
    CChain.Fork node c p fork :=
  ⟨fun f hf => ⟨(h.contains f hf).1, (h.contains f hf).2.trans hb⟩,
    fun a ha hc => h.last a (hbelow a ha hc) hc⟩

/-- The walk back ends at the last ancestor that the chain contains. -/
theorem CChain.findForkLoop_spec (T : SkipTree node (· ∈ known)) {fuel : Nat} (hp : p ∈ known)
    (hfuel : heightOf node p < fuel) :
    ∃ fork, c.findForkLoop node fuel (some p) = some fork ∧ CChain.Fork node c p fork := by
  induction fuel generalizing p with
  | zero => omega
  | succ fuel ih =>
    rw [CChain.findForkLoop]
    split_ifs with h
    · exact ⟨some p, rfl, ⟨fun f hf => by cases hf; exact ⟨h, .refl⟩, fun a ha _ => ⟨p, rfl, ha⟩⟩⟩
    · -- what the chain contains of the ancestors is an ancestor of the parent
      have habove : ∀ {q}, parentOf node p = some q → ∀ a, Anc (parentOf node) a p →
          c.contains node a = true → Anc (parentOf node) a q := fun {q} hq a ha hc => by
        rcases ha.eq_or_parent with rfl | ⟨q', hq', haq⟩
        · exact absurd hc h
        · rw [hq] at hq'
          cases hq'
          exact haq
      cases hq : (node p).pprev with
      | none =>
        refine ⟨none, by cases fuel <;> rfl, ⟨nofun, fun a ha hc => ?_⟩⟩
        rw [ha.of_root hq] at hc
        exact absurd hc h
      | some q =>
        have hqh := T.graded.child p q hp hq
        obtain ⟨fork, hfork, hspec⟩ := ih (T.graded.closed p q hp hq) (by omega)
        exact ⟨fork, hfork, hspec.of_anc (.parent_self hq) (habove hq)⟩

theorem CChain.findFork_empty (B : c.Branch node none) (p : Ptr) : c.findFork node p = some none := by
  have hheight := B.height_eq
  rw [Option.elim_none] at hheight
  rw [CChain.findFork, hheight, if_pos (by omega), getAncestor_none (.inl (by decide)), Option.bind_some]
  cases (node p).nHeight + 1 <;> rfl

theorem CChain.findFork_branch (T : SkipTree node (· ∈ known)) {tip : Option Ptr}
    (htip : ∀ t, tip = some t → t ∈ known) (B : c.Branch node tip) (hp : p ∈ known) :
    ∃ fork, c.findFork node p = some fork ∧ CChain.Fork node c p fork := by
  have hheight := B.height_eq
  have hnode : (node p).nHeight = heightOf node p := rfl
  cases tip with
  | none =>
    have hempty : ∀ a, c.contains node a = false := fun a => by
      rw [CChain.contains, CChain.get, show c.vChain = [] from B]
      split_ifs <;> rfl
    refine ⟨none, CChain.findFork_empty B p, ⟨nofun, fun a _ hc => ?_⟩⟩
    rw [hempty a] at hc
    cases hc
  | some t =>
    have ht := htip t rfl
    rw [Option.elim_some] at hheight
    rw [CChain.findFork, hheight, hnode]
    rcases Nat.lt_or_ge (heightOf node t) (heightOf node p) with hlt | hle
    · -- from the ancestor at the height of the tip, which the chain contains nothing above
      obtain ⟨b, hb, hbp, hbh⟩ := T.graded.up_spec (heightOf node p - heightOf node t) hp (by omega)
      rw [if_pos (by omega), T.getAncestor hp (by omega), hb, Option.bind_some]
      obtain ⟨fork, hfork, hspec⟩ := CChain.findForkLoop_spec (c := c) T
        (T.graded.anc_mem hbp hp) (show heightOf node b < heightOf node p + 1 by omega)
      refine ⟨fork, hfork, hspec.of_anc hbp fun a ha hc => ?_⟩
      have hat := T.graded.height_le ((B.contains_iff T ht).mp hc) ht
      exact T.graded.comparable ha hbp hp (by omega)
    · rw [if_neg (by omega), Option.bind_some]
      exact CChain.findForkLoop_spec T hp (Nat.lt_succ_self _)

/-- `f` is the last common ancestor of `p` and `t`. -/
def LastCommon (node : Ptr → CBlockIndex) (p t f : Ptr) : Prop :=
  Anc (parentOf node) f p ∧ Anc (parentOf node) f t ∧
    ∀ a, Anc (parentOf node) a p → Anc (parentOf node) a t → Anc (parentOf node) a f

/-- In a tree with one root there is a common ancestor. -/
theorem CChain.findFork_common (T : BlockTree node known) (ht : t ∈ known)
    (B : c.Branch node (some t)) (hp : p ∈ known) :
    ∃ f, c.findFork node p = some (some f) ∧ LastCommon node p t f := by
  obtain ⟨g, -, -, hroot⟩ := T.root
  have hcont := fun {a : Ptr} => B.contains_iff (p := a) T.skipTree ht
  obtain ⟨fork, hfork, hspec⟩ := CChain.findFork_branch T.skipTree (fun t ht' => by cases ht'; exact ht) B hp
  obtain ⟨f, rfl, -⟩ := hspec.last g (hroot p hp) (hcont.mpr (hroot t ht))
  obtain ⟨hf, hfp⟩ := hspec.contains f rfl
  refine ⟨f, hfork, hfp, hcont.mp hf, fun a hap hat => ?_⟩
  obtain ⟨f', hf', haf⟩ := hspec.last a hap (hcont.mpr hat)
  cases hf'
  exact haf

/-- `CChain` is always exactly one branch: after any calls of `SetTip`, none of which fails, the slots
are the ancestors of the last tip, and `FindFork` finds the last common ancestor of an entry and the
tip. -/
theorem CChain.setTips_one_branch (T : BlockTree node known) (calls : List (Option Ptr))
    (hcalls : ∀ p, some p ∈ calls → p ∈ known) :
    ∃ c : CChain, CChain.setTips node ⟨[]⟩ calls = some c ∧ c.tip = calls.getLast?.join ∧
      match c.tip with
      | none => c.vChain = [] ∧ ∀ p ∈ known, c.findFork node p = some none
      | some t => c.vChain.length = (node t).nHeight + 1 ∧
        (∀ h, h ≤ (node t).nHeight → ∃ a, c.vChain[h]? = some (some a) ∧
          up (parentOf node) ((node t).nHeight - h) t = some a ∧ (node a).nHeight = h) ∧
        ∀ p ∈ known, ∃ f, c.findFork node p = some (some f) ∧ LastCommon node p t f := by
  obtain ⟨c, hrun, B⟩ := CChain.setTips_branch T.skipTree calls CChain.branch_empty hcalls
  have hlast : calls.getLast?.getD none = calls.getLast?.join := by
    cases calls.getLast? <;> rfl
  rw [hlast] at B
  refine ⟨c, hrun, B.tip_eq, ?_⟩
  have htip : ∀ t, calls.getLast?.join = some t → t ∈ known := fun t ht =>
    hcalls t (List.mem_of_getLast? (Option.join_eq_some_iff.mp ht))
  rw [B.tip_eq]
  generalize calls.getLast?.join = tip at B htip
  cases tip with
  | none => exact ⟨B, fun p _ => CChain.findFork_empty B p⟩
  | some t =>
    refine ⟨B.1, fun h hle => ?_, fun p hp => CChain.findFork_common T (htip t rfl) B hp⟩
    obtain ⟨a, ha, -, hah⟩ :=
      T.skipTree.graded.up_spec (heightOf node t - h) (htip t rfl) (Nat.sub_le _ _)
    have hle' : h ≤ heightOf node t := hle
    exact ⟨a, (B.2 h hle').trans (congrArg some ha), ha, by
      show heightOf node a = h
      omega⟩

theorem branchTree_setTips :
    ∃ c : CChain, CChain.setTips branchNode ⟨[]⟩ [some 3, some 8, none, some 8, some 3] = some c ∧
      c.tip = some 3 ∧ c.vChain.length = 4 ∧
      ∃ f, c.findFork branchNode 8 = some (some f) ∧ LastCommon branchNode 8 3 f := by
  obtain ⟨c, hrun, htip, hbranch⟩ :=
    CChain.setTips_one_branch branchTree [some 3, some 8, none, some 8, some 3] (by simp)
  have htip : c.tip = some 3 := htip
  rw [htip] at hbranch
  obtain ⟨hlength, -, hfork⟩ := hbranch
  exact ⟨c, hrun, htip, hlength, hfork 8 (by decide)⟩

end GC
