import GameCredits.Framework.Forest
import Mathlib.Data.List.Find
import Mathlib.Data.List.Nodup

/-!
# Depth-first walks without a stack

A walk through a forest whose nodes know their parents and whose children are listed: down to the first
child, and from a leaf up to the first node or ancestor that has a next sibling. The walk carries a state
along that each move may change.

* `oldest`: the first node with a property on the way from the root.
* `Visitor.visit`: the same as a recursion over the subtrees.
* `walk_eq`: the walk over a subtree is the recursion, and goes on where the way up ends.
* `Visitor.Local`: the state depends only on the node where the walk is, and on the number of nodes seen;
  the walk then gets through exactly if every node passes (`visit_local`, `walk_root`).
-/

namespace GC.Framework

variable {α σ : Type}

/-- What a walk does to its state. -/
structure Visitor (α σ : Type) where
  /-- It gets to a node; `none` ends the walk. -/
  enter : α → σ → Option σ
  /-- It goes down to the first child. -/
  down : σ → σ
  /-- It leaves a node, below which all has been visited. -/
  leave : α → σ → σ
  /-- It goes up to the parent. -/
  up : σ → σ

section

variable [DecidableEq α] (V : Visitor α σ) (parent : α → Option α) (children : Option α → List α)

/-- The way up from a node: to the next sibling of it or of an ancestor, or out of the tree. It fails if a
node is not among the children of its parent. -/
def ascend : (fuel : Nat) → α → σ → Option (Option α × σ)
  | 0, _, _ => none
  | fuel + 1, a, x =>
    match (children (parent a)).dropWhile (· ≠ a) with
    | [] => none
    | _ :: b :: _ => some (some b, V.leave a x)
    | [_] =>
      match parent a with
      | none => some (none, V.up (V.leave a x))
      | some b => ascend fuel b (V.up (V.leave a x))

/-- The walk from a node; `depth` bounds the way up. -/
def walk (depth : α → Nat) : (fuel : Nat) → Option α → σ → Option σ
  | _, none, x => some x
  | 0, some _, _ => none
  | fuel + 1, some a, x =>
    match V.enter a x with
    | none => none
    | some x =>
      match children (some a) with
      | b :: _ => walk depth fuel (some b) (V.down x)
      | [] =>
        match ascend V parent children (depth a + 1) a x with
        | none => none
        | some (b, x) => walk depth fuel b x

/-- The recursion over the nodes of `l` one after another, each of them left at its end. -/
def Visitor.visitAll (visit : α → σ → Option σ) : List α → σ → Option σ
  | [], x => some x
  | a :: l, x => (visit a x).bind fun y => visitAll visit l (V.leave a y)

/-- The recursion over a subtree, `n` levels deep. -/
def Visitor.visit : (n : Nat) → α → σ → Option σ
  | 0, _, _ => none
  | n + 1, a, x =>
    (V.enter a x).bind fun y =>
      if children (some a) = [] then some y
      else (V.visitAll (visit n) (children (some a)) (V.down y)).map V.up

end

/-- The nodes of a subtree, `n` levels deep, in the order of the walk. -/
def subtree (children : Option α → List α) : (n : Nat) → α → List α
  | 0, _ => []
  | n + 1, a => a :: (children (some a)).flatMap (subtree children n)

/-- The children of a forest whose nodes are those of `K`. -/
structure Children (parent : α → Option α) (children : Option α → List α) (K : α → Prop) : Prop where
  mem : ∀ p a, a ∈ children p ↔ K a ∧ parent a = p
  nodup : ∀ p, (children p).Nodup

variable {parent : α → Option α} {children : Option α → List α} {K : α → Prop} {height : α → Nat}

/-! ## The nodes of a subtree -/

theorem mem_subtree (G : Graded parent height K) (C : Children parent children K) {n : Nat} {a b : α}
    (ha : K a) (hn : ∀ c, K c → Anc parent a c → height c < height a + n) :
    b ∈ subtree children n a ↔ K b ∧ Anc parent a b := by
  induction n generalizing a with
  | zero => exact absurd (hn a ha .refl) (by omega)
  | succ n ih =>
    have hchild : ∀ c, c ∈ children (some a) ↔ K c ∧ parent c = some a := C.mem (some a)
    have hbound : ∀ c, c ∈ children (some a) → ∀ d, K d → Anc parent c d → height d < height c + n :=
      fun c hc d hd hcd => by
        obtain ⟨hck, hca⟩ := (hchild c).mp hc
        have := hn d hd ((Anc.parent_self hca).trans hcd)
        have := G.child c a hck hca
        omega
    rw [subtree, List.mem_cons, List.mem_flatMap]
    constructor
    · rintro (rfl | ⟨c, hc, hb⟩)
      · exact ⟨ha, .refl⟩
      · obtain ⟨hck, hca⟩ := (hchild c).mp hc
        obtain ⟨hbk, hcb⟩ := (ih hck (hbound c hc)).mp hb
        exact ⟨hbk, (Anc.parent_self hca).trans hcb⟩
    · rintro ⟨hbk, hab⟩
      -- the child of `a` on the way to `b`
      by_cases hba : b = a
      · exact .inl hba
      · have hlt := G.height_lt hab hbk (Ne.symm hba)
        obtain ⟨c, -, hcb, hch⟩ := G.up_spec (height b - (height a + 1)) hbk (by omega)
        have hck := G.anc_mem hcb hbk
        have hac := G.comparable hab hcb hbk (by omega)
        obtain hac | ⟨p, hp, hap⟩ := hac.eq_or_parent
        · rw [hac] at hlt hch
          omega
        · have hpa : a = p := G.eq_of_height hap (G.closed c p hck hp) (by
            have := G.child c p hck hp
            omega)
          have hc := (hchild c).mpr ⟨hck, by rw [hp, hpa]⟩
          exact .inr ⟨c, hc, (ih hck (hbound c hc)).mpr ⟨hbk, hcb⟩⟩

theorem nodup_subtree (G : Graded parent height K) (C : Children parent children K) {n : Nat} {a : α}
    (ha : K a) (hn : ∀ c, K c → Anc parent a c → height c < height a + n) :
    (subtree children n a).Nodup := by
  induction n generalizing a with
  | zero => exact List.nodup_nil
  | succ n ih =>
    have hchild : ∀ c, c ∈ children (some a) ↔ K c ∧ parent c = some a := C.mem (some a)
    have hbound : ∀ c, c ∈ children (some a) → ∀ d, K d → Anc parent c d → height d < height c + n :=
      fun c hc d hd hcd => by
        obtain ⟨hck, hca⟩ := (hchild c).mp hc
        have := hn d hd ((Anc.parent_self hca).trans hcd)
        have := G.child c a hck hca
        omega
    rw [subtree, List.nodup_cons, List.nodup_flatMap]
    refine ⟨fun hmem => ?_, fun c hc => ih ((hchild c).mp hc).1 (hbound c hc), ?_⟩
    · obtain ⟨c, hc, hac⟩ := List.mem_flatMap.mp hmem
      obtain ⟨hck, hca⟩ := (hchild c).mp hc
      have := G.height_le ((mem_subtree G C hck (hbound c hc)).mp hac).2 ha
      have := G.child c a hck hca
      omega
    · refine (C.nodup (some a)).imp_of_mem fun {c d} hc hd hcd => ?_
      -- two children with a common node below them have the same height, and so are one
      refine List.disjoint_left.mpr fun b hbc hbd => ?_
      obtain ⟨hck, hca⟩ := (hchild c).mp hc
      obtain ⟨hdk, hda⟩ := (hchild d).mp hd
      obtain ⟨hbk, hcb⟩ := (mem_subtree G C hck (hbound c hc)).mp hbc
      obtain ⟨-, hdb⟩ := (mem_subtree G C hdk (hbound d hd)).mp hbd
      refine hcd (G.ancestor_unique hcb hdb hbk ?_)
      rw [G.child c a hck hca, G.child d a hdk hda]

/-! ## The oldest ancestor with a property -/

/-- The oldest of a node and its ancestors that satisfies `P`. -/
def oldest (parent : α → Option α) (height : α → Nat) (P : α → Bool) (a : α) : Option α :=
  (lineage parent (height a + 1) a).reverse.find? P

variable {P : α → Bool} {a b c : α}

theorem oldest_root (h : parent a = none) :
    oldest parent height P a = if P a = true then some a else none := by
  rw [oldest, lineage, h]
  simp only [Option.elim_none, List.reverse_singleton, List.find?_singleton]

/-- A child satisfies `P` first if no ancestor of it does. -/
theorem oldest_child (G : Graded parent height K) (ha : K a) (h : parent a = some b) :
    oldest parent height P a =
      if ((oldest parent height P b).isNone && P a) = true then some a else oldest parent height P b := by
  rw [oldest, lineage, h, G.child a b ha h, Option.elim_some, List.reverse_cons, List.find?_append]
  show (oldest parent height P b).or _ = _
  cases hb : oldest parent height P b with
  | none => cases hP : P a <;> simp [hP]
  | some c => simp

/-- What is found satisfies `P`, and is the node or an ancestor. -/
theorem oldest_anc (G : Graded parent height K) (ha : K a) (h : oldest parent height P a = some c) :
    Anc parent c a ∧ P c = true :=
  ⟨(G.mem_lineage ha (List.mem_reverse.mp (List.mem_of_find?_eq_some h))).1, List.find?_some h⟩

theorem oldest_eq_none (G : Graded parent height K) (ha : K a) :
    oldest parent height P a = none ↔ ∀ c, Anc parent c a → P c = false := by
  rw [oldest, List.find?_eq_none]
  constructor
  · intro h c hc
    have hmem := G.mem_lineage_of_anc (n := height a + 1) ha hc (by omega)
    simpa using h c (List.mem_reverse.mpr hmem)
  · intro h c hc
    rw [h c (G.mem_lineage ha (List.mem_reverse.mp hc)).1]
    exact Bool.false_ne_true

theorem oldest_congr {Q : α → Bool} (G : Graded parent height K) (ha : K a)
    (h : ∀ c, Anc parent c a → P c = Q c) : oldest parent height P a = oldest parent height Q a :=
  List.find?_congr fun c hc => h c (G.mem_lineage ha (List.mem_reverse.mp hc)).1

/-! ## The walk and the recursion -/

section

variable [DecidableEq α] (V : Visitor α σ)

theorem dropWhile_ne {l : List α} {pre post : List α} {a : α} (hl : l = pre ++ a :: post)
    (hnodup : l.Nodup) : l.dropWhile (· ≠ a) = a :: post := by
  subst hl
  have hpre : ∀ b ∈ pre, decide (b ≠ a) = true := fun b hb =>
    decide_eq_true ((List.nodup_append.mp hnodup).2.2 b hb a (List.mem_cons_self ..))
  rw [List.dropWhile_append_of_pos hpre, List.dropWhile_cons_of_neg (by simp)]

/-- The walk over a subtree is the recursion, after which the way leads up. -/
theorem walk_eq (G : Graded parent height K) (C : Children parent children K) {n : Nat} {a : α} (ha : K a)
    (hn : ∀ c, K c → Anc parent a c → height c < height a + n) (fuel : Nat) (x : σ) :
    walk V parent children height ((subtree children n a).length + fuel) (some a) x =
      (V.visit children n a x).bind fun y =>
        (ascend V parent children (height a + 1) a y).bind fun r =>
          walk V parent children height fuel r.1 r.2 := by
  induction n generalizing a fuel x with
  | zero => exact absurd (hn a ha .refl) (by omega)
  | succ n ih =>
    have hchild : ∀ c, c ∈ children (some a) → K c ∧ parent c = some a := fun c => (C.mem (some a) c).mp
    have hlen : (subtree children (n + 1) a).length + fuel =
        ((children (some a)).flatMap (subtree children n)).length + fuel + 1 := by
      rw [subtree, List.length_cons]
      omega
    rw [hlen, walk, Visitor.visit]
    cases hx : V.enter a x with
    | none => rfl
    | some y =>
      simp only [Option.bind_some]
      -- the children from some one on
      have hall : ∀ (post pre : List α) (fuel : Nat) (c : α) (z : σ),
          children (some a) = pre ++ c :: post →
          walk V parent children height (((c :: post).flatMap (subtree children n)).length + fuel)
              (some c) z =
            (V.visitAll (V.visit children n) (c :: post) z).bind fun y =>
              (ascend V parent children (height a + 1) a (V.up y)).bind fun r =>
                walk V parent children height fuel r.1 r.2 := by
        intro post
        induction post with
        | nil =>
          intro pre fuel c z hsplit
          obtain ⟨hck, hca⟩ := hchild c (by rw [hsplit]; simp)
          have hh := G.child c a hck hca
          rw [List.flatMap_cons, List.flatMap_nil, List.append_nil, ih hck fun d hd hcd => by
            have := hn d hd ((Anc.parent_self hca).trans hcd)
            omega]
          rw [Visitor.visitAll, Option.bind_assoc]
          refine congrArg _ (funext fun y => ?_)
          rw [ascend, hca, dropWhile_ne hsplit (C.nodup (some a)), hh]
          rfl
        | cons d post ihp =>
          intro pre fuel c z hsplit
          obtain ⟨hck, hca⟩ := hchild c (by rw [hsplit]; simp)
          have hh := G.child c a hck hca
          rw [List.flatMap_cons, List.length_append, Nat.add_assoc, ih hck fun e he hce => by
            have := hn e he ((Anc.parent_self hca).trans hce)
            omega]
          rw [Visitor.visitAll, Option.bind_assoc]
          refine congrArg _ (funext fun y => ?_)
          rw [ascend, hca, dropWhile_ne hsplit (C.nodup (some a))]
          exact ihp (pre ++ [c]) fuel d _ (by rw [hsplit, List.append_assoc]; rfl)
      cases hcs : children (some a) with
      | nil =>
        simp only [List.flatMap_nil, List.length_nil, Nat.zero_add, if_true, Option.bind_some]
        cases ascend V parent children (height a + 1) a y <;> rfl
      | cons c post =>
        simp only [if_neg (List.cons_ne_nil c post)]
        have := hall post [] fuel c (V.down y) hcs
        rw [this, Option.bind_map]
        rfl

variable {V}

/-- The state before the children of a node, or before a root, is `before`, and at a node it is `within`,
whatever has been visited so far, but for the number of nodes. A node stops the walk unless it is `ok`. -/
structure Visitor.Local (V : Visitor α σ) (parent : α → Option α) (K : α → Prop) (ok : α → Bool)
    (before : Option α → Nat → σ) (within : α → Nat → σ) : Prop where
  enter : ∀ a k, K a →
    V.enter a (before (parent a) k) = if ok a = true then some (within a (k + 1)) else none
  down : ∀ a k, K a → V.down (within a k) = before (some a) k
  leave : ∀ a k, K a → V.leave a (within a k) = before (parent a) k
  up : ∀ a k, K a → V.up (before (some a) k) = within a k

variable {ok : α → Bool} {before : Option α → Nat → σ} {within : α → Nat → σ}

omit [DecidableEq α] in
/-- The recursion gets through a subtree exactly if all its nodes pass. -/
theorem visit_local (L : V.Local parent K ok before within) (G : Graded parent height K)
    (C : Children parent children K) {n : Nat} {a : α} (ha : K a)
    (hn : ∀ c, K c → Anc parent a c → height c < height a + n) (k : Nat) :
    V.visit children n a (before (parent a) k) =
      if (subtree children n a).all ok = true then
        some (within a (k + (subtree children n a).length)) else none := by
  induction n generalizing a k with
  | zero => exact absurd (hn a ha .refl) (by omega)
  | succ n ih =>
    have hall : ∀ (l : List α) (k : Nat), (∀ c ∈ l, c ∈ children (some a)) →
        V.visitAll (V.visit children n) l (before (some a) k) =
          if (l.flatMap (subtree children n)).all ok = true then
            some (before (some a) (k + (l.flatMap (subtree children n)).length)) else none := by
      intro l
      induction l with
      | nil =>
        intro k _
        simp [Visitor.visitAll]
      | cons c l ihl =>
        intro k hl
        obtain ⟨hck, hca⟩ := (C.mem (some a) c).mp (hl c (List.mem_cons_self ..))
        have hh := G.child c a hck hca
        have hc := ih hck (fun d hd hcd => by
          have := hn d hd ((Anc.parent_self hca).trans hcd)
          omega) k
        rw [hca] at hc
        rw [Visitor.visitAll, hc, List.flatMap_cons, List.all_append, List.length_append]
        by_cases hok : (subtree children n c).all ok = true
        · simp only [hok, if_true, Option.bind_some, Bool.true_and]
          rw [L.leave c _ hck, hca, ihl _ fun d hd => hl d (List.mem_cons_of_mem _ hd), Nat.add_assoc]
        · simp [hok]
    rw [Visitor.visit, L.enter a k ha, subtree, List.all_cons, List.length_cons]
    by_cases hok : ok a = true
    · simp only [hok, if_true, Option.bind_some, Bool.true_and]
      split_ifs with hnil hsub hsub
      · simp [hnil]
      · simp [hnil] at hsub
      · rw [L.down a _ ha, hall _ _ fun c hc => hc, if_pos hsub, Option.map_some, L.up a _ ha]
        exact congrArg (fun m => some (within a m)) (by omega)
      · rw [L.down a _ ha, hall _ _ fun c hc => hc, if_neg hsub, Option.map_none]
    · simp [hok]

/-- The walk over the tree of a root that is the only one. -/
theorem walk_root (L : V.Local parent K ok before within) (G : Graded parent height K)
    (C : Children parent children K) {n : Nat} {a : α} (ha : K a) (hroot : children none = [a])
    (hn : ∀ c, K c → Anc parent a c → height c < height a + n) {fuel : Nat}
    (hfuel : (subtree children n a).length ≤ fuel) :
    walk V parent children height fuel (some a) (before none 0) =
      if (subtree children n a).all ok = true then
        some (V.up (before none (subtree children n a).length)) else none := by
  have hpar : parent a = none := ((C.mem none a).mp (by rw [hroot]; exact List.mem_singleton_self a)).2
  obtain ⟨more, rfl⟩ := Nat.exists_eq_add_of_le hfuel
  have hvisit := visit_local L G C ha hn 0
  rw [hpar, Nat.zero_add] at hvisit
  rw [walk_eq V G C ha hn, hvisit]
  split_ifs with hok
  · have hleave := L.leave a (subtree children n a).length ha
    rw [hpar] at hleave
    rw [Option.bind_some, ascend, hpar, hroot, List.dropWhile_cons_of_neg (by simp)]
    simp only [Option.bind_some, hleave]
    cases more <;> rfl
  · rfl

end

end GC.Framework
