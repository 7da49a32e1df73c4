import Mathlib.Algebra.GroupWithZero.Nat

/-!
# Forests given by parent pointers

Nodes with a partial function `parent`, and a `height` that is zero at a root and one more than
that of the parent elsewhere (`Graded`). `Anc a b` says that `a` is `b` or an ancestor of it.

* `Graded.ancestor_unique`: a node has one ancestor of each height up to its own.
* `Graded.comparable`: of two ancestors of one node, one is an ancestor of the other.
* `up`: the ancestor a number of steps away; `lineage`: the nodes on the way.
* `Climbs`: a way down, from parent to child.
-/

namespace GC.Framework

variable {α : Type}

/-- `a` is `b` or an ancestor of `b`. -/
inductive Anc (parent : α → Option α) (a : α) : α → Prop
  | refl : Anc parent a a
  | step {b c} (h : parent c = some b) (hab : Anc parent a b) : Anc parent a c

/-- The ancestor `n` steps above a node. -/
def up (parent : α → Option α) : Nat → α → Option α
  | 0, a => some a
  | n + 1, a => (parent a).bind (up parent n)

variable {parent parent' : α → Option α} {a b c : α}

namespace Anc

theorem parent_self (h : parent b = some a) : Anc parent a b := .step h .refl

theorem trans (hab : Anc parent a b) (hbc : Anc parent b c) : Anc parent a c := by
  induction hbc with
  | refl => exact hab
  | step h _ ih => exact .step h ih

/-- An ancestor is the node itself or an ancestor of its parent. -/
theorem eq_or_parent (h : Anc parent a b) : a = b ∨ ∃ p, parent b = some p ∧ Anc parent a p := by
  cases h with
  | refl => exact .inl rfl
  | step h hab => exact .inr ⟨_, h, hab⟩

theorem of_root (h : Anc parent a b) (hb : parent b = none) : a = b := by
  rcases h.eq_or_parent with rfl | ⟨p, hp, -⟩
  · rfl
  · rw [hb] at hp; cases hp

/-- Ancestors are the same where the parents are. -/
theorem congr (h : Anc parent a b) (hp : ∀ c, Anc parent c b → parent' c = parent c) :
    Anc parent' a b := by
  induction h with
  | refl => exact .refl
  | @step b c h _ ih =>
    exact .step ((hp c .refl).trans h) (ih fun d hd => hp d (hd.trans (parent_self h)))

/-- A property that passes from a node to its parent holds of all ancestors. -/
theorem closed {P : α → Prop} (hP : ∀ b c, P c → parent c = some b → P b) (h : Anc parent a b)
    (hb : P b) : P a := by
  induction h with
  | refl => exact hb
  | step h _ ih => exact ih (hP _ _ hb h)

end Anc

/-- The heights of the nodes of a set that is closed under parents. -/
structure Graded (parent : α → Option α) (height : α → Nat) (K : α → Prop) : Prop where
  closed : ∀ a b, K a → parent a = some b → K b
  child : ∀ a b, K a → parent a = some b → height a = height b + 1
  root : ∀ a, K a → parent a = none → height a = 0

namespace Graded

variable {height : α → Nat} {K : α → Prop} (G : Graded parent height K)

include G

/-- What passes from parents to their children holds of all nodes. -/
theorem induct {P : α → Prop} (step : ∀ a, K a → (∀ b, parent a = some b → P b) → P a) (ha : K a) :
    P a := by
  obtain ⟨n, hn⟩ : ∃ n, height a = n := ⟨_, rfl⟩
  induction n generalizing a with
  | zero =>
    refine step a ha fun b hb => ?_
    have := G.child a b ha hb
    omega
  | succ n ih =>
    refine step a ha fun b hb => ?_
    have := G.child a b ha hb
    exact ih (G.closed a b ha hb) (by omega)

theorem anc_mem (h : Anc parent a b) (hb : K b) : K a := h.closed (fun b c hc hp => G.closed c b hc hp) hb

theorem height_le (h : Anc parent a b) (hb : K b) : height a ≤ height b := by
  induction h with
  | refl => exact Nat.le_refl _
  | step h _ ih =>
    have := G.child _ _ hb h
    have := ih (G.closed _ _ hb h)
    omega

/-- An ancestor of the same height is the node itself. -/
theorem eq_of_height (h : Anc parent a b) (hb : K b) (hh : height b ≤ height a) : a = b := by
  rcases h.eq_or_parent with rfl | ⟨p, hp, hap⟩
  · rfl
  · have := G.height_le hap (G.closed _ _ hb hp)
    have := G.child _ _ hb hp
    omega

theorem height_lt (h : Anc parent a b) (hb : K b) (hne : a ≠ b) : height a < height b :=
  Nat.lt_of_not_le fun hh => hne (G.eq_of_height h hb hh)

theorem antisymm (hab : Anc parent a b) (hba : Anc parent b a) (hb : K b) : a = b :=
  G.eq_of_height hab hb (G.height_le hba (G.anc_mem hab hb))

/-- Of two ancestors of one node, the one that is no higher is an ancestor of the other. -/
theorem comparable (ha : Anc parent a c) (hb : Anc parent b c) (hc : K c)
    (hh : height a ≤ height b) : Anc parent a b := by
  induction hb with
  | refl => exact ha
  | @step d c h hbd ih =>
    rcases ha.eq_or_parent with rfl | ⟨p, hp, hap⟩
    · have := G.height_le hbd (G.closed _ _ hc h)
      have := G.child _ _ hc h
      omega
    · rw [h] at hp
      cases hp
      exact ih hap (G.closed _ _ hc h)

theorem ancestor_unique (ha : Anc parent a c) (hb : Anc parent b c) (hc : K c)
    (hh : height a = height b) : a = b :=
  G.eq_of_height (G.comparable ha hb hc (Nat.le_of_eq hh)) (G.anc_mem hb hc) (Nat.le_of_eq hh.symm)

/-- Only roots have height zero. -/
theorem parent_of_pos (ha : K a) (h : 0 < height a) : ∃ b, parent a = some b := by
  cases hp : parent a with
  | none => have := G.root a ha hp; omega
  | some b => exact ⟨b, rfl⟩

/-- The ancestor `n` steps up is there, and is `n` lower. -/
theorem up_spec (n : Nat) (hb : K b) (hn : n ≤ height b) :
    ∃ a, up parent n b = some a ∧ Anc parent a b ∧ height a + n = height b := by
  induction n generalizing b with
  | zero => exact ⟨b, rfl, .refl, rfl⟩
  | succ n ih =>
    obtain ⟨p, hp⟩ := G.parent_of_pos hb (by omega)
    have hh := G.child _ _ hb hp
    obtain ⟨a, ha, hanc, hha⟩ := ih (G.closed _ _ hb hp) (by omega)
    exact ⟨a, by rw [up, hp, Option.bind_some, ha], .step hp hanc, by omega⟩

theorem up_anc {n : Nat} (hb : K b) (h : up parent n b = some a) :
    Anc parent a b ∧ height a + n = height b := by
  induction n generalizing b with
  | zero => cases h; exact ⟨.refl, rfl⟩
  | succ n ih =>
    obtain ⟨p, hp, hup⟩ := Option.bind_eq_some_iff.mp h
    obtain ⟨hanc, hh⟩ := ih (G.closed _ _ hb hp) hup
    have := G.child _ _ hb hp
    exact ⟨.step hp hanc, by omega⟩

/-- The ancestors of a node are those that steps up lead to. -/
theorem anc_iff_up (hb : K b) : Anc parent a b ↔ up parent (height b - height a) b = some a := by
  constructor
  · intro h
    have hle := G.height_le h hb
    obtain ⟨a', ha', hanc, hh⟩ := G.up_spec (height b - height a) hb (by omega)
    rw [ha', G.ancestor_unique hanc h hb (by omega)]
  · exact fun h => (G.up_anc hb h).1

/-- Steps up from a node of the set are the same where the parents of the set are. -/
theorem up_congr (hp : ∀ c, K c → parent' c = parent c) (n : Nat) (hb : K b) :
    up parent' n b = up parent n b := by
  induction n generalizing b with
  | zero => rfl
  | succ n ih =>
    rw [up, up, hp b hb]
    cases h : parent b with
    | none => rfl
    | some c => exact ih (G.closed _ _ hb h)

/-- Ancestors of a node of the set are the same where the parents of the set are. -/
theorem anc_congr (hp : ∀ c, K c → parent' c = parent c) (hb : K b) :
    Anc parent' a b ↔ Anc parent a b := by
  constructor
  · intro h
    induction h with
    | refl => exact .refl
    | step h _ ih =>
      rw [hp _ hb] at h
      exact .step h (ih (G.closed _ _ hb h))
  · exact fun h => h.congr fun c hc => hp c (G.anc_mem hc hb)

/-- A node added under one of the set, or as a root. -/
theorem insert {height' : α → Nat} (hp : ∀ c, K c → parent' c = parent c)
    (hh : ∀ c, K c → height' c = height c) (hnew : ¬ K a)
    (hpar : ∀ b, parent' a = some b → K b ∧ height' a = height b + 1)
    (hroot : parent' a = none → height' a = 0) :
    Graded parent' height' fun c => K c ∨ c = a := by
  refine ⟨?_, ?_, ?_⟩
  · rintro c b (hc | rfl) h
    · exact .inl (G.closed c b hc (hp c hc ▸ h))
    · exact .inl (hpar b h).1
  · rintro c b (hc | rfl) h
    · have h' : parent c = some b := hp c hc ▸ h
      rw [hh c hc, hh b (G.closed c b hc h')]
      exact G.child c b hc h'
    · rw [hh b (hpar b h).1]; exact (hpar b h).2
  · rintro c (hc | rfl) h
    · rw [hh c hc]; exact G.root c hc (hp c hc ▸ h)
    · exact hroot h

end Graded

theorem up_add (m n : Nat) (a : α) : up parent (m + n) a = (up parent m a).bind (up parent n) := by
  induction m generalizing a with
  | zero => rw [Nat.zero_add]; rfl
  | succ m ih =>
    rw [Nat.succ_add, up, up, Option.bind_assoc]
    exact congrArg _ (funext fun b => ih b)

theorem up_succ (n : Nat) (a : α) : up parent (n + 1) a = (up parent n a).bind parent := by
  rw [up_add]
  congr 1
  funext b
  rw [up]
  cases parent b <;> rfl

/-! ## Ways up and down -/

/-- The first `n` nodes on the way up from a node, itself first. -/
def lineage (parent : α → Option α) : Nat → α → List α
  | 0, _ => []
  | n + 1, a => a :: (parent a).elim [] (lineage parent n)

/-- The sum of the weights along the way up from a root is its own. -/
theorem sum_lineage_root {w : α → Nat} (h : parent a = none) (n : Nat) :
    ((lineage parent (n + 1) a).map w).sum = w a := by
  rw [lineage, h]
  exact Nat.add_zero _

theorem sum_lineage_child {w : α → Nat} (h : parent a = some b) (n : Nat) :
    ((lineage parent (n + 1) a).map w).sum = ((lineage parent n b).map w).sum + w a := by
  rw [lineage, h]
  exact Nat.add_comm _ _

/-- Each node is a child of the one before; the first, of `prev`. -/
def Climbs (parent : α → Option α) : Option α → List α → Prop
  | _, [] => True
  | prev, a :: l => parent a = prev ∧ Climbs parent (some a) l

theorem lineage_add (m n : Nat) (a : α) : lineage parent (m + n) a =
    lineage parent m a ++ (up parent m a).elim [] (lineage parent n) := by
  induction m generalizing a with
  | zero => rw [Nat.zero_add]; rfl
  | succ m ih =>
    rw [Nat.succ_add, lineage, lineage, up]
    cases h : parent a with
    | none => rfl
    | some b => exact congrArg (a :: ·) (ih b)

theorem climbs_append {prev : Option α} {l l' : List α} :
    Climbs parent prev (l ++ l') ↔
      Climbs parent prev l ∧ Climbs parent (l.getLast?.or prev) l' := by
  induction l generalizing prev with
  | nil => exact ⟨fun h => ⟨trivial, h⟩, fun h => h.2⟩
  | cons a l ih =>
    have hlast : (a :: l).getLast?.or prev = l.getLast?.or (some a) := by
      cases l with
      | nil => rfl
      | cons b l => rw [List.getLast?_cons_cons, List.getLast?_cons]; rfl
    rw [List.cons_append, Climbs, Climbs, ih, hlast, and_assoc]

/-- The way up, turned round, leads down from where it ended. -/
theorem Graded.climbs_lineage {height : α → Nat} {K : α → Prop} (G : Graded parent height K)
    {n : Nat} (ha : K a) (hn : n ≤ height a + 1) :
    Climbs parent (up parent n a) (lineage parent n a).reverse := by
  induction n generalizing a with
  | zero => exact trivial
  | succ n ih =>
    rw [lineage, up]
    cases h : parent a with
    | none =>
      have := G.root a ha h
      obtain rfl : n = 0 := by omega
      exact ⟨h, trivial⟩
    | some b =>
      have hb := G.closed a b ha h
      have hh := G.child a b ha h
      rw [List.reverse_cons, climbs_append, Option.bind_some]
      refine ⟨ih hb (by omega), ?_, trivial⟩
      rw [h, List.getLast?_reverse]
      cases n with
      | zero => rfl
      | succ n => rfl

theorem Graded.mem_lineage {height : α → Nat} {K : α → Prop} (G : Graded parent height K) {n : Nat}
    (hb : K b) (h : a ∈ lineage parent n b) : Anc parent a b ∧ height b < height a + n := by
  induction n generalizing b with
  | zero => cases h
  | succ n ih =>
    rw [lineage] at h
    rcases List.mem_cons.mp h with rfl | h
    · exact ⟨.refl, by omega⟩
    · cases hp : parent b with
      | none => rw [hp] at h; cases h
      | some c =>
        rw [hp] at h
        obtain ⟨hanc, hh⟩ := ih (G.closed b c hb hp) h
        have := G.child b c hb hp
        exact ⟨.step hp hanc, by omega⟩

theorem Graded.mem_lineage_of_anc {height : α → Nat} {K : α → Prop} (G : Graded parent height K)
    {n : Nat} (hb : K b) (h : Anc parent a b) (hlt : height b < height a + n) :
    a ∈ lineage parent n b := by
  induction n generalizing b with
  | zero => exact absurd (G.height_le h hb) (by omega)
  | succ n ih =>
    rw [lineage]
    rcases h.eq_or_parent with rfl | ⟨c, hp, hac⟩
    · exact List.mem_cons_self
    · have hh := G.child b c hb hp
      rw [hp]
      exact List.mem_cons_of_mem _ (ih (G.closed b c hb hp) hac (by omega))

/-- The nodes on the way up get lower. -/
theorem Graded.lineage_pairwise {height : α → Nat} {K : α → Prop} (G : Graded parent height K)
    (n : Nat) (hb : K b) : (lineage parent n b).Pairwise fun a c => height c < height a := by
  induction n generalizing b with
  | zero => exact .nil
  | succ n ih =>
    rw [lineage]
    cases h : parent b with
    | none => exact List.pairwise_singleton _ _
    | some c =>
      have hc := G.closed b c hb h
      have hh := G.child b c hb h
      refine .cons (fun a ha => ?_) (ih hc)
      have := G.height_le (G.mem_lineage hc ha).1 hc
      omega

/-- The way up is the same where the parents are. -/
theorem Graded.lineage_congr {parent' : α → Option α} {height : α → Nat} {K : α → Prop}
    (G : Graded parent height K) (hp : ∀ c, K c → parent' c = parent c) (n : Nat) (hb : K b) :
    lineage parent' n b = lineage parent n b := by
  induction n generalizing b with
  | zero => rfl
  | succ n ih =>
    rw [lineage, lineage, hp b hb]
    cases h : parent b with
    | none => rfl
    | some c => exact congrArg (b :: ·) (ih (G.closed b c hb h))

theorem Graded.length_lineage {height : α → Nat} {K : α → Prop} (G : Graded parent height K)
    {n : Nat} (hb : K b) (hn : n ≤ height b + 1) : (lineage parent n b).length = n := by
  induction n generalizing b with
  | zero => rfl
  | succ n ih =>
    rw [lineage, List.length_cons]
    cases h : parent b with
    | none =>
      have := G.root b hb h
      obtain rfl : n = 0 := by omega
      rfl
    | some c =>
      have hh := G.child b c hb h
      exact congrArg (· + 1) (ih (G.closed b c hb h) (by omega))

end GC.Framework
