import Mathlib.Data.List.Basic
import Mathlib.Data.List.Nodup
import Mathlib.Algebra.Group.Nat.Defs

/-!
# Merkle trees over lists

The level above a list combines its elements in pairs, a last single one with itself (`up`); the
levels of a list go on until one element is left, its root. A list can have the root of another one
only if two equal elements are combined at the end of a level (`mutated_of_root_eq`), and not at all
if no element is there twice (`mutated_of_nodup`).

Instead of an injective combination it is asked that no two of the pairs that occur collide.
-/

namespace GC.Framework.MerkleTree

variable {α : Type}

/-- The pairs that are combined for the level above. -/
def pairs : List α → List (α × α)
  | [] => []
  | [a] => [(a, a)]
  | a :: b :: l => (a, b) :: pairs l

/-- Whether the last two elements of a list of even length are the same. -/
def lastPair [DecidableEq α] : List α → Bool
  | [] => false
  | [_] => false
  | [a, b] => a == b
  | _ :: _ :: l => lastPair l

section

variable (h : α → α → α)

/-- The level above. -/
def up (l : List α) : List α := (pairs l).map fun p => h p.1 p.2

/-- The level `n` steps above. -/
def level : Nat → List α → List α
  | 0, l => l
  | n + 1, l => up h (level n l)

/-- The root; each level is shorter than the one below, so that `fuel` may be the length. -/
def root : (fuel : Nat) → List α → Option α
  | 0, l => l.head?
  | fuel + 1, l => if l.length ≤ 1 then l.head? else root fuel (up h l)

/-- The levels above `l`, one after the other. -/
def above : (fuel : Nat) → List α → List α
  | 0, _ => []
  | fuel + 1, l => if l.length ≤ 1 then [] else up h l ++ above fuel (up h l)

/-- Whether two equal elements are combined at the end of a level. -/
def mutated [DecidableEq α] : (fuel : Nat) → List α → Bool
  | 0, _ => false
  | fuel + 1, l => if l.length ≤ 1 then false else lastPair l || mutated fuel (up h l)

/-- All pairs that are combined on the way to the root. -/
def allPairs : (fuel : Nat) → List α → List (α × α)
  | 0, _ => []
  | fuel + 1, l => if l.length ≤ 1 then [] else pairs l ++ allPairs fuel (up h l)

/-- No two pairs of a list collide. -/
def NoCollision (ps : List (α × α)) : Prop :=
  ∀ p ∈ ps, ∀ q ∈ ps, h p.1 p.2 = h q.1 q.2 → p = q

instance [DecidableEq α] (ps : List (α × α)) : Decidable (NoCollision h ps) :=
  inferInstanceAs (Decidable (∀ p ∈ ps, ∀ q ∈ ps, h p.1 p.2 = h q.1 q.2 → p = q))

end

variable {h : α → α → α} {l xs ys : List α}

theorem length_pairs : ∀ l : List α, (pairs l).length = (l.length + 1) / 2
  | [] => by simp [pairs]
  | [_] => by simp [pairs]
  | _ :: _ :: l => by
    rw [pairs, List.length_cons, length_pairs l, List.length_cons, List.length_cons]
    omega

theorem length_up (l : List α) : (up h l).length = (l.length + 1) / 2 := by
  rw [up, List.length_map, length_pairs]

/-- The elements of the pairs are elements of the list. -/
theorem mem_of_mem_pairs {p : α × α} : ∀ {l : List α}, p ∈ pairs l → p.1 ∈ l ∧ p.2 ∈ l
  | [], hp => by cases hp
  | [a], hp => by
    obtain rfl := List.mem_singleton.mp hp
    exact ⟨List.mem_singleton_self a, List.mem_singleton_self a⟩
  | a :: b :: l, hp => by
    rcases List.mem_cons.mp hp with rfl | hp
    · exact ⟨by simp, by simp⟩
    · obtain ⟨h₁, h₂⟩ := mem_of_mem_pairs hp
      exact ⟨by simp [h₁], by simp [h₂]⟩

theorem exists_root {fuel : Nat} (hne : l ≠ []) (hfuel : l.length ≤ fuel) :
    ∃ r, root h fuel l = some r := by
  induction fuel generalizing l with
  | zero => exact (hne (List.eq_nil_of_length_eq_zero (by omega))).elim
  | succ fuel ih =>
    rw [root]
    split_ifs with hlen
    · exact ⟨l.head hne, List.head?_eq_some_head hne⟩
    · have hup := length_up (h := h) l
      exact ih (List.ne_nil_of_length_pos (by omega)) (by omega)

/-- The root is the last element of the last level. -/
theorem getLast?_above {fuel : Nat} (hfuel : l.length ≤ fuel) :
    (l ++ above h fuel l).getLast? = root h fuel l := by
  induction fuel generalizing l with
  | zero => obtain rfl := List.eq_nil_of_length_eq_zero (Nat.le_zero.mp hfuel); rfl
  | succ fuel ih =>
    rw [above, root]
    split_ifs with hlen
    · rw [List.append_nil]
      rcases l with _ | ⟨a, _ | ⟨b, rest⟩⟩
      · rfl
      · rfl
      · rw [List.length_cons, List.length_cons] at hlen
        omega
    · have hup := length_up (h := h) l
      have hne : up h l ≠ [] := List.ne_nil_of_length_pos (by omega)
      rw [← ih (by omega : (up h l).length ≤ fuel)]
      exact List.getLast?_append_of_ne_nil _ (List.append_ne_nil_of_left_ne_nil hne _)

/-! ## Lists with the same root -/

section

variable [DecidableEq α]

/-- Lists with the same pairs are the same, unless one ends with an element that it has twice and the
other one with that element alone. -/
theorem eq_of_pairs_eq : ∀ {xs ys : List α}, pairs xs = pairs ys →
    xs = ys ∨ lastPair xs = true ∨ lastPair ys = true
  | [], [], _ => .inl rfl
  | [], [_], heq => by cases heq
  | [], _ :: _ :: _, heq => by cases heq
  | [_], [], heq => by cases heq
  | _ :: _ :: _, [], heq => by cases heq
  | [a], [b], heq => by cases heq; exact .inl rfl
  | [a], [b, c], heq => by cases heq; exact .inr (.inr (by simp [lastPair]))
  | [b, c], [a], heq => by cases heq; exact .inr (.inl (by simp [lastPair]))
  | [a], b :: c :: d :: l, heq => by
    have := congrArg List.length heq
    rw [length_pairs, length_pairs] at this
    simp only [List.length_cons, List.length_nil] at this
    omega
  | b :: c :: d :: l, [a], heq => by
    have := congrArg List.length heq
    rw [length_pairs, length_pairs] at this
    simp only [List.length_cons, List.length_nil] at this
    omega
  | a :: b :: xs, c :: d :: ys, heq => by
    rw [pairs, pairs, List.cons.injEq, Prod.mk.injEq] at heq
    obtain ⟨⟨rfl, rfl⟩, hrest⟩ := heq
    rcases eq_of_pairs_eq hrest with rfl | hx | hy
    · exact .inl rfl
    · refine .inr (.inl ?_)
      cases xs with
      | nil => cases hx
      | cons x xs => exact hx
    · refine .inr (.inr ?_)
      cases ys with
      | nil => cases hy
      | cons y ys => exact hy

/-- The same for the level above, when no pairs collide. -/
theorem eq_of_up_eq {ps : List (α × α)} (hps : NoCollision h ps) (hx : ∀ p ∈ pairs xs, p ∈ ps)
    (hy : ∀ p ∈ pairs ys, p ∈ ps) (heq : up h xs = up h ys) :
    xs = ys ∨ lastPair xs = true ∨ lastPair ys = true := by
  refine eq_of_pairs_eq ?_
  have hinj : ∀ {l l' : List (α × α)}, (∀ p ∈ l, p ∈ ps) → (∀ p ∈ l', p ∈ ps) →
      l.map (fun p => h p.1 p.2) = l'.map (fun p => h p.1 p.2) → l = l' := by
    intro l
    induction l with
    | nil => intro l' _ _ heq; exact (List.map_eq_nil_iff.mp heq.symm).symm
    | cons p l ih =>
      intro l' hl hl' heq
      cases l' with
      | nil => cases heq
      | cons q l' =>
        rw [List.map_cons, List.map_cons, List.cons.injEq] at heq
        rw [hps p (hl p (by simp)) q (hl' q (by simp)) heq.1,
          ih (fun r hr => hl r (by simp [hr])) (fun r hr => hl' r (by simp [hr])) heq.2]
  exact hinj hx hy heq

/-- `a` is the root of a tree of height `k` over leaves, as to its leftmost path. -/
def Rank (h : α → α → α) (leaves : List α) (ps : List (α × α)) : Nat → α → Prop
  | 0, a => a ∈ leaves
  | k + 1, a => ∃ p ∈ ps, h p.1 p.2 = a ∧ Rank h leaves ps k p.1

omit [DecidableEq α] in
/-- Heights are unique, when no pairs collide and no leaf is a combination. -/
theorem Rank.unique {leaves : List α} {ps : List (α × α)} (hps : NoCollision h ps)
    (hleaf : ∀ a ∈ leaves, ∀ p ∈ ps, a ≠ h p.1 p.2) {j k : Nat} {a : α}
    (hj : Rank h leaves ps j a) (hk : Rank h leaves ps k a) : j = k := by
  induction j generalizing a k with
  | zero =>
    cases k with
    | zero => rfl
    | succ k =>
      obtain ⟨p, hp, rfl, -⟩ := hk
      exact (hleaf _ hj p hp rfl).elim
  | succ j ih =>
    obtain ⟨p, hp, rfl, hj⟩ := hj
    cases k with
    | zero => exact (hleaf _ hk p hp rfl).elim
    | succ k =>
      obtain ⟨q, hq, hqp, hk⟩ := hk
      obtain rfl := hps q hq p hp hqp
      rw [ih hj hk]

omit [DecidableEq α] in
theorem rank_up {leaves : List α} {ps : List (α × α)} {k : Nat}
    (hl : ∀ a ∈ l, Rank h leaves ps k a) (hps : ∀ p ∈ pairs l, p ∈ ps) :
    ∀ a ∈ up h l, Rank h leaves ps (k + 1) a := by
  intro a ha
  obtain ⟨p, hp, rfl⟩ := List.mem_map.mp ha
  exact ⟨p, hps p hp, rfl, hl _ (mem_of_mem_pairs hp).1⟩

omit [DecidableEq α] in
/-- The root is as high as there are levels. -/
theorem rank_root {leaves : List α} {ps : List (α × α)} {fuel k : Nat} (hne : l ≠ [])
    (hfuel : l.length ≤ fuel) (hl : ∀ a ∈ l, Rank h leaves ps k a)
    (hps : ∀ p ∈ allPairs h fuel l, p ∈ ps) :
    ∃ r j, root h fuel l = some r ∧ Rank h leaves ps (k + j) r ∧ (1 < l.length → 0 < j) := by
  induction fuel generalizing l k with
  | zero => exact (hne (List.eq_nil_of_length_eq_zero (by omega))).elim
  | succ fuel ih =>
    rw [root]
    rw [allPairs] at hps
    by_cases hlen : l.length ≤ 1
    · rw [if_pos hlen]
      obtain ⟨a, l', rfl⟩ := List.exists_cons_of_ne_nil hne
      exact ⟨a, 0, rfl, hl a (by simp), fun h => by omega⟩
    · rw [if_neg hlen] at hps ⊢
      have hup := length_up (h := h) l
      obtain ⟨r, j, hr, hrank, -⟩ := ih (l := up h l) (k := k + 1)
        (List.ne_nil_of_length_pos (by omega)) (by omega)
        (rank_up hl fun p hp => hps p (List.mem_append_left _ hp))
        fun p hp => hps p (List.mem_append_right _ hp)
      exact ⟨r, j + 1, hr, by rwa [show k + (j + 1) = k + 1 + j by omega], fun _ => by omega⟩

/-- Lists with the same root are the same, or one of them combines two equal elements at the end of
a level. -/
theorem mutated_of_root_eq_rank {leaves : List α} {ps : List (α × α)} (hps : NoCollision h ps)
    (hleaf : ∀ a ∈ leaves, ∀ p ∈ ps, a ≠ h p.1 p.2) {fuel fuel' k : Nat}
    (hx : xs ≠ []) (hy : ys ≠ []) (hxf : xs.length ≤ fuel) (hyf : ys.length ≤ fuel')
    (hxr : ∀ a ∈ xs, Rank h leaves ps k a) (hyr : ∀ a ∈ ys, Rank h leaves ps k a)
    (hxp : ∀ p ∈ allPairs h fuel xs, p ∈ ps) (hyp : ∀ p ∈ allPairs h fuel' ys, p ∈ ps)
    (hroot : root h fuel xs = root h fuel' ys) (hne : xs ≠ ys) :
    mutated h fuel xs = true ∨ mutated h fuel' ys = true := by
  induction fuel generalizing xs ys fuel' k with
  | zero => exact (hx (List.eq_nil_of_length_eq_zero (by omega))).elim
  | succ fuel ih =>
    cases fuel' with
    | zero => exact (hy (List.eq_nil_of_length_eq_zero (by omega))).elim
    | succ fuel' =>
      -- the two trees are equally high
      obtain ⟨r, j, hr, hrr, hj⟩ := rank_root hx hxf hxr hxp
      obtain ⟨r', j', hr', hrr', hj'⟩ := rank_root hy hyf hyr hyp
      rw [hr, hr'] at hroot
      cases hroot
      have hjj := Rank.unique hps hleaf hrr hrr'
      rw [root] at hr hr'
      rw [allPairs] at hxp hyp
      rw [mutated, mutated]
      by_cases hxl : xs.length ≤ 1 <;> by_cases hyl : ys.length ≤ 1
      · obtain ⟨a, rfl⟩ := List.length_eq_one_iff.mp
          (Nat.le_antisymm hxl (List.length_pos_iff.mpr hx))
        obtain ⟨b, rfl⟩ := List.length_eq_one_iff.mp
          (Nat.le_antisymm hyl (List.length_pos_iff.mpr hy))
        rw [if_pos hxl] at hr
        rw [if_pos hyl] at hr'
        cases hr
        cases hr'
        exact (hne rfl).elim
      · have := hj' (by omega)
        rw [if_pos hxl] at hr
        obtain ⟨a, rfl⟩ := List.length_eq_one_iff.mp
          (Nat.le_antisymm hxl (List.length_pos_iff.mpr hx))
        cases hr
        have := Rank.unique hps hleaf (hxr r (by simp)) hrr
        omega
      · have := hj (by omega)
        rw [if_pos hyl] at hr'
        obtain ⟨a, rfl⟩ := List.length_eq_one_iff.mp
          (Nat.le_antisymm hyl (List.length_pos_iff.mpr hy))
        cases hr'
        have := Rank.unique hps hleaf (hyr r (by simp)) hrr'
        omega
      · rw [if_neg hxl] at hr hxp ⊢
        rw [if_neg hyl] at hr' hyp ⊢
        have hx₁ : ∀ p ∈ pairs xs, p ∈ ps := fun p hp => hxp p (List.mem_append_left _ hp)
        have hy₁ : ∀ p ∈ pairs ys, p ∈ ps := fun p hp => hyp p (List.mem_append_left _ hp)
        have hxu := length_up (h := h) xs
        have hyu := length_up (h := h) ys
        rw [Bool.or_eq_true, Bool.or_eq_true]
        by_cases hup : up h xs = up h ys
        · rcases eq_of_up_eq hps hx₁ hy₁ hup with heq | hlast | hlast
          · exact (hne heq).elim
          · exact .inl (.inl hlast)
          · exact .inr (.inl hlast)
        · refine (ih (List.ne_nil_of_length_pos (by omega)) (List.ne_nil_of_length_pos (by omega))
            (by omega) (by omega) (rank_up hxr hx₁) (rank_up hyr hy₁)
            (fun p hp => hxp p (List.mem_append_right _ hp))
            (fun p hp => hyp p (List.mem_append_right _ hp)) (hr.trans hr'.symm) hup).imp .inr .inr

/-- The same for lists of leaves. -/
theorem mutated_of_root_eq {fuel fuel' : Nat}
    (hps : NoCollision h (allPairs h fuel xs ++ allPairs h fuel' ys))
    (hleaf : ∀ a ∈ xs ++ ys, ∀ p ∈ allPairs h fuel xs ++ allPairs h fuel' ys, a ≠ h p.1 p.2)
    (hx : xs ≠ []) (hy : ys ≠ []) (hxf : xs.length ≤ fuel) (hyf : ys.length ≤ fuel')
    (hroot : root h fuel xs = root h fuel' ys) (hne : xs ≠ ys) :
    mutated h fuel xs = true ∨ mutated h fuel' ys = true :=
  mutated_of_root_eq_rank (k := 0) hps hleaf hx hy hxf hyf
    (fun _ ha => List.mem_append_left _ ha) (fun _ ha => List.mem_append_right _ ha)
    (fun _ hp => List.mem_append_left _ hp) (fun _ hp => List.mem_append_right _ hp) hroot hne

/-! ## Lists without repetitions -/

omit [DecidableEq α] in
theorem nodup_pairs : ∀ {l : List α}, l.Nodup → (pairs l).Nodup
  | [], _ => List.nodup_nil
  | [_], _ => List.nodup_singleton _
  | a :: b :: l, hl => by
    rw [pairs, List.nodup_cons]
    obtain ⟨ha, hl⟩ := List.nodup_cons.mp hl
    obtain ⟨-, hl⟩ := List.nodup_cons.mp hl
    exact ⟨fun hp => ha (List.mem_cons_of_mem _ (mem_of_mem_pairs hp).1), nodup_pairs hl⟩

omit [DecidableEq α] in
theorem nodup_up {ps : List (α × α)} (hps : NoCollision h ps) (hsub : ∀ p ∈ pairs l, p ∈ ps)
    (hl : l.Nodup) : (up h l).Nodup :=
  (nodup_pairs hl).map_on fun p hp q hq heq => hps p (hsub p hp) q (hsub q hq) heq

theorem lastPair_of_nodup : ∀ {l : List α}, l.Nodup → lastPair l = false
  | [], _ => rfl
  | [_], _ => rfl
  | [a, b], hl => by
    have hab : a ≠ b := by simpa using hl
    simpa [lastPair] using hab
  | _ :: _ :: c :: l, hl => by
    rw [lastPair]
    · exact lastPair_of_nodup (List.nodup_cons.mp (List.nodup_cons.mp hl).2).2
    · exact List.cons_ne_nil _ _

/-- A list without repetitions is not mutated. -/
theorem mutated_of_nodup {fuel : Nat} (hps : NoCollision h (allPairs h fuel l)) (hl : l.Nodup) :
    mutated h fuel l = false := by
  induction fuel generalizing l with
  | zero => rfl
  | succ fuel ih =>
    rw [mutated]
    rw [allPairs] at hps
    split_ifs at hps ⊢
    · rfl
    · rw [lastPair_of_nodup hl, Bool.false_or]
      exact ih (fun p hp q hq => hps p (List.mem_append_right _ hp) q (List.mem_append_right _ hq))
        (nodup_up hps (fun p hp => List.mem_append_left _ hp) hl)

end

/-! ## Nodes by position -/

theorem getElem?_pairs : ∀ (l : List α) (i : Nat),
    (pairs l)[i]? = l[2 * i]?.map fun a => (a, l.getD (2 * i + 1) a)
  | [], _ => rfl
  | [a], 0 => rfl
  | [a], i + 1 => rfl
  | a :: b :: l, 0 => rfl
  | a :: b :: l, i + 1 => by
    rw [pairs, List.getElem?_cons_succ, getElem?_pairs l i]
    rfl

/-- A node combines the two below it, or the one below it with itself. -/
theorem getElem?_up (l : List α) (i : Nat) :
    (up h l)[i]? = l[2 * i]?.map fun a => h a (l.getD (2 * i + 1) a) := by
  rw [up, List.getElem?_map, getElem?_pairs, Option.map_map]
  rfl

theorem level_up (n : Nat) (l : List α) : level h n (up h l) = level h (n + 1) l := by
  induction n with
  | zero => rfl
  | succ n ih => rw [level, ih]; rfl

theorem length_level (n : Nat) (l : List α) :
    (level h n l).length = (l.length + 2 ^ n - 1) / 2 ^ n := by
  induction n with
  | zero => rw [level, Nat.pow_zero, Nat.div_one, Nat.add_sub_cancel]
  | succ n ih =>
    have hpos : 0 < 2 ^ n := Nat.pow_pos (by decide)
    rw [level, length_up, ih, Nat.pow_succ, ← Nat.div_div_eq_div_mul,
      ← Nat.add_div_right _ hpos]
    congr 2
    omega

/-- The root is the node of the first level that has only one. -/
theorem root_eq_level {fuel k : Nat} (hfuel : l.length ≤ fuel) (hk : (level h k l).length ≤ 1)
    (hlt : ∀ j < k, 1 < (level h j l).length) : root h fuel l = (level h k l).head? := by
  induction k generalizing l fuel with
  | zero =>
    have hl : l.length ≤ 1 := hk
    cases fuel with
    | zero => rfl
    | succ fuel => rw [root, if_pos hl]; rfl
  | succ k ih =>
    have hl : 1 < l.length := hlt 0 (Nat.succ_pos k)
    cases fuel with
    | zero => omega
    | succ fuel =>
      have hup := length_up (h := h) l
      rw [root, if_neg (by omega), ← level_up]
      rw [← level_up] at hk
      exact ih (by omega) hk fun j hj => level_up (h := h) j l ▸ hlt (j + 1) (by omega)

/-- The pairs of a level below the root are among all pairs. -/
theorem mem_allPairs_of_level {fuel k : Nat} {p : α × α} (hfuel : l.length ≤ fuel)
    (hlt : ∀ j ≤ k, 1 < (level h j l).length) (hp : p ∈ pairs (level h k l)) :
    p ∈ allPairs h fuel l := by
  have hl : 1 < l.length := hlt 0 (Nat.zero_le k)
  induction k generalizing l fuel with
  | zero =>
    cases fuel with
    | zero => omega
    | succ fuel => rw [allPairs, if_neg (by omega)]; exact List.mem_append_left _ hp
  | succ k ih =>
    cases fuel with
    | zero => omega
    | succ fuel =>
      have hup := length_up (h := h) l
      rw [allPairs, if_neg (by omega)]
      rw [← level_up] at hp
      exact List.mem_append_right _ (ih (by omega)
        (fun j hj => level_up (h := h) j l ▸ hlt (j + 1) (by omega)) hp
        (hlt 1 (by omega)))

/-- When no pairs collide, the nodes of a level up to the root differ if the leaves do. -/
theorem nodup_level {fuel k : Nat} (hps : NoCollision h (allPairs h fuel l))
    (hfuel : l.length ≤ fuel) (hlt : ∀ j < k, 1 < (level h j l).length) (hl : l.Nodup) :
    (level h k l).Nodup := by
  induction k with
  | zero => exact hl
  | succ k ih =>
    exact nodup_up hps (fun p hp => mem_allPairs_of_level hfuel
      (fun j hj => hlt j (by omega)) hp) (ih fun j hj => hlt j (by omega))

/-! ## Branches -/

/-- The position that a node is combined with. -/
def sibling (l : List α) (i : Nat) : Nat := min (if i % 2 = 0 then i + 1 else i - 1) (l.length - 1)

section

variable (h : α → α → α)

/-- The siblings on the way from a position to the root. -/
def branch : (fuel : Nat) → List α → (i : Nat) → List α
  | 0, _, _ => []
  | fuel + 1, l, i =>
    if l.length ≤ 1 then [] else l[sibling l i]?.toList ++ branch fuel (up h l) (i / 2)

/-- The combination of a node with its siblings. -/
def climb (a : α) : List α → (i : Nat) → α
  | [], _ => a
  | b :: bs, i => climb (if i % 2 = 1 then h b a else h a b) bs (i / 2)

end

theorem sibling_lt (hl : 1 < l.length) (i : Nat) : sibling l i < l.length :=
  Nat.lt_of_le_of_lt (Nat.min_le_right _ _) (by omega)

/-- A node combined with its sibling is the node above. -/
theorem getElem?_up_of_sibling {i : Nat} {a b : α} (hl : 1 < l.length) (ha : l[i]? = some a)
    (hb : l[sibling l i]? = some b) :
    (up h l)[i / 2]? = some (if i % 2 = 1 then h b a else h a b) := by
  obtain ⟨hi, -⟩ := List.getElem?_eq_some_iff.mp ha
  rw [getElem?_up]
  split_ifs with hodd
  · -- the left one is the sibling
    have hs : sibling l i = 2 * (i / 2) := by
      rw [sibling, if_neg (by omega)]
      omega
    rw [hs] at hb
    rw [hb, Option.map_some, List.getD_eq_getElem?_getD, show 2 * (i / 2) + 1 = i by omega, ha]
    rfl
  · rw [show 2 * (i / 2) = i by omega, ha, Option.map_some, List.getD_eq_getElem?_getD]
    by_cases hlast : i + 1 < l.length
    · have hs : sibling l i = i + 1 := by
        rw [sibling, if_pos (by omega)]
        omega
      rw [hs] at hb
      rw [hb]
      rfl
    · -- the last node of an odd level is its own sibling
      have hs : sibling l i = i := by
        rw [sibling, if_pos (by omega)]
        omega
      rw [hs, ha] at hb
      cases hb
      rw [List.getElem?_eq_none (by omega)]
      rfl

/-- The branch of a position leads to the root. -/
theorem climb_branch {fuel i : Nat} {a : α} (hfuel : l.length ≤ fuel) (ha : l[i]? = some a) :
    root h fuel l = some (climb h a (branch h fuel l i) i) := by
  obtain ⟨hi, -⟩ := List.getElem?_eq_some_iff.mp ha
  induction fuel generalizing l i a with
  | zero => omega
  | succ fuel ih =>
    rw [root, branch]
    split_ifs with hlen
    · obtain rfl : i = 0 := by omega
      rw [List.head?_eq_getElem?, ha]
      rfl
    · have hb := List.getElem?_eq_getElem (sibling_lt (Nat.lt_of_not_le hlen) i)
      have hup := getElem?_up_of_sibling (h := h) (Nat.lt_of_not_le hlen) ha hb
      have hlen' := length_up (h := h) l
      rw [hb, Option.toList_some, List.singleton_append, climb]
      exact ih (by omega) hup (by omega)

end GC.Framework.MerkleTree
