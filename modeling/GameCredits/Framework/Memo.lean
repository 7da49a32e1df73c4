import Mathlib.Logic.Function.Basic
import Mathlib.Tactic.SplitIfs

/-!
# Remembered values

Programs that look a value up in a table and compute it, and put it there, when the flag beside it is
not set (`Memo.fetch`). A table is `Coherent` with the present values at some keys when what is flagged
there is the present value. A program that looks up no other keys then gives the present result and
leaves the table so (`Serves`), and so does a sequence of programs (`answers_eq`).
-/

namespace GC.Framework

variable {κ ε α β γ : Type}

/-- A value that is there when the flag is set. -/
structure Remembered (β : Type) where
  fCached : Bool
  nCached : β

/-- Programs over a table of remembered values. -/
abbrev Memo (κ ε β : Type) := EStateM ε (κ → Remembered β)

section Fetch

variable [DecidableEq κ]

/-- The value that is remembered under `k`, or else the computed one, which is remembered then. -/
def Memo.fetch (fUseCache : Bool) (k : κ) (compute : Except ε β) : Memo κ ε β β := fun s =>
  if fUseCache && (s k).fCached then .ok (s k).nCached s
  else
    match compute with
    | .error e => .error e s
    | .ok n => .ok n (Function.update s k ⟨true, n⟩)

theorem Memo.fetch_cached {s : κ → Remembered β} {k : κ} (h : (s k).fCached = true)
    (compute : Except ε β) : Memo.fetch true k compute s = .ok (s k).nCached s := by
  unfold Memo.fetch
  rw [h]
  rfl

/-- The keys `dropped` are forgotten. -/
def Memo.forget (dropped : List κ) (s : κ → Remembered β) : κ → Remembered β := fun k =>
  if k ∈ dropped then { s k with fCached := false } else s k

end Fetch

/-- What the programs give when they run one after the other; one that fails keeps what it has
remembered. -/
def answers : List (Memo κ ε β α) → (κ → Remembered β) → List (Except ε α)
  | [], _ => []
  | x :: xs, s =>
    match x s with
    | .ok a s => .ok a :: answers xs s
    | .error e s => .error e :: answers xs s

/-- What is remembered then. -/
def remembers : List (Memo κ ε β α) → (κ → Remembered β) → (κ → Remembered β)
  | [], s => s
  | x :: xs, s =>
    match x s with
    | .ok _ s => remembers xs s
    | .error _ s => remembers xs s

/-- Under the keys `K`, the table has no other values than those of `now`. -/
def Coherent (now : κ → Except ε β) (K : κ → Prop) (s : κ → Remembered β) : Prop :=
  ∀ k, K k → (s k).fCached = true → now k = .ok (s k).nCached

section

variable {now : κ → Except ε β} {K : κ → Prop} {s : κ → Remembered β}

theorem coherent_forget [DecidableEq κ] {dropped : List κ} :
    Coherent now K (Memo.forget dropped s) ↔ Coherent now (fun k => K k ∧ k ∉ dropped) s := by
  constructor
  · rintro h k ⟨hk, hkept⟩ hcached
    have := h k hk
    simp only [Memo.forget, if_neg hkept] at this
    exact this hcached
  · intro h k hk
    unfold Memo.forget
    split_ifs with hdropped
    · exact nofun
    · exact h k ⟨hk, hdropped⟩

/-- The result is `r`, and the table that is left is coherent. -/
def Gives (now : κ → Except ε β) (K : κ → Prop) (r : Except ε α) :
    EStateM.Result ε (κ → Remembered β) α → Prop
  | .ok a s => r = .ok a ∧ Coherent now K s
  | .error e s => r = .error e ∧ Coherent now K s

/-- From a coherent table `x` gives `r`. -/
def Serves (now : κ → Except ε β) (K : κ → Prop) (x : Memo κ ε β α) (r : Except ε α) : Prop :=
  ∀ s, Coherent now K s → Gives now K r (x s)

namespace Serves

theorem pure (a : α) : Serves now K (Pure.pure a : Memo κ ε β α) (.ok a) := fun _ hs => ⟨rfl, hs⟩

theorem bind {x : Memo κ ε β α} {r : Except ε α} {f : α → Memo κ ε β γ} {g : α → Except ε γ}
    (hx : Serves now K x r) (hf : ∀ a, Serves now K (f a) (g a)) :
    Serves now K (x >>= f) (r >>= g) := by
  intro s hs
  have h := hx s hs
  show Gives now K (r >>= g) (EStateM.bind x f s)
  unfold EStateM.bind
  cases hrun : x s with
  | ok a s' =>
    rw [hrun] at h
    rw [h.1]
    exact hf a s' h.2
  | error e s' =>
    rw [hrun] at h
    rw [h.1]
    exact ⟨rfl, h.2⟩

theorem ite {p : Prop} [Decidable p] {x y : Memo κ ε β α} {r q : Except ε α}
    (hx : p → Serves now K x r) (hy : ¬ p → Serves now K y q) :
    Serves now K (if p then x else y) (if p then r else q) := by
  split_ifs with hp
  · exact hx hp
  · exact hy hp

variable [DecidableEq κ]

theorem fetch {k : κ} (hk : K k) (fUseCache : Bool) {compute : Except ε β} (hnow : compute = now k) :
    Serves now K (Memo.fetch fUseCache k compute) (now k) := by
  intro s hs
  unfold Memo.fetch
  split_ifs with hcached
  · exact ⟨hs k hk (Bool.and_eq_true_iff.mp hcached).2, hs⟩
  · subst hnow
    cases hcompute : now k with
    | error e => exact ⟨rfl, hs⟩
    | ok n =>
      refine ⟨rfl, fun k' hk' hcached' => ?_⟩
      by_cases heq : k' = k
      · rw [heq, Function.update_self]
        exact hcompute
      · rw [Function.update_of_ne heq] at hcached' ⊢
        exact hs k' hk' hcached'

end Serves

/-- The programs of the calls give the present results on a coherent table. -/
theorem answers_eq {ι : Type} {x : ι → Memo κ ε β α} {r : ι → Except ε α}
    (h : ∀ c, Serves now K (x c) (r c)) (hs : Coherent now K s) (calls : List ι) :
    answers (calls.map x) s = calls.map r := by
  induction calls generalizing s with
  | nil => rfl
  | cons c calls ih =>
    have hhead := h c s hs
    rw [List.map_cons, List.map_cons, answers]
    cases hrun : x c s with
    | ok a s' =>
      rw [hrun] at hhead
      rw [hhead.1, ← ih hhead.2]
    | error e s' =>
      rw [hrun] at hhead
      rw [hhead.1, ← ih hhead.2]

/-- The programs of the calls leave the table coherent. -/
theorem coherent_remembers {ι : Type} {x : ι → Memo κ ε β α} {r : ι → Except ε α}
    (h : ∀ c, Serves now K (x c) (r c)) (hs : Coherent now K s) (calls : List ι) :
    Coherent now K (remembers (calls.map x) s) := by
  induction calls generalizing s with
  | nil => exact hs
  | cons c calls ih =>
    have hhead := h c s hs
    rw [List.map_cons, remembers]
    cases hrun : x c s with
    | ok a s' =>
      rw [hrun] at hhead
      exact ih hhead.2
    | error e s' =>
      rw [hrun] at hhead
      exact ih hhead.2

end

end GC.Framework
