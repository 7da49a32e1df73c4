import GameCredits.Framework.Outcome
import Mathlib.Logic.Function.Basic
import Mathlib.Data.Finset.Basic

/-!
# Programs over a keyed store

A `Prog` reads and edits the records of a store, one key at a time, reads and sets one tag of the
whole store, and ends with a value or an error. `Impl` is an implementation of the store, and
`Prog.run` runs a program on it. `Map` is the plain implementation, a function from keys to records.

* `Prog.Rel` relates two programs that ask for the same keys and stay related whenever the records
  they read are related; both may also have become `Always` programs, whose outcome is settled.
* `Impl.Sim` relates two implementations operation by operation.
* `Prog.Rel.run`: related programs on related stores end with related outcomes and stores.
-/

namespace GC.Framework

/-- Programs over a store with keys `κ`, records `ν` and a tag `τ`, that return an `α` or fail with
an `ε`. -/
inductive Prog (κ ν τ ε α : Type) : Type where
  | ret (a : α)
  | fail (e : ε)
  | get (k : κ) (next : Option ν → Prog κ ν τ ε α)
  /-- Edits the record under `k` (an empty one when there is none), and goes on with the record as
  it was before the edit. -/
  | edit (k : κ) (f : ν → ν) (next : ν → Prog κ ν τ ε α)
  | getTag (next : τ → Prog κ ν τ ε α)
  | setTag (t : τ) (next : Prog κ ν τ ε α)

variable {κ ν τ ε α β γ σ σ' : Type}

namespace Prog

/-- Runs `p`, then `f` on its value. -/
def bind (p : Prog κ ν τ ε α) (f : α → Prog κ ν τ ε β) : Prog κ ν τ ε β :=
  match p with
  | .ret a => f a
  | .fail e => .fail e
  | .get k next => .get k fun x => (next x).bind f
  | .edit k g next => .edit k g fun x => (next x).bind f
  | .getTag next => .getTag fun t => (next t).bind f
  | .setTag t next => .setTag t (next.bind f)

instance : Monad (Prog κ ν τ ε) where
  pure := .ret
  bind := Prog.bind

theorem bind_assoc (p : Prog κ ν τ ε α) (f : α → Prog κ ν τ ε β) (g : β → Prog κ ν τ ε γ) :
    (p >>= f) >>= g = p >>= fun a => f a >>= g := by
  induction p with
  | ret a => rfl
  | fail e => rfl
  | get k next ih => exact congrArg (Prog.get k) (funext ih)
  | edit k e next ih => exact congrArg (Prog.edit k e) (funext ih)
  | getTag next ih => exact congrArg Prog.getTag (funext ih)
  | setTag t next ih => exact congrArg (Prog.setTag t) ih

/-- A result computed without the store. -/
def lift : Except ε α → Prog κ ν τ ε α
  | .ok a => .ret a
  | .error e => .fail e

/-- Fails with `e` unless `b` holds. -/
def check (b : Bool) (e : ε) : Prog κ ν τ ε Unit := if b then .ret () else .fail e

/-- Runs `p`; where it fails, `h` says what becomes of the error. -/
def rescue (h : ε → Except ε α) : Prog κ ν τ ε α → Prog κ ν τ ε α
  | .ret a => .ret a
  | .fail e => lift (h e)
  | .get k next => .get k fun x => (next x).rescue h
  | .edit k f next => .edit k f fun x => (next x).rescue h
  | .getTag next => .getTag fun t => (next t).rescue h
  | .setTag t next => .setTag t (next.rescue h)

/-- `p` ends in an outcome satisfying `B`, whatever it reads. -/
def Always (B : Except ε α → Prop) : Prog κ ν τ ε α → Prop
  | .ret a => B (.ok a)
  | .fail e => B (.error e)
  | .get _ next => ∀ x, (next x).Always B
  | .edit _ _ next => ∀ x, (next x).Always B
  | .getTag next => ∀ t, (next t).Always B
  | .setTag _ next => next.Always B

theorem Always.trivial : ∀ p : Prog κ ν τ ε α, p.Always fun _ => True
  | .ret _ => True.intro
  | .fail _ => True.intro
  | .get _ next => fun x => Always.trivial (next x)
  | .edit _ _ next => fun x => Always.trivial (next x)
  | .getTag next => fun t => Always.trivial (next t)
  | .setTag _ next => Always.trivial next

theorem Always.bind {B : Except ε α → Prop} {B' : Except ε β → Prop} {f : α → Prog κ ν τ ε β}
    (herr : ∀ e, B (.error e) → B' (.error e)) (hok : ∀ a, B (.ok a) → (f a).Always B') :
    ∀ {p : Prog κ ν τ ε α}, p.Always B → (p >>= f).Always B'
  | .ret _, h => hok _ h
  | .fail _, h => herr _ h
  | .get _ _, h => fun x => (h x).bind herr hok
  | .edit _ _ _, h => fun x => (h x).bind herr hok
  | .getTag _, h => fun t => (h t).bind herr hok
  | .setTag _ next, h => Always.bind herr hok (p := next) h

end Prog

/-- An implementation of a keyed store: reading may change the representation. -/
structure Impl (κ ν τ σ : Type) where
  get : σ → κ → Option ν × σ
  /-- Applies an edit to the record under a key, and returns the record as it was. -/
  edit : σ → κ → (ν → ν) → ν × σ
  getTag : σ → τ × σ
  setTag : σ → τ → σ

namespace Prog

/-- Runs a program on an implementation. -/
def run (I : Impl κ ν τ σ) : Prog κ ν τ ε α → σ → Except ε α × σ
  | .ret a, s => (.ok a, s)
  | .fail e, s => (.error e, s)
  | .get k next, s => (next (I.get s k).1).run I (I.get s k).2
  | .edit k f next, s => (next (I.edit s k f).1).run I (I.edit s k f).2
  | .getTag next, s => (next (I.getTag s).1).run I (I.getTag s).2
  | .setTag t next, s => next.run I (I.setTag s t)

variable {I : Impl κ ν τ σ}

@[simp] theorem run_pure (a : α) (s : σ) :
    (pure a : Prog κ ν τ ε α).run I s = (.ok a, s) := rfl

/-- Runs the rest of a program from the outcome of its first part. -/
def runNext (I : Impl κ ν τ σ) (f : α → Prog κ ν τ ε β) : Except ε α × σ → Except ε β × σ
  | (.ok a, s) => (f a).run I s
  | (.error e, s) => (.error e, s)

@[simp] theorem runNext_ok (f : α → Prog κ ν τ ε β) (a : α) (s : σ) :
    runNext I f (.ok a, s) = (f a).run I s := rfl

theorem run_bind (p : Prog κ ν τ ε α) (f : α → Prog κ ν τ ε β) (s : σ) :
    (p >>= f).run I s = runNext I f (p.run I s) := by
  induction p generalizing s with
  | ret a => rfl
  | fail e => rfl
  | get k next ih => exact ih _ _
  | edit k g next ih => exact ih _ _
  | getTag next ih => exact ih _ _
  | setTag t next ih => exact ih _

@[simp] theorem run_lift (r : Except ε α) (s : σ) :
    (lift r : Prog κ ν τ ε α).run I s = (r, s) := by
  cases r <;> rfl

@[simp] theorem run_check (b : Bool) (e : ε) (s : σ) :
    (check b e : Prog κ ν τ ε Unit).run I s = (if b then .ok () else .error e, s) := by
  cases b <;> rfl

theorem run_rescue (h : ε → Except ε α) (p : Prog κ ν τ ε α) (s : σ) :
    (p.rescue h).run I s = ((p.run I s).1.tryCatch h, (p.run I s).2) := by
  induction p generalizing s with
  | ret a => rfl
  | fail e => exact run_lift (h e) s
  | get k next ih => exact ih _ _
  | edit k f next ih => exact ih _ _
  | getTag next ih => exact ih _ _
  | setTag t next ih => exact ih _

/-- A program that has succeeded: its first part succeeded, and the rest succeeded from there. -/
theorem run_bind_ok {p : Prog κ ν τ ε α} {f : α → Prog κ ν τ ε β} {s s' : σ} {b : β}
    (h : (p >>= f).run I s = (.ok b, s')) :
    ∃ a s₁, p.run I s = (.ok a, s₁) ∧ (f a).run I s₁ = (.ok b, s') := by
  rw [run_bind] at h
  rcases hp : p.run I s with ⟨r, s₁⟩
  rw [hp] at h
  cases r with
  | error e => cases h
  | ok a => exact ⟨a, s₁, rfl, h⟩

theorem run_check_bind_ok {b : Bool} {e : ε} {f : Unit → Prog κ ν τ ε α} {s s' : σ} {a : α}
    (h : (check b e >>= f).run I s = (.ok a, s')) : b = true ∧ (f ()).run I s = (.ok a, s') := by
  cases b with
  | false => cases h
  | true => exact ⟨rfl, h⟩

theorem run_lift_bind_ok {r : Except ε α} {f : α → Prog κ ν τ ε β} {s s' : σ} {b : β}
    (h : (lift r >>= f).run I s = (.ok b, s')) : ∃ a, r = .ok a ∧ (f a).run I s = (.ok b, s') := by
  cases r with
  | error e => cases h
  | ok a => exact ⟨a, rfl, h⟩

/-- An outcome whose value is known. -/
theorem eq_ok_of_fst {r : Except ε α × σ} {a : α} (h : r.1 = .ok a) : r = (.ok a, r.2) :=
  Prod.ext h rfl

theorem run_pure_ok {a b : α} {s s' : σ}
    (h : (pure a : Prog κ ν τ ε α).run I s = (.ok b, s')) : a = b ∧ s = s' := by
  cases h; exact ⟨rfl, rfl⟩

/-- An `Always` program ends in an outcome satisfying `B` on every store. -/
theorem Always.run {B : Except ε α → Prop} {p : Prog κ ν τ ε α} (h : p.Always B) (s : σ) :
    B (p.run I s).1 := by
  induction p generalizing s with
  | ret a => exact h
  | fail e => exact h
  | get k next ih => exact ih _ (h _) _
  | edit k g next ih => exact ih _ (h _) _
  | getTag next ih => exact ih _ (h _) _
  | setTag t next ih => exact ih h _

end Prog

namespace Prog

/-- The program neither edits records nor sets the tag. -/
def Reads : Prog κ ν τ ε α → Prop
  | .ret _ => True
  | .fail _ => True
  | .get _ next => ∀ x, (next x).Reads
  | .edit _ _ _ => False
  | .getTag next => ∀ t, (next t).Reads
  | .setTag _ _ => False

theorem Reads.bind {p : Prog κ ν τ ε α} {f : α → Prog κ ν τ ε β} (hp : p.Reads)
    (hf : ∀ a, (f a).Reads) : (p >>= f).Reads := by
  induction p with
  | ret a => exact hf a
  | fail e => trivial
  | get k next ih => exact fun x => ih x (hp x)
  | edit k g next ih => exact hp
  | getTag next ih => exact fun t => ih t (hp t)
  | setTag t next ih => exact hp

theorem Reads.lift (r : Except ε α) : (Prog.lift r : Prog κ ν τ ε α).Reads := by
  cases r <;> trivial

theorem Reads.check (b : Bool) (e : ε) : (Prog.check b e : Prog κ ν τ ε Unit).Reads := by
  cases b <;> trivial

end Prog

/-! ## Relating programs -/

section Rel

variable (empty : ν) (R : ν → ν → Prop) (T : τ → Prop) {ε : Type}

/-- Two programs ask for the same keys in the same order, as long as the records they read are
related by `R` (a missing record reads as `empty`), their edits keep `R`, and they end with values
related by `Q` or the same error; or the outcomes of both are settled (`B`, `B'`), and nothing more
is asked of the records. An edit that breaks `R` settles the outcomes; the tags set satisfy `T`. -/
inductive Prog.Rel {α β : Type} (Q : α → β → Prop) (B : Except ε α → Prop) (B' : Except ε β → Prop) :
    Prog κ ν τ ε α → Prog κ ν τ ε β → Prop
  | settled {p q} (hp : p.Always B) (hq : q.Always B') : Rel Q B B' p q
  | ret {a b} (h : Q a b) : Rel Q B B' (.ret a) (.ret b)
  | fail (e : ε) : Rel Q B B' (.fail e) (.fail e)
  | get (k : κ) {f g} (h : ∀ x y, R (x.getD empty) (y.getD empty) → Rel Q B B' (f x) (g y)) :
      Rel Q B B' (.get k f) (.get k g)
  | edit (k : κ) {e e' f g}
      (he : ∀ x y, R x y → R (e x) (e' y) ∨ (f x).Always B ∧ (g y).Always B')
      (h : ∀ x y, R x y → R (e x) (e' y) → Rel Q B B' (f x) (g y)) :
      Rel Q B B' (.edit k e f) (.edit k e' g)
  | getTag {f g} (h : ∀ t, Rel Q B B' (f t) (g t)) : Rel Q B B' (.getTag f) (.getTag g)
  | setTag (t : τ) {p q} (ht : T t) (h : Rel Q B B' p q) : Rel Q B B' (.setTag t p) (.setTag t q)

/-- The stores of two implementations simulate each other, operation by operation, along `rel`, as
long as the tags set satisfy `T`. -/
structure Impl.Sim (I : Impl κ ν τ σ) (J : Impl κ ν τ σ') (rel : σ → σ' → Prop) : Prop where
  get : ∀ {s t} k, rel s t →
    R ((I.get s k).1.getD empty) ((J.get t k).1.getD empty) ∧ rel (I.get s k).2 (J.get t k).2
  edit : ∀ {s t} k (f g : ν → ν), rel s t →
    R (I.edit s k f).1 (J.edit t k g).1 ∧
      (R (f (I.edit s k f).1) (g (J.edit t k g).1) → rel (I.edit s k f).2 (J.edit t k g).2)
  getTag : ∀ {s t}, rel s t →
    (I.getTag s).1 = (J.getTag t).1 ∧ rel (I.getTag s).2 (J.getTag t).2
  setTag : ∀ {s t} (x : τ), T x → rel s t → rel (I.setTag s x) (J.setTag t x)

/-- Two outcomes are related by `Q`, or are the same error. -/
def OutRel (Q : α → β → Prop) : Except ε α → Except ε β → Prop
  | .ok a, .ok b => Q a b
  | .error e, .error e' => e = e'
  | _, _ => False

variable {empty R T} {Q : α → β → Prop} {B : Except ε α → Prop} {B' : Except ε β → Prop}
  {p : Prog κ ν τ ε α} {q : Prog κ ν τ ε β}

/-- Related programs on related stores end with related outcomes and related stores, or with
settled outcomes. -/
theorem Prog.Rel.run {I : Impl κ ν τ σ} {J : Impl κ ν τ σ'} {rel : σ → σ' → Prop}
    (hpq : Prog.Rel empty R T Q B B' p q) (hIJ : I.Sim empty R T J rel) {s : σ} {t : σ'}
    (hst : rel s t) :
    OutRel Q (p.run I s).1 (q.run J t).1 ∧ rel (p.run I s).2 (q.run J t).2 ∨
      B (p.run I s).1 ∧ B' (q.run J t).1 := by
  induction hpq generalizing s t with
  | settled hp hq => exact .inr ⟨hp.run s, hq.run t⟩
  | ret h => exact .inl ⟨h, hst⟩
  | fail e => exact .inl ⟨rfl, hst⟩
  | get k _ ih =>
    obtain ⟨hR, hrel⟩ := hIJ.get k hst
    exact ih _ _ hR hrel
  | @edit k e e' f g he _ ih =>
    obtain ⟨hR, hrel⟩ := hIJ.edit k e e' hst
    by_cases hR' : R (e (I.edit s k e).1) (e' (J.edit t k e').1)
    · exact ih _ _ hR hR' (hrel hR')
    · obtain ⟨hp, hq⟩ := (he _ _ hR).resolve_left hR'
      exact .inr ⟨hp.run _, hq.run _⟩
  | @getTag f g _ ih =>
    obtain ⟨ht, hrel⟩ := hIJ.getTag hst
    have := ih (I.getTag s).1 hrel
    simp only [Prog.run]
    rw [← ht]
    exact this
  | setTag x ht _ ih => exact ih (hIJ.setTag x ht hst)

theorem Prog.Rel.bind {γ δ : Type} {Q' : γ → δ → Prop} {C : Except ε γ → Prop}
    {C' : Except ε δ → Prop} {f : α → Prog κ ν τ ε γ} {g : β → Prog κ ν τ ε δ}
    (hpq : Prog.Rel empty R T Q B B' p q)
    (hfg : ∀ a b, Q a b → Prog.Rel empty R T Q' C C' (f a) (g b))
    (herr : ∀ e, B (.error e) → C (.error e)) (hok : ∀ a, B (.ok a) → (f a).Always C)
    (herr' : ∀ e, B' (.error e) → C' (.error e)) (hok' : ∀ b, B' (.ok b) → (g b).Always C') :
    Prog.Rel empty R T Q' C C' (p >>= f) (q >>= g) := by
  induction hpq with
  | settled hp hq => exact .settled (hp.bind herr hok) (hq.bind herr' hok')
  | ret h => exact hfg _ _ h
  | fail e => exact .fail e
  | get k _ ih => exact .get k ih
  | edit k he _ ih =>
    refine .edit k (fun x y hR => ?_) ih
    exact (he x y hR).imp_right fun h => ⟨h.1.bind herr hok, h.2.bind herr' hok'⟩
  | getTag _ ih => exact .getTag ih
  | setTag t ht _ ih => exact .setTag t ht ih

/-- Sequencing programs none of whose outcomes is settled early. -/
theorem Prog.Rel.seq {γ δ : Type} {Q' : γ → δ → Prop} {C : Except ε γ → Prop}
    {C' : Except ε δ → Prop} {f : α → Prog κ ν τ ε γ} {g : β → Prog κ ν τ ε δ}
    (hpq : Prog.Rel empty R T Q (fun _ => False) (fun _ => False) p q)
    (hfg : ∀ a b, Q a b → Prog.Rel empty R T Q' C C' (f a) (g b)) :
    Prog.Rel empty R T Q' C C' (p >>= f) (q >>= g) :=
  hpq.bind hfg (fun _ h => h.elim) (fun _ h => h.elim) (fun _ h => h.elim) (fun _ h => h.elim)

theorem Prog.Rel.lift {r : Except ε α} {r' : Except ε β} (h : OutRel Q r r') :
    Prog.Rel empty R T Q B B' (Prog.lift r : Prog κ ν τ ε α) (Prog.lift r') := by
  cases r <;> cases r' <;> first | exact h.elim | skip
  · cases h; exact .fail _
  · exact .ret h

/-- Two programs after a check of the same condition. -/
theorem Prog.Rel.check {b b' : Bool} (hb : b = b') (e : ε) {p : Unit → Prog κ ν τ ε α}
    {q : Unit → Prog κ ν τ ε β} (h : b' = true → Prog.Rel empty R T Q B B' (p ()) (q ())) :
    Prog.Rel empty R T Q B B' (Prog.check b e >>= p) (Prog.check b' e >>= q) := by
  subst hb
  cases b with
  | false => exact .fail e
  | true => exact h rfl

end Rel

/-! ## The plain store -/

/-- A store that is a function from keys to records, and a tag. -/
structure Map (κ ν τ : Type) where
  rec? : κ → Option ν
  tag : τ

namespace Map

variable [DecidableEq κ] (empty : ν)

/-- The record under a key, `empty` when there is none. -/
def record (m : Map κ ν τ) (k : κ) : ν := (m.rec? k).getD empty

/-- Puts a record under a key. -/
def put (m : Map κ ν τ) (k : κ) (x : ν) : Map κ ν τ :=
  { m with rec? := fun i => if i = k then some x else m.rec? i }

/-- The operations on a plain store. -/
def impl : Impl κ ν τ (Map κ ν τ) where
  get m k := (m.rec? k, m)
  edit m k f := (m.record empty k, m.put k (f (m.record empty k)))
  getTag m := (m.tag, m)
  setTag m t := { m with tag := t }

variable {empty} {m : Map κ ν τ}

/-- A program that only reads leaves a plain store alone. -/
theorem run_reads {p : Prog κ ν τ ε α} (hp : p.Reads) :
    (p.run (impl empty) m).2 = m := by
  induction p with
  | ret a => rfl
  | fail e => rfl
  | get k next ih => exact ih _ (hp _)
  | edit k g next ih => exact hp.elim
  | getTag next ih => exact ih _ (hp _)
  | setTag t next ih => exact hp.elim

theorem run_reads_bind_ok {p : Prog κ ν τ ε α} {f : α → Prog κ ν τ ε β} (hp : p.Reads)
    {m' : Map κ ν τ} {b : β} (h : (p >>= f).run (impl empty) m = (.ok b, m')) :
    ∃ a, p.run (impl empty) m = (.ok a, m) ∧ (f a).run (impl empty) m = (.ok b, m') := by
  obtain ⟨a, m₁, hp', hf⟩ := Prog.run_bind_ok h
  have hm : m₁ = m := by
    have : (p.run (impl empty) m).2 = m := run_reads hp
    rwa [hp'] at this
  exact ⟨a, hm ▸ hp', hm ▸ hf⟩

@[simp] theorem record_put_self (k : κ) (x : ν) : (m.put k x).record empty k = x := by
  simp [record, put]

theorem record_put_ne {k i : κ} (h : i ≠ k) (x : ν) : (m.put k x).record empty i = m.record empty i := by
  simp [record, put, h]

theorem record_put (k i : κ) (x : ν) :
    (m.put k x).record empty i = if i = k then x else m.record empty i := by
  by_cases h : i = k
  · simp [h]
  · rw [record_put_ne h, if_neg h]

end Map

end GC.Framework
