import GameCredits.Framework.Codec

/-!
# Loading a state from bytes

`Load` is a program that reads bytes and changes a state on the way. Where it throws, what it has done
to the state stays. `times` is a counted loop.

* `Sets`: a program that reads its value part by part and puts each part into the state;
* `times_reads`: a loop whose rounds read a value and put it into the state, as far as it comes;
* `Maps`: two programs that read the same and go from related states to related states;
* `Keeps`: what a program leaves true of the state, wherever it stops.
-/

namespace GC.Framework

/-- A program that reads bytes and changes a state. -/
abbrev Load (ε σ : Type) := EStateM ε (σ × Bytes)

namespace Load

variable {ε σ τ α β : Type}

/-- Reads a value, or throws. -/
def read (e : ε) (get : Get α) : Load ε σ α := fun p =>
  match get.run p.2 with
  | some (a, s) => .ok a (p.1, s)
  | none => .error e p

def modify (f : σ → σ) : Load ε σ Unit := fun p => .ok () (f p.1, p.2)

/-- What a program does to a part of the state. -/
def within (part : σ → τ) (put : τ → σ → σ) (x : Load ε τ α) : Load ε σ α := fun p =>
  match x (part p.1, p.2) with
  | .ok a (t, s) => .ok a (put t p.1, s)
  | .error e (t, s) => .error e (put t p.1, s)

/-- Loads a variable of its own. -/
def newly (t : τ) (x : Load ε τ Unit) : Load ε σ τ := fun p =>
  match x (t, p.2) with
  | .ok () (t, s) => .ok t (p.1, s)
  | .error e (_, s) => .error e (p.1, s)

/-- The rounds `n`, `n + 1` and so on of a loop. -/
def times (body : Nat → Load ε σ Unit) : (left n : Nat) → Load ε σ Unit
  | 0, _ => pure ()
  | left + 1, n => do
    body n
    times body left (n + 1)

section

variable {x : Load ε σ α} {f : α → Load ε σ β} {p p' : σ × Bytes} {a : α} {e : ε} {get : Get α}

theorem bind_ok (h : x p = .ok a p') : (x >>= f) p = f a p' := by
  show EStateM.bind x f p = _
  rw [EStateM.bind, h]

theorem bind_error (h : x p = .error e p') : (x >>= f) p = .error e p' := by
  show EStateM.bind x f p = _
  rw [EStateM.bind, h]

theorem read_ok {m : σ} {s s' : Bytes} (h : get.run s = some (a, s')) :
    (read e get : Load ε σ α) (m, s) = .ok a (m, s') := by
  rw [read, h]

theorem read_error {m : σ} {s : Bytes} (h : get.run s = none) :
    (read e get : Load ε σ α) (m, s) = .error e (m, s) := by
  rw [read, h]

end

/-! ## Reading into a state -/

/-- After the change `u`, the program reads a value and puts it into the state, or there is none and it
throws. -/
def Sets (u : σ → σ) (x : Load ε σ Unit) (get : Get α) (put : α → σ → σ) (e : ε) : Prop :=
  ∀ m s, (∃ a s', get.run s = some (a, s') ∧ x (u m, s) = .ok () (put a m, s')) ∨
    (get.run s = none ∧ ∃ m' s', x (u m, s) = .error e (m', s'))

namespace Sets

variable {u v : σ → σ} {put : α → σ → σ} {e : ε}

theorem done {a : α} (h : ∀ m, v (u m) = put a m) :
    Sets u (Load.modify v) (Pure.pure a) put e := fun m s =>
  .inl ⟨a, s, rfl, by rw [← h]; rfl⟩

theorem modify {x : Load ε σ Unit} {get : Get α} (h : Sets (v ∘ u) x get put e) :
    Sets u (Load.modify v >>= fun _ => x) get put e := h

theorem read {get : Get β} {k : β → Load ε σ Unit} {g : β → Get α}
    (h : ∀ b, Sets u (k b) (g b) put e) : Sets u (Load.read e get >>= k) (get >>= g) put e := by
  intro m s
  cases hget : get.run s with
  | none =>
    refine .inr ⟨?_, u m, s, bind_error (read_error hget)⟩
    rw [Get.run_bind, hget]
    rfl
  | some r =>
    have hget : get.run s = some (r.1, r.2) := hget
    rw [Get.run_bind_some hget, bind_ok (read_ok hget)]
    exact h r.1 m r.2

end Sets

/-! ## Loops that read values -/

/-- The values are put into the state, from the round `n` on. -/
def putAll (step : Nat → α → σ → σ) : (n : Nat) → List α → σ → σ
  | _, [], m => m
  | n, a :: as, m => putAll step (n + 1) as (step n a m)

/-- A round reads a value and puts it into the state; where there is none to read it throws, after
what `Fail` says. -/
def Reads (body : Nat → Load ε σ Unit) (get : Get α) (step : Nat → α → σ → σ)
    (Fail : Nat → σ → σ → Prop) (e : ε) : Prop :=
  ∀ n m s, (∃ a s', get.run s = some (a, s') ∧ body n (m, s) = .ok () (step n a m, s')) ∨
    (get.run s = none ∧ ∃ m' s', body n (m, s) = .error e (m', s') ∧ Fail n m m')

/-- The loop puts the values that are there into the state, and throws where one is missing. -/
theorem times_reads {body : Nat → Load ε σ Unit} {get : Get α} {step : Nat → α → σ → σ}
    {Fail : Nat → σ → σ → Prop} {e : ε} (h : Reads body get step Fail e) (left n : Nat) (m : σ)
    (s : Bytes) :
    (∃ as s', (getMany get left).run s = some (as, s') ∧ as.length = left ∧
        times body left n (m, s) = .ok () (putAll step n as m, s')) ∨
      ((getMany get left).run s = none ∧ ∃ as m' s', as.length < left ∧
        times body left n (m, s) = .error e (m', s') ∧
        Fail (n + as.length) (putAll step n as m) m') := by
  induction left generalizing n m s with
  | zero => exact .inl ⟨[], s, rfl, rfl, rfl⟩
  | succ left ih =>
    rcases h n m s with ⟨a, s₁, hget, hbody⟩ | ⟨hget, m', s', hbody, hfail⟩
    · rcases ih (n + 1) (step n a m) s₁ with ⟨as, s', hmany, hlen, hrun⟩ |
        ⟨hmany, as, m', s', hlen, hrun, hfail⟩
      · refine .inl ⟨a :: as, s', ?_, congrArg (· + 1) hlen, ?_⟩
        · rw [getMany, Get.run_bind_some hget, Get.run_bind_some hmany, Get.run_pure]
        · rw [times, bind_ok hbody, hrun, putAll]
      · refine .inr ⟨?_, a :: as, m', s', Nat.succ_lt_succ hlen, ?_, ?_⟩
        · rw [getMany, Get.run_bind_some hget, Get.run_bind, hmany]
          rfl
        · rw [times, bind_ok hbody, hrun]
        · rw [List.length_cons, ← Nat.add_assoc, Nat.add_right_comm]
          exact hfail
    · refine .inr ⟨?_, [], m', s', Nat.succ_pos left, ?_, hfail⟩
      · rw [getMany, Get.run_bind, hget]
        rfl
      · rw [times, bind_error hbody]

/-! ## Related programs -/

/-- The outcome with the state replaced. -/
def mapOutcome (h : σ → τ) : EStateM.Result ε (σ × Bytes) α → EStateM.Result ε (τ × Bytes) α
  | .ok a p => .ok a (h p.1, p.2)
  | .error e p => .error e (h p.1, p.2)

/-- `y` does to the state that `h` makes of another what `x` does to that one. -/
def Maps (h : σ → τ) (x : Load ε σ α) (y : Load ε τ α) : Prop :=
  ∀ m s, y (h m, s) = mapOutcome h (x (m, s))

namespace Maps

variable {h : σ → τ}

theorem pure (a : α) : Maps h (Pure.pure a : Load ε σ α) (Pure.pure a) := fun _ _ => rfl

theorem read (e : ε) (get : Get α) : Maps h (Load.read e get : Load ε σ α) (Load.read e get) := by
  intro m s
  cases hget : get.run s with
  | none => rw [read_error hget, read_error hget]; rfl
  | some r => rw [read_ok (show get.run s = some (r.1, r.2) from hget),
      read_ok (show get.run s = some (r.1, r.2) from hget)]; rfl

theorem modify {f : σ → σ} {g : τ → τ} (hf : ∀ m, h (f m) = g (h m)) :
    Maps h (Load.modify f : Load ε σ Unit) (Load.modify g) := fun m s => by
  show EStateM.Result.ok () (g (h m), s) = EStateM.Result.ok () (h (f m), s)
  rw [hf]

theorem bind {x : Load ε σ α} {y : Load ε τ α} {f : α → Load ε σ β} {g : α → Load ε τ β}
    (hxy : Maps h x y) (hfg : ∀ a, Maps h (f a) (g a)) : Maps h (x >>= f) (y >>= g) := by
  intro m s
  have hx := hxy m s
  cases hrun : x (m, s) with
  | ok a p =>
    rw [hrun] at hx
    rw [bind_ok hrun, bind_ok hx]
    exact hfg a p.1 p.2
  | error e p =>
    rw [hrun] at hx
    rw [bind_error hrun, bind_error hx]
    rfl

theorem times {x : Nat → Load ε σ Unit} {y : Nat → Load ε τ Unit} (hxy : ∀ n, Maps h (x n) (y n))
    (left n : Nat) : Maps h (Load.times x left n) (Load.times y left n) := by
  induction left generalizing n with
  | zero => exact .pure ()
  | succ left ih => exact (hxy n).bind fun _ => ih (n + 1)

end Maps

/-! ## Invariants -/

/-- The state at the end. -/
def final : EStateM.Result ε (σ × Bytes) α → σ
  | .ok _ p => p.1
  | .error _ p => p.1

/-- What holds of the state holds where the program ends. -/
def Keeps (P : σ → Prop) (x : Load ε σ α) : Prop := ∀ m s, P m → P (final (x (m, s)))

namespace Keeps

variable {P : σ → Prop}

theorem pure (a : α) : Keeps P (Pure.pure a : Load ε σ α) := fun _ _ h => h

theorem read (e : ε) (get : Get α) : Keeps P (Load.read e get : Load ε σ α) := by
  intro m s h
  rw [Load.read]
  cases get.run s with
  | none => exact h
  | some r => exact h

theorem modify {f : σ → σ} (hf : ∀ m, P m → P (f m)) : Keeps P (Load.modify f : Load ε σ Unit) :=
  fun m _ h => hf m h

theorem newly (t : τ) (x : Load ε τ Unit) : Keeps P (Load.newly t x : Load ε σ τ) := by
  intro m s h
  rw [Load.newly]
  cases x (t, s) with
  | ok a p => exact h
  | error e p => exact h

theorem bind {x : Load ε σ α} {f : α → Load ε σ β} (hx : Keeps P x) (hf : ∀ a, Keeps P (f a)) :
    Keeps P (x >>= f) := by
  intro m s h
  have hm := hx m s h
  cases hrun : x (m, s) with
  | ok a p =>
    rw [hrun] at hm
    rw [bind_ok hrun]
    exact hf a p.1 p.2 hm
  | error e p =>
    rw [hrun] at hm
    rw [bind_error hrun]
    exact hm

theorem times {x : Nat → Load ε σ Unit} (hx : ∀ n, Keeps P (x n)) (left n : Nat) :
    Keeps P (Load.times x left n) := by
  induction left generalizing n with
  | zero => exact .pure ()
  | succ left ih => exact (hx n).bind fun _ => ih (n + 1)

end Keeps

end Load

end GC.Framework
