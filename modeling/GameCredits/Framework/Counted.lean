/-!
# Programs that count calls

A program that can fail, with the number of calls it has made when it returns or fails
(`Counted`). A program that makes no calls is one as it is. What it returns is what the program
without the count returns (`result_bind` and the lemmas around it); the calls of programs one after
another are bounded by `calls_bind_le`.
-/

namespace GC.Framework

variable {ε α β : Type}

structure Counted (ε α : Type) where
  result : Except ε α
  calls : Nat

namespace Counted

def bind (x : Counted ε α) (f : α → Counted ε β) : Counted ε β :=
  match x.result with
  | .ok a => ⟨(f a).result, x.calls + (f a).calls⟩
  | .error e => ⟨.error e, x.calls⟩

instance : Monad (Counted ε) where
  pure a := ⟨.ok a, 0⟩
  bind := bind

instance : MonadLift (Except ε) (Counted ε) where
  monadLift x := ⟨x, 0⟩

/-- A call with its result. -/
def call (a : α) : Counted ε α := ⟨.ok a, 1⟩

/-! ## Results -/

@[simp] theorem result_pure (a : α) : (pure a : Counted ε α).result = .ok a := rfl

@[simp] theorem result_lift (x : Except ε α) : (liftM x : Counted ε α).result = x := rfl

@[simp] theorem result_call (a : α) : (call a : Counted ε α).result = .ok a := rfl

@[simp] theorem result_bind (x : Counted ε α) (f : α → Counted ε β) :
    (x >>= f).result = x.result >>= fun a => (f a).result := by
  show (x.bind f).result = _
  unfold bind
  cases x.result <;> rfl

/-! ## Calls -/

@[simp] theorem calls_pure (a : α) : (pure a : Counted ε α).calls = 0 := rfl

@[simp] theorem calls_lift (x : Except ε α) : (liftM x : Counted ε α).calls = 0 := rfl

@[simp] theorem calls_call (a : α) : (call a : Counted ε α).calls = 1 := rfl

theorem calls_bind_ok {x : Counted ε α} {f : α → Counted ε β} {a : α} (h : x.result = .ok a) :
    (x >>= f).calls = x.calls + (f a).calls := by
  show (x.bind f).calls = _
  rw [bind, h]

theorem calls_bind_error {x : Counted ε α} {f : α → Counted ε β} {e : ε}
    (h : x.result = .error e) : (x >>= f).calls = x.calls := by
  show (x.bind f).calls = _
  rw [bind, h]

theorem calls_bind_le {x : Counted ε α} {f : α → Counted ε β} {m n : Nat} (hx : x.calls ≤ m)
    (hf : ∀ a, x.result = .ok a → (f a).calls ≤ n) : (x >>= f).calls ≤ m + n := by
  cases h : x.result with
  | ok a =>
    rw [calls_bind_ok h]
    exact Nat.add_le_add hx (hf a h)
  | error e =>
    rw [calls_bind_error h]
    exact Nat.le_trans hx (Nat.le_add_right m n)

/-- A part that makes no calls leaves all to what follows. -/
theorem calls_lift_bind_le {x : Except ε α} {f : α → Counted ε β} {n : Nat}
    (hf : ∀ a, x = .ok a → (f a).calls ≤ n) : ((liftM x : Counted ε α) >>= f).calls ≤ n :=
  Nat.zero_add n ▸ calls_bind_le (Nat.le_refl 0) hf

end Counted

end GC.Framework
