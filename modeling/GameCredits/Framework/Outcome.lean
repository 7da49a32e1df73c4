/-!
# Programs that fail

Two judgements on the results of programs that can fail: `Stricter x y` says that `y` returns
whatever `x` returns, `Safe E Q x` that `x` fails in the ways `E` only and that what it returns
satisfies `Q`. Both have a rule for each way of putting programs together.
-/

namespace GC.Framework

variable {ε α β : Type}

/-! ## Two programs -/

/-- Where `x` returns, `y` returns the same. -/
def Stricter (x y : Except ε α) : Prop := ∀ a, x = .ok a → y = .ok a

namespace Stricter

theorem refl (x : Except ε α) : Stricter x x := fun _ h => h

theorem error (e : ε) (y : Except ε α) : Stricter (.error e) y := fun _ h => by cases h

theorem bind {x y : Except ε α} {f g : α → Except ε β} (h : Stricter x y)
    (hfg : ∀ a, Stricter (f a) (g a)) : Stricter (x >>= f) (y >>= g) := by
  intro b hb
  cases x with
  | error e => cases hb
  | ok a => rw [h a rfl]; exact hfg a b hb

/-- The same program after a stricter one. -/
theorem bind_refl {x y : Except ε α} (h : Stricter x y) (f : α → Except ε β) :
    Stricter (x >>= f) (y >>= f) := h.bind fun a => refl (f a)

/-- Stricter programs after the same one. -/
theorem refl_bind (x : Except ε α) {f g : α → Except ε β} (h : ∀ a, Stricter (f a) (g a)) :
    Stricter (x >>= f) (x >>= g) := (refl x).bind h

end Stricter

theorem ok_bind (a : α) (f : α → Except ε β) : Except.ok a >>= f = f a := rfl

/-- The two parts of a program that returns. -/
theorem bind_eq_ok {x : Except ε α} {f : α → Except ε β} {b : β} :
    x >>= f = .ok b ↔ ∃ a, x = .ok a ∧ f a = .ok b := by
  cases x with
  | error e => exact ⟨fun h => (by cases h), fun ⟨_, h, _⟩ => by cases h⟩
  | ok a => exact ⟨fun h => ⟨a, rfl, h⟩, fun ⟨_, ha, h⟩ => by cases ha; exact h⟩

/-! ## One program -/

/-- `x` fails in the ways `E` only, and what it returns satisfies `Q`. -/
def Safe (E : ε → Prop) (Q : α → Prop) : Except ε α → Prop
  | .ok a => Q a
  | .error e => E e

namespace Safe

variable {E : ε → Prop} {Q R : α → Prop} {S : β → Prop}

@[simp] theorem ok_iff {a : α} : Safe E Q (.ok a) ↔ Q a := Iff.rfl

theorem pure {a : α} (h : Q a) : Safe E Q (Pure.pure a) := h

theorem mono {x : Except ε α} (h : Safe E Q x) (hQR : ∀ a, Q a → R a) : Safe E R x := by
  cases x with
  | error e => exact h
  | ok a => exact hQR a h

theorem bind {x : Except ε α} {f : α → Except ε β} (h : Safe E Q x)
    (hf : ∀ a, Q a → Safe E S (f a)) : Safe E S (x >>= f) := by
  cases x with
  | error e => exact h
  | ok a => exact hf a h

/-- What the rest of a program satisfies, however it is reached. -/
theorem of_rest {x : Except ε α} {f : α → Except ε β} (hf : ∀ a, Safe (fun _ => True) S (f a)) :
    Safe (fun _ => True) S (x >>= f) := by
  cases x with
  | error e => trivial
  | ok a => exact hf a

theorem of_ok {x : Except ε α} {a : α} (h : Safe E Q x) (hx : x = .ok a) : Q a := by
  subst hx; exact h

end Safe

end GC.Framework
