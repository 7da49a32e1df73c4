import Mathlib.Data.List.Basic

/-!
# Journals: operations that can be undone

A `Journal` says how an operation changes a state and how it is undone; undoing reports whether the
state looked as the operation had left it. States are compared by a relation.

* `Inverts.undoAll`: when undoing inverts each valid operation, undoing a list of them, the last
  first, is clean and leads back.
-/

namespace GC.Framework

/-- How operations `ω` change a state and are undone; undoing reports whether it was clean. -/
structure Journal (σ ω : Type) where
  redo : ω → σ → σ
  undo : ω → σ → Bool × σ

variable {σ ω : Type}

namespace Journal

variable (J : Journal σ ω)

/-- Does the operations in order. -/
def redoAll : List ω → σ → σ
  | [], s => s
  | op :: ops, s => redoAll ops (J.redo op s)

/-- Undoes the operations, the last first. -/
def undoAll : List ω → σ → Bool × σ
  | [], s => (true, s)
  | op :: ops, s =>
    ((undoAll ops s).1 && (J.undo op (undoAll ops s).2).1, (J.undo op (undoAll ops s).2).2)

/-- Every operation satisfies `P` in the state in which it is done. -/
def Along (P : σ → ω → Prop) : σ → List ω → Prop
  | _, [] => True
  | s, op :: ops => P s op ∧ Along P (J.redo op s) ops

@[simp] theorem redoAll_nil (s : σ) : J.redoAll [] s = s := rfl

@[simp] theorem redoAll_cons (op : ω) (ops : List ω) (s : σ) :
    J.redoAll (op :: ops) s = J.redoAll ops (J.redo op s) := rfl

theorem redoAll_append (ops ops' : List ω) (s : σ) :
    J.redoAll (ops ++ ops') s = J.redoAll ops' (J.redoAll ops s) := by
  induction ops generalizing s with
  | nil => rfl
  | cons op ops ih => exact ih _

theorem undoAll_append (ops ops' : List ω) (s : σ) :
    J.undoAll (ops ++ ops') s =
      ((J.undoAll ops' s).1 && (J.undoAll ops (J.undoAll ops' s).2).1,
        (J.undoAll ops (J.undoAll ops' s).2).2) := by
  induction ops with
  | nil => simp [undoAll]
  | cons op ops ih => simp only [List.cons_append, undoAll, ih, Bool.and_assoc]

variable {J} {P Q : σ → ω → Prop} {s : σ} {ops ops' : List ω}

theorem along_append :
    J.Along P s (ops ++ ops') ↔ J.Along P s ops ∧ J.Along P (J.redoAll ops s) ops' := by
  induction ops generalizing s with
  | nil => simp [Along]
  | cons op ops ih => simp only [List.cons_append, Along, ih, redoAll_cons, and_assoc]

/-- Operations that change states alike may be put for valid ones when they are valid too. -/
theorem Along.congr {rel : ω → ω → Prop} (hredo : ∀ op op' s, rel op op' → J.redo op s = J.redo op' s)
    (hP : ∀ s op op', rel op op' → P s op' → P s op) (hops : List.Forall₂ rel ops ops')
    (h : J.Along P s ops') : J.Along P s ops ∧ J.redoAll ops s = J.redoAll ops' s := by
  induction hops generalizing s with
  | nil => exact ⟨trivial, rfl⟩
  | @cons op op' ops ops' hop _ ih =>
    obtain ⟨hfirst, hrest⟩ := h
    rw [← hredo op op' s hop] at hrest
    obtain ⟨hall, hend⟩ := ih hrest
    exact ⟨⟨hP s op op' hop hfirst, hall⟩, by rw [redoAll_cons, redoAll_cons, ← hredo op op' s hop, hend]⟩

/-- Undoing inverts: from a state related to the one after a valid operation, undoing is clean and
leads to a state related to the one before it. -/
def Inverts (J : Journal σ ω) (P : σ → ω → Prop) (rel : σ → σ → Prop) : Prop :=
  ∀ s op t, P s op → rel t (J.redo op s) → (J.undo op t).1 = true ∧ rel (J.undo op t).2 s

theorem Inverts.undoAll {rel : σ → σ → Prop} (h : J.Inverts P rel) :
    ∀ {s ops t}, J.Along P s ops → rel t (J.redoAll ops s) →
      (J.undoAll ops t).1 = true ∧ rel (J.undoAll ops t).2 s
  | _, [], _, _, ht => ⟨rfl, ht⟩
  | s, op :: ops, t, hp, ht => by
    obtain ⟨hrest, hrel⟩ := Inverts.undoAll h hp.2 ht
    obtain ⟨hclean, hrel⟩ := h s op _ hp.1 hrel
    exact ⟨by rw [Journal.undoAll, hrest, hclean]; rfl, hrel⟩

end Journal

end GC.Framework
