/-!
# Runs of a state machine

States that a machine with partial operations reaches, when each step satisfies a condition in the
state before it; and the rule that an invariant of the steps holds in all of them.
-/

namespace GC.Framework

variable {σ ω : Type}

/-- The states reached from an initial one by steps that satisfy `ok`. -/
inductive Reachable (init : σ → Prop) (step : ω → σ → Option σ) (ok : ω → σ → Prop) : σ → Prop
  | init {s} (h : init s) : Reachable init step ok s
  | step {op s s'} (hs : Reachable init step ok s) (hok : ok op s) (h : step op s = some s') :
    Reachable init step ok s'

variable {init : σ → Prop} {step : ω → σ → Option σ} {ok ok' : ω → σ → Prop} {s s' : σ}

/-- What holds initially and is kept by every step holds of every reachable state. -/
theorem Reachable.invariant {I : σ → Prop} (hinit : ∀ s, init s → I s)
    (hstep : ∀ op s s', I s → ok op s → step op s = some s' → I s')
    (h : Reachable init step ok s) : I s := by
  induction h with
  | init h => exact hinit _ h
  | step _ hok h ih => exact hstep _ _ _ ih hok h

/-- More initial states and a weaker condition reach at least as much. -/
theorem Reachable.mono {init' : σ → Prop} (hinit : ∀ s, init s → init' s)
    (hok : ∀ op s, ok op s → ok' op s) (h : Reachable init step ok s) : Reachable init' step ok' s :=
  h.invariant (fun _ hs => .init (hinit _ hs)) fun _ _ _ hs hop hstep => .step hs (hok _ _ hop) hstep

/-- The operations one after another. -/
def run (step : ω → σ → Option σ) : List ω → σ → Option σ
  | [], s => some s
  | op :: ops, s => (step op s).bind (run step ops)

theorem run_append {ops ops' : List ω} {s t : σ} (h : run step ops s = some t) :
    run step (ops ++ ops') s = run step ops' t := by
  induction ops generalizing s with
  | nil => cases h; rfl
  | cons op ops ih =>
    obtain ⟨u, hu, hrun⟩ := Option.bind_eq_some_iff.mp h
    rw [List.cons_append, run, hu]
    exact ih hrun

/-- A list of operations that all succeed reaches the state at its end, if each satisfies the
condition where it is made. -/
theorem Reachable.run {ops : List ω} (hs : Reachable init step ok s)
    (hok : ∀ ops₁ op ops₂ t, ops = ops₁ ++ op :: ops₂ → GC.Framework.run step ops₁ s = some t →
      ok op t)
    (h : GC.Framework.run step ops s = some s') : Reachable init step ok s' := by
  induction ops generalizing s with
  | nil => cases h; exact hs
  | cons op ops ih =>
    obtain ⟨t, ht, hrun⟩ := Option.bind_eq_some_iff.mp h
    refine ih (.step hs (hok [] op ops s rfl rfl) ht) (fun ops₁ op' ops₂ u heq hu => ?_) hrun
    refine hok (op :: ops₁) op' ops₂ u (congrArg (op :: ·) heq) ?_
    rw [GC.Framework.run, ht]
    exact hu

/-- Every operation of the list satisfies `P` in the state in which it is made. -/
def Throughout (step : ω → σ → Option σ) (P : ω → σ → Prop) : List ω → σ → Prop
  | [], _ => True
  | op :: ops, s => P op s ∧ ∀ s', step op s = some s' → Throughout step P ops s'

/-- Two conditions that agree where an invariant holds, which the one of them keeps. -/
theorem throughout_iff {I : σ → Prop} {P Q : ω → σ → Prop} (h : ∀ op s, I s → (P op s ↔ Q op s))
    (hstep : ∀ op s s', I s → P op s → step op s = some s' → I s') {ops : List ω} (hs : I s) :
    Throughout step P ops s ↔ Throughout step Q ops s := by
  induction ops generalizing s with
  | nil => exact Iff.rfl
  | cons op ops ih =>
    rw [Throughout, Throughout, ← h op s hs]
    refine and_congr_right fun hP => forall_congr' fun s' => imp_congr_right fun hs' => ?_
    exact ih (hstep op s s' hs hP hs')

/-- The machine that makes only the steps that satisfy `ok`. -/
def guarded (step : ω → σ → Option σ) (ok : ω → σ → Prop) [∀ op s, Decidable (ok op s)] :
    ω → σ → Option σ :=
  fun op s => if ok op s then step op s else none

theorem Reachable.guarded [∀ op s, Decidable (ok op s)] {ops : List ω}
    (hs : Reachable init step ok s)
    (h : GC.Framework.run (GC.Framework.guarded step ok) ops s = some s') :
    Reachable init step ok s' := by
  induction ops generalizing s with
  | nil => cases h; exact hs
  | cons op ops ih =>
    obtain ⟨t, ht, hrun⟩ := Option.bind_eq_some_iff.mp h
    unfold GC.Framework.guarded at ht
    split at ht
    · next hop => exact ih (.step hs hop ht) hrun
    · cases ht

/-- A machine whose steps follow those of another one makes all of the other's runs. -/
theorem run_sim {τ : Type} {step' : ω → τ → Option τ} {R : σ → τ → Prop} {ops : List ω}
    (hstep : ∀ op ∈ ops, ∀ s t t', R s t → step' op t = some t' →
      ∃ s', step op s = some s' ∧ R s' t')
    {s : σ} {t t' : τ} (hst : R s t) (h : run step' ops t = some t') :
    ∃ s', run step ops s = some s' ∧ R s' t' := by
  induction ops generalizing s t with
  | nil =>
    cases h
    exact ⟨s, rfl, hst⟩
  | cons op ops ih =>
    obtain ⟨u, hu, hrun⟩ := Option.bind_eq_some_iff.mp h
    obtain ⟨s₁, hs₁, hR⟩ := hstep op (List.mem_cons_self ..) s t u hst hu
    obtain ⟨s', hs', hR'⟩ := ih (fun op' hop => hstep op' (List.mem_cons_of_mem _ hop)) hR hrun
    exact ⟨s', by rw [run, hs₁]; exact hs', hR'⟩

end GC.Framework
