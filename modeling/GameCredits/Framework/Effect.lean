import Mathlib.Data.List.Basic
import GameCredits.Framework.Run

/-!
# Steps that write to a disk

A step of a program that keeps a part of its state on disk changes its memory and makes a sequence
of writes (`Effect`). The program can stop after any of them, with the disk as it is then (`Stops`).

* `Effect.Sound`: what is known of the disk at every stop, and of memory and disk at the end, with
  one rule for each way to compose effects.
* `crash_safe`: a property of the disk that an invariant of the steps implies holds at every stop of
  every run.
-/

namespace GC.Framework

variable {ω μ δ : Type}

/-- What a step does: whether it succeeds, its writes in order, and the memory it leaves. -/
structure Effect (ω μ : Type) where
  ok : Bool
  writes : List ω
  mem : μ

namespace Effect

/-- Success without a write. -/
def done (m : μ) : Effect ω μ := ⟨true, [], m⟩

/-- Failure without a write. -/
def fail (m : μ) : Effect ω μ := ⟨false, [], m⟩

/-- Success after some writes. -/
def write (ws : List ω) (m : μ) : Effect ω μ := ⟨true, ws, m⟩

/-- Goes on from the memory that a successful effect leaves. -/
def andThen (e : Effect ω μ) (f : μ → Effect ω μ) : Effect ω μ :=
  if e.ok then ⟨(f e.mem).ok, e.writes ++ (f e.mem).writes, (f e.mem).mem⟩ else e

/-- Changes the memory at the end, when the effect is successful. -/
def map (e : Effect ω μ) (f : μ → μ) : Effect ω μ := e.andThen fun m => done (f m)

/-- Counts a failure as a success. -/
def ignore (e : Effect ω μ) : Effect ω μ := { e with ok := true }

end Effect

section

variable (apply : δ → ω → δ) (P : δ → Prop)

/-- `P` holds of the disk wherever a sequence of writes is cut off. -/
def Stops (d : δ) (ws : List ω) : Prop := ∀ n, P ((ws.take n).foldl apply d)

end

variable {apply : δ → ω → δ} {P : δ → Prop} {d : δ} {ws ws' : List ω} {w : ω}

theorem stops_nil : Stops apply P d [] ↔ P d := by
  simp only [Stops, List.take_nil, List.foldl_nil, forall_const]

theorem Stops.last (h : Stops apply P d ws) : P (ws.foldl apply d) := by
  have := h ws.length
  rwa [List.take_length] at this

theorem Stops.append (h : Stops apply P d ws) (h' : Stops apply P (ws.foldl apply d) ws') :
    Stops apply P d (ws ++ ws') := by
  intro n
  rw [List.take_append, List.foldl_append]
  rcases Nat.le_total n ws.length with hn | hn
  · rw [Nat.sub_eq_zero_of_le hn]
    exact h n
  · rw [List.take_of_length_le hn]
    exact h' _

theorem Stops.cons (h : P d) (h' : Stops apply P (apply d w) ws) : Stops apply P d (w :: ws) := by
  intro n
  cases n with
  | zero => exact h
  | succ n => exact h' n

/-- Writes that all keep a property stop only where it holds. -/
theorem stops_of_step {I : δ → Prop} (hP : ∀ d, I d → P d)
    (hstep : ∀ w ∈ ws, ∀ d, I d → I (apply d w)) (hd : I d) :
    Stops apply P d ws ∧ I (ws.foldl apply d) := by
  induction ws generalizing d with
  | nil => exact ⟨stops_nil.mpr (hP d hd), hd⟩
  | cons w ws ih =>
    obtain ⟨hstops, hlast⟩ := ih (fun w' hw' => hstep w' (List.mem_cons_of_mem _ hw'))
      (hstep w (List.mem_cons_self ..) d hd)
    exact ⟨hstops.cons (hP d hd), hlast⟩

namespace Effect

variable {e : Effect ω μ} {f : μ → Effect ω μ} {R R' Q Q' : μ → δ → Prop} {m : μ}

/-- `P` holds of the disk at every stop, and at the end `R` of memory and disk when the effect is
successful, else `Q`. -/
def Sound (apply : δ → ω → δ) (P : δ → Prop) (d : δ) (R Q : μ → δ → Prop) (e : Effect ω μ) : Prop :=
  Stops apply P d e.writes ∧
    if e.ok then R e.mem (e.writes.foldl apply d) else Q e.mem (e.writes.foldl apply d)

theorem sound_done (hP : P d) (h : R m d) : (done m : Effect ω μ).Sound apply P d R Q :=
  ⟨stops_nil.mpr hP, h⟩

theorem sound_fail (hP : P d) (h : Q m d) : (fail m : Effect ω μ).Sound apply P d R Q :=
  ⟨stops_nil.mpr hP, h⟩

theorem sound_write (hP : Stops apply P d ws) (h : R m (ws.foldl apply d)) :
    (write ws m : Effect ω μ).Sound apply P d R Q := ⟨hP, h⟩

theorem Sound.mono (h : e.Sound apply P d R Q) (hR : ∀ m d, R m d → R' m d)
    (hQ : ∀ m d, Q m d → Q' m d) : e.Sound apply P d R' Q' := by
  refine ⟨h.1, ?_⟩
  have hend := h.2
  split_ifs at hend ⊢
  · exact hR _ _ hend
  · exact hQ _ _ hend

theorem Sound.andThen (h : e.Sound apply P d R Q)
    (hf : ∀ m d, R m d → P d → (f m).Sound apply P d R' Q) :
    (e.andThen f).Sound apply P d R' Q := by
  obtain ⟨hstops, hend⟩ := h
  by_cases hok : e.ok = true
  · rw [if_pos hok] at hend
    obtain ⟨hstops', hend'⟩ := hf _ _ hend hstops.last
    rw [Effect.andThen, if_pos hok]
    refine ⟨hstops.append hstops', ?_⟩
    rw [List.foldl_append]
    exact hend'
  · rw [if_neg hok] at hend
    rw [Effect.andThen, if_neg hok]
    exact ⟨hstops, by rwa [if_neg hok]⟩

theorem Sound.map (h : e.Sound apply P d R Q) {g : μ → μ} (hg : ∀ m d, R m d → R' (g m) d) :
    (e.map g).Sound apply P d R' Q :=
  h.andThen fun m d hR hP => sound_done hP (hg m d hR)

theorem Sound.ignore (h : e.Sound apply P d R R) : e.ignore.Sound apply P d R Q := by
  refine ⟨h.1, ?_⟩
  have hend := h.2
  rw [ite_self] at hend
  exact hend

theorem Sound.final (h : e.Sound apply P d R R) : R e.mem (e.writes.foldl apply d) := by
  have hend := h.2
  rwa [ite_self] at hend

end Effect

/-! ## Runs -/

/-- The machine of steps that write: memory and disk. -/
def machine {ι : Type} (apply : δ → ω → δ) (act : ι → μ → Option (Effect ω μ)) :
    ι → μ × δ → Option (μ × δ) :=
  fun op s => (act op s.1).map fun e => (e.mem, e.writes.foldl apply s.2)

/-- In every run, wherever a step is cut off, the disk has a property that an invariant of the steps
implies. -/
theorem crash_safe {ι : Type} {act : ι → μ → Option (Effect ω μ)} {init : μ × δ → Prop}
    {ok : ι → μ × δ → Prop} {I : μ → δ → Prop} (hinit : ∀ s, init s → I s.1 s.2)
    (hact : ∀ op m d e, I m d → ok op (m, d) → act op m = some e → e.Sound apply P d I I)
    {s : μ × δ} (h : Reachable init (machine apply act) ok s) :
    I s.1 s.2 ∧ ∀ op e, ok op s → act op s.1 = some e → Stops apply P s.2 e.writes := by
  have hI : I s.1 s.2 := h.invariant (I := fun s => I s.1 s.2) hinit fun op s s' hs hok hstep => by
    obtain ⟨e, he, rfl⟩ := Option.map_eq_some_iff.mp hstep
    exact (hact op s.1 s.2 e hs hok he).final
  exact ⟨hI, fun op e hok he => (hact op s.1 s.2 e hI hok he).1⟩

end GC.Framework
