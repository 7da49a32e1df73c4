import GameCredits.Model.Scheduler
import Mathlib.Data.List.Nodup
import Mathlib.Data.List.Perm.Basic
import Mathlib.Tactic.Common

/-!
# Scheduled tasks

What the steps of `serviceQueue` maintain, whatever their order (`Serviced`): the mutex is held by one
thread at most, and every task that was scheduled is in the queue, taken by one thread that calls it
next, or was called, once. A task is taken after a wait for the time of another one, which a second
thread may have taken meanwhile; where the first task is always due by the time that was waited for
(`heeds`) no task is called early.

* `serviceQueue_onTime`: what holds in every run, and in a run of such steps;
* `serviceQueue_single`: the steps of a single thread are all such.
-/

namespace GC

open Framework

/-! ## What a step can do -/

/-- The time that a thread waits for, or that was reached. -/
def ServicePoint.awaits : ServicePoint → Option Int
  | .waitingUntil time => some time
  | .behindWait reached => reached
  | _ => none

namespace CScheduler

variable {clock : Int} {q q' : CScheduler} {event : ThreadEvent} {point next : ServicePoint}

/-- The mutex is held behind a step only where it was, or where the step locked it. -/
theorem serviceQueue_lock (h : q.serviceQueue clock event point = some (q', next))
    (hnext : next.holdsLock = true) : point.holdsLock = true ∨ ServicePoint.locks event point = true := by
  cases event <;> cases point <;>
    first | exact .inl rfl | exact .inr rfl | cases h <;> cases hnext

/-- What a thread knows behind the waits: the time that a wait reported was reached, or there is
nothing to take. -/
def Known (clock : Int) (q : CScheduler) : ServicePoint → Prop
  | .behindWait none => q.shouldStop = true ∨ q.taskQueue = []
  | .behindWait (some time) => time ≤ clock
  | _ => True

/-- A step takes the first task, calls the one that was taken, or leaves the tasks as they are. -/
inductive Moves (clock : Int) (q q' : CScheduler) : ThreadEvent → ServicePoint → ServicePoint → Prop
  | same {event : ThreadEvent} {point next : ServicePoint} (hq : q'.taskQueue = q.taskQueue)
      (hpoint : point.taken = none) (hnext : next.taken = none) (hknown : Known clock q' next) :
      Moves clock q q' event point next
  | take {reached : Option Int} {first : QueuedTask} (hstop : q.shouldStop = false)
      (hq : q.taskQueue = first :: q'.taskQueue) :
      Moves clock q q' .goOn (.behindWait reached) (.unlocked first)
  | call {f : QueuedTask} (hq : q'.taskQueue = q.taskQueue) :
      Moves clock q q' .goOn (.unlocked f) (.running f)

theorem serviceQueue_moves (h : q.serviceQueue clock event point = some (q', next)) :
    Moves clock q q' event point next := by
  unfold serviceQueue at h
  split at h
  all_goals try (cases h <;> first | exact .same rfl rfl rfl trivial | exact .call rfl)
  · split_ifs at h <;>
    · cases h
      exact .same rfl rfl rfl trivial
  · cases h
    exact .same rfl rfl (by split_ifs <;> rfl) (by split_ifs <;> trivial)
  · split at h
    · next hqueue =>
      cases h
      exact .same rfl rfl rfl (.inr hqueue)
    · cases h
      by_cases hstop : q.shouldStop = true
      · rw [if_pos hstop]
        exact .same rfl rfl rfl (.inl hstop)
      · rw [if_neg hstop]
        exact .same rfl rfl rfl trivial
  · split_ifs at h with htime
    cases h
    exact .same rfl rfl rfl htime
  · split at h
    · cases h
      exact .same rfl rfl rfl trivial
    · next hqueue =>
      split_ifs at h with hstop
      · cases h
        exact .same rfl rfl rfl trivial
      · cases h
        exact .take (Bool.not_eq_true _ ▸ hstop) hqueue

/-- A step does not ask to stop. -/
theorem serviceQueue_flags (h : q.serviceQueue clock event point = some (q', next)) :
    q'.stopRequested = q.stopRequested ∧ q'.stopWhenEmpty = q.stopWhenEmpty := by
  unfold serviceQueue at h
  split at h
  all_goals try (cases h <;> exact ⟨rfl, rfl⟩)
  · split_ifs at h <;>
    · cases h
      exact ⟨rfl, rfl⟩
  · split at h <;>
    · cases h
      exact ⟨rfl, rfl⟩
  · split_ifs at h
    cases h
    exact ⟨rfl, rfl⟩
  · split at h
    · cases h
      exact ⟨rfl, rfl⟩
    · split_ifs at h <;>
      · cases h
        exact ⟨rfl, rfl⟩

/-- A thread begins to wait for the time of the first task. -/
theorem serviceQueue_awaits {time : Int} (h : q.serviceQueue clock event point = some (q', next))
    (hnext : next.awaits = some time) :
    (∃ first queue, q'.taskQueue = first :: queue ∧ first.time = time) ∨
      (point.awaits = some time ∧ q'.taskQueue = q.taskQueue) := by
  unfold serviceQueue at h
  split at h
  all_goals try (cases h <;> cases hnext)
  · split_ifs at h <;>
    · cases h
      cases hnext
  · cases h
    split_ifs at hnext <;> cases hnext
  · split at h
    · cases h
      cases hnext
    · next first queue hqueue =>
      cases h
      split_ifs at hnext
      · cases hnext
      · exact .inl ⟨first, queue, hqueue, Option.some.inj hnext⟩
  · split_ifs at h
    cases h
    exact .inr ⟨hnext, rfl⟩
  · split at h
    · cases h
      cases hnext
    · split_ifs at h <;>
      · cases h
        cases hnext

/-- A thread leaves where it should stop, or by an exception. -/
theorem serviceQueue_outside (h : q.serviceQueue clock event point = some (q', .outside)) :
    event = .throws ∨ q.shouldStop = true := by
  unfold serviceQueue at h
  split at h
  all_goals try (cases h <;> exact .inl rfl)
  · split_ifs at h with hstop
    · exact .inr hstop
    · cases h
  · split_ifs at h <;> cases h
  · split at h
    · cases h
    · split_ifs at h <;> cases h
  · split_ifs at h
    cases h
  · split at h
    · cases h
    · split_ifs at h <;> cases h

end CScheduler

/-! ## Threads and tasks -/

namespace SchedulerSystem

variable {s s' : SchedulerSystem} {i : Nat} {event : ThreadEvent}

theorem serve_cases (h : s.serve i event = some s') :
    ∃ point q next, s.threads[i]? = some point ∧
      s.q.serviceQueue s.clock event point = some (q, next) ∧
      (ServicePoint.locks event point = true → s.mutexFree = true) ∧
      s' = { s with
        q, threads := s.threads.set i next,
        executed := s.executed ++ (called event point).map fun f => (f, s.clock) } := by
  unfold serve at h
  obtain ⟨point, hpoint, h⟩ := Option.bind_eq_some_iff.mp h
  obtain ⟨⟨q, next⟩, hserve, h⟩ := Option.bind_eq_some_iff.mp h
  refine ⟨point, q, next, hpoint, hserve, fun hlocks => ?_, ?_⟩
  · by_contra hfree
    rw [Bool.not_eq_true] at hfree
    simp only [hlocks, hfree, Bool.not_false, Bool.and_true, ↓reduceIte, reduceCtorEq] at h
  · split_ifs at h
    exact (Option.some.inj h).symm

/-- The tasks that threads have taken and call next. -/
def taken (s : SchedulerSystem) : List QueuedTask := s.threads.filterMap ServicePoint.taken

/-- The mutex is held by one thread at most, a thread that has nothing to take knows so, and every task
that was scheduled is in the queue, taken, or was called. -/
structure Serviced (s : SchedulerSystem) : Prop where
  mutex : ∀ {i j : Nat} {p p' : ServicePoint}, s.threads[i]? = some p → s.threads[j]? = some p' →
    p.holdsLock = true → p'.holdsLock = true → i = j
  nothing : ∀ {i : Nat}, s.threads[i]? = some (.behindWait none) →
    s.q.shouldStop = true ∨ s.q.taskQueue = []
  tasks : (s.q.taskQueue ++ s.taken ++ s.executed.map Prod.fst).Perm s.scheduled
  ids : s.scheduled.map QueuedTask.id = List.range s.scheduled.length

theorem mutexFree_iff : s.mutexFree = true ↔
    ∀ {i : Nat} {p : ServicePoint}, s.threads[i]? = some p → p.holdsLock = false := by
  simp only [mutexFree, List.all_eq_true, Bool.not_eq_true', List.mem_iff_getElem?]
  exact ⟨fun h i p hp => h p ⟨i, hp⟩, fun h p ⟨i, hp⟩ => h hp⟩

theorem getElem?_set_cases {threads : List ServicePoint} {j : Nat} {next p : ServicePoint}
    (h : (threads.set i next)[j]? = some p) : (i = j ∧ p = next) ∨ (i ≠ j ∧ threads[j]? = some p) := by
  by_cases hij : i = j
  · subst hij
    rw [List.getElem?_set_self'] at h
    obtain ⟨_, -, rfl⟩ := Option.map_eq_some_iff.mp h
    exact .inl ⟨rfl, rfl⟩
  · rw [List.getElem?_set_ne hij] at h
    exact .inr ⟨hij, h⟩

theorem serviced_init (nThreads : Nat) (now : Int) : Serviced (init nThreads now) := by
  have houtside : ∀ {i : Nat} {p : ServicePoint}, (init nThreads now).threads[i]? = some p →
      p = .outside := fun hp => List.eq_of_mem_replicate (List.mem_of_getElem? hp)
  refine ⟨fun hp _ hold => ?_, fun hp => ?_, ?_, rfl⟩
  · rw [houtside hp] at hold
    cases hold
  · cases houtside hp
  · have htaken : (init nThreads now).taken = [] := by
      refine List.filterMap_eq_nil_iff.mpr fun p hp => ?_
      rw [List.eq_of_mem_replicate hp]
      rfl
    rw [htaken]
    exact List.Perm.refl _

/-- What a thread has taken, and what the others have. -/
theorem taken_perm {threads : List ServicePoint} {point : ServicePoint} (h : threads[i]? = some point) :
    ∃ others, (threads.filterMap ServicePoint.taken).Perm (point.taken.toList ++ others) ∧
      ∀ next : ServicePoint, ((threads.set i next).filterMap ServicePoint.taken).Perm
        (next.taken.toList ++ others) := by
  have hcons : ∀ (p : ServicePoint) (ps : List ServicePoint), (p :: ps).filterMap ServicePoint.taken =
      p.taken.toList ++ ps.filterMap ServicePoint.taken := fun p ps => by
    cases hp : p.taken with
    | none => exact List.filterMap_cons_none hp
    | some f => exact List.filterMap_cons_some hp
  obtain ⟨hi, rfl⟩ := List.getElem?_eq_some_iff.mp h
  refine ⟨(threads.eraseIdx i).filterMap ServicePoint.taken, ?_, fun next => ?_⟩
  · rw [← hcons]
    exact (List.getElem_cons_eraseIdx_perm hi).symm.filterMap _
  · rw [← hcons]
    exact (List.set_perm_cons_eraseIdx hi next).filterMap _

/-- A thread keeps the tasks: from the queue to what it has taken, and from there to what was called. -/
theorem serve_tasks {q : CScheduler} {point next : ServicePoint} (hpoint : s.threads[i]? = some point)
    (hmoves : s.q.Moves s.clock q event point next) :
    (q.taskQueue ++ (s.threads.set i next).filterMap ServicePoint.taken ++
      (s.executed ++ (called event point).map fun f => (f, s.clock)).map Prod.fst).Perm
      (s.q.taskQueue ++ s.taken ++ s.executed.map Prod.fst) := by
  obtain ⟨others, htaken, hset⟩ := taken_perm hpoint
  have hcalled : (s.executed ++ (called event point).map fun f => (f, s.clock)).map Prod.fst =
      s.executed.map Prod.fst ++ called event point := by
    rw [List.map_append, List.map_map]
    exact congrArg _ (List.map_id _)
  rw [hcalled]
  refine (((hset next).append_left _).append_right _).trans ?_
  refine List.Perm.trans ?_ ((htaken.append_left _).append_right _).symm
  cases hmoves with
  | same hq hpoint hnext _ =>
    have hnone : called event point = ([] : List QueuedTask) := by
      rw [called, hpoint]
      exact ite_self _
    rw [hq, hpoint, hnext, hnone, List.append_nil]
  | @take _ first _ hq =>
    rw [hq]
    show (q.taskQueue ++ (first :: others) ++ (s.executed.map Prod.fst ++ [])).Perm
      (first :: q.taskQueue ++ others ++ s.executed.map Prod.fst)
    rw [List.append_nil]
    exact List.perm_middle.append_right _
  | @call f hq =>
    rw [hq]
    show (s.q.taskQueue ++ others ++ (s.executed.map Prod.fst ++ [f])).Perm
      (s.q.taskQueue ++ (f :: others) ++ s.executed.map Prod.fst)
    rw [← List.append_assoc]
    refine (List.perm_append_singleton f _).trans ?_
    exact (List.perm_middle.append_right (s.executed.map Prod.fst)).symm

theorem Serviced.serve (h : Serviced s) (hstep : s.serve i event = some s') : Serviced s' := by
  obtain ⟨point, q, next, hpoint, hserve, hlocks, rfl⟩ := serve_cases hstep
  have hmoves := CScheduler.serviceQueue_moves hserve
  have hfree : ∀ {j : Nat} {p : ServicePoint}, i ≠ j → s.threads[j]? = some p → p.holdsLock = true →
      point.holdsLock = false ∧ ServicePoint.locks event point = false := fun hij hp hold => by
    constructor
    · by_contra hpointLock
      exact hij (h.mutex hpoint hp (Bool.not_eq_false _ ▸ hpointLock) hold)
    · by_contra hevent
      rw [mutexFree_iff.mp (hlocks (Bool.not_eq_false _ ▸ hevent)) hp] at hold
      cases hold
  refine ⟨fun hp hp' hold hold' => ?_, fun hp => ?_, (serve_tasks hpoint hmoves).trans h.tasks, h.ids⟩
  · rcases getElem?_set_cases hp with ⟨rfl, rfl⟩ | ⟨hij, hp₀⟩ <;>
    rcases getElem?_set_cases hp' with ⟨rfl, rfl⟩ | ⟨hij', hp₀'⟩
    · rfl
    · obtain ⟨hnot, hnot'⟩ := hfree hij' hp₀' hold'
      rcases CScheduler.serviceQueue_lock hserve hold with hlock | hlock
      · rw [hnot] at hlock
        cases hlock
      · rw [hnot'] at hlock
        cases hlock
    · obtain ⟨hnot, hnot'⟩ := hfree hij hp₀ hold
      rcases CScheduler.serviceQueue_lock hserve hold' with hlock | hlock
      · rw [hnot] at hlock
        cases hlock
      · rw [hnot'] at hlock
        cases hlock
    · exact h.mutex hp₀ hp₀' hold hold'
  · rcases getElem?_set_cases hp with ⟨rfl, rfl⟩ | ⟨hij, hp₀⟩
    · cases hmoves with
      | same _ _ _ hknown => exact hknown
    · obtain ⟨hstop, hempty⟩ := CScheduler.serviceQueue_flags hserve
      have hqueue : q.taskQueue = s.q.taskQueue := by
        cases hmoves with
        | same hq _ _ _ => exact hq
        | call hq => exact hq
        | take _ _ => cases (hfree hij hp₀ rfl).1
      show q.shouldStop = true ∨ q.taskQueue = []
      rw [CScheduler.shouldStop, hstop, hempty, hqueue]
      exact h.nothing hp₀

theorem Serviced.step {op : SchedulerOp} (h : Serviced s) (hstep : s.step op = some s') :
    Serviced s' := by
  cases op with
  | thread i event => exact h.serve hstep
  | schedule time =>
    simp only [SchedulerSystem.step] at hstep
    split_ifs at hstep with hfree
    cases hstep
    refine ⟨h.mutex, fun hp => ?_, ?_, ?_⟩
    · cases mutexFree_iff.mp hfree hp
    · refine (((Multimap.insert_perm _ _).append_right _).append_right _).trans ?_
      exact (h.tasks.cons _).trans (List.perm_append_singleton _ _).symm
    · rw [List.map_append, h.ids, List.length_append, List.length_singleton, List.range_succ]
      rfl
  | stop drain =>
    simp only [SchedulerSystem.step] at hstep
    split_ifs at hstep with hfree
    cases hstep
    refine ⟨h.mutex, fun hp => ?_, ?_, h.ids⟩
    · cases mutexFree_iff.mp hfree hp
    · cases drain <;> exact h.tasks
  | tick now =>
    simp only [SchedulerSystem.step] at hstep
    split_ifs at hstep
    cases hstep
    exact ⟨h.mutex, h.nothing, h.tasks, h.ids⟩

/-! ## On time -/

/-- A thread that has waited for the time of the first task finds none that is later, where it takes
one. -/
def awaitedFirst (s : SchedulerSystem) (i : Nat) : Bool :=
  match s.threads[i]?, s.q.taskQueue with
  | some (.behindWait (some time)), first :: _ => s.q.shouldStop || decide (first.time ≤ time)
  | _, _ => true

/-- No thread takes a later task than it waited for. -/
def heeds : SchedulerOp → SchedulerSystem → Bool
  | .thread i .goOn, s => s.awaitedFirst i
  | _, _ => true

structure Punctual (s : SchedulerSystem) : Prop where
  serviced : Serviced s
  reached : ∀ {i : Nat} {time : Int}, s.threads[i]? = some (.behindWait (some time)) → time ≤ s.clock
  due : ∀ {i : Nat} {f : QueuedTask}, s.threads[i]? = some (.unlocked f) → f.time ≤ s.clock
  timely : ∀ {f : QueuedTask} {time : Int}, (f, time) ∈ s.executed → f.time ≤ time

theorem punctual_init (nThreads : Nat) (now : Int) : Punctual (init nThreads now) := by
  have houtside : ∀ {i : Nat} {p : ServicePoint}, (init nThreads now).threads[i]? = some p →
      p = .outside := fun hp => List.eq_of_mem_replicate (List.mem_of_getElem? hp)
  refine ⟨serviced_init nThreads now, fun hp => ?_, fun hp => ?_, nofun⟩ <;>
  · cases houtside hp

theorem Punctual.serve (h : Punctual s) (hheeds : heeds (.thread i event) s = true)
    (hstep : s.serve i event = some s') : Punctual s' := by
  have hserviced := h.serviced.serve hstep
  obtain ⟨point, q, next, hpoint, hserve, -, rfl⟩ := serve_cases hstep
  have hmoves := CScheduler.serviceQueue_moves hserve
  refine ⟨hserviced, fun hp => ?_, fun {_ first} hp => ?_, fun hf => ?_⟩
  · rcases getElem?_set_cases hp with ⟨rfl, rfl⟩ | ⟨-, hp₀⟩
    · cases hmoves with
      | same _ _ _ hknown => exact hknown
    · exact h.reached hp₀
  · rcases getElem?_set_cases hp with ⟨rfl, rfl⟩ | ⟨-, hp₀⟩
    · cases hmoves with
      | same _ _ hnext _ => cases hnext
      | @take reached _ hstop hq =>
        cases reached with
        | none =>
          rcases h.serviced.nothing hpoint with hshould | hnil
          · rw [hstop] at hshould
            cases hshould
          · rw [hq] at hnil
            cases hnil
        | some time =>
          have hfirst : first.time ≤ time := by
            simpa [heeds, awaitedFirst, hpoint, hq, hstop] using hheeds
          exact Int.le_trans hfirst (h.reached hpoint)
    · exact h.due hp₀
  · rcases List.mem_append.mp hf with hf₀ | hcall
    · exact h.timely hf₀
    · cases hmoves with
      | same _ htaken _ _ =>
        rw [called, htaken] at hcall
        split at hcall <;> cases hcall
      | take _ _ => cases hcall
      | call _ =>
        cases List.mem_singleton.mp hcall
        exact h.due hpoint

theorem Punctual.step {op : SchedulerOp} (h : Punctual s) (hheeds : heeds op s = true)
    (hstep : s.step op = some s') : Punctual s' := by
  have hserviced := h.serviced.step hstep
  cases op with
  | thread i event => exact h.serve hheeds hstep
  | schedule time =>
    simp only [SchedulerSystem.step] at hstep
    split_ifs at hstep
    cases hstep
    exact ⟨hserviced, h.reached, h.due, h.timely⟩
  | stop drain =>
    simp only [SchedulerSystem.step] at hstep
    split_ifs at hstep
    cases hstep
    exact ⟨hserviced, h.reached, h.due, h.timely⟩
  | tick now =>
    simp only [SchedulerSystem.step] at hstep
    split_ifs at hstep with hnow
    cases hstep
    exact ⟨hserviced, fun hp => Int.le_trans (h.reached hp) hnow,
      fun hp => Int.le_trans (h.due hp) hnow, h.timely⟩

/-- No thread is told to stop at once, or thrown out. -/
def undisturbed : SchedulerOp → Bool
  | .thread _ .throws => false
  | .stop false => false
  | _ => true

theorem stopRequested_step {op : SchedulerOp} (h : s.q.stopRequested = false)
    (hop : undisturbed op = true) (hstep : s.step op = some s') : s'.q.stopRequested = false := by
  cases op with
  | thread i event =>
    obtain ⟨point, q, next, -, hserve, -, rfl⟩ := serve_cases hstep
    exact (CScheduler.serviceQueue_flags hserve).1.trans h
  | stop drain =>
    simp only [SchedulerSystem.step] at hstep
    split_ifs at hstep
    cases hstep
    cases drain with
    | false => cases hop
    | true => exact h
  | _ =>
    simp only [SchedulerSystem.step] at hstep
    split_ifs at hstep
    cases hstep
    exact h

/-! ## Runs -/

/-- The states reached from `nThreads` threads outside `serviceQueue`. -/
def Reached (ok : SchedulerOp → SchedulerSystem → Prop) : SchedulerSystem → Prop :=
  Reachable (fun s => ∃ nThreads now, s = init nThreads now) (fun op s => s.step op) ok

/-- Every task that was scheduled is in one place: in the queue, taken by a thread, or called once. -/
structure Accounted (s : SchedulerSystem) : Prop where
  once : (s.executed.map Prod.fst).Nodup
  only : ∀ {f : QueuedTask} {time : Int}, (f, time) ∈ s.executed → f ∈ s.scheduled ∧ f ∉ s.q.taskQueue
  kept : ∀ {f : QueuedTask}, f ∈ s.scheduled → f ∈ s.q.taskQueue ∨
    (∃ i : Nat, s.threads[i]? = some (.unlocked f)) ∨ ∃ time, (f, time) ∈ s.executed
  calls : ∀ {i : Nat} {f : QueuedTask} {op : SchedulerOp} {s' : SchedulerSystem},
    s.threads[i]? = some (.unlocked f) → s.step op = some s' →
    s'.threads[i]? = some (.unlocked f) ∨ (f, s.clock) ∈ s'.executed

theorem taken_eq_some {point : ServicePoint} {f : QueuedTask} (h : point.taken = some f) :
    point = .unlocked f := by
  cases point with
  | unlocked g => rw [Option.some.inj h]
  | _ => cases h

theorem Serviced.accounted (h : Serviced s) : Accounted s := by
  have hnodup : (s.q.taskQueue ++ s.taken ++ s.executed.map Prod.fst).Nodup := by
    refine h.tasks.nodup_iff.mpr (List.Nodup.of_map QueuedTask.id ?_)
    rw [h.ids]
    exact List.nodup_range
  have hdisjoint := List.disjoint_of_nodup_append hnodup
  refine ⟨(List.nodup_append.mp hnodup).2.1, fun hf => ?_, fun {f} hf => ?_, fun {i f op s'} hi hstep => ?_⟩
  · have hcalled := List.mem_map_of_mem (f := Prod.fst) hf
    exact ⟨h.tasks.mem_iff.mp (List.mem_append_right _ hcalled),
      fun hqueue => hdisjoint (List.mem_append_left _ hqueue) hcalled⟩
  · rcases List.mem_append.mp (h.tasks.mem_iff.mpr hf) with hf | hf
    · rcases List.mem_append.mp hf with hf | hf
      · exact .inl hf
      · obtain ⟨point, hpoint, htaken⟩ := List.mem_filterMap.mp hf
        obtain ⟨i, hi⟩ := List.mem_iff_getElem?.mp hpoint
        exact .inr (.inl ⟨i, taken_eq_some htaken ▸ hi⟩)
    · obtain ⟨⟨f, time⟩, hcalled, rfl⟩ := List.mem_map.mp hf
      exact .inr (.inr ⟨time, hcalled⟩)
  · cases op with
    | schedule time =>
      simp only [SchedulerSystem.step] at hstep
      split_ifs at hstep
      cases hstep
      exact .inl hi
    | stop drain =>
      simp only [SchedulerSystem.step] at hstep
      split_ifs at hstep
      cases hstep
      exact .inl hi
    | tick now =>
      simp only [SchedulerSystem.step] at hstep
      split_ifs at hstep
      cases hstep
      exact .inl hi
    | thread j event =>
      obtain ⟨point, q, next, hpoint, hserve, -, rfl⟩ := serve_cases hstep
      by_cases hij : j = i
      · subst hij
        rw [hi] at hpoint
        cases hpoint
        cases CScheduler.serviceQueue_moves hserve with
        | same _ htaken _ _ => cases htaken
        | call _ => exact .inr (List.mem_append_right _ (List.mem_singleton.mpr rfl))
      · exact .inl ((List.getElem?_set_ne hij).trans hi)

theorem Reached.serviced {ok : SchedulerOp → SchedulerSystem → Prop} (h : Reached ok s) : Serviced s := by
  refine Reachable.invariant ?_ (fun op s s' hs _ hstep => hs.step hstep) h
  rintro _ ⟨nThreads, now, rfl⟩
  exact serviced_init nThreads now

theorem Reached.punctual (h : Reached (fun op s => heeds op s = true) s) : Punctual s := by
  refine Reachable.invariant ?_ (fun op s s' hs hheeds hstep => hs.step hheeds hstep) h
  rintro _ ⟨nThreads, now, rfl⟩
  exact punctual_init nThreads now

/-- A thread leaves `serviceQueue` only when the queue is empty. -/
def Drains (s : SchedulerSystem) : Prop :=
  ∀ {i : Nat} {event : ThreadEvent} {point : ServicePoint} {s' : SchedulerSystem},
    undisturbed (.thread i event) = true → s.threads[i]? = some point → s.step (.thread i event) = some s' →
    s'.threads[i]? = some .outside → s.q.stopWhenEmpty = true ∧ s.q.taskQueue = []

theorem Reached.drains (h : Reached (fun op _ => undisturbed op = true) s) : Drains s := by
  intro i event point s' hevent hi hstep houtside
  have hstopRequested : s.q.stopRequested = false := by
    refine Reachable.invariant (I := fun s => s.q.stopRequested = false) ?_
      (fun op s s' hs hop hstep => stopRequested_step hs hop hstep) h
    rintro _ ⟨nThreads, now, rfl⟩
    rfl
  obtain ⟨point', q, next, hpoint, hserve, -, rfl⟩ := serve_cases hstep
  have hnext : next = .outside := by
    rcases getElem?_set_cases houtside with ⟨-, hnext⟩ | ⟨hne, -⟩
    · exact hnext.symm
    · exact absurd rfl hne
  subst hnext
  rcases CScheduler.serviceQueue_outside hserve with rfl | hstop
  · cases hevent
  · rw [CScheduler.shouldStop, hstopRequested, Bool.false_or, Bool.and_eq_true, List.isEmpty_iff] at hstop
    exact hstop

/-- **Scheduled tasks.** In every run every task is called once at most, and none is lost. Where no thread
takes a later task than it waited for none is called early, and where none is told to stop at once or
thrown out no thread leaves before the queue is empty. -/
theorem serviceQueue_onTime (s : SchedulerSystem) :
    (Reached (fun _ _ => True) s → Accounted s) ∧
    (Reached (fun op s => heeds op s = true) s → ∀ f time, (f, time) ∈ s.executed → f.time ≤ time) ∧
    (Reached (fun op _ => undisturbed op = true) s → Drains s) :=
  ⟨fun h => h.serviced.accounted, fun h _ _ hf => h.punctual.timely hf, fun h => h.drains⟩

/-- One thread calls a task at its time, from which on a second one that waits for it takes the next
task. -/
def twoThreads : List SchedulerOp :=
  let waits (i : Nat) : List SchedulerOp :=
    [.thread i .enter, .thread i .goOn, .thread i .goOn, .thread i .goOn]
  let takes (i : Nat) : List SchedulerOp :=
    [.thread i .timedOut, .thread i .goOn, .thread i .goOn]
  [.schedule 10, .schedule 20] ++ waits 0 ++ waits 1 ++ [.tick 10] ++ takes 0 ++ takes 1

theorem serviceQueue_counterexample : ∃ s, run twoThreads (init 2 0) = some s ∧
    s.executed = [(⟨0, 10⟩, 10), (⟨1, 20⟩, 10)] ∧ ∃ f time, (f, time) ∈ s.executed ∧ time < f.time :=
  ⟨_, rfl, rfl, ⟨1, 20⟩, 10, List.mem_cons_of_mem _ List.mem_cons_self, by decide⟩

/-- One thread alone, told to stop when the queue is empty. -/
def oneThread : List SchedulerOp :=
  [.schedule 10, .thread 0 .enter, .thread 0 .goOn, .thread 0 .goOn, .thread 0 .goOn, .tick 10,
    .thread 0 .timedOut, .thread 0 .goOn, .thread 0 .goOn, .stop true]

theorem serviceQueue_onTime_oneThread : ∃ s : SchedulerSystem, s.executed = [(⟨0, 10⟩, 10)] ∧
    Accounted s ∧ (∀ f time, (f, time) ∈ s.executed → f.time ≤ time) ∧ Drains s := by
  obtain ⟨s, hrun, hexecuted⟩ : ∃ s, Framework.run
      (guarded (fun op s => SchedulerSystem.step s op) fun op s =>
        heeds op s = true ∧ undisturbed op = true) oneThread
      (init 1 0) = some s ∧ s.executed = [(⟨0, 10⟩, 10)] := ⟨_, rfl, rfl⟩
  have hreached : Reached (fun op s => heeds op s = true ∧ undisturbed op = true) s :=
    Reachable.guarded (.init ⟨1, 0, rfl⟩) hrun
  obtain ⟨haccounted, htimely, hdrains⟩ := serviceQueue_onTime s
  exact ⟨s, hexecuted, haccounted (hreached.mono (fun _ => id) fun _ _ _ => trivial),
    htimely (hreached.mono (fun _ => id) fun _ _ h => h.1),
    hdrains (hreached.mono (fun _ => id) fun _ _ h => h.2)⟩

/-! ## One thread -/

theorem insert_head (task : QueuedTask) (queue : List QueuedTask) :
    ∃ first rest, Multimap.insert QueuedTask.time task queue = first :: rest ∧
      ∀ {first' rest'}, queue = first' :: rest' → first.time ≤ first'.time := by
  cases queue with
  | nil => exact ⟨task, [], rfl, nofun⟩
  | cons first queue =>
    unfold Multimap.insert
    split
    · next hlt =>
      refine ⟨task, _, rfl, fun h => ?_⟩
      obtain ⟨rfl, -⟩ := List.cons.inj h
      exact Int.le_of_lt hlt
    · refine ⟨first, _, rfl, fun h => ?_⟩
      obtain ⟨rfl, -⟩ := List.cons.inj h
      exact Int.le_refl _

/-- A single thread finds the task that it waits for, or an earlier one, at the head of the queue. -/
structure Alone (s : SchedulerSystem) : Prop where
  thread : s.threads.length = 1
  awaited : ∀ {time : Int}, s.threads.head?.bind ServicePoint.awaits = some time →
    ∃ first queue, s.q.taskQueue = first :: queue ∧ first.time ≤ time

/-- The place of the only thread. -/
theorem Alone.only (h : Alone s) {i : Nat} {point : ServicePoint} (hpoint : s.threads[i]? = some point) :
    i = 0 ∧ s.threads = [point] := by
  obtain ⟨p, hp⟩ := List.length_eq_one_iff.mp h.thread
  rw [hp] at hpoint ⊢
  cases i with
  | zero => exact ⟨rfl, congrArg ([·]) (Option.some.inj hpoint)⟩
  | succ i => cases hpoint

theorem Alone.step {op : SchedulerOp} (h : Alone s) (hstep : s.step op = some s') : Alone s' := by
  cases op with
  | thread i event =>
    obtain ⟨point, q, next, hpoint, hserve, -, rfl⟩ := serve_cases hstep
    obtain ⟨rfl, hp⟩ := h.only hpoint
    have hawaited := @h.awaited
    rw [hp] at hawaited
    refine ⟨?_, fun {time} hnext => ?_⟩
    · show (s.threads.set 0 next).length = 1
      rw [List.length_set, h.thread]
    · have hnext : next.awaits = some time := by
        rw [hp] at hnext
        exact hnext
      rcases CScheduler.serviceQueue_awaits hserve hnext with ⟨first, queue, hq, rfl⟩ | ⟨hpoint, hq⟩
      · exact ⟨first, queue, hq, Int.le_refl _⟩
      · show ∃ first queue, q.taskQueue = _ ∧ _
        rw [hq]
        exact hawaited hpoint
  | schedule time =>
    simp only [SchedulerSystem.step] at hstep
    split_ifs at hstep
    cases hstep
    refine ⟨h.thread, fun hawaits => ?_⟩
    obtain ⟨first, queue, hq, hle⟩ := h.awaited hawaits
    obtain ⟨first', rest, hinsert, hmin⟩ := insert_head ⟨s.scheduled.length, time⟩ s.q.taskQueue
    exact ⟨first', rest, hinsert, Int.le_trans (hmin hq) hle⟩
  | stop drain =>
    simp only [SchedulerSystem.step] at hstep
    split_ifs at hstep
    cases hstep
    refine ⟨h.thread, fun hawaits => ?_⟩
    cases drain <;> exact h.awaited hawaits
  | tick now =>
    simp only [SchedulerSystem.step] at hstep
    split_ifs at hstep
    cases hstep
    exact ⟨h.thread, h.awaited⟩

theorem Alone.awaitedFirst (h : Alone s) (i : Nat) : s.awaitedFirst i = true := by
  unfold SchedulerSystem.awaitedFirst
  split
  · next time first queue hpoint hq =>
    have hawaited := @h.awaited time
    rw [(h.only hpoint).2] at hawaited
    obtain ⟨first', queue', hq', hle⟩ := hawaited rfl
    rw [hq] at hq'
    obtain ⟨rfl, rfl⟩ := List.cons.inj hq'
    rw [decide_eq_true hle, Bool.or_true]
  · rfl

theorem alone_init (now : Int) : Alone (init 1 now) := ⟨rfl, nofun⟩

theorem Alone.heeds (h : Alone s) (op : SchedulerOp) : heeds op s = true := by
  unfold SchedulerSystem.heeds
  split
  · exact h.awaitedFirst _
  · rfl

/-- **The scheduler with one thread.** In every run the thread finds the task that it waited for, or an
earlier one, at the head; every task is called once, and none is called early. Where the thread is not
told to stop at once or thrown out, it leaves when the queue is empty. -/
theorem serviceQueue_single {now : Int} (h : Reachable (· = init 1 now)
    (fun op s => SchedulerSystem.step s op) (fun _ _ => True) s) :
    (∀ i, s.awaitedFirst i = true) ∧ Accounted s ∧ (∀ f time, (f, time) ∈ s.executed → f.time ≤ time) ∧
      (Reachable (· = init 1 now) (fun op s => SchedulerSystem.step s op)
        (fun op _ => undisturbed op = true) s → Drains s) := by
  have hinv : Alone s ∧ Punctual s := by
    refine Reachable.invariant (I := fun s => Alone s ∧ Punctual s) ?_ (fun op s s' hs _ hstep =>
      ⟨hs.1.step hstep, hs.2.step (hs.1.heeds op) hstep⟩) h
    rintro _ rfl
    exact ⟨alone_init now, punctual_init 1 now⟩
  exact ⟨hinv.1.awaitedFirst, hinv.2.serviced.accounted, fun _ _ hf => hinv.2.timely hf,
    fun h => Reached.drains (h.mono (fun _ hs => ⟨1, now, hs⟩) fun _ _ => id)⟩

theorem serviceQueue_single_oneThread : ∃ s : SchedulerSystem, s.executed = [(⟨0, 10⟩, 10)] ∧
    Accounted s ∧ (∀ f time, (f, time) ∈ s.executed → f.time ≤ time) ∧ Drains s := by
  obtain ⟨s, hrun, hexecuted⟩ : ∃ s, Framework.run
      (guarded (fun op s => SchedulerSystem.step s op) fun op _ => undisturbed op = true) oneThread
      (init 1 0) = some s ∧ s.executed = [(⟨0, 10⟩, 10)] := ⟨_, rfl, rfl⟩
  have hreached : Reachable (· = init 1 0) (fun op s => SchedulerSystem.step s op)
      (fun op _ => undisturbed op = true) s := Reachable.guarded (.init rfl) hrun
  obtain ⟨-, haccounted, htimely, hdrains⟩ :=
    serviceQueue_single (hreached.mono (fun _ => id) fun _ _ _ => trivial)
  exact ⟨s, hexecuted, haccounted, htimely, hdrains hreached⟩

end SchedulerSystem

end GC
