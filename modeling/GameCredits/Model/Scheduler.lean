import GameCredits.Framework.Multimap
import GameCredits.Framework.Run
import Mathlib.Data.List.Basic

/-!
# The scheduler of background tasks (scheduler.cpp)

`serviceQueue` with its threads. A step of a thread is one test or one action of its loop, so that a
run is any interleaving of these with `schedule`, with `stop` and with the clock. `newTaskMutex` is held
by the thread that is between two waits. A wait may end at any time; it reports a timeout only when the
clock has reached the time that it was given.
-/

namespace GC

/-- A call of `schedule`: the function, known by the number of calls before, and its time. -/
structure QueuedTask where
  id : Nat
  time : Int
  deriving DecidableEq, Repr

structure CScheduler where
  taskQueue : List QueuedTask
  nThreadsServicingQueue : Int
  stopRequested : Bool
  stopWhenEmpty : Bool

/-- Where a thread is in `serviceQueue`. Behind the wait for the time of the first task it knows which
time a wait reported that was reached, or none where a test ended the loop. -/
inductive ServicePoint where
  | outside
  | loopTest
  | emptyTest
  | waitingForTask
  | timeTest
  | waitingUntil (time : Int)
  | behindWait (reached : Option Int)
  | unlocked (f : QueuedTask)
  | running (f : QueuedTask)
  deriving DecidableEq, Repr

/-- What a thread does next: it calls `serviceQueue`, goes on, comes back from a wait, or leaves because
the function threw or the wait was interrupted. -/
inductive ThreadEvent where
  | enter | goOn | notified | timedOut | throws
  deriving DecidableEq, Repr

namespace ServicePoint

/-- Whether `newTaskMutex` is held. -/
def holdsLock : ServicePoint → Bool
  | .loopTest | .emptyTest | .timeTest | .behindWait _ => true
  | .outside | .waitingForTask | .waitingUntil _ | .unlocked _ | .running _ => false

/-- The function that was taken and is not called yet. -/
def taken : ServicePoint → Option QueuedTask
  | .unlocked f => some f
  | _ => none

/-- Whether what happens next begins with locking `newTaskMutex`. -/
def locks : ThreadEvent → ServicePoint → Bool
  | .enter, _ | .notified, _ | .timedOut, _ => true
  | .goOn, .running _ => true
  | .goOn, _ => false
  | .throws, .running _ => false
  | .throws, _ => true

end ServicePoint

namespace CScheduler

def init : CScheduler := ⟨[], 0, false, false⟩

def shouldStop (q : CScheduler) : Bool := q.stopRequested || (q.stopWhenEmpty && q.taskQueue.isEmpty)

/-- `schedule`; `taskQueue` is a `std::multimap` of the times. -/
def schedule (q : CScheduler) (task : QueuedTask) : CScheduler :=
  { q with taskQueue := Framework.Multimap.insert QueuedTask.time task q.taskQueue }

/-- `stop`. -/
def stop (q : CScheduler) (drain : Bool) : CScheduler :=
  if drain then { q with stopWhenEmpty := true } else { q with stopRequested := true }

/-- `serviceQueue`: one test or action of the loop. -/
def serviceQueue (clock : Int) (q : CScheduler) :
    ThreadEvent → ServicePoint → Option (CScheduler × ServicePoint)
  | .enter, .outside =>
    some ({ q with nThreadsServicingQueue := q.nThreadsServicingQueue + 1 }, .loopTest)
  | .goOn, .loopTest =>
    if q.shouldStop then
      some ({ q with nThreadsServicingQueue := q.nThreadsServicingQueue - 1 }, .outside)
    else some (q, .emptyTest)
  | .goOn, .emptyTest =>
    some (q, if !q.shouldStop && q.taskQueue.isEmpty then .waitingForTask else .timeTest)
  | .notified, .waitingForTask => some (q, .emptyTest)
  | .goOn, .timeTest =>
    match q.taskQueue with
    | [] => some (q, .behindWait none)
    | first :: _ => some (q, if q.shouldStop then .behindWait none else .waitingUntil first.time)
  | .notified, .waitingUntil _ => some (q, .timeTest)
  | .timedOut, .waitingUntil time => if time ≤ clock then some (q, .behindWait (some time)) else none
  | .goOn, .behindWait _ =>
    match q.taskQueue with
    | [] => some (q, .loopTest)
    | first :: queue =>
      if q.shouldStop then some (q, .loopTest) else some ({ q with taskQueue := queue }, .unlocked first)
  | .goOn, .unlocked f => some (q, .running f)
  | .goOn, .running _ => some (q, .loopTest)
  | .throws, .running _ =>
    some ({ q with nThreadsServicingQueue := q.nThreadsServicingQueue - 1 }, .outside)
  | .throws, .waitingForTask =>
    some ({ q with nThreadsServicingQueue := q.nThreadsServicingQueue - 1 }, .outside)
  | .throws, .waitingUntil _ =>
    some ({ q with nThreadsServicingQueue := q.nThreadsServicingQueue - 1 }, .outside)
  | _, _ => none

end CScheduler

/-! ## Threads -/

/-- The scheduler with its threads; the tasks in the order in which they were scheduled, and what was
called, with the time of the call. -/
structure SchedulerSystem where
  q : CScheduler
  threads : List ServicePoint
  clock : Int
  scheduled : List QueuedTask
  executed : List (QueuedTask × Int)

inductive SchedulerOp where
  | thread (i : Nat) (event : ThreadEvent)
  | schedule (time : Int)
  | stop (drain : Bool)
  | tick (now : Int)
  deriving DecidableEq, Repr

namespace SchedulerSystem

def init (nThreads : Nat) (now : Int) : SchedulerSystem :=
  ⟨.init, List.replicate nThreads .outside, now, [], []⟩

/-- Whether no thread holds `newTaskMutex`. -/
def mutexFree (s : SchedulerSystem) : Bool := s.threads.all fun point => !point.holdsLock

/-- What is called when a thread goes on. -/
def called (event : ThreadEvent) (point : ServicePoint) : List QueuedTask :=
  if event = .goOn then point.taken.toList else []

/-- A step of a thread. -/
def serve (s : SchedulerSystem) (i : Nat) (event : ThreadEvent) : Option SchedulerSystem := do
  let point ← s.threads[i]?
  let (q, next) ← s.q.serviceQueue s.clock event point
  if ServicePoint.locks event point && !s.mutexFree then none
  else some { s with
    q, threads := s.threads.set i next,
    executed := s.executed ++ (called event point).map fun f => (f, s.clock) }

def step (s : SchedulerSystem) : SchedulerOp → Option SchedulerSystem
  | .thread i event => s.serve i event
  | .schedule time =>
    if s.mutexFree then
      let task := ⟨s.scheduled.length, time⟩
      some { s with q := s.q.schedule task, scheduled := s.scheduled ++ [task] }
    else none
  | .stop drain => if s.mutexFree then some { s with q := s.q.stop drain } else none
  | .tick now => if s.clock ≤ now then some { s with clock := now } else none

/-- The steps one after another. -/
def run (ops : List SchedulerOp) (s : SchedulerSystem) : Option SchedulerSystem :=
  Framework.run (fun op s => s.step op) ops s

end SchedulerSystem

end GC
