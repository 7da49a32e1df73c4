import GameCredits.Framework.Run
import Mathlib.Data.List.Basic

/-!
# The queue of script checks (checkqueue.h)

`CCheckQueue` with its threads: `Loop` is cut at the critical sections, and a check of a batch is
evaluated in a step of its own, so that a run is any interleaving of these. One thread, the master,
adds checks and waits; a `condMaster` or `condWorker` that notifies marks who waits on it, and a
thread may also wake up without having been notified.
-/

namespace GC

structure CCheckQueue (T : Type) where
  queue : List T
  nIdle : Int
  nTotal : Int
  fAllOk : Bool
  nTodo : Nat
  fQuit : Bool
  nBatchSize : Nat

/-- Where a thread is in `Loop`: before its first critical section, in `cond.wait`, with a batch of
`nNow` checks of which `vChecks` are left, or behind the `return`. -/
inductive LoopState (T : Type) where
  | start
  | waiting (notified : Bool)
  | executing (nNow : Nat) (vChecks : List T) (fOk : Bool)
  | returned (fRet : Bool)

namespace CCheckQueue

variable {T : Type}

/-- The constructor. -/
def init (nBatchSize : Nat) : CCheckQueue T := ⟨[], 0, 0, true, 0, false, nBatchSize⟩

/-- The beginning of a critical section of `Loop`, and whether it notifies the master: the clean-up of
the previous loop run, the first iteration, or the return from `cond.wait`. There is none while
checks of the batch are left, and after the `return`. -/
def cleanUp (fMaster : Bool) (q : CCheckQueue T) : LoopState T → Option (CCheckQueue T × Bool)
  | .start => some ({ q with nTotal := q.nTotal + 1 }, false)
  | .waiting _ => some ({ q with nIdle := q.nIdle - 1 }, false)
  | .executing nNow [] fOk =>
    let q := { q with fAllOk := q.fAllOk && fOk, nTodo := q.nTodo - nNow }
    some (q, q.nTodo == 0 && !fMaster)
  | .executing _ (_ :: _) _ => none
  | .returned _ => none

/-- How many checks a thread takes at once. -/
def batchSize (q : CCheckQueue T) : Nat :=
  max 1 (min q.nBatchSize (q.queue.length / (q.nTotal + q.nIdle + 1).toNat))

/-- `Loop` from where "logically, the do loop starts" to the end of the critical section. -/
def takeBatch (fMaster : Bool) (q : CCheckQueue T) : CCheckQueue T × LoopState T :=
  if q.queue.isEmpty then
    if (fMaster || q.fQuit) && q.nTodo == 0 then
      ({ q with nTotal := q.nTotal - 1, fAllOk := if fMaster then true else q.fAllOk },
        .returned q.fAllOk)
    else ({ q with nIdle := q.nIdle + 1 }, .waiting false)
  else
    let nNow := q.batchSize
    let left := q.queue.length - nNow
    ({ q with queue := q.queue.take left },
      .executing nNow (q.queue.drop left).reverse q.fAllOk)

/-- `Add`. -/
def add (q : CCheckQueue T) (vChecks : List T) : CCheckQueue T :=
  { q with queue := q.queue ++ vChecks, nTodo := q.nTodo + vChecks.length }

/-- `IsIdle`. -/
def isIdle (q : CCheckQueue T) : Bool := q.nTotal == q.nIdle && q.nTodo == 0 && q.fAllOk

end CCheckQueue

namespace LoopState

variable {T : Type}

/-- The thread is notified if it waits. -/
def notify : LoopState T → LoopState T
  | .waiting _ => .waiting true
  | l => l

/-- The size of the batch that is not accounted for. -/
def nNow : LoopState T → Nat
  | .executing nNow _ _ => nNow
  | _ => 0

/-- The checks of the batch that are left. -/
def checks : LoopState T → List T
  | .executing _ vChecks _ => vChecks
  | _ => []

/-- The result of the batch so far. -/
def fOk : LoopState T → Bool
  | .executing _ _ fOk => fOk
  | _ => true

end LoopState

/-! ## Threads -/

/-- What was done since the previous `Wait` returned. -/
structure CheckRecord (T : Type) where
  added : List T
  popped : List T
  evaluated : List T
  skipped : List T

def CheckRecord.empty {T : Type} : CheckRecord T := ⟨[], [], [], []⟩

inductive ThreadId where
  | master
  | worker (i : Nat)
  deriving DecidableEq

/-- The queue with its threads; the master is in `Loop` from when it calls `Wait` until it has taken
the result. `finished` is the record of the previous `Wait`. -/
structure CheckSystem (T : Type) where
  q : CCheckQueue T
  master : Option (LoopState T)
  workers : List (LoopState T)
  record : CheckRecord T
  finished : CheckRecord T

inductive CheckOp (T : Type) where
  | thread
  | add (vChecks : List T) (notified : Nat)
  | wait
  | takeResult
  | enter (id : ThreadId)
  | execute (id : ThreadId)

namespace CheckSystem

variable {T : Type} (eval : T → Bool)

def init (nBatchSize : Nat) : CheckSystem T := ⟨.init nBatchSize, none, [], .empty, .empty⟩

def thread (s : CheckSystem T) : ThreadId → Option (LoopState T)
  | .master => s.master
  | .worker i => s.workers[i]?

def setThread (s : CheckSystem T) (id : ThreadId) (l : LoopState T) : CheckSystem T :=
  match id with
  | .master => { s with master := some l }
  | .worker i => { s with workers := s.workers.set i l }

/-- What `Add` notifies: one worker that waits, or all. -/
def notifyWorkers (workers : List (LoopState T)) (size notified : Nat) : List (LoopState T) :=
  if size = 1 then workers.modify notified LoopState.notify
  else if 1 < size then workers.map LoopState.notify
  else workers

/-- The record goes on, or begins again where `Wait` returns. -/
def recordEntered (s : CheckSystem T) (id : ThreadId) (l : LoopState T) : CheckSystem T :=
  match id, l with
  | .master, .returned _ => { s with record := .empty, finished := s.record }
  | _, l => { s with record := { s.record with popped := s.record.popped ++ l.checks } }

/-- A critical section of a thread. -/
def enter (s : CheckSystem T) (id : ThreadId) : Option (CheckSystem T) := do
  let l ← s.thread id
  let (q, notified) ← s.q.cleanUp (id == .master) l
  let (q, l) := q.takeBatch (id == .master)
  let s := (s.setThread id l).recordEntered id l
  return { s with q, master := if notified then s.master.map LoopState.notify else s.master }

/-- The next check of a batch: evaluated, or skipped after one that failed. -/
def execute (s : CheckSystem T) (id : ThreadId) : Option (CheckSystem T) :=
  match s.thread id with
  | some (.executing nNow (check :: vChecks) true) =>
    some { s.setThread id (.executing nNow vChecks (eval check)) with
      record := { s.record with evaluated := s.record.evaluated ++ [check] } }
  | some (.executing nNow (check :: vChecks) false) =>
    some { s.setThread id (.executing nNow vChecks false) with
      record := { s.record with skipped := s.record.skipped ++ [check] } }
  | _ => none

/-- One step of any thread. The master adds checks, and calls `Wait`, while it is not in `Loop`. -/
def step (s : CheckSystem T) : CheckOp T → Option (CheckSystem T)
  | .thread => some { s with workers := s.workers ++ [.start] }
  | .add vChecks notified =>
    match s.master with
    | none =>
      some { s with
        q := s.q.add vChecks, workers := notifyWorkers s.workers vChecks.length notified,
        record := { s.record with added := s.record.added ++ vChecks } }
    | some _ => none
  | .wait =>
    match s.master with
    | none => some { s with master := some .start }
    | some _ => none
  | .takeResult =>
    match s.master with
    | some (.returned _) => some { s with master := none }
    | _ => none
  | .enter id => s.enter id
  | .execute id => s.execute eval id

/-- The steps one after another. -/
def run (ops : List (CheckOp T)) (s : CheckSystem T) : Option (CheckSystem T) :=
  Framework.run (fun op s => s.step eval op) ops s

end CheckSystem

end GC
