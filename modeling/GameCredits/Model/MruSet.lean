import GameCredits.Framework.Assoc
import GameCredits.Framework.Ring
import GameCredits.Framework.Run

/-!
# The set of the most recent elements (mruset.h)

`mruset`: a `std::set` and a ring of iterators to its elements. An iterator is the number of the node of
the set that it points to; a node is never made twice, so that an iterator to a node that was erased is
told from all others. `order[i]` outside of the vector, and the erasure of an iterator that points to
no node of the set, are undefined: `none`.
-/

namespace GC

open Framework (nextPlace)
open Framework.Assoc (Map)

variable {T : Type} [DecidableEq T]

/-- `mruset<T>`; `order` has `none` where it has `set.end()`. -/
structure MruSet (T : Type) [DecidableEq T] where
  set : Map T Nat
  nNodes : Nat
  order : List (Option Nat)
  firstUsed : Nat
  firstUnused : Nat
  nMaxSize : Nat

namespace MruSet

def clear (s : MruSet T) : MruSet T :=
  { s with
    set := ∅
    order := List.replicate s.nMaxSize none
    firstUsed := 0
    firstUnused := 0 }

/-- The constructor. -/
def new (nMaxSize : Nat) : MruSet T := clear ⟨∅, 0, [], 0, 0, nMaxSize⟩

def size (s : MruSet T) : Nat := s.set.entries.length

def count (s : MruSet T) (k : T) : Nat := if (s.set.lookup k).isSome then 1 else 0

/-- The element that an iterator points to. -/
def deref (s : MruSet T) (it : Nat) : Option T :=
  (s.set.entries.find? fun e => e.2 = it).map Sigma.fst

/-- `set.erase(order[first_used])` and what follows it. -/
def evict (s : MruSet T) : Option (MruSet T) := do
  let it ← ← s.order[s.firstUsed]?
  let x ← s.deref it
  some
    { s with
      set := s.set.erase x
      order := s.order.set s.firstUsed none
      firstUsed := nextPlace s.nMaxSize s.firstUsed }

/-- `order[first_unused] = it` and what follows it. -/
def append (s : MruSet T) (it : Nat) : Option (MruSet T) :=
  if s.firstUnused < s.order.length then
    some
      { s with
        order := s.order.set s.firstUnused (some it)
        firstUnused := nextPlace s.nMaxSize s.firstUnused }
  else none

/-- `set.insert` of an element that is not there. -/
def addNode (s : MruSet T) (x : T) : MruSet T :=
  { s with set := s.set.insert x s.nNodes, nNodes := s.nNodes + 1 }

/-- An element is evicted if there is one too many. -/
def makeRoom (s : MruSet T) : Option (MruSet T) :=
  if s.size = s.nMaxSize + 1 then s.evict else some s

/-- `insert`: the iterator, whether the element is new, and the set afterwards. -/
def insert (s : MruSet T) (x : T) : Option ((Nat × Bool) × MruSet T) :=
  match s.set.lookup x with
  | some it => some ((it, false), s)
  | none => do
    let s' ← (s.addNode x).makeRoom
    let s' ← s'.append s.nNodes
    some ((s.nNodes, true), s')

/-- A call of one of the functions that change the set. -/
inductive Call (T : Type)
  | insert (x : T)
  | clear

/-- A call, with the list of the elements whose insertion succeeded since the last `clear`. -/
def step : Call T → MruSet T × List T → Option (MruSet T × List T)
  | .insert x, (s, inserted) => do
    let ((_, isNew), s) ← s.insert x
    some (s, if isNew then inserted ++ [x] else inserted)
  | .clear, (s, _) => some (s.clear, [])

end MruSet

end GC
