import GameCredits.Framework.Assoc
import GameCredits.Framework.Multimap

/-!
# The map of a limited size (limitedmap.h)

`limitedmap`: a `std::map` and a `std::multimap` from the values to iterators of the map. As for
`mruset`, an iterator is the number of a node that is never made twice. What `rmap.begin()` of an empty
`rmap` and the erasure of an iterator to a node that was erased do is undefined, and so is what follows
`assert(0)`: `none`.
-/

namespace GC

open Framework (Multimap.insert)
open Framework.Assoc (Map)

variable {K V : Type} [DecidableEq K] [LinearOrder V]

/-- `limitedmap<K, V>`; an element of `map` has its value and its node. -/
structure LimitedMap (K V : Type) [DecidableEq K] where
  map : Map K (V × Nat)
  nNodes : Nat
  rmap : List (V × Nat)
  nMaxSize : Nat

namespace LimitedMap

/-- The constructor. -/
def new (nMaxSize : Nat) : LimitedMap K V := ⟨∅, 0, [], nMaxSize⟩

def size (s : LimitedMap K V) : Nat := s.map.entries.length

/-- The value of a key. -/
def find (s : LimitedMap K V) (k : K) : Option V := (s.map.lookup k).map Prod.fst

/-- `map.erase(it)`. -/
def eraseNode (map : Map K (V × Nat)) (it : Nat) : Option (Map K (V × Nat)) :=
  (map.entries.find? fun e => e.2.2 = it).map fun e => map.erase e.1

/-- `map.erase(rmap.begin()->second); rmap.erase(rmap.begin())`. -/
def eraseFirst (s : LimitedMap K V) : Option (LimitedMap K V) :=
  match s.rmap with
  | [] => none
  | e :: rmap => (eraseNode s.map e.2).map fun map => { s with map, rmap }

/-- `map.insert` of a key that is not there. -/
def addNode (s : LimitedMap K V) (k : K) (v : V) : LimitedMap K V :=
  { s with map := s.map.insert k (v, s.nNodes), nNodes := s.nNodes + 1 }

/-- The test of `insert`, with the new key in `map` and not in `rmap`. -/
def makeRoom (s : LimitedMap K V) : Option (LimitedMap K V) :=
  if s.nMaxSize ≠ 0 ∧ s.size = s.nMaxSize then s.eraseFirst else some s

/-- `rmap.insert`. -/
def link (s : LimitedMap K V) (v : V) (it : Nat) : LimitedMap K V :=
  { s with rmap := Multimap.insert Prod.fst (v, it) s.rmap }

def insert (s : LimitedMap K V) (k : K) (v : V) : Option (LimitedMap K V) :=
  match s.map.lookup k with
  | some _ => some s
  | none => (s.addNode k v).makeRoom.map fun s' => s'.link v s.nNodes

/-- The loop over the equal range of `v` in `rmap`; `none` where it ends at `assert(0)`. -/
def unlink (v : V) (it : Nat) : List (V × Nat) → Option (List (V × Nat))
  | [] => none
  | e :: rmap => if e = (v, it) then some rmap else (unlink v it rmap).map (e :: ·)

def erase (s : LimitedMap K V) (k : K) : Option (LimitedMap K V) :=
  match s.map.lookup k with
  | none => some s
  | some (v, it) => (unlink v it s.rmap).map fun rmap => { s with map := s.map.erase k, rmap }

/-- `update`, with the key of `itIn`. -/
def update (s : LimitedMap K V) (k : K) (w : V) : Option (LimitedMap K V) :=
  match s.map.lookup k with
  | none => some s
  | some (v, it) =>
    (unlink v it s.rmap).map fun rmap => { s with map := s.map.insert k (w, it), rmap }.link w it

/-- The loop of `max_size`. -/
def shrink (n : Nat) : List (V × Nat) → Map K (V × Nat) → Option (Map K (V × Nat) × List (V × Nat))
  | [], map => if map.entries.length ≤ n then some (map, []) else none
  | e :: rmap, map =>
    if map.entries.length ≤ n then some (map, e :: rmap)
    else (eraseNode map e.2).bind fun map => shrink n rmap map

/-- `max_size(s)`. -/
def setMaxSize (s : LimitedMap K V) (n : Nat) : Option (LimitedMap K V) :=
  if n = 0 then some { s with nMaxSize := n }
  else (shrink n s.rmap s.map).map fun (map, rmap) => { s with map, rmap, nMaxSize := n }

/-- A call of one of the functions that change the map. -/
inductive Call (K V : Type)
  | insert (k : K) (v : V)
  | erase (k : K)
  | update (k : K) (v : V)
  | setMaxSize (n : Nat)

def step : Call K V → LimitedMap K V → Option (LimitedMap K V)
  | .insert k v, s => s.insert k v
  | .erase k, s => s.erase k
  | .update k v, s => s.update k v
  | .setMaxSize n, s => s.setMaxSize n

end LimitedMap

end GC
