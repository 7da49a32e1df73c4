import GameCredits.Model.BlockIndex
import Mathlib.Logic.Function.Basic

/-!
# Chains and locators (chain.h, chain.cpp, main.cpp)

`CBlockIndex::GetAncestor` and `BuildSkip` with their pointers, `CChain` as a vector of pointers that
`SetTip` resizes and fills, and the locators. A pointer that may be null is an `Option Ptr`. A function
returns `none` where it dereferences a null pointer, leaves the bounds of the vector, or does not end.
-/

namespace GC

section

variable (node : Ptr → CBlockIndex)

/-! ## Ancestors -/

/-- The loop of `GetAncestor` for a height that is not negative. Both ways lead down, so that
`heightWalk` rounds are enough. -/
def getAncestorLoop (height : Nat) : (fuel heightWalk : Nat) → Option Ptr → Option (Option Ptr)
  | 0, heightWalk, pindexWalk => if height < heightWalk then none else some pindexWalk
  | fuel + 1, heightWalk, pindexWalk =>
    if height < heightWalk then
      pindexWalk.bind fun p =>
        let heightSkip := getSkipHeight heightWalk
        let heightSkipPrev := getSkipHeight (heightWalk - 1)
        if heightSkip = height ∨
            (height < heightSkip ∧ ¬ (heightSkipPrev + 2 < heightSkip ∧ height ≤ heightSkipPrev)) then
          getAncestorLoop height fuel heightSkip (node p).pskip
        else getAncestorLoop height fuel (heightWalk - 1) (node p).pprev
    else some pindexWalk

/-- `CBlockIndex::GetAncestor`. -/
def getAncestor (pindex : Ptr) (height : Int) : Option (Option Ptr) :=
  if (node pindex).nHeight < height ∨ height < 0 then some none
  else getAncestorLoop node height.toNat (node pindex).nHeight (node pindex).nHeight (some pindex)

/-- `CBlockIndex::BuildSkip`: the skip pointer after it. -/
def buildSkip (e : CBlockIndex) : Option (Option Ptr) :=
  match e.pprev with
  | none => some e.pskip
  | some pprev => getAncestor node pprev (getSkipHeight e.nHeight)

/-- The block trees: a genesis block and the entries added under entries that are there, each with its
height and its skip pointer; what else is in an entry may change. -/
inductive BlockTree : (Ptr → CBlockIndex) → List Ptr → Prop
  | genesis {node p} (hprev : (node p).pprev = none) (hheight : (node p).nHeight = 0) :
      BlockTree node [p]
  | add {node known p q} {e : CBlockIndex} (T : BlockTree node known) (hnew : p ∉ known)
      (hprev : e.pprev = some q) (hq : q ∈ known) (hheight : e.nHeight = (node q).nHeight + 1)
      (hskip : buildSkip node e = some e.pskip) :
      BlockTree (Function.update node p e) (p :: known)
  | touch {node node' known} (T : BlockTree node known)
      (hsame : ∀ p, (node' p).pprev = (node p).pprev ∧ (node' p).pskip = (node p).pskip ∧
        (node' p).nHeight = (node p).nHeight) :
      BlockTree node' known

end

/-! ## CChain -/

/-- `CChain`. -/
structure CChain where
  vChain : List (Option Ptr)

/-- `std::vector::resize` of a vector of pointers. -/
def resize (vChain : List (Option Ptr)) (n : Nat) : List (Option Ptr) :=
  vChain.take n ++ List.replicate (n - vChain.length) none

namespace CChain

variable (node : Ptr → CBlockIndex)

/-- `CChain::Genesis`. -/
def genesis (c : CChain) : Option Ptr := c.vChain.head?.join

/-- `CChain::Tip`. -/
def tip (c : CChain) : Option Ptr := c.vChain.getLast?.join

/-- `CChain::Height`. -/
def height (c : CChain) : Int := c.vChain.length - 1

/-- `CChain::operator[]`. -/
def get (c : CChain) (nHeight : Int) : Option Ptr :=
  if nHeight < 0 ∨ c.vChain.length ≤ nHeight then none else c.vChain[nHeight.toNat]?.join

/-- `CChain::Contains`. -/
def contains (c : CChain) (pindex : Ptr) : Bool := c.get (node pindex).nHeight == some pindex

/-- The loop of `SetTip`; a round for each height is enough in a tree. -/
def setTipLoop : (fuel : Nat) → List (Option Ptr) → Option Ptr → Option (List (Option Ptr))
  | _, vChain, none => some vChain
  | 0, _, some _ => none
  | fuel + 1, vChain, some pindex =>
    vChain[(node pindex).nHeight]?.bind fun slot =>
      if slot = some pindex then some vChain
      else setTipLoop fuel (vChain.set (node pindex).nHeight (some pindex)) (node pindex).pprev

/-- `CChain::SetTip`. -/
def setTip (c : CChain) : Option Ptr → Option CChain
  | none => some ⟨[]⟩
  | some pindex =>
    let nHeight := (node pindex).nHeight
    (setTipLoop node (nHeight + 1) (resize c.vChain (nHeight + 1)) (some pindex)).map CChain.mk

/-- A sequence of calls of `SetTip`. -/
def setTips (c : CChain) (calls : List (Option Ptr)) : Option CChain := calls.foldlM (setTip node) c

/-- The loop of `FindFork`. -/
def findForkLoop (c : CChain) : (fuel : Nat) → Option Ptr → Option (Option Ptr)
  | _, none => some none
  | 0, some _ => none
  | fuel + 1, some pindex =>
    if c.contains node pindex then some (some pindex) else findForkLoop c fuel (node pindex).pprev

/-- `CChain::FindFork`. -/
def findFork (c : CChain) (pindex : Ptr) : Option (Option Ptr) :=
  let start :=
    if c.height < (node pindex).nHeight then getAncestor node pindex c.height else some (some pindex)
  start.bind (c.findForkLoop node ((node pindex).nHeight + 1))

/-! ## Locators -/

/-- The loop of `GetLocator`. The step has no bound here: where an `int` could not hold it, the walk
has reached the genesis block and does not use it. -/
def locatorLoop (c : CChain) : (fuel nStep : Nat) → (vHave : List UInt256) → Option Ptr →
    Option (List UInt256)
  | _, _, vHave, none => some vHave
  | 0, _, _, some _ => none
  | fuel + 1, nStep, vHave, some pindex =>
    let vHave := vHave ++ [(node pindex).phashBlock]
    if (node pindex).nHeight = 0 then some vHave
    else
      let nHeight : Int := max ((node pindex).nHeight - nStep) 0
      let next :=
        if c.contains node pindex then some (c.get nHeight) else getAncestor node pindex nHeight
      next.bind (locatorLoop c fuel (if 10 < vHave.length then nStep * 2 else nStep) vHave)

/-- `CChain::GetLocator`. -/
def getLocator (c : CChain) (pindex : Option Ptr) : Option (List UInt256) :=
  match pindex.or c.tip with
  | none => some []
  | some p => c.locatorLoop node ((node p).nHeight + 1) 1 [] (some p)

/-- `FindForkInGlobalIndex`, with the entries of `mapBlockIndex`. -/
def findForkInGlobalIndex (mapBlockIndex : List Ptr) (chain : CChain) : List UInt256 → Option Ptr
  | [] => chain.genesis
  | hash :: vHave =>
    match mapBlockIndex.find? fun p => (node p).phashBlock == hash with
    | some pindex =>
      if chain.contains node pindex then some pindex
      else findForkInGlobalIndex mapBlockIndex chain vHave
    | none => findForkInGlobalIndex mapBlockIndex chain vHave

end CChain

end GC
