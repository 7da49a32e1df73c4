import GameCredits.Framework.Assoc

/-!
# Locked memory pages (support/pagelocker.h)

`LockedPageManagerBase` over a `size_t` of `w` bits, with the calls that it makes of its locker. A
function returns `none` where an assertion fails or a loop never ends. A session keeps, besides the
manager, the ranges that are locked and not yet unlocked.
-/

namespace GC

open Framework

variable {w : Nat}

/-- A call of the locker, with the address and the length. -/
inductive LockerCall (w : Nat) where
  | lock (addr len : BitVec w)
  | unlock (addr len : BitVec w)
  deriving DecidableEq

/-- `LockedPageManagerBase`; `locker` is the calls of the locker so far. -/
structure LockedPageManagerBase (w : Nat) where
  locker : List (LockerCall w)
  page_size : BitVec w
  page_mask : BitVec w
  histogram : Assoc.Map (BitVec w) Int32

namespace LockedPageManagerBase

/-- The constructor. -/
def ofPageSize (page_size : BitVec w) : Option (LockedPageManagerBase w) :=
  if page_size &&& (page_size - 1) = 0 then some ⟨[], page_size, ~~~(page_size - 1), ∅⟩ else none

/-- The body of the loop of `LockRange`. -/
def lockPage (m : LockedPageManagerBase w) (page : BitVec w) : Option (LockedPageManagerBase w) :=
  match m.histogram.lookup page with
  | none => some { m with
      locker := m.locker ++ [.lock page m.page_size]
      histogram := m.histogram.insert page 1 }
  | some count => some { m with histogram := m.histogram.insert page (count + 1) }

/-- The body of the loop of `UnlockRange`. -/
def unlockPage (m : LockedPageManagerBase w) (page : BitVec w) : Option (LockedPageManagerBase w) :=
  match m.histogram.lookup page with
  | none => none
  | some count =>
    if count - 1 = 0 then
      some { m with
        locker := m.locker ++ [.unlock page m.page_size]
        histogram := m.histogram.erase page }
    else some { m with histogram := m.histogram.insert page (count - 1) }

/-- `for (page = …; page <= end_page; page += page_size)`. A loop that is not left while `page` can
take all its values is never left. -/
def pageLoop (body : LockedPageManagerBase w → BitVec w → Option (LockedPageManagerBase w))
    (end_page : BitVec w) : Nat → BitVec w → LockedPageManagerBase w → Option (LockedPageManagerBase w)
  | 0, _, _ => none
  | fuel + 1, page, m =>
    if page ≤ end_page then
      (body m page).bind (pageLoop body end_page fuel (page + m.page_size))
    else some m

/-- `LockRange` and `UnlockRange` up to the body of the loop. -/
def forRange (body : LockedPageManagerBase w → BitVec w → Option (LockedPageManagerBase w))
    (m : LockedPageManagerBase w) (p size : BitVec w) : Option (LockedPageManagerBase w) :=
  if size = 0 then some m
  else
    let start_page := p &&& m.page_mask
    let end_page := (p + size - 1) &&& m.page_mask
    pageLoop body end_page (2 ^ w) start_page m

/-- `LockRange`. -/
def lockRange (m : LockedPageManagerBase w) (p size : BitVec w) : Option (LockedPageManagerBase w) :=
  m.forRange lockPage p size

/-- `UnlockRange`. -/
def unlockRange (m : LockedPageManagerBase w) (p size : BitVec w) :
    Option (LockedPageManagerBase w) := m.forRange unlockPage p size

end LockedPageManagerBase

/-! ## Sessions -/

/-- The arguments of `LockRange` and `UnlockRange`: the bytes from an address on. -/
structure ByteRange (w : Nat) where
  p : BitVec w
  size : BitVec w
  deriving DecidableEq

namespace ByteRange

/-- The range does not end in the last page of the address space. -/
def BelowLastPage (page_size : BitVec w) (r : ByteRange w) : Prop :=
  r.size ≠ 0 → r.p.toNat + r.size.toNat - 1 < 2 ^ w - page_size.toNat

/-- The address is that of a page, and the page and the range have a byte in common. -/
def Intersects (page_size page : BitVec w) (r : ByteRange w) : Prop :=
  page.toNat % page_size.toNat = 0 ∧ ∃ byte, r.p.toNat ≤ byte ∧ byte < r.p.toNat + r.size.toNat ∧
    page.toNat ≤ byte ∧ byte < page.toNat + page_size.toNat

theorem intersects_iff {page_size page : BitVec w} {r : ByteRange w} :
    r.Intersects page_size page ↔ page.toNat % page_size.toNat = 0 ∧ 0 < r.size.toNat ∧
      0 < page_size.toNat ∧ r.p.toNat < page.toNat + page_size.toNat ∧
      page.toNat < r.p.toNat + r.size.toNat := by
  refine and_congr_right fun _ => ⟨fun ⟨byte, h⟩ => by omega, fun h => ?_⟩
  exact ⟨max r.p.toNat page.toNat, by omega⟩

instance (page_size page : BitVec w) (r : ByteRange w) : Decidable (r.Intersects page_size page) :=
  decidable_of_iff _ intersects_iff.symm

end ByteRange

/-- A manager and the ranges that are locked and not yet unlocked. -/
structure PageSession (w : Nat) where
  manager : LockedPageManagerBase w
  outstanding : List (ByteRange w)

/-- A call of the manager. -/
inductive PageCall (w : Nat) where
  | lockRange (r : ByteRange w)
  | unlockRange (r : ByteRange w)
  deriving DecidableEq

namespace PageSession

/-- A manager that has just been made. -/
def Init (page_size : BitVec w) (s : PageSession w) : Prop :=
  LockedPageManagerBase.ofPageSize page_size = some s.manager ∧ s.outstanding = []

def step : PageCall w → PageSession w → Option (PageSession w)
  | .lockRange r, s => (s.manager.lockRange r.p r.size).map fun m => ⟨m, r :: s.outstanding⟩
  | .unlockRange r, s => (s.manager.unlockRange r.p r.size).map fun m => ⟨m, s.outstanding.erase r⟩

/-- No range ends in the last page, and an unlocked range is one that is locked. -/
def Valid : PageCall w → PageSession w → Prop
  | .lockRange r, s => r.BelowLastPage s.manager.page_size
  | .unlockRange r, s => r ∈ s.outstanding

/-- The number of locked ranges that intersect a page. -/
def refs (s : PageSession w) (page : BitVec w) : Nat :=
  s.outstanding.countP fun r => r.Intersects s.manager.page_size page

end PageSession

end GC
