import GameCredits.Framework.Ranked
import GameCredits.Model.Transaction

/-!
# Time offsets (timedata.h, timedata.cpp)

`CMedianFilter<int64_t>` and `AddTimeData` with its static variables. The addresses are of any type. An
`int64_t` is an integer, and arithmetic wraps (`int64`); a place outside of a vector is `none`, as is
what follows an assertion that fails.
-/

namespace GC

variable {A : Type} [DecidableEq A]

/-- `CMedianFilter<int64_t>`. -/
structure CMedianFilter where
  vValues : List Int
  vSorted : List Int
  nSize : Nat

namespace CMedianFilter

/-- The constructor. -/
def new (size : Nat) (initialValue : Int) : CMedianFilter := ⟨[initialValue], [initialValue], size⟩

def input (filter : CMedianFilter) (value : Int) : CMedianFilter :=
  let vValues :=
    (if filter.vValues.length = filter.nSize then filter.vValues.tail else filter.vValues) ++ [value]
  { filter with vValues, vSorted := vValues.mergeSort fun a b => a ≤ b }

def size (filter : CMedianFilter) : Nat := filter.vValues.length

def median (filter : CMedianFilter) : Option Int :=
  let size := filter.vSorted.length
  if size = 0 then none
  else if size % 2 = 1 then filter.vSorted[size / 2]?
  else do
    let a ← filter.vSorted[size / 2 - 1]?
    let b ← filter.vSorted[size / 2]?
    some ((int64 (a + b)).tdiv 2)

end CMedianFilter

/-- The static variables. -/
structure TimeData (A : Type) where
  nTimeOffset : Int
  setKnown : List A
  vTimeOffsets : CMedianFilter
  fDone : Bool
  strMiscWarning : String

namespace TimeData

def init : TimeData A := ⟨0, [], .new 200 0, false, ""⟩

def getTimeOffset (s : TimeData A) : Int := s.nTimeOffset

/-- `abs64`; the negative of the least value is that value again. -/
def abs64 (n : Int) : Int := if 0 ≤ n then n else int64 (-n)

def strMessage : String :=
  "Warning: Please check that your computer's date and time are correct! If your clock is wrong " ++
    "GameCredits Core will not work properly."

/-- The warning, once, if no offset is different from zero and within five minutes. -/
def warn (s : TimeData A) : TimeData A :=
  if s.fDone then s
  else if s.vTimeOffsets.vSorted.any fun nOffset => nOffset ≠ 0 ∧ abs64 nOffset < 5 * 60 then s
  else { s with fDone := true, strMiscWarning := strMessage }

/-- The offset is set to the median, or to zero. -/
def setOffset (s : TimeData A) (nMedian : Int) : TimeData A :=
  if abs64 nMedian < 70 * 60 then { s with nTimeOffset := nMedian } else { s with nTimeOffset := 0 }.warn

/-- A call of `AddTimeData`. -/
structure Sample (A : Type) where
  ip : A
  nOffsetSample : Int
  lower : -2 ^ 63 ≤ nOffsetSample
  upper : nOffsetSample < 2 ^ 63

/-- A sample from an address that is not known. -/
def record (s : TimeData A) (sample : Sample A) : TimeData A :=
  { s with
    setKnown := sample.ip :: s.setKnown
    vTimeOffsets := s.vTimeOffsets.input sample.nOffsetSample }

/-- The number of samples is one at which the offset is updated. -/
def updates (s : TimeData A) : Bool := 5 ≤ s.vTimeOffsets.size ∧ s.vTimeOffsets.size % 2 = 1

def addTimeData (sample : Sample A) (s : TimeData A) : Option (TimeData A) :=
  if sample.ip ∈ s.setKnown then some s
  else if (s.record sample).updates then
    (s.record sample).vTimeOffsets.median.map (s.record sample).setOffset
  else some (s.record sample)

end TimeData

end GC
