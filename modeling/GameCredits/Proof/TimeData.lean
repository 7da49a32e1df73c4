import GameCredits.Framework.Run
import GameCredits.Model.TimeData

/-!
# Time offsets

The median of an odd number of samples is where most of them are (`median_le_iff`, `lt_median_iff`), and
`AddTimeData` takes it as the offset if its absolute value is small (`nTimeOffset_setOffset`). The one
value for which the absolute value is wrong is the least `int64_t` (`abs64_lt_iff`), which is the median
if most of the samples are this value: otherwise the offset stays within the bounds
(`addTimeData_safe_iff`).
-/

namespace GC

open Framework (Throughout throughout_iff)
open Framework.Ranked (Most middle_le_iff lt_middle_iff)

variable {A : Type} [DecidableEq A]

/-- The vectors of a filter have the same samples, which are `int64_t`s. -/
structure CMedianFilter.Ok (filter : CMedianFilter) : Prop where
  sorted : Framework.Ranked.Sorted filter.vSorted
  perm : filter.vSorted.Perm filter.vValues
  range : ∀ x ∈ filter.vValues, -2 ^ 63 ≤ x ∧ x < 2 ^ 63

namespace CMedianFilter

variable {filter : CMedianFilter} {x a b : Int}

theorem ok_new (size : Nat) : (new size 0).Ok where
  sorted := List.pairwise_singleton _ _
  perm := .refl _
  range y hy := by
    rw [List.mem_singleton.mp hy]
    decide

theorem ok_input (h : filter.Ok) (hx : -2 ^ 63 ≤ x ∧ x < 2 ^ 63) : (filter.input x).Ok where
  sorted := by
    refine (List.pairwise_mergeSort (fun a b c hab hbc => ?_) (fun a b => ?_) _).imp (by simp)
    · exact decide_eq_true (le_trans (of_decide_eq_true hab) (of_decide_eq_true hbc))
    · rw [Bool.or_eq_true, decide_eq_true_eq, decide_eq_true_eq]
      exact le_total a b
  perm := List.mergeSort_perm _ _
  range y hy := by
    rcases List.mem_append.mp hy with hy | hy
    · split_ifs at hy
      · exact h.range y (List.mem_of_mem_tail hy)
      · exact h.range y hy
    · rw [List.mem_singleton.mp hy]
      exact hx

/-- The median of an odd number of samples is the one in the middle. -/
theorem Ok.exists_median (h : filter.Ok) (hodd : filter.size % 2 = 1) :
    ∃ m, filter.median = some m ∧ m ∈ filter.vValues ∧
      (∀ b, m ≤ b ↔ Most (· ≤ b) filter.vValues) ∧ ∀ a, a < m ↔ Most (a < ·) filter.vValues := by
  have hlen : filter.vSorted.length % 2 = 1 := h.perm.length_eq ▸ hodd
  have hk : filter.vSorted.length / 2 < filter.vSorted.length := by omega
  refine ⟨filter.vSorted[filter.vSorted.length / 2], ?_, h.perm.mem_iff.mp (List.getElem_mem hk),
    fun b => ?_, fun a => ?_⟩
  · simp only [median]
    rw [if_neg (by omega), if_pos hlen, List.getElem?_eq_getElem hk]
  · rw [middle_le_iff h.sorted hlen hk, Most.perm h.perm]
  · rw [lt_middle_iff h.sorted hlen hk, Most.perm h.perm]

end CMedianFilter

namespace TimeData

variable {s s' : TimeData A} {sample : Sample A} {m : Int}

theorem abs64_lt_iff {n : Int} (hm : -2 ^ 63 ≤ m ∧ m < 2 ^ 63) (hn : 0 < n) :
    abs64 m < n ↔ m = -2 ^ 63 ∨ -n < m ∧ m < n := by
  obtain ⟨hlow, hhigh⟩ := hm
  unfold abs64
  split_ifs with h0
  · omega
  · rcases eq_or_lt_of_le hlow with rfl | hlt
    · refine iff_of_true ?_ (.inl rfl)
      exact lt_trans (by decide) hn
    · rw [int64_eq (by omega) (by omega)]
      omega

omit [DecidableEq A] in
theorem nTimeOffset_warn (s : TimeData A) : s.warn.nTimeOffset = s.nTimeOffset := by
  unfold warn
  split_ifs <;> rfl

omit [DecidableEq A] in
theorem vTimeOffsets_warn (s : TimeData A) : s.warn.vTimeOffsets = s.vTimeOffsets := by
  unfold warn
  split_ifs <;> rfl

omit [DecidableEq A] in
theorem nTimeOffset_setOffset (s : TimeData A) (m : Int) :
    (s.setOffset m).nTimeOffset = if abs64 m < 70 * 60 then m else 0 := by
  unfold setOffset
  split_ifs
  · rfl
  · exact nTimeOffset_warn _

omit [DecidableEq A] in
theorem vTimeOffsets_setOffset (s : TimeData A) (m : Int) :
    (s.setOffset m).vTimeOffsets = s.vTimeOffsets := by
  unfold setOffset
  split_ifs
  · rfl
  · exact vTimeOffsets_warn _

/-! ## What is promised -/

/-- What a call of `AddTimeData` is to do: the offset stays within seventy minutes; a median that it is
set to is between bounds between which most of the samples are; and a second sample from an address
changes nothing. -/
structure Promise (sample : Sample A) (s s' : TimeData A) : Prop where
  bounded : -4200 < s'.getTimeOffset ∧ s'.getTimeOffset < 4200
  between : sample.ip ∉ s.setKnown → (s.record sample).updates = true → ∀ a b, -4200 < a → b < 4200 →
    Most (fun x => a ≤ x ∧ x ≤ b) s'.vTimeOffsets.vValues → a ≤ s'.getTimeOffset ∧ s'.getTimeOffset ≤ b
  repeated : sample.ip ∈ s.setKnown → s' = s

def Safe (sample : Sample A) (s : TimeData A) : Prop :=
  ∃ s', addTimeData sample s = some s' ∧ Promise sample s s'

/-- If the call updates the offset, not most of the samples are the least `int64_t`. -/
def Quiet (sample : Sample A) (s : TimeData A) : Prop :=
  sample.ip ∉ s.setKnown → (s.record sample).updates = true →
    ¬Most (· = -2 ^ 63) (s.record sample).vTimeOffsets.vValues

/-- What holds between the calls. -/
structure Ok (s : TimeData A) : Prop where
  filter : s.vTimeOffsets.Ok
  bounded : -4200 < s.nTimeOffset ∧ s.nTimeOffset < 4200

omit [DecidableEq A] in
theorem ok_init : Ok (init : TimeData A) := 
  ⟨CMedianFilter.ok_new 200, (by decide : (-4200 : Int) < 0 ∧ (0 : Int) < 4200)⟩

omit [DecidableEq A] in
theorem ok_record (h : s.vTimeOffsets.Ok) (sample : Sample A) : (s.record sample).vTimeOffsets.Ok :=
  CMedianFilter.ok_input h ⟨sample.lower, sample.upper⟩

/-- A call at which the offset is set to a median or to zero. -/
theorem safe_iff_of_updates (h : Ok s) (hnew : sample.ip ∉ s.setKnown)
    (hupdates : (s.record sample).updates = true) :
    Safe sample s ↔ ¬Most (· = -2 ^ 63) (s.record sample).vTimeOffsets.vValues := by
  have hok := ok_record h.filter sample
  obtain ⟨m, hm, hmem, hle, hlt⟩ := hok.exists_median (of_decide_eq_true hupdates).2
  have hrange := hok.range m hmem
  have hstep : addTimeData sample s = some ((s.record sample).setOffset m) := by
    rw [addTimeData, if_neg hnew, if_pos hupdates, hm, Option.map_some]
  -- the median is the least value if most samples are
  have hleast : m = -2 ^ 63 ↔ Most (· = -2 ^ 63) (s.record sample).vTimeOffsets.vValues := by
    have hmost : m ≤ -2 ^ 63 ↔ _ := hle (-2 ^ 63)
    constructor
    · intro heq
      refine (hmost.mp heq.le).mono fun x hx hxle => ?_
      exact le_antisymm hxle (hok.range x hx).1
    · intro hflood
      exact le_antisymm (hmost.mpr (hflood.mono fun x _ hx => hx.le)) hrange.1
  rw [← hleast]
  constructor
  · rintro ⟨s', hs', hpromise⟩ rfl
    cases hstep.symm.trans hs'
    have hbounded := hpromise.bounded
    rw [getTimeOffset, nTimeOffset_setOffset, if_pos (by decide)] at hbounded
    exact absurd hbounded.1 (by decide)
  · intro hne
    have habs := abs64_lt_iff hrange (n := 70 * 60) (by decide)
    refine ⟨_, hstep, ?_, fun _ _ a b ha hb hmost => ?_, fun hknown => absurd hknown hnew⟩
    · rw [getTimeOffset, nTimeOffset_setOffset]
      split_ifs with hsmall
      · exact (habs.mp hsmall).resolve_left hne
      · decide
    · rw [vTimeOffsets_setOffset] at hmost
      have hup : m ≤ b := (hle b).mpr (hmost.mono fun x _ hx => hx.2)
      have hdown : a - 1 < m := (hlt (a - 1)).mpr (hmost.mono fun x _ hx => by omega)
      rw [getTimeOffset, nTimeOffset_setOffset, if_pos (habs.mpr (.inr (by omega)))]
      omega

theorem safe_iff_quiet (h : Ok s) (sample : Sample A) : Safe sample s ↔ Quiet sample s := by
  by_cases hknown : sample.ip ∈ s.setKnown
  · have hstep : addTimeData sample s = some s := if_pos hknown
    refine iff_of_true ⟨s, hstep, h.bounded, fun hnew => absurd hknown hnew, fun _ => rfl⟩ ?_
    exact fun hnew => absurd hknown hnew
  by_cases hupdates : (s.record sample).updates = true
  · rw [safe_iff_of_updates h hknown hupdates]
    exact ⟨fun hq _ _ => hq, fun hq => hq hknown hupdates⟩
  · have hstep : addTimeData sample s = some (s.record sample) := by
      rw [addTimeData, if_neg hknown, if_neg hupdates]
    refine iff_of_true ⟨_, hstep, h.bounded, fun _ hup => absurd hup hupdates, fun hin => ?_⟩ ?_
    · exact absurd hin hknown
    · exact fun _ hup => absurd hup hupdates

/-- A call that does what it is to do leaves a state of which this holds. -/
theorem ok_step (h : Ok s) (hsafe : Safe sample s) (hs' : addTimeData sample s = some s') : Ok s' := by
  obtain ⟨t, ht, hpromise⟩ := hsafe
  cases ht.symm.trans hs'
  refine ⟨?_, hpromise.bounded⟩
  unfold addTimeData at ht
  split_ifs at ht with hknown
  · cases ht
    exact h.filter
  · obtain ⟨m, -, rfl⟩ := Option.map_eq_some_iff.mp ht
    rw [vTimeOffsets_setOffset]
    exact ok_record h.filter sample
  · cases ht
    exact ok_record h.filter sample

theorem throughout_safe {samples : List (Sample A)} :
    Throughout addTimeData Safe samples init ↔ Throughout addTimeData Quiet samples init :=
  throughout_iff (I := Ok) (fun sample _ h => safe_iff_quiet h sample)
    (fun _ _ _ h hsafe hs' => ok_step h hsafe hs') ok_init

end TimeData

open TimeData in
/-- In every sequence of calls of `AddTimeData`, all of them do what they are to do if and only if none
sets the offset while most of the samples held are the least `int64_t`. -/
theorem addTimeData_safe_iff (samples : List (Sample A)) :
    Throughout addTimeData Safe samples init ↔ Throughout addTimeData Quiet samples init :=
  throughout_safe

/-- The least `int64_t` as a sample. -/
def TimeData.leastSample (ip : Nat) : TimeData.Sample Nat := ⟨ip, -2 ^ 63, by decide, by decide⟩

open TimeData in
/-- Four addresses that send the least `int64_t` make it the offset. -/
theorem addTimeData_counterexample :
    ¬∀ samples : List (Sample Nat), Throughout addTimeData Safe samples init := by
  intro h
  have hquiet := throughout_safe.mp
    (h [leastSample 1, leastSample 2, leastSample 3, leastSample 4])
  have hlast := ((((hquiet.2 _ rfl).2 _ rfl).2 _ rfl).1 (by decide) (by decide))
  exact absurd hlast (by decide)

end GC
