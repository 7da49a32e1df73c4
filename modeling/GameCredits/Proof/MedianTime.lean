import GameCredits.Framework.Ranked
import GameCredits.Proof.Headers

/-!
# The median time past (chain.h)

The rule of `ContextualCheckBlockHeader`, that the time of a block exceeds the median time past of the
block before it, keeps the median time past from going down along a chain (`getMedianTimePast_push`):
of the eleven times only the oldest leaves the window, not the smallest, but the one that enters is
above the old median. So a time that is accepted on top of a block is above the median time past of
every ancestor (`getMedianTimePast_accepted`). The chains of the entries that `AcceptBlockHeader` makes
are such (`reachable_timesOk`), so that this holds of all entries (`medianTime_runs`).
-/

namespace GC

open Framework
open Ranked (middle middle_le_push)

variable {chain ancestor : List CBlockIndex} {block : CBlockIndex}

/-- The time of each block is above the median time past of the block before it. -/
def TimesAccepted : List CBlockIndex → Prop
  | block :: prev :: rest =>
    getMedianTimePast (prev :: rest) < block.getBlockTime ∧ TimesAccepted (prev :: rest)
  | _ => True

theorem TimesAccepted.head (h : TimesAccepted (block :: chain)) (hne : chain ≠ []) :
    getMedianTimePast chain < block.getBlockTime := by
  cases chain with
  | nil => exact absurd rfl hne
  | cons prev rest => exact h.1

theorem TimesAccepted.tail (h : TimesAccepted (block :: chain)) : TimesAccepted chain := by
  cases chain with
  | nil => trivial
  | cons prev rest => exact h.2

theorem getMedianTimePast_eq_middle (chain : List CBlockIndex) :
    getMedianTimePast chain = middle 0 ((chain.map CBlockIndex.getBlockTime).take 11) := by
  rw [← List.map_take]
  rfl

/-- A block above the median time past of the block before it does not lower it. -/
theorem getMedianTimePast_push (hne : chain ≠ [])
    (htime : getMedianTimePast chain < block.getBlockTime) :
    getMedianTimePast chain ≤ getMedianTimePast (block :: chain) := by
  rw [getMedianTimePast_eq_middle] at htime ⊢
  rw [getMedianTimePast_eq_middle, List.map_cons]
  exact middle_le_push (by decide) (by simpa using hne) htime.le

/-- The median time past of an ancestor. -/
theorem TimesAccepted.ancestor_le (h : TimesAccepted chain) (hanc : ancestor <:+ chain)
    (hne : ancestor ≠ []) : getMedianTimePast ancestor ≤ getMedianTimePast chain := by
  induction chain with
  | nil => exact absurd (List.suffix_nil.mp hanc) hne
  | cons block chain ih =>
    rcases List.suffix_cons_iff.mp hanc with rfl | hanc
    · exact le_refl _
    · have hchain : chain ≠ [] := by
        rintro rfl
        exact hne (List.suffix_nil.mp hanc)
      exact (ih h.tail hanc).trans (getMedianTimePast_push hchain (h.head hchain))

/-- A header that passes the checks on top of an entry is above its median time past. -/
theorem contextualCheckBlockHeader_time {env : HeaderEnv} {s : ChainState} {header : CBlockHeader}
    {p : Ptr} (hother : header.getHash env.hash ≠ env.hashGenesisBlock)
    (hok : env.contextualCheckBlockHeader s header (some p) = some true) :
    getMedianTimePast (s.chainFrom p) < header.nTime.toNat := by
  rw [HeaderEnv.contextualCheckBlockHeader, if_neg hother] at hok
  obtain ⟨work, -, hchecks⟩ := Option.map_eq_some_iff.mp hok
  simp only [Bool.and_eq_true, decide_eq_true_eq] at hchecks
  exact hchecks.1.1.2

/-- **The median time past never goes down**: along a chain in which the time of each block is above
the median time past of its parent, the median time past of a block is at least that of its parent, and
a time above it, such as that of a header that passes the checks on top of the block, is above the
median time past of every ancestor. -/
theorem getMedianTimePast_accepted (h : TimesAccepted chain) :
    (chain.tail ≠ [] → getMedianTimePast chain.tail ≤ getMedianTimePast chain) ∧
    (∀ t, getMedianTimePast chain < t →
      ∀ ancestor, ancestor <:+ chain → ancestor ≠ [] → getMedianTimePast ancestor < t) ∧
    ∀ (env : HeaderEnv) (s : ChainState) (p : Ptr) (header : CBlockHeader), s.chainFrom p = chain →
      header.getHash env.hash ≠ env.hashGenesisBlock →
      env.contextualCheckBlockHeader s header (some p) = some true →
      ∀ ancestor, ancestor <:+ chain → ancestor ≠ [] →
        getMedianTimePast ancestor < header.nTime.toNat := by
  have hbelow : ∀ t, getMedianTimePast chain < t →
      ∀ ancestor, ancestor <:+ chain → ancestor ≠ [] → getMedianTimePast ancestor < t :=
    fun t ht ancestor hanc hne => lt_of_le_of_lt (h.ancestor_le hanc hne) ht
  refine ⟨h.ancestor_le (List.tail_suffix chain), hbelow, ?_⟩
  intro env s p header hchain hother hok
  have htime := contextualCheckBlockHeader_time hother hok
  rw [hchain] at htime
  exact hbelow _ htime

/-! ## Entries -/

/-- The chain of every entry has times that were accepted. -/
def TimesOk (s : ChainState) : Prop := ∀ p, s.Known p → TimesAccepted (s.chainFrom p)

theorem ChainState.Added.timesOk {s s' : ChainState} {pnew q : Ptr} (A : s.Added s' pnew)
    (T : s.Tree) (h : TimesOk s) (hq : s'.parent pnew = some q)
    (htime : getMedianTimePast (s.chainFrom q) < (s'.node pnew).getBlockTime) : TimesOk s' := by
  obtain ⟨hkq, hheight⟩ := A.parent q hq
  have hchain : s'.chainFrom pnew = s'.node pnew :: s.chainFrom q := by
    rw [← A.chainFrom T hkq, ChainState.chainFrom, ChainState.chainFrom]
    rw [show (s'.node pnew).nHeight = s.height q + 1 from hheight,
      show (s'.node q).nHeight = s.height q from A.height_eq hkq, lineage,
      show (s'.node pnew).pprev = some q from hq]
    rfl
  intro p hp
  rcases A.known.mp hp with hp | rfl
  · rw [A.chainFrom T hp]
    exact h p hp
  · obtain ⟨rest, hrest⟩ := chainFrom_head s q
    have hbelow := h q hkq
    rw [hchain]
    rw [hrest] at htime hbelow ⊢
    exact ⟨htime, hbelow⟩

theorem TimesOk.step {env : HeaderEnv} {s s' : ChainState} (hs : HeaderTree env s) (h : TimesOk s)
    {call : HeaderEnv.Call} (hstep : env.step call s = some s') : TimesOk s' := by
  obtain ⟨hnew, hadd⟩ := hs.accepts hstep
  cases hadd with
  | same => exact h
  | @added q hfind hq hother hchecks =>
    have A := ChainState.added_addEntry (call.block.getHash env.hash) call.block hnew
    have hnode : (s.addEntry (call.block.getHash env.hash) call.block call.pindexNew).node
        call.pindexNew = s.newEntry (call.block.getHash env.hash) call.block :=
      ChainState.node_modify_self (s := s) fun _ => s.newEntry _ call.block
    refine A.timesOk hs.tree h (q := q) ?_ ?_
    · rw [ChainState.parent, hnode]
      exact hq
    · rw [hnode]
      exact contextualCheckBlockHeader_time hother hchecks

/-- In every run of `AcceptBlockHeader` the chain of every entry has times that were accepted. -/
theorem reachable_timesOk (env : HeaderEnv) {s : ChainState}
    (hs : Reachable (fun s => s = env.init) env.step (fun _ _ => True) s) :
    HeaderTree env s ∧ TimesOk s := by
  refine hs.invariant (I := fun s => HeaderTree env s ∧ TimesOk s) ?_ ?_
  · rintro _ rfl
    refine ⟨(headersOk_init env).toHeaderTree, fun p hp => ?_⟩
    have A : ChainState.empty.Added env.init 0 :=
      ChainState.added_addEntry _ _ List.not_mem_nil
    rw [(A.known.mp hp).resolve_left List.not_mem_nil]
    trivial
  · intro t call t' ⟨ht, htimes⟩ _ hstep
    exact ⟨ht.step hstep, htimes.step ht hstep⟩

theorem chainFrom_child {s : ChainState} {p q : Ptr} (T : s.Tree) (hp : s.Known p)
    (hq : s.parent p = some q) : s.chainFrom p = s.node p :: s.chainFrom q := by
  rw [ChainState.chainFrom, ChainState.chainFrom,
    show (s.node p).nHeight = s.height q + 1 from T.graded.child p q hp hq, lineage,
    show (s.node p).pprev = some q from hq]
  rfl

/-- The median time past does not go down from a parent to its child, whose time is above it. -/
theorem TimesOk.child {s : ChainState} {p q : Ptr} (h : TimesOk s) (T : s.Tree) (hp : s.Known p)
    (hq : s.parent p = some q) :
    getMedianTimePast (s.chainFrom q) ≤ getMedianTimePast (s.chainFrom p) ∧
      getMedianTimePast (s.chainFrom q) < (s.node p).getBlockTime := by
  have hne : s.chainFrom q ≠ [] := by
    obtain ⟨rest, hrest⟩ := chainFrom_head s q
    rw [hrest]
    exact List.cons_ne_nil _ _
  have htimes := h p hp
  rw [chainFrom_child T hp hq] at htimes ⊢
  have htime := htimes.head hne
  exact ⟨getMedianTimePast_push hne htime, htime⟩

theorem TimesOk.anc_le {s : ChainState} {a p : Ptr} (h : TimesOk s) (T : s.Tree) (hp : s.Known p)
    (ha : s.Anc a p) : getMedianTimePast (s.chainFrom a) ≤ getMedianTimePast (s.chainFrom p) := by
  induction ha with
  | refl => exact le_refl _
  | @step q c hq _ ih => exact (ih (T.graded.closed c q hp hq)).trans (h.child T hp hq).1

/-- In every run of `AcceptBlockHeader` the median time past of an entry is at least that of each of its
ancestors, and its own time is above that of each of them. -/
theorem medianTime_runs (env : HeaderEnv) (s : ChainState)
    (hs : Reachable (fun s => s = env.init) env.step (fun _ _ => True) s) (p : Ptr) (hp : s.Known p) (a : Ptr)
    (ha : s.Anc a p) : getMedianTimePast (s.chainFrom a) ≤ getMedianTimePast (s.chainFrom p) ∧
      (a ≠ p → getMedianTimePast (s.chainFrom a) < (s.node p).getBlockTime) := by
  obtain ⟨⟨T, -⟩, htimes⟩ := reachable_timesOk env hs
  refine ⟨htimes.anc_le T hp ha, fun hne => ?_⟩
  cases ha with
  | refl => exact absurd rfl hne
  | @step q c hq haq =>
    exact lt_of_le_of_lt (htimes.anc_le T (T.graded.closed p q hp hq) haq) (htimes.child T hp hq).2

/-! ## Samples -/

/-- An entry of a time. -/
def timedBlock (nTime : UInt32) : CBlockIndex :=
  CBlockIndex.ofHeader ⟨0, uint256_pos⟩ ⟨2, ⟨0, uint256_pos⟩, ⟨0, uint256_pos⟩, nTime, 0, 0⟩

/-- Four blocks, of which the last has a time before that of its parent. -/
theorem getMedianTimePast_accepted_four :
    TimesAccepted ([25, 30, 20, 10].map timedBlock) ∧
      getMedianTimePast ([30, 20, 10].map timedBlock) = 20 ∧
      getMedianTimePast ([25, 30, 20, 10].map timedBlock) = 25 ∧
      getMedianTimePast ([30, 20, 10].map timedBlock) ≤
        getMedianTimePast ([25, 30, 20, 10].map timedBlock) ∧
      getMedianTimePast ([10].map timedBlock) < 26 := by
  have h : TimesAccepted ([25, 30, 20, 10].map timedBlock) :=
    ⟨by decide, by decide, by decide, trivial⟩
  have hall := getMedianTimePast_accepted h
  exact ⟨h, by decide, by decide, hall.1 (by simp),
    hall.2.1 26 (by decide) _ ⟨[25, 30, 20].map timedBlock, rfl⟩ (by simp)⟩

theorem medianTime_lockedCalls :
    getMedianTimePast ((chainOf lockedCalls).chainFrom 1) <
      ((chainOf lockedCalls).node 2).getBlockTime := by
  refine (medianTime_runs (sampleHeaders sampleCheckpoints true) (chainOf lockedCalls) ?_ 2 ?_ 1 ?_).2
    (by decide)
  · exact Reachable.run (.init rfl) (fun _ _ _ _ _ _ => trivial) lockedCalls_run
  · exact List.mem_of_getElem? (i := 2) rfl
  · exact .parent_self rfl

end GC
