import Mathlib.Algebra.BigOperators.Ring.Finset
import GameCredits.Framework.Run
import GameCredits.Model.Downloads

/-!
# The books of the block downloads

`Books` says that the map of blocks in flight lists the same requests as the peers' lists, and that
the peers' counters are right; all operations keep it. The count over all peers of requests with
validated headers is too high by those that were outstanding when their peer left.

* `books_runs`: the invariant of all runs.
* `queued_runs`: the global counters, in runs in which no peer leaves with such a request.
-/

namespace GC

open Framework Assoc

namespace DownloadState

variable {s s' : DownloadState} {n : NodeId} {state : CNodeState}

/-- An entry of `mapBlocksInFlight`. -/
abbrev Listing := Sigma fun _ : UInt256 => NodeId × ListIter

/-- The requests that a peer lists, as entries of `mapBlocksInFlight`. -/
def listing (n : NodeId) (state : CNodeState) : List Listing :=
  state.vBlocksInFlight.map fun e => ⟨e.2.hash, n, e.1⟩

/-- The requests that all peers list. -/
def listed (m : Map NodeId CNodeState) : List Listing := m.entries.flatMap fun e => listing e.1 e.2

/-- The counters and the iterators of a peer. -/
structure NodeBooks (bound : ListIter) (state : CNodeState) : Prop where
  count : state.nBlocksInFlight = state.vBlocksInFlight.length
  valid : state.nBlocksInFlightValidHeaders =
    (state.vBlocksInFlight.countP fun e => e.2.fValidatedHeaders : Nat)
  nodup : (state.vBlocksInFlight.map Prod.fst).Nodup
  below : ∀ e ∈ state.vBlocksInFlight, e.1 < bound

/-- The map lists the requests that the peers list, and the peers' counters are right. -/
structure Books (s : DownloadState) : Prop where
  perm : s.mapBlocksInFlight.entries.Perm (listed s.mapNodeState)
  nodes : ∀ n state, s.mapNodeState.lookup n = some state → NodeBooks s.nextIter state

/-! ## Lists of requests -/

theorem listed_erase {m : Map NodeId CNodeState} (h : m.lookup n = some state) :
    (listed m).Perm (listing n state ++ listed (m.erase n)) :=
  (entries_perm h).flatMap_right _

theorem listed_insert (m : Map NodeId CNodeState) (n : NodeId) (state : CNodeState) :
    listed (m.insert n state) = listing n state ++ listed (m.erase n) := by
  rw [listed, entries_insert]
  rfl

theorem NodeBooks.mono {b b' : ListIter} (h : NodeBooks b state) (hb : b ≤ b') :
    NodeBooks b' state :=
  { h with below := fun e he => Nat.lt_of_lt_of_le (h.below e he) hb }

theorem lookup_mem {l : List (ListIter × QueuedBlock)} {it : ListIter} {entry : QueuedBlock}
    (hnd : (l.map Prod.fst).Nodup) : l.lookup it = some entry ↔ (it, entry) ∈ l := by
  induction l with
  | nil => simp
  | cons e l ih =>
    obtain ⟨it', entry'⟩ := e
    rw [List.map_cons, List.nodup_cons] at hnd
    rw [List.lookup_cons, List.mem_cons]
    by_cases h : it = it'
    · subst h
      have hnot : (it, entry) ∉ l := fun hm => hnd.1 (List.mem_map.mpr ⟨_, hm, rfl⟩)
      simp [hnot, eq_comm]
    · rw [beq_false_of_ne h]
      simp only [ih hnd.2, Prod.mk.injEq, h, false_and, false_or]

/-- A listed request, taken out by its iterator. -/
theorem eraseP_perm {l : List (ListIter × QueuedBlock)} {it : ListIter} {entry : QueuedBlock}
    (h : l.lookup it = some entry) :
    l.Perm ((it, entry) :: l.eraseP fun e => e.1 == it) := by
  induction l with
  | nil => cases h
  | cons e l ih =>
    obtain ⟨it', entry'⟩ := e
    rw [List.lookup_cons] at h
    by_cases hit : it = it'
    · subst hit
      rw [beq_self_eq_true] at h
      cases h
      rw [List.eraseP_cons_of_pos (by simp)]
    · rw [beq_false_of_ne hit] at h
      rw [List.eraseP_cons_of_neg (by simpa using Ne.symm hit)]
      exact ((ih h).cons _).trans (.swap ..)

/-! ## Operations -/

theorem Books.empty : empty.Books := ⟨.refl _, fun _ _ h => by cases h⟩

theorem Books.connect (B : s.Books) (n : NodeId) : (s.initializeNode n).Books := by
  unfold initializeNode
  cases h : s.mapNodeState.lookup n with
  | some state => exact B
  | none =>
    refine ⟨?_, fun n' state' h' => ?_⟩
    · show s.mapBlocksInFlight.entries.Perm (listed (s.mapNodeState.insert n .new))
      rw [listed_insert, listed, erase_entries h]
      exact B.perm
    · by_cases hn : n' = n
      · subst hn
        have h' : (s.mapNodeState.insert n' .new).lookup n' = some state' := h'
        rw [AList.lookup_insert] at h'
        cases h'
        exact ⟨rfl, rfl, List.nodup_nil, fun e he => by cases he⟩
      · have h' : (s.mapNodeState.insert n .new).lookup n' = some state' := h'
        rw [AList.lookup_insert_ne hn] at h'
        exact B.nodes n' state' h'

/-- A peer's record changes with its requests, and the map with them. -/
theorem Books.setNode (B : s.Books) (h : s.mapNodeState.lookup n = some state) {state' : CNodeState}
    (hnodes : s'.mapNodeState = s.mapNodeState.insert n state') (hnext : s.nextIter ≤ s'.nextIter)
    (hstate : NodeBooks s'.nextIter state')
    (hperm : s'.mapBlocksInFlight.entries.Perm
      (listing n state' ++ listed (s.mapNodeState.erase n))) : s'.Books := by
  refine ⟨by rwa [hnodes, listed_insert], fun n₁ state₁ h₁ => ?_⟩
  rw [hnodes] at h₁
  by_cases hn : n₁ = n
  · subst hn
    rw [AList.lookup_insert] at h₁
    cases h₁
    exact hstate
  · rw [AList.lookup_insert_ne hn] at h₁
    exact (B.nodes n₁ state₁ h₁).mono hnext

theorem Books.updatePreferred (B : s.Books) {node : CNodeFlags}
    (h : s.updatePreferredDownload n node = some s') : s'.Books := by
  unfold updatePreferredDownload at h
  cases hs : s.mapNodeState.lookup n with
  | none => rw [hs] at h; cases h
  | some state =>
    rw [hs] at h
    cases h
    have N := B.nodes n state hs
    have hperm := B.perm.trans (listed_erase hs)
    exact B.setNode hs rfl (le_refl _) ⟨N.count, N.valid, N.nodup, N.below⟩ hperm

/-- A request that the map names is in the list of its peer. -/
theorem Books.entry (B : s.Books) {hash : UInt256} {it : ListIter}
    (h : s.mapBlocksInFlight.lookup hash = some (n, it)) :
    ∃ state entry, s.mapNodeState.lookup n = some state ∧
      state.vBlocksInFlight.lookup it = some entry ∧ entry.hash = hash := by
  have hmem := B.perm.subset (mem_entries.mpr h)
  obtain ⟨⟨n', state⟩, hn, hl⟩ := List.mem_flatMap.mp hmem
  obtain ⟨⟨it', entry⟩, he, heq⟩ := List.mem_map.mp hl
  cases heq
  have hs := mem_entries.mp hn
  exact ⟨state, entry, hs, (lookup_mem (B.nodes _ _ hs).nodup).mpr he, rfl⟩

/-- What `MarkBlockAsReceived` does to a request that is listed. -/
theorem Books.received_eq (B : s.Books) {hash : UInt256} {it : ListIter}
    (h : s.mapBlocksInFlight.lookup hash = some (n, it)) :
    ∃ state entry, s.mapNodeState.lookup n = some state ∧
      state.vBlocksInFlight.lookup it = some entry ∧ entry.hash = hash ∧
      s.markBlockAsReceived hash = some (true, { s.setNode n
        { state with
          nBlocksInFlightValidHeaders :=
            state.nBlocksInFlightValidHeaders - ofBool entry.fValidatedHeaders
          vBlocksInFlight := state.vBlocksInFlight.eraseP fun e => e.1 == it
          nBlocksInFlight := state.nBlocksInFlight - 1
          nStallingSince := 0 } with
        nQueuedValidatedHeaders := s.nQueuedValidatedHeaders - ofBool entry.fValidatedHeaders
        mapBlocksInFlight := s.mapBlocksInFlight.erase hash }) := by
  obtain ⟨state, entry, hs, he, hh⟩ := B.entry h
  refine ⟨state, entry, hs, he, hh, ?_⟩
  unfold markBlockAsReceived
  rw [h]
  simp only [hs, he]

theorem ofBool_countP (entry : ListIter × QueuedBlock) (l : List (ListIter × QueuedBlock)) :
    (((entry :: l).countP fun e => e.2.fValidatedHeaders : Nat) : Int) =
      (l.countP fun e => e.2.fValidatedHeaders : Nat) + ofBool entry.2.fValidatedHeaders := by
  rw [List.countP_cons, ofBool]
  split_ifs <;> simp

theorem Books.received (B : s.Books) {hash : UInt256} {r : Bool × DownloadState}
    (h : s.markBlockAsReceived hash = some r) : r.2.Books := by
  cases hm : s.mapBlocksInFlight.lookup hash with
  | none =>
    unfold markBlockAsReceived at h
    rw [hm] at h
    cases h
    exact B
  | some e =>
    obtain ⟨n, it⟩ := e
    obtain ⟨state, entry, hs, he, hh, heq⟩ := B.received_eq hm
    rw [heq] at h
    cases h
    have N := B.nodes n state hs
    have hlist := eraseP_perm he
    refine B.setNode hs rfl (le_refl _) ⟨?_, ?_, ?_, fun e he' => ?_⟩ ?_
    · show state.nBlocksInFlight - 1 = ((state.vBlocksInFlight.eraseP _).length : Nat)
      rw [N.count, hlist.length_eq, List.length_cons]
      omega
    · show state.nBlocksInFlightValidHeaders - ofBool entry.fValidatedHeaders =
        ((state.vBlocksInFlight.eraseP _).countP _ : Nat)
      rw [N.valid, hlist.countP_eq, ofBool_countP]
      exact Int.add_sub_cancel ..
    · exact N.nodup.sublist (List.eraseP_sublist.map _)
    · exact N.below e (List.mem_of_mem_eraseP he')
    · refine entries_erase_perm (v := (n, it)) (B.perm.trans ((listed_erase hs).trans ?_))
      subst hh
      exact (hlist.map fun e => (⟨e.2.hash, n, e.1⟩ : Listing)).append_right _

theorem Books.addInFlight (B : s.Books) (hs : s.mapNodeState.lookup n = some state)
    {entry : QueuedBlock} (hnot : s.mapBlocksInFlight.lookup entry.hash = none) :
    (s.addInFlight n state entry).Books := by
  have N := B.nodes n state hs
  refine B.setNode hs rfl (Nat.le_succ _) ⟨?_, ?_, ?_, fun e he => ?_⟩ ?_
  · show state.nBlocksInFlight + 1 = ((state.vBlocksInFlight ++ _).length : Nat)
    rw [N.count, List.length_append]
    rfl
  · show state.nBlocksInFlightValidHeaders + ofBool entry.fValidatedHeaders =
      ((state.vBlocksInFlight ++ [(s.nextIter, entry)]).countP _ : Nat)
    rw [N.valid, (List.perm_append_singleton _ _).countP_eq, ofBool_countP]
  · -- the new list node has an address of its own
    show ((state.vBlocksInFlight ++ [(s.nextIter, entry)]).map Prod.fst).Nodup
    rw [List.map_append]
    refine List.nodup_append.mpr ⟨N.nodup, List.nodup_singleton _, fun a ha b hb hab => ?_⟩
    obtain ⟨e, he, rfl⟩ := List.mem_map.mp ha
    have := N.below e he
    rw [hab, List.mem_singleton.mp hb] at this
    exact Nat.lt_irrefl _ this
  · rcases List.mem_append.mp he with he | he
    · exact Nat.lt_succ_of_lt (N.below e he)
    · rw [List.mem_singleton.mp he]
      exact Nat.lt_succ_self _
  · show (s.mapBlocksInFlight.insert entry.hash (n, s.nextIter)).entries.Perm _
    rw [entries_insert, erase_entries hnot]
    have hlisting : (listing n { state with
        vBlocksInFlight := state.vBlocksInFlight ++ [(s.nextIter, entry)] }).Perm
        (⟨entry.hash, n, s.nextIter⟩ :: listing n state) := by
      rw [listing, List.map_append]
      exact List.perm_append_singleton _ _
    exact ((B.perm.trans (listed_erase hs)).cons _).trans (hlisting.symm.append_right _)

theorem received_lookup {hash : UInt256} {r : Bool × DownloadState}
    (h : s.markBlockAsReceived hash = some r) : r.2.mapBlocksInFlight.lookup hash = none := by
  unfold markBlockAsReceived at h
  split at h
  · cases h; assumption
  · split at h
    · cases h
    · split at h
      · cases h
      · cases h; exact AList.lookup_erase ..

theorem Books.inFlight (B : s.Books) {spacing nNow : Int} {hash : UInt256} {pindex : Option Ptr}
    (h : s.markBlockAsInFlight spacing n hash pindex nNow = some s') : s'.Books := by
  unfold markBlockAsInFlight at h
  split_ifs at h
  cases hr : s.markBlockAsReceived hash with
  | none => rw [hr] at h; cases h
  | some r =>
    rw [hr] at h
    simp only at h
    cases hs : r.2.mapNodeState.lookup n with
    | none => rw [hs] at h; cases h
    | some state =>
      rw [hs] at h
      cases h
      exact (B.received hr).addInFlight hs (received_lookup hr)

theorem Books.finalize (B : s.Books) (h : s.finalizeNode n = some s') : s'.Books := by
  unfold finalizeNode at h
  cases hs : s.mapNodeState.lookup n with
  | none => rw [hs] at h; cases h
  | some state =>
    rw [hs] at h
    cases h
    refine ⟨?_, fun n' state' h' => B.nodes n' state' ?_⟩
    · have hkeys : (listing n state).map Sigma.fst = state.vBlocksInFlight.map fun e => e.2.hash := by
        rw [listing, List.map_map]
        rfl
      have hperm := entries_foldl_erase_perm (B.perm.trans (listed_erase hs))
      rw [hkeys] at hperm
      exact hperm
    · have h' : (s.mapNodeState.erase n).lookup n' = some state' := h'
      have hn : n' ≠ n := fun hn => by rw [hn, AList.lookup_erase] at h'; cases h'
      rwa [AList.lookup_erase_ne hn] at h'

theorem Books.step (B : s.Books) {spacing : Int} {op : Op} (h : step spacing op s = some s') :
    s'.Books := by
  cases op with
  | connect n => cases h; exact B.connect n
  | updatePreferred n node => exact B.updatePreferred h
  | inFlight n hash pindex nNow => exact B.inFlight h
  | received hash =>
    obtain ⟨r, hr, rfl⟩ := Option.map_eq_some_iff.mp h
    exact B.received hr
  | finalize n => exact B.finalize h

/-! ## Runs -/

/-- The states that operations on the peers and their requests lead to. -/
abbrev Runs (spacing : Int) (ok : Op → DownloadState → Prop) : DownloadState → Prop :=
  Reachable (fun s => s = DownloadState.empty) (DownloadState.step spacing) ok

theorem Runs.books {spacing : Int} {ok : Op → DownloadState → Prop} (h : Runs spacing ok s) :
    s.Books :=
  h.invariant (I := Books) (fun _ hs => by rw [hs]; exact Books.empty) fun _ _ _ B _ hstep =>
    B.step hstep

/-- The map of blocks in flight and the lists of the peers hold the same requests, each hash once,
and the peers' counters count their lists. -/
theorem books_runs {spacing : Int} (h : Runs spacing (fun _ _ => True) s) :
    s.mapBlocksInFlight.entries.Perm (listed s.mapNodeState) ∧
      ((listed s.mapNodeState).map Sigma.fst).Nodup ∧
      ∀ n state, s.mapNodeState.lookup n = some state →
        (state.vBlocksInFlight.map Prod.fst).Nodup ∧
        state.nBlocksInFlight = state.vBlocksInFlight.length ∧
        state.nBlocksInFlightValidHeaders =
          (state.vBlocksInFlight.countP fun e => e.2.fValidatedHeaders : Nat) := by
  have B := h.books
  refine ⟨B.perm, ?_, fun n state hs => ?_⟩
  · exact (B.perm.map Sigma.fst).nodup_iff.mp s.mapBlocksInFlight.nodupKeys
  · have N := B.nodes n state hs
    exact ⟨N.nodup, N.count, N.valid⟩

/-! ## Counters over all peers -/

/-- The peers' counters added up. -/
structure Totals (s : DownloadState) : Prop where
  queued : s.nQueuedValidatedHeaders =
    total (fun _ state => state.nBlocksInFlightValidHeaders) s.mapNodeState
  preferred : s.nPreferredDownload =
    total (fun _ state => ofBool state.fPreferredDownload) s.mapNodeState

/-- A peer's record changes, and the totals with it. -/
theorem Totals.setNode (T : s.Totals) (h : s.mapNodeState.lookup n = some state)
    {state' : CNodeState} (hnodes : s'.mapNodeState = s.mapNodeState.insert n state')
    (hq : s'.nQueuedValidatedHeaders = s.nQueuedValidatedHeaders - state.nBlocksInFlightValidHeaders +
      state'.nBlocksInFlightValidHeaders)
    (hp : s'.nPreferredDownload = s.nPreferredDownload - ofBool state.fPreferredDownload +
      ofBool state'.fPreferredDownload) : s'.Totals := by
  refine ⟨?_, ?_⟩
  · rw [hq, T.queued, hnodes, total_insert, total_erase h]
    omega
  · rw [hp, T.preferred, hnodes, total_insert, total_erase h]
    omega

theorem Totals.connect (T : s.Totals) (n : NodeId) : (s.initializeNode n).Totals := by
  unfold initializeNode
  cases h : s.mapNodeState.lookup n with
  | some state => exact T
  | none =>
    refine ⟨?_, ?_⟩
    · exact T.queued.trans ((total_insert_none h).trans (Int.zero_add _)).symm
    · exact T.preferred.trans ((total_insert_none h).trans (Int.zero_add _)).symm

theorem Totals.updatePreferred (T : s.Totals) {node : CNodeFlags}
    (h : s.updatePreferredDownload n node = some s') : s'.Totals := by
  unfold updatePreferredDownload at h
  cases hs : s.mapNodeState.lookup n with
  | none => rw [hs] at h; cases h
  | some state =>
    rw [hs] at h
    cases h
    exact T.setNode hs rfl (Int.sub_add_cancel _ _).symm rfl

theorem Totals.received (T : s.Totals) (B : s.Books) {hash : UInt256} {r : Bool × DownloadState}
    (h : s.markBlockAsReceived hash = some r) : r.2.Totals := by
  cases hm : s.mapBlocksInFlight.lookup hash with
  | none =>
    unfold markBlockAsReceived at h
    rw [hm] at h
    cases h
    exact T
  | some e =>
    obtain ⟨n, it⟩ := e
    obtain ⟨state, entry, hs, -, -, heq⟩ := B.received_eq hm
    rw [heq] at h
    cases h
    refine T.setNode hs rfl ?_ ?_
    · show s.nQueuedValidatedHeaders - ofBool entry.fValidatedHeaders =
        s.nQueuedValidatedHeaders - state.nBlocksInFlightValidHeaders +
          (state.nBlocksInFlightValidHeaders - ofBool entry.fValidatedHeaders)
      omega
    · exact (Int.sub_add_cancel _ _).symm

theorem Totals.inFlight (T : s.Totals) (B : s.Books) {spacing nNow : Int} {hash : UInt256}
    {pindex : Option Ptr} (h : s.markBlockAsInFlight spacing n hash pindex nNow = some s') :
    s'.Totals := by
  unfold markBlockAsInFlight at h
  split_ifs at h
  cases hr : s.markBlockAsReceived hash with
  | none => rw [hr] at h; cases h
  | some r =>
    rw [hr] at h
    simp only at h
    cases hs : r.2.mapNodeState.lookup n with
    | none => rw [hs] at h; cases h
    | some state =>
      rw [hs] at h
      cases h
      refine (T.received B hr).setNode hs rfl ?_ ?_
      · show r.2.nQueuedValidatedHeaders + _ = r.2.nQueuedValidatedHeaders -
          state.nBlocksInFlightValidHeaders + (state.nBlocksInFlightValidHeaders + _)
        omega
      · exact (Int.sub_add_cancel _ _).symm

/-- A peer that leaves takes its preferred flag along, but not the requests with validated headers
that it had. -/
theorem totals_finalize_iff (T : s.Totals) (hs : s.mapNodeState.lookup n = some state)
    (h : s.finalizeNode n = some s') : s'.Totals ↔ state.nBlocksInFlightValidHeaders = 0 := by
  unfold finalizeNode at h
  rw [hs] at h
  cases h
  have hq := T.queued.trans (total_erase hs)
  have hp := T.preferred.trans (total_erase hs)
  constructor
  · intro T'
    have hq' : s.nQueuedValidatedHeaders =
      total (fun _ state => state.nBlocksInFlightValidHeaders) (s.mapNodeState.erase n) := T'.queued
    omega
  · intro h0
    refine ⟨?_, ?_⟩
    · show s.nQueuedValidatedHeaders =
        total (fun _ state => state.nBlocksInFlightValidHeaders) (s.mapNodeState.erase n)
      omega
    · show s.nPreferredDownload - ofBool state.fPreferredDownload =
        total (fun _ state => ofBool state.fPreferredDownload) (s.mapNodeState.erase n)
      omega

/-- What is asked of a peer that leaves: no request with validated headers is outstanding. -/
def LeavesNone : Op → DownloadState → Prop
  | .finalize n, s => ∀ state, s.mapNodeState.lookup n = some state →
      state.nBlocksInFlightValidHeaders = 0
  | _, _ => True

theorem Totals.step (T : s.Totals) (B : s.Books) {spacing : Int} {op : Op} (hok : LeavesNone op s)
    (h : DownloadState.step spacing op s = some s') : s'.Totals := by
  cases op with
  | connect n => cases h; exact T.connect n
  | updatePreferred n node => exact T.updatePreferred h
  | inFlight n hash pindex nNow => exact T.inFlight B h
  | received hash =>
    obtain ⟨r, hr, rfl⟩ := Option.map_eq_some_iff.mp h
    exact T.received B hr
  | finalize n =>
    cases hs : s.mapNodeState.lookup n with
    | none =>
      have h : s.finalizeNode n = some s' := h
      rw [finalizeNode, hs] at h
      cases h
    | some state => exact (totals_finalize_iff T hs h).mpr (hok state hs)

/-- Whether the request of an entry of `mapBlocksInFlight` has validated headers. -/
def validated (s : DownloadState) (e : Listing) : Bool :=
  ((s.mapNodeState.lookup e.2.1).bind fun state => state.vBlocksInFlight.lookup e.2.2).any
    QueuedBlock.fValidatedHeaders

/-- The peers' counters add up to the requests with validated headers. -/
theorem Books.total_valid (B : s.Books) :
    total (fun _ state => state.nBlocksInFlightValidHeaders) s.mapNodeState =
      (s.mapBlocksInFlight.entries.countP s.validated : Nat) := by
  rw [B.perm.countP_eq, listed, List.countP_flatMap, total, Nat.cast_list_sum, List.map_map]
  refine congrArg List.sum (List.map_congr_left fun e he => ?_)
  obtain ⟨n, state⟩ := e
  have hs := mem_entries.mp he
  have N := B.nodes n state hs
  rw [N.valid, Function.comp, Function.comp, listing, List.countP_map]
  refine congrArg Nat.cast (List.countP_congr fun q hq => ?_)
  have hq' := (lookup_mem N.nodup).mpr (show (q.1, q.2) ∈ state.vBlocksInFlight from hq)
  rw [Function.comp, validated]
  simp only [hs, Option.bind_some, hq', Option.any_some]

theorem total_preferred (m : Map NodeId CNodeState) :
    total (fun _ state => ofBool state.fPreferredDownload) m =
      (m.entries.countP fun e => e.2.fPreferredDownload : Nat) := by
  rw [total]
  induction m.entries with
  | nil => rfl
  | cons e l ih =>
    rw [List.map_cons, List.sum_cons, ih, List.countP_cons, ofBool]
    split_ifs <;> simp [Int.add_comm]

/-- While no peer leaves with such requests, the counters count the requests with validated headers
and the preferred peers, and the timeout of a new request depends on the requests in flight. -/
theorem queued_runs {spacing : Int} (h : Runs spacing LeavesNone s) :
    s.nQueuedValidatedHeaders = (s.mapBlocksInFlight.entries.countP s.validated : Nat) ∧
      s.nPreferredDownload = (s.mapNodeState.entries.countP fun e => e.2.fPreferredDownload : Nat) ∧
      ∀ hash pindex nNow, (s.newEntry spacing hash pindex nNow).nTimeDisconnect =
        nNow + 500000 * spacing * (4 + (s.mapBlocksInFlight.entries.countP s.validated : Nat)) := by
  have hinv : s.Books ∧ s.Totals := by
    refine h.invariant (I := fun s => s.Books ∧ s.Totals) (fun s hs => ?_)
      fun op t t' I hok hstep => ⟨I.1.step hstep, I.2.step I.1 hok hstep⟩
    rw [hs]
    exact ⟨Books.empty, rfl, rfl⟩
  obtain ⟨B, T⟩ := hinv
  have hq := T.queued.trans B.total_valid
  exact ⟨hq, T.preferred.trans (total_preferred _), fun _ _ nNow =>
    congrArg (fun q => nNow + 500000 * spacing * (4 + q)) hq⟩

/-! ## Sample runs -/

/-- The state at the end of a run. -/
def sampleState (ops : List Op) : DownloadState :=
  (run (DownloadState.step 150) ops .empty).getD .empty

theorem sampleState_run (ops : List Op)
    (h : (run (DownloadState.step 150) ops .empty).isSome = true) :
    run (DownloadState.step 150) ops .empty = some (sampleState ops) := by
  obtain ⟨s, hs⟩ := Option.isSome_iff_exists.mp h
  rw [sampleState, hs]
  rfl

/-- Two peers; a block with validated headers is requested from one and then from the other, and
another one without. -/
def requestRun : List Op :=
  [.connect 1, .connect 2, .updatePreferred 2 ⟨false, false, false, false⟩, .inFlight 1 7 (some 1) 0,
    .inFlight 2 7 (some 1) 1, .inFlight 2 8 none 2]

theorem requestRun_runs (ok : Op → DownloadState → Prop)
    (h : ∀ op s, (∀ n, op ≠ .finalize n) → ok op s) : Runs 150 ok (sampleState requestRun) := by
  refine Reachable.run (.init rfl) (fun ops₁ op ops₂ t heq _ => h op t fun n hop => ?_)
    (sampleState_run _ (by decide +kernel))
  have hmem : Op.finalize n ∈ requestRun := by
    rw [heq, hop]
    exact List.mem_append_right _ (List.mem_cons_self ..)
  simp [requestRun] at hmem

theorem requestRun_books :
    (sampleState requestRun).mapBlocksInFlight.entries.length = 2 ∧
      ((listed (sampleState requestRun).mapNodeState).map Sigma.fst).Nodup :=
  ⟨by decide +kernel, (books_runs (requestRun_runs _ fun _ _ _ => trivial)).2.1⟩

theorem requestRun_queued :
    (sampleState requestRun).mapNodeState.entries.length = 2 ∧
      (sampleState requestRun).nQueuedValidatedHeaders =
        ((sampleState requestRun).mapBlocksInFlight.entries.countP
          (sampleState requestRun).validated : Nat) :=
  ⟨by decide +kernel, (queued_runs (requestRun_runs LeavesNone fun op s hop => by
    cases op <;> first | trivial | exact (hop _ rfl).elim)).1⟩

/-- When the second peer leaves, its request with validated headers is still counted. -/
theorem requestRun_leak :
    ¬ ∀ s, Runs 150 (fun _ _ => True) s →
      s.nQueuedValidatedHeaders = (s.mapBlocksInFlight.entries.countP s.validated : Nat) := by
  intro hall
  have hrun := sampleState_run (requestRun ++ [.finalize 2]) (by decide +kernel)
  have := hall _ (Reachable.run (.init rfl) (fun _ _ _ _ _ _ => trivial) hrun)
  exact absurd this (by decide +kernel)

end DownloadState

end GC
