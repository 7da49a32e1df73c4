import GameCredits.Model.Fetch
import GameCredits.Proof.Chain

/-!
# Block downloads follow the peer's chain

The chunks of `FindNextBlocksToDownload` are the way from the last common block up to the peer's best
known block, cut in pieces (`fetchLoop_eq`), so that one scan of that way says what is asked for
(`scan_spec`): the wanted entries of a first part of it, in order.

* `lastCommonAncestor_eq`: `LastCommonAncestor` finds the last common ancestor.
* `findNextBlocksToDownload_sound`: what is asked for, and where the last common block ends.
-/

namespace GC

open Framework Framework.Assoc

variable {node : Ptr → CBlockIndex} {known : List Ptr} {p q t best start : Ptr}

/-! ## The last common block -/

theorem meetLoop_eq (T : SkipTree node (· ∈ known)) {g : Ptr} (hgp : Anc (parentOf node) g p)
    (hgq : Anc (parentOf node) g q) (fuel : Nat) (hp : p ∈ known) (hq : q ∈ known)
    (hh : heightOf node p = heightOf node q) (hfuel : heightOf node p < fuel) :
    ∃ f, meetLoop node fuel (some p) (some q) = some (some f) ∧ LastCommon node p q f := by
  induction fuel generalizing p q with
  | zero => omega
  | succ fuel ih =>
    rw [meetLoop]
    split_ifs with heq
    · obtain rfl : p = q := heq
      exact ⟨p, rfl, .refl, .refl, fun a ha _ => ha⟩
    -- neither is the root: the other would be it too
    rcases hgp.eq_or_parent with rfl | ⟨p', hp', hgp'⟩
    · exact absurd (T.graded.eq_of_height hgq hq (by omega)) heq
    rcases hgq.eq_or_parent with rfl | ⟨q', hq', hgq'⟩
    · exact absurd (T.graded.eq_of_height hgp hp (by omega)).symm heq
    have hpk := T.graded.closed p p' hp hp'
    have hqk := T.graded.closed q q' hq hq'
    have hph := T.graded.child p p' hp hp'
    have hqh := T.graded.child q q' hq hq'
    obtain ⟨f, hf, hfp, hfq, hlast⟩ := ih hgp' hgq' hpk hqk (by omega) (by omega)
    rw [show (node p).pprev = some p' from hp', show (node q).pprev = some q' from hq']
    refine ⟨f, hf, .step hp' hfp, .step hq' hfq, fun a hap haq => ?_⟩
    rcases hap.eq_or_parent with rfl | ⟨_, h, hap'⟩
    · exact absurd (T.graded.eq_of_height haq hq (by omega)) heq
    rcases haq.eq_or_parent with rfl | ⟨_, h', haq'⟩
    · exact absurd (T.graded.eq_of_height hap hp (by omega)).symm heq
    cases hp'.symm.trans h
    cases hq'.symm.trans h'
    exact hlast a hap' haq'

/-- An ancestor that is not below `q` has the same ancestors in common with `q`. -/
theorem LastCommon.of_above (T : SkipTree node (· ∈ known)) {p' f : Ptr} (hp : p ∈ known)
    (hq : q ∈ known) (hanc : Anc (parentOf node) p' p) (hh : heightOf node q ≤ heightOf node p')
    (h : LastCommon node p' q f) : LastCommon node p q f := by
  refine ⟨h.1.trans hanc, h.2.1, fun a hap haq => h.2.2 a ?_ haq⟩
  exact T.graded.comparable hap hanc hp ((T.graded.height_le haq hq).trans hh)

theorem LastCommon.symm {f : Ptr} (h : LastCommon node p q f) : LastCommon node q p f :=
  ⟨h.2.1, h.1, fun a haq hap => h.2.2 a hap haq⟩

/-- `LastCommonAncestor` of two entries of a block tree. -/
theorem lastCommonAncestor_eq (T : BlockTree node known) (hp : p ∈ known) (hq : q ∈ known) :
    ∃ f, lastCommonAncestor node p q = some (some f) ∧ LastCommon node p q f := by
  have S := T.skipTree
  obtain ⟨g, -, -, hroot⟩ := T.root
  rw [lastCommonAncestor]
  by_cases hlt : (node q).nHeight < (node p).nHeight
  · obtain ⟨p', hup, hanc, hh⟩ := S.graded.up_spec (heightOf node p - heightOf node q) hp (by omega)
    have hlt' : heightOf node q < heightOf node p := hlt
    have hp' := S.graded.anc_mem hanc hp
    rw [if_pos hlt, show (node q).nHeight = heightOf node q from rfl,
      S.getAncestor hp (Nat.le_of_lt hlt'), hup, Option.bind_some]
    obtain ⟨f, hf, hlast⟩ := meetLoop_eq S (hroot p' hp') (hroot q hq)
      ((node p).nHeight + 1) hp' hq (by omega) (by
        have := S.graded.height_le hanc hp
        exact Nat.lt_succ_of_le this)
    exact ⟨f, hf, hlast.of_above S hp hq hanc (by omega)⟩
  rw [if_neg hlt]
  by_cases hgt : (node p).nHeight < (node q).nHeight
  · obtain ⟨q', hup, hanc, hh⟩ := S.graded.up_spec (heightOf node q - heightOf node p) hq (by omega)
    have hgt' : heightOf node p < heightOf node q := hgt
    have hq' := S.graded.anc_mem hanc hq
    rw [if_pos hgt, show (node p).nHeight = heightOf node p from rfl,
      S.getAncestor hq (Nat.le_of_lt hgt'), hup, Option.bind_some]
    obtain ⟨f, hf, hlast⟩ := meetLoop_eq S (hroot p hp) (hroot q' hq')
      (heightOf node p + 1) hp hq' (by omega) (Nat.lt_succ_self _)
    exact ⟨f, hf, (hlast.symm.of_above S hq hp hanc (by omega)).symm⟩
  · rw [if_neg hgt]
    exact meetLoop_eq S (hroot p hp) (hroot q hq) _ hp hq (Nat.le_antisymm (by exact Nat.not_lt.mp hlt)
      (by exact Nat.not_lt.mp hgt)) (Nat.lt_succ_self _)

/-! ## The way to the best known block -/

/-- The entries of `vToFetch` are the way down to its last entry. -/
theorem fillToFetch_eq (T : SkipTree node (· ∈ known)) {n : Nat} (hp : p ∈ known)
    (hn : n ≤ heightOf node p) :
    fillToFetch node n p = some (lineage (parentOf node) n p).reverse := by
  induction n generalizing p with
  | zero => rfl
  | succ n ih =>
    obtain ⟨q, hq⟩ := T.graded.parent_of_pos hp (by omega)
    have hh := T.graded.child p q hp hq
    have hq' : (node p).pprev = some q := hq
    rw [lineage, hq, List.reverse_cons]
    cases n with
    | zero => rfl
    | succ n =>
      rw [fillToFetch, hq', Option.bind_some, ih (T.graded.closed p q hp hq) (by omega)]
      rfl

theorem numToFetch_spec (count : UInt32) {nMaxHeight nHeight : Nat} (nBlocks : Nat)
    (h : nHeight < nMaxHeight) : 1 ≤ numToFetch count nMaxHeight nHeight nBlocks ∧
      nHeight + numToFetch count nMaxHeight nHeight nBlocks ≤ nMaxHeight := by
  unfold numToFetch
  omega

/-- The state where the loops end or the function returns. -/
def fetched : Except FetchState FetchState → FetchState
  | .error f => f
  | .ok f => f

/-- The entries above height `h` on the way to `top`, lowest first. -/
def wayTo (node : Ptr → CBlockIndex) (h : Nat) (top : Ptr) : List Ptr :=
  (lineage (parentOf node) (heightOf node top - h) top).reverse

section

variable {chainActive : CChain} {mapBlocksInFlight : Map UInt256 (NodeId × ListIter)}
variable {nodeid : NodeId} {count : UInt32} {nWindowEnd : Nat}

variable (chainActive mapBlocksInFlight nodeid count nWindowEnd) in
/-- A chunk is the next part of the way to the last entry that may be fetched. -/
theorem fetchChunk_eq (T : SkipTree node (· ∈ known)) (hbest : best ∈ known) {top walk : Ptr}
    (htop : Anc (parentOf node) top best) (f : FetchState)
    (hlt : heightOf node walk < heightOf node top) :
    ∃ next vToFetch, Anc (parentOf node) next top ∧ heightOf node walk < heightOf node next ∧
      wayTo node (heightOf node walk) top = vToFetch ++ wayTo node (heightOf node next) top ∧
      fetchChunk node chainActive mapBlocksInFlight nodeid count best nWindowEnd (heightOf node top)
          walk f =
        some (next, vToFetch.foldlM
          (visitToFetch node chainActive mapBlocksInFlight nodeid count nWindowEnd) f) := by
  have htopk := T.graded.anc_mem htop hbest
  have hnode : (node walk).nHeight = heightOf node walk := rfl
  obtain ⟨hpos, hle⟩ := numToFetch_spec count f.vBlocks.length hlt
  rw [fetchChunk, hnode]
  generalize numToFetch count (heightOf node top) (heightOf node walk) f.vBlocks.length = n
    at hpos hle
  obtain ⟨next, hup, hanc, hh⟩ :=
    T.graded.up_spec (heightOf node top - (heightOf node walk + n)) htopk (by omega)
  have hnext := T.graded.anc_mem hanc htopk
  have hheight : heightOf node next = heightOf node walk + n := by omega
  have hget : getAncestor node best (heightOf node walk + n : Nat) = some (some next) := by
    rw [T.getAncestor hbest (hle.trans (T.graded.height_le htop hbest)), ← hheight,
      (T.graded.anc_iff_up hbest).mp (hanc.trans htop)]
  refine ⟨next, (lineage (parentOf node) n next).reverse, hanc, by omega, ?_, ?_⟩
  · have hsum : heightOf node top - heightOf node walk =
        (heightOf node top - heightOf node next) + n := by omega
    rw [← hheight] at hup
    rw [wayTo, hsum, lineage_add, hup, List.reverse_append]
    rfl
  · rw [hget, Option.bind_some, Option.bind_some, fillToFetch_eq T hnext (by omega)]
    rfl

/-- The chunks are the way to the last entry that may be fetched, one after the other. -/
theorem fetchLoop_eq (T : SkipTree node (· ∈ known)) (hbest : best ∈ known) {top : Ptr}
    (htop : Anc (parentOf node) top best) {fuel : Nat} {walk : Ptr} {f : FetchState}
    (hwalk : Anc (parentOf node) walk top) (hfuel : heightOf node top < heightOf node walk + fuel) :
    fetchLoop node chainActive mapBlocksInFlight nodeid count best nWindowEnd (heightOf node top) fuel
        walk f =
      some (fetched ((wayTo node (heightOf node walk) top).foldlM
        (visitToFetch node chainActive mapBlocksInFlight nodeid count nWindowEnd) f)) := by
  induction fuel generalizing walk f with
  | zero => exact absurd (T.graded.height_le hwalk (T.graded.anc_mem htop hbest)) (by omega)
  | succ fuel ih =>
    have hnode : (node walk).nHeight = heightOf node walk := rfl
    rw [fetchLoop, hnode]
    by_cases hlt : heightOf node walk < heightOf node top
    · obtain ⟨next, vToFetch, hanc, hh, hway, hchunk⟩ :=
        fetchChunk_eq chainActive mapBlocksInFlight nodeid count nWindowEnd T hbest htop f hlt
      rw [if_pos hlt, hchunk, hway, List.foldlM_append]
      cases hrun : vToFetch.foldlM
          (visitToFetch node chainActive mapBlocksInFlight nodeid count nWindowEnd) f with
      | error f' => rfl
      | ok f' => exact ih hanc (by omega)
    · rw [if_neg hlt, wayTo, Nat.sub_eq_zero_of_le (Nat.not_lt.mp hlt)]
      rfl

/-! ## The scan -/

variable (node chainActive mapBlocksInFlight) in
/-- An entry to ask for: not stored, not in the active chain and not asked for already. -/
def wanted (pindex : Ptr) : Bool :=
  !(node pindex).nStatus.haveData && !chainActive.contains node pindex &&
    (mapBlocksInFlight.lookup (node pindex).phashBlock).isNone

variable (node chainActive mapBlocksInFlight nodeid count nWindowEnd) in
/-- What a round of the scan does: it stops before an entry, passes one that is not wanted, or takes
one. -/
theorem visitToFetch_spec (f : FetchState) (p : Ptr) :
    let r := visitToFetch node chainActive mapBlocksInFlight nodeid count nWindowEnd f p
    (∃ f', r = .error f' ∧ f'.vBlocks = f.vBlocks ∧
        f'.pindexLastCommonBlock = f.pindexLastCommonBlock) ∨
      (∃ f', r = .ok f' ∧ wanted node chainActive mapBlocksInFlight p = false ∧
        f'.vBlocks = f.vBlocks ∧
        (f'.pindexLastCommonBlock = f.pindexLastCommonBlock ∨ f'.pindexLastCommonBlock = p)) ∨
      (wanted node chainActive mapBlocksInFlight p = true ∧ heightOf node p ≤ nWindowEnd ∧
        ∃ f', f' = { f with vBlocks := f.vBlocks ++ [p] } ∧
          r = if f'.vBlocks.length = count.toNat then .error f' else .ok f') := by
  intro r
  have hr : r = visitToFetch node chainActive mapBlocksInFlight nodeid count nWindowEnd f p := rfl
  rw [visitToFetch] at hr
  unfold wanted
  by_cases hvalid : ¬ (node p).nStatus.isValid BLOCK_VALID_TREE
  · rw [if_pos hvalid] at hr
    exact .inl ⟨f, hr, rfl, rfl⟩
  rw [if_neg hvalid] at hr
  by_cases hstored : ((node p).nStatus.haveData || chainActive.contains node p) = true
  · rw [if_pos hstored] at hr
    refine .inr (.inl ⟨_, hr, ?_, ?_, ?_⟩)
    · cases h : (node p).nStatus.haveData with
      | true => rfl
      | false =>
        rw [h, Bool.false_or] at hstored
        rw [hstored]
        rfl
    · split_ifs <;> rfl
    · split_ifs
      · exact .inl rfl
      · exact .inr rfl
  rw [if_neg hstored] at hr
  obtain ⟨hdata, hcontains⟩ := Bool.or_eq_false_iff.mp (Bool.eq_false_of_not_eq_true hstored)
  cases hflight : mapBlocksInFlight.lookup (node p).phashBlock with
  | some entry =>
    rw [hflight] at hr
    refine .inr (.inl ⟨_, hr, ?_, ?_, .inl ?_⟩)
    · rw [hdata, hcontains]
      rfl
    · split_ifs <;> rfl
    · split_ifs <;> rfl
  | none =>
    rw [hflight] at hr
    by_cases hend : nWindowEnd < (node p).nHeight
    · dsimp only at hr
      rw [if_pos hend] at hr
      refine .inl ⟨_, hr, ?_, ?_⟩ <;> split_ifs <;> rfl
    · dsimp only at hr
      rw [if_neg hend] at hr
      rw [hdata, hcontains]
      exact .inr (.inr ⟨rfl, Nat.not_lt.mp hend, _, rfl, hr⟩)

variable (node chainActive mapBlocksInFlight nodeid nWindowEnd) in
/-- The scan takes the wanted entries of a first part of the list. -/
theorem scan_spec (path : List Ptr) {f : FetchState} (hlen : f.vBlocks.length < count.toNat) :
    ∃ seen rest r, path = seen ++ rest ∧
      fetched (path.foldlM
        (visitToFetch node chainActive mapBlocksInFlight nodeid count nWindowEnd) f) = r ∧
      r.vBlocks = f.vBlocks ++ seen.filter (wanted node chainActive mapBlocksInFlight) ∧
      r.vBlocks.length ≤ count.toNat ∧
      (∀ p ∈ seen, wanted node chainActive mapBlocksInFlight p = true →
        heightOf node p ≤ nWindowEnd) ∧
      (r.pindexLastCommonBlock = f.pindexLastCommonBlock ∨ r.pindexLastCommonBlock ∈ path) := by
  induction path generalizing f with
  | nil => exact ⟨[], [], f, rfl, rfl, by simp, Nat.le_of_lt hlen, nofun, .inl rfl⟩
  | cons p path ih =>
    rw [List.foldlM_cons]
    rcases visitToFetch_spec node chainActive mapBlocksInFlight nodeid count nWindowEnd f p with
      ⟨f', hrun, hblocks, hlast⟩ | ⟨f', hrun, hskip, hblocks, hlast⟩ | ⟨htake, hle, f', rfl, hrun⟩
    · -- the function returns
      rw [hrun]
      exact ⟨[], p :: path, f', rfl, rfl, by simp [hblocks], by rw [hblocks]; omega, nofun,
        .inl hlast⟩
    · obtain ⟨seen, rest, r, hpath, hr, hvBlocks, hcount, hwindow, hend⟩ :=
        ih (f := f') (by rw [hblocks]; exact hlen)
      rw [hrun]
      refine ⟨p :: seen, rest, r, by rw [hpath]; rfl, hr, ?_, hcount, ?_, ?_⟩
      · rw [hvBlocks, hblocks, List.filter_cons_of_neg (by rw [hskip]; decide)]
      · intro q hq hw
        rcases List.mem_cons.mp hq with rfl | hq
        · rw [hskip] at hw; cases hw
        · exact hwindow q hq hw
      · rcases hend with hend | hend
        · rw [hend]
          exact hlast.imp_right fun h => List.mem_cons.mpr (.inl h)
        · exact .inr (List.mem_cons_of_mem _ hend)
    · have hlength : (f.vBlocks ++ [p]).length = f.vBlocks.length + 1 := List.length_append
      rw [hrun]
      split_ifs with hfull
      · -- the last place is taken
        refine ⟨[p], path, _, rfl, rfl, ?_, Nat.le_of_eq hfull, ?_, .inl rfl⟩
        · rw [List.filter_cons_of_pos htake]
          rfl
        · intro q hq _
          rw [List.mem_singleton.mp hq]
          exact hle
      · obtain ⟨seen, rest, r, hpath, hr, hvBlocks, hcount, hwindow, hend⟩ :=
          ih (f := { f with vBlocks := f.vBlocks ++ [p] }) (by
            dsimp only at hfull ⊢
            omega)
        refine ⟨p :: seen, rest, r, by rw [hpath]; rfl, hr, ?_, hcount, ?_, ?_⟩
        · rw [hvBlocks, List.filter_cons_of_pos htake, List.append_assoc]
          rfl
        · intro q hq hw
          rcases List.mem_cons.mp hq with rfl | hq
          · exact hle
          · exact hwindow q hq hw
        · exact hend.imp_right (List.mem_cons_of_mem _)

theorem mem_wayTo (T : SkipTree node (· ∈ known)) {top : Ptr} (htop : top ∈ known) {h : Nat} :
    q ∈ wayTo node h top ↔ Anc (parentOf node) q top ∧ h < heightOf node q := by
  rw [wayTo, List.mem_reverse]
  constructor
  · intro hq
    obtain ⟨hanc, hlt⟩ := T.graded.mem_lineage htop hq
    have hle := T.graded.height_le hanc htop
    exact ⟨hanc, by omega⟩
  · rintro ⟨hanc, hlt⟩
    have hle := T.graded.height_le hanc htop
    exact T.graded.mem_lineage_of_anc htop hanc (by omega)

theorem wayTo_pairwise (T : SkipTree node (· ∈ known)) {top : Ptr} (htop : top ∈ known) (h : Nat) :
    (wayTo node h top).Pairwise fun p q => heightOf node p < heightOf node q :=
  List.pairwise_reverse.mpr (T.graded.lineage_pairwise _ htop)

/-! ## What is asked for -/

variable (node chainActive mapBlocksInFlight) in
/-- The blocks to ask for, and the last common block afterwards, where the last common block is
`start` at first. -/
structure Scheduled (best start : Ptr) (count : UInt32) (vBlocks : List Ptr) (last : Ptr) : Prop where
  count : vBlocks.length ≤ count.toNat
  nodup : vBlocks.Nodup
  increasing : vBlocks.Pairwise fun p q => heightOf node p < heightOf node q
  branch : ∀ p ∈ vBlocks, Anc (parentOf node) p best
  noData : ∀ p ∈ vBlocks, (node p).nStatus.haveData = false
  notActive : ∀ p ∈ vBlocks, chainActive.contains node p = false
  notInFlight : ∀ p ∈ vBlocks, mapBlocksInFlight.lookup (node p).phashBlock = none
  window : ∀ p ∈ vBlocks, heightOf node start < heightOf node p ∧
    heightOf node p ≤ heightOf node start + BLOCK_DOWNLOAD_WINDOW
  noneSkipped : ∀ q, Anc (parentOf node) q best → (node q).nStatus.haveData = false →
    chainActive.contains node q = false → mapBlocksInFlight.lookup (node q).phashBlock = none →
    heightOf node start < heightOf node q →
    ∀ p ∈ vBlocks, heightOf node q < heightOf node p → q ∈ vBlocks
  last_branch : Anc (parentOf node) last best
  last_above : Anc (parentOf node) start last

theorem wanted_iff : wanted node chainActive mapBlocksInFlight p = true ↔
    (node p).nStatus.haveData = false ∧ chainActive.contains node p = false ∧
      mapBlocksInFlight.lookup (node p).phashBlock = none := by
  rw [wanted, Bool.and_eq_true, Bool.and_eq_true, Bool.not_eq_true', Bool.not_eq_true',
    Option.isNone_iff_eq_none, and_assoc]

variable (chainActive mapBlocksInFlight nodeid) in
theorem scheduleFrom_spec (T : SkipTree node (· ∈ known)) (hbest : best ∈ known)
    (hstart : Anc (parentOf node) start best) (hcount : count ≠ 0) (nodeStaller : NodeId) :
    ∃ f, scheduleFrom node chainActive mapBlocksInFlight nodeid count nodeStaller best start = some f ∧
      Scheduled node chainActive mapBlocksInFlight best start count f.vBlocks
        f.pindexLastCommonBlock := by
  rw [scheduleFrom]
  split_ifs with heq
  · exact ⟨_, rfl, {
      count := Nat.zero_le _
      nodup := .nil
      increasing := .nil
      branch := nofun
      noData := nofun
      notActive := nofun
      notInFlight := nofun
      window := nofun
      noneSkipped := fun _ _ _ _ _ _ _ hp => nomatch hp
      last_branch := hstart
      last_above := .refl }⟩
  have hle := T.graded.height_le hstart hbest
  -- the entry that the walk ends with
  obtain ⟨top, -, htop, hh⟩ := T.graded.up_spec (heightOf node best -
    min (heightOf node best) (heightOf node start + BLOCK_DOWNLOAD_WINDOW + 1)) hbest (by omega)
  have hmax : min (node best).nHeight ((node start).nHeight + BLOCK_DOWNLOAD_WINDOW + 1) =
      heightOf node top := by
    have : (node best).nHeight = heightOf node best := rfl
    have : (node start).nHeight = heightOf node start := rfl
    omega
  have htopk := T.graded.anc_mem htop hbest
  have hclimb : Anc (parentOf node) start top :=
    T.graded.comparable hstart htop hbest (by omega)
  have hpos : 0 < count.toNat := by
    rcases Nat.eq_zero_or_pos count.toNat with h | h
    · exact absurd (UInt32.toNat_inj.mp h) hcount
    · exact h
  obtain ⟨seen, rest, r, hpath, hr, hvBlocks, hlen, hwindow, hend⟩ :=
    scan_spec node chainActive mapBlocksInFlight nodeid ((node start).nHeight + BLOCK_DOWNLOAD_WINDOW)
      (wayTo node (heightOf node start) top) (f := ⟨start, [], -1, nodeStaller⟩) hpos
  refine ⟨r, ?_, ?_⟩
  · dsimp only
    rw [hmax, fetchLoop_eq T hbest htop hclimb (by omega), hr]
  rw [List.nil_append] at hvBlocks
  have hseen : ∀ p ∈ seen, Anc (parentOf node) p top ∧ heightOf node start < heightOf node p :=
    fun p hp => (mem_wayTo T htopk).mp (hpath ▸ List.mem_append_left _ hp)
  have hsorted := wayTo_pairwise T htopk (heightOf node start)
  rw [hpath, List.pairwise_append] at hsorted
  have hinc : r.vBlocks.Pairwise fun p q => heightOf node p < heightOf node q := by
    rw [hvBlocks]
    exact hsorted.1.filter _
  have hmem : ∀ p ∈ r.vBlocks, p ∈ seen ∧ wanted node chainActive mapBlocksInFlight p = true :=
    fun p hp => List.mem_filter.mp (hvBlocks ▸ hp)
  have hlast : Anc (parentOf node) r.pindexLastCommonBlock top ∧
      Anc (parentOf node) start r.pindexLastCommonBlock := by
    rcases hend with hend | hend
    · rw [hend]
      exact ⟨hclimb, .refl⟩
    · obtain ⟨hanc, hlt⟩ := (mem_wayTo T htopk).mp hend
      exact ⟨hanc, T.graded.comparable hclimb hanc htopk (Nat.le_of_lt hlt)⟩
  exact {
    count := hlen
    nodup := hinc.imp fun h heq => by rw [heq] at h; exact Nat.lt_irrefl _ h
    increasing := hinc
    branch := fun p hp => (hseen p (hmem p hp).1).1.trans htop
    noData := fun p hp => (wanted_iff.mp (hmem p hp).2).1
    notActive := fun p hp => (wanted_iff.mp (hmem p hp).2).2.1
    notInFlight := fun p hp => (wanted_iff.mp (hmem p hp).2).2.2
    window := fun p hp => ⟨(hseen p (hmem p hp).1).2, hwindow p (hmem p hp).1 (hmem p hp).2⟩
    noneSkipped := fun q hq hdata hactive hflight hlow p hp hlt => by
      have hpseen := (hmem p hp).1
      -- the entry is on the way, and before one that was seen
      have hqtop : Anc (parentOf node) q top :=
        T.graded.comparable hq htop hbest
          ((Nat.le_of_lt hlt).trans (T.graded.height_le (hseen p hpseen).1 htopk))
      have hway : q ∈ seen ++ rest := hpath ▸ (mem_wayTo T htopk).mpr ⟨hqtop, hlow⟩
      have hqseen : q ∈ seen := (List.mem_append.mp hway).resolve_right fun hq =>
        Nat.lt_asymm hlt (hsorted.2.2 p hpseen q hq)
      rw [hvBlocks]
      exact List.mem_filter.mpr ⟨hqseen, wanted_iff.mpr ⟨hdata, hactive, hflight⟩⟩
    last_branch := hlast.1.trans htop
    last_above := hlast.2 }

theorem processBlockAvailability_known {state : CNodeBlocks}
    (h : ∀ p, state.pindexBestKnownBlock = some p → p ∈ known) {p : Ptr}
    (hp : (processBlockAvailability node known state).pindexBestKnownBlock = some p) : p ∈ known := by
  rw [processBlockAvailability] at hp
  split_ifs at hp
  · exact h p hp
  · split at hp
    · exact h p hp
    next itOld hfind =>
      have hold := List.mem_of_find?_eq_some hfind
      split_ifs at hp
      · dsimp only at hp
        split at hp
        · exact Option.some.inj hp ▸ hold
        next best hbest =>
          split_ifs at hp
          · exact Option.some.inj hp ▸ hold
          · exact h p (hbest.trans hp)
      · exact h p hp

variable (node known) in
theorem processBlockAvailability_last (state : CNodeBlocks) :
    (processBlockAvailability node known state).pindexLastCommonBlock =
      state.pindexLastCommonBlock := by
  rw [processBlockAvailability]
  split_ifs
  · rfl
  · split
    · rfl
    · split_ifs <;> rfl

theorem guessLastCommon_known (T : SkipTree node (· ∈ known)) (ht : t ∈ known)
    (B : chainActive.Branch node (some t)) (best : Ptr) :
    ∃ p ∈ known, guessLastCommon node chainActive best = some p := by
  obtain ⟨p, hup, hanc, -⟩ := T.graded.up_spec
    (heightOf node t - min (heightOf node best) (heightOf node t)) ht (by omega)
  have hmin : min ((node best).nHeight : Int) chainActive.height =
      (min (heightOf node best) (heightOf node t) : Nat) := by
    have : (node best).nHeight = heightOf node best := rfl
    rw [B.height_eq, Option.elim_some]
    omega
  refine ⟨p, T.graded.anc_mem hanc ht, ?_⟩
  rw [guessLastCommon, hmin, B.get_eq (Nat.min_le_right _ _), hup]

variable (mapBlocksInFlight) in
/-- `FindNextBlocksToDownload` returns. Where the peer has a chain of interest, what is asked for is
`Scheduled` for the last common block that the function finds at first; elsewhere nothing is asked for,
and the last common block is left as it is. -/
theorem findNextBlocksToDownload_sound (T : BlockTree node known) (ht : t ∈ known)
    (B : chainActive.Branch node (some t)) {mapNodeState : Map NodeId CNodeBlocks}
    {state : CNodeBlocks} (hstate : mapNodeState.lookup nodeid = some state)
    (hbest : ∀ p, state.pindexBestKnownBlock = some p → p ∈ known)
    (hlast : ∀ p, state.pindexLastCommonBlock = some p → p ∈ known) (hcount : count ≠ 0)
    (nodeStaller : NodeId) :
    ∃ r state', findNextBlocksToDownload node chainActive mapBlocksInFlight known mapNodeState nodeid
        count nodeStaller = some r ∧
      r.mapNodeState = mapNodeState.insert nodeid state' ∧
      state'.pindexBestKnownBlock =
        (processBlockAvailability node known state).pindexBestKnownBlock ∧
      ((∀ best, state'.pindexBestKnownBlock = some best →
          (node best).nChainWork < (node t).nChainWork) →
        r.vBlocks = [] ∧ state'.pindexLastCommonBlock = state.pindexLastCommonBlock) ∧
      ∀ best, state'.pindexBestKnownBlock = some best → (node t).nChainWork ≤ (node best).nChainWork →
        ∃ first start last,
          state.pindexLastCommonBlock.or (guessLastCommon node chainActive best) = some first ∧
          LastCommon node first best start ∧ state'.pindexLastCommonBlock = some last ∧
          Scheduled node chainActive mapBlocksInFlight best start count r.vBlocks last := by
  have S := T.skipTree
  have hsame := processBlockAvailability_last node known state
  have hknown : ∀ p, (processBlockAvailability node known state).pindexBestKnownBlock = some p →
      p ∈ known := fun p => processBlockAvailability_known hbest
  rw [findNextBlocksToDownload, if_neg hcount, hstate]
  dsimp only
  generalize processBlockAvailability node known state = state₁ at hsame hknown
  cases hb : state₁.pindexBestKnownBlock with
  | none =>
    exact ⟨_, state₁, rfl, rfl, hb, fun _ => ⟨rfl, hsame⟩, fun best h => by rw [hb] at h; cases h⟩
  | some best =>
    have hbestk := hknown best hb
    rw [B.tip_eq]
    dsimp only
    rw [Option.bind_some]
    by_cases hwork : (node best).nChainWork < (node t).nChainWork
    · rw [if_pos hwork]
      refine ⟨_, state₁, rfl, rfl, hb, fun _ => ⟨rfl, hsame⟩, fun best' h hle => ?_⟩
      rw [hb] at h
      cases h
      exact absurd hwork (Nat.not_lt.mpr hle)
    rw [if_neg hwork, hsame]
    obtain ⟨first, hfirst, hfk⟩ : ∃ first,
        state.pindexLastCommonBlock.or (guessLastCommon node chainActive best) = some first ∧
          first ∈ known := by
      cases h : state.pindexLastCommonBlock with
      | none =>
        obtain ⟨p, hp, hguess⟩ := guessLastCommon_known S ht B best
        exact ⟨p, hguess, hp⟩
      | some p => exact ⟨p, rfl, hlast p h⟩
    obtain ⟨start, hstart, hcommon⟩ := lastCommonAncestor_eq T hfk hbestk
    obtain ⟨f, hf, hsched⟩ := scheduleFrom_spec chainActive mapBlocksInFlight nodeid S hbestk
      hcommon.2.1 hcount nodeStaller
    rw [hfirst, Option.bind_some, hstart, Option.bind_some, Option.bind_some, hf]
    refine ⟨_, { state₁ with pindexLastCommonBlock := some f.pindexLastCommonBlock }, rfl,
      by rw [hb], hb, fun h => absurd (h best hb) hwork, fun best' h _ => ?_⟩
    obtain rfl : best = best' := Option.some.inj (hb.symm.trans h)
    exact ⟨first, start, _, hfirst, hcommon, rfl, hsched⟩

end

/-! ## A fork -/

/-- The entries of a genesis block, with whatever elsewhere. -/
def genesisNode (_ : Ptr) : CBlockIndex :=
  CBlockIndex.ofHeader ⟨0, uint256_pos⟩
    ⟨1, ⟨0, uint256_pos⟩, ⟨0, uint256_pos⟩, 1392757140, 0x1e0ffff0, 0⟩

/-- A block on top of `pprev`, with the genesis block below the skip pointer. -/
def forkEntry (hash : UInt256) (pprev : Ptr) (nHeight : Nat) (stored : Bool) : CBlockIndex :=
  { CBlockIndex.ofHeader hash ⟨2, 0, 0, 1392757230, 0x1e0ffff0, 0⟩ with
    pprev := some pprev
    pskip := some 0
    nHeight := nHeight
    nChainWork := nHeight
    nTx := 1
    nChainTx := nHeight + 1
    nStatus := ⟨BLOCK_VALID_SCRIPTS, stored, stored, false, false⟩ }

/-- Three blocks on top of the genesis block, and one on top of the third; `stored` says which are
stored. -/
def forkNode (stored : Ptr → Bool) : Ptr → CBlockIndex :=
  Function.update (Function.update (Function.update (Function.update genesisNode
    1 (forkEntry 1 0 1 (stored 1))) 2 (forkEntry 2 0 1 (stored 2))) 3 (forkEntry 3 0 1 (stored 3)))
    4 (forkEntry 4 3 2 (stored 4))

theorem forkTree (stored : Ptr → Bool) : BlockTree (forkNode stored) [4, 3, 2, 1, 0] := by
  have skip : ∀ (node : Ptr → CBlockIndex) hash stored, node 0 = genesisNode 0 →
      buildSkip node (forkEntry hash 0 1 stored) = some (some 0) := fun node hash stored h => by
    simp [buildSkip, forkEntry, getAncestor, getAncestorLoop, getSkipHeight, h, genesisNode,
      CBlockIndex.ofHeader]
  refine .add (.add (.add (.add (.genesis rfl rfl) (by decide) rfl (by decide) rfl ?_) (by decide) rfl
    (by decide) rfl ?_) (by decide) rfl (by decide) rfl ?_) (by decide) rfl (by decide) rfl ?_
  · exact skip _ _ _ rfl
  · exact skip _ _ _ rfl
  · exact skip _ _ _ rfl
  · simp [buildSkip, forkEntry, getAncestor, getAncestorLoop, getSkipHeight, invertLowestOne,
      CBlockIndex.ofHeader, Function.update]

/-- From the third block the way to the fourth is that block, which is asked for where it is not
stored. -/
theorem forkNode_scheduleFrom :
    scheduleFrom (forkNode fun p => p == 1) ⟨[some 0, some 1]⟩ ∅ 7 16 (-1) 4 3 =
      some ⟨3, [4], -1, -1⟩ := by
  have T := (forkTree fun p => p == 1).skipTree
  have hmax : min (forkNode (fun p => p == 1) 4).nHeight
      ((forkNode (fun p => p == 1) 3).nHeight + BLOCK_DOWNLOAD_WINDOW + 1) =
        heightOf (forkNode fun p => p == 1) 4 := rfl
  rw [scheduleFrom, if_neg (by decide)]
  dsimp only
  rw [hmax, fetchLoop_eq T (by decide) .refl (.parent_self rfl) (by decide)]
  rfl

theorem forkNode_lastCommonAncestor (stored : Ptr → Bool) :
    lastCommonAncestor (forkNode stored) 3 4 = some (some 3) := by
  have T := forkTree stored
  obtain ⟨f, hf, hleft, -, hlast⟩ := lastCommonAncestor_eq T (p := 3) (q := 4) (by decide) (by decide)
  rw [hf, T.skipTree.graded.antisymm hleft (hlast 3 .refl (.parent_self rfl)) (by decide)]

/-- The peer 7. -/
def forkPeer (state : CNodeBlocks) : Map NodeId CNodeBlocks := AList.insert 7 state ∅

/-- The last common block is only brought up to date where the peer has a chain of interest: a peer
whose best known block becomes one of a branch with less work than the active chain keeps a last common
block of the branch before. And what is below the last common block is not looked at: a block there that
was pruned is not asked for. -/
theorem forkTree_lastCommon :
    (BlockTree (forkNode fun _ => true) [4, 3, 2, 1, 0] ∧
      CChain.Branch (forkNode fun _ => true) ⟨[some 0, some 3, some 4]⟩ (some 4) ∧
      ∃ r, findNextBlocksToDownload (forkNode fun _ => true) ⟨[some 0, some 3, some 4]⟩ ∅
          [4, 3, 2, 1, 0] (forkPeer ⟨some 1, 2, some 1⟩) 7 16 (-1) = some r ∧
        r.mapNodeState.lookup 7 = some ⟨some 2, 0, some 1⟩ ∧
        Anc (parentOf (forkNode fun _ => true)) 1 1 ∧
        ¬ Anc (parentOf (forkNode fun _ => true)) 1 2) ∧
    BlockTree (forkNode fun p => p == 1) [4, 3, 2, 1, 0] ∧
      CChain.Branch (forkNode fun p => p == 1) ⟨[some 0, some 1]⟩ (some 1) ∧
      ∃ r, findNextBlocksToDownload (forkNode fun p => p == 1) ⟨[some 0, some 1]⟩ ∅
          [4, 3, 2, 1, 0] (forkPeer ⟨some 4, 0, some 3⟩) 7 16 (-1) = some r ∧
        r.vBlocks = [4] ∧ Anc (parentOf (forkNode fun p => p == 1)) 3 4 ∧
        (forkNode (fun p => p == 1) 3).nStatus.haveData = false ∧
        CChain.contains (forkNode fun p => p == 1) ⟨[some 0, some 1]⟩ 3 = false ∧
        heightOf (forkNode fun p => p == 1) 3 < heightOf (forkNode fun p => p == 1) 4 := by
  refine ⟨⟨forkTree _, ⟨rfl, by decide⟩, ?_⟩, forkTree _, ⟨rfl, by decide⟩, ?_⟩
  · refine ⟨_, rfl, rfl, .refl, fun h => ?_⟩
    have := (forkTree fun _ => true).skipTree.graded.eq_of_height h (by decide) (by decide)
    exact absurd this (by decide)
  · refine ⟨⟨forkPeer ⟨some 4, 0, some 3⟩, [4], -1⟩, ?_, rfl, .parent_self rfl, rfl, rfl, by decide⟩
    have hrun : findNextBlocksToDownload (forkNode fun p => p == 1) ⟨[some 0, some 1]⟩ ∅
        [4, 3, 2, 1, 0] (forkPeer ⟨some 4, 0, some 3⟩) 7 16 (-1) =
        (lastCommonAncestor (forkNode fun p => p == 1) 3 4).bind fun last => last.bind fun last =>
          (scheduleFrom (forkNode fun p => p == 1) ⟨[some 0, some 1]⟩ ∅ 7 16 (-1) 4 last).map fun f =>
            ⟨(forkPeer ⟨some 4, 0, some 3⟩).insert 7 ⟨some 4, 0, some f.pindexLastCommonBlock⟩,
              f.vBlocks, f.nodeStaller⟩ := rfl
    rw [hrun, forkNode_lastCommonAncestor, Option.bind_some, Option.bind_some, forkNode_scheduleFrom]
    rfl

/-- A peer with a chain of interest on the fork. -/
theorem forkTree_findNextBlocksToDownload :
    ∃ r, findNextBlocksToDownload (forkNode fun p => p == 1) ⟨[some 0, some 1]⟩ ∅
        [4, 3, 2, 1, 0] (forkPeer ⟨some 4, 0, none⟩) 7 16 (-1) = some r ∧
      ∃ start last, Scheduled (forkNode fun p => p == 1) ⟨[some 0, some 1]⟩ ∅ 4 start 16 r.vBlocks
        last := by
  have hchain : CChain.Branch (forkNode fun p => p == 1) ⟨[some 0, some 1]⟩ (some 1) :=
    ⟨rfl, by decide⟩
  have hstate : (forkPeer ⟨some 4, 0, none⟩).lookup 7 = some ⟨some 4, 0, none⟩ := rfl
  have hcount : (16 : UInt32) ≠ 0 := by decide
  obtain ⟨r, state', hr, -, hbest, -, h⟩ := findNextBlocksToDownload_sound ∅
    (forkTree fun p => p == 1) (by decide) hchain hstate (by decide) nofun hcount (-1)
  obtain ⟨_, start, last, -, -, -, hsched⟩ := h 4 hbest (by decide)
  exact ⟨r, hr, start, last, hsched⟩

end GC
