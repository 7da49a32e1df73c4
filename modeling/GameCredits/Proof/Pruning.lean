import GameCredits.Proof.Flushing
import Mathlib.Algebra.BigOperators.Group.List.Basic

/-!
# Pruning keeps recent blocks

What the loop of `FindFilesToPrune` has done after some files (`Prunes`): the entries in the chosen
files are without data, the information of these files is null, and everything else is as before. A
block is in a file whose `nHeightLast` is at least its height, so that the rule about files is one about
blocks.

* `pruneFiles_spec`: the loop, with the running usage.
* `findFilesToPrune_spec`: which blocks and files are pruned, and where the loop stops.
-/

namespace GC

open Framework ChainState

theorem CBlockIndex.pruned_pruned (e : CBlockIndex) : e.pruned.pruned = e.pruned := rfl

/-! ## One file -/

namespace ChainState

variable {s : ChainState} {p q : Ptr}

theorem unlinked_pruneEntry {n : Nat} {e : Ptr × Ptr}
    (h : e ∈ (pruneEntry n s p).mapBlocksUnlinked) : e ∈ s.mapBlocksUnlinked ∧
      (s.parent e.2 = some e.1 → e.2 = p → (s.node p).nFile ≠ n) := by
  unfold pruneEntry at h
  by_cases hn : (s.node p).nFile = n
  · rw [if_pos hn] at h
    obtain ⟨hmem, hkeep⟩ := List.mem_filter.mp h
    refine ⟨hmem, fun hparent hp => ?_⟩
    rw [hp] at hparent
    have hprev : ((s.modify p CBlockIndex.pruned).node p).pprev = some e.1 := by
      rw [ChainState.modify]
      simp only [if_true]
      exact hparent
    have hgone : (!(some e.1 == ((s.modify p CBlockIndex.pruned).node p).pprev && e.2 == p)) = true :=
      hkeep
    rw [hprev, hp, beq_self_eq_true, beq_self_eq_true] at hgone
    cases hgone
  · rw [if_neg hn] at h
    exact ⟨h, fun _ _ => hn⟩

/-- `PruneOneBlockFile` leaves no entry of the file in `mapBlocksUnlinked`. -/
theorem unlinked_pruneOneBlockFile (n : Nat) {e : Ptr × Ptr}
    (h : e ∈ (s.pruneOneBlockFile n).mapBlocksUnlinked) : e ∈ s.mapBlocksUnlinked ∧
      (s.parent e.2 = some e.1 → s.Known e.2 → (s.node e.2).nFile ≠ n) := by
  have hfold : ∀ (l : List Ptr) (s : ChainState),
      e ∈ (l.foldl (pruneEntry n) s).mapBlocksUnlinked → e ∈ s.mapBlocksUnlinked ∧
        (s.parent e.2 = some e.1 → e.2 ∈ l → (s.node e.2).nFile ≠ n) := by
    intro l
    induction l with
    | nil => exact fun s h => ⟨h, fun _ h => by cases h⟩
    | cons p l ih =>
      intro s h
      obtain ⟨hmem, hrest⟩ := ih _ h
      obtain ⟨hmem', hfirst⟩ := unlinked_pruneEntry hmem
      refine ⟨hmem', fun hparent hl => ?_⟩
      by_cases hp : e.2 = p
      · rw [hp]
        exact hfirst hparent hp
      · have hsame : (pruneEntry n s p).node e.2 = s.node e.2 := by
          rw [node_pruneEntry, if_neg fun h => hp h.1]
        have hparent' : (pruneEntry n s p).parent e.2 = some e.1 := by
          rw [parent, hsame]
          exact hparent
        have hne := hrest hparent' ((List.mem_cons.mp hl).resolve_left hp)
        rwa [hsame] at hne
  exact hfold _ s h

end ChainState

namespace Globals

variable {g g' g'' : Globals} {args : PruneArgs} {limit : Nat} {files files' : List Nat}

/-- What pruning some files does, none of which reaches above `limit`. -/
structure Prunes (limit : Nat) (g g' : Globals) (files : List Nat) : Prop where
  index : g'.chain.mapBlockIndex = g.chain.mapBlockIndex
  node : ∀ p, g.chain.Known p → g'.chain.node p =
    if (g.chain.node p).nFile ∈ files then (g.chain.node p).pruned else g.chain.node p
  info : ∀ k, g'.info k = if k ∈ files then .null else g.info k
  chosen : ∀ k ∈ files, (g.info k).nSize ≠ 0 ∧ (g.info k).nHeightLast ≤ limit
  nodup : files.Nodup
  unlinked : ∀ e ∈ g'.chain.mapBlocksUnlinked, e ∈ g.chain.mapBlocksUnlinked ∧
    (g.chain.parent e.2 = some e.1 → g.chain.Known e.2 → (g.chain.node e.2).nFile ∉ files)

theorem Prunes.refl (limit : Nat) (g : Globals) : Prunes limit g g [] where
  index := rfl
  node _ _ := (if_neg List.not_mem_nil).symm
  info _ := (if_neg List.not_mem_nil).symm
  chosen _ h := by cases h
  nodup := .nil
  unlinked _ h := ⟨h, fun _ _ => List.not_mem_nil⟩

theorem Prunes.one (hnodup : g.chain.mapBlockIndex.Nodup) {n : Nat} (hsize : (g.info n).nSize ≠ 0)
    (hlast : (g.info n).nHeightLast ≤ limit) : Prunes limit g (g.pruneOneBlockFile n) [n] where
  index := (kept_pruneOneBlockFile g.chain n).same.index
  node p hp := by
    have h := node_pruneOneBlockFile hnodup n p
    simp only [hp, true_and] at h
    simp only [List.mem_singleton]
    exact h
  info k := by
    rw [pruneOneBlockFile, info_setInfo]
    simp only [List.mem_singleton]
    rfl
  chosen k hk := by
    rw [List.mem_singleton.mp hk]
    exact ⟨hsize, hlast⟩
  nodup := List.nodup_singleton n
  unlinked e he := by
    obtain ⟨hmem, hne⟩ := unlinked_pruneOneBlockFile n he
    exact ⟨hmem, fun hparent hp hn => hne hparent hp (List.mem_singleton.mp hn)⟩

theorem Prunes.trans (h : Prunes limit g g' files) (h' : Prunes limit g' g'' files') :
    Prunes limit g g'' (files ++ files') where
  index := h'.index.trans h.index
  node p hp := by
    have hp' : g'.chain.Known p := by rw [Known, h.index]; exact hp
    rw [h'.node p hp', h.node p hp]
    by_cases hf : (g.chain.node p).nFile ∈ files
    · -- pruned already; pruning it with its file number zero changes nothing
      rw [if_pos hf, if_pos (List.mem_append_left _ hf), CBlockIndex.pruned_pruned, ite_self]
    · rw [if_neg hf]
      simp only [List.mem_append, hf, false_or]
  info k := by
    rw [h'.info k, h.info k]
    by_cases hf : k ∈ files
    · rw [if_pos hf, if_pos (List.mem_append_left _ hf), ite_self]
    · rw [if_neg hf]
      simp only [List.mem_append, hf, false_or]
  chosen k hk := by
    rcases List.mem_append.mp hk with hk | hk
    · exact h.chosen k hk
    · have hc := h'.chosen k hk
      rw [h.info k] at hc
      split_ifs at hc with hf
      · exact absurd rfl hc.1
      · exact hc
  nodup := List.nodup_append.mpr ⟨h.nodup, h'.nodup, fun a ha b hb hab => by
    have hc := (h'.chosen b hb).1
    rw [h.info b, if_pos (hab ▸ ha)] at hc
    exact hc rfl⟩
  unlinked e he := by
    obtain ⟨he', hne'⟩ := h'.unlinked e he
    obtain ⟨he'', hne⟩ := h.unlinked e he'
    refine ⟨he'', fun hparent hp hmem => ?_⟩
    have hf := hne hparent hp
    have hsame : g'.chain.node e.2 = g.chain.node e.2 := by rw [h.node _ hp, if_neg hf]
    have hp' : g'.chain.Known e.2 := by rw [Known, h.index]; exact hp
    have hparent' : g'.chain.parent e.2 = some e.1 := by
      rw [parent, hsame]
      exact hparent
    have hf' := hne' hparent' hp'
    rw [hsame] at hf'
    exact (List.mem_append.mp hmem).elim hf hf'

/-! ## The usage -/

theorem info_of_length_le {n : Nat} (h : g.vinfoBlockFile.length ≤ n) : g.info n = .null := by
  rw [info, List.getD_eq_getElem?_getD, List.getElem?_eq_none h]
  rfl

/-- The usage goes down by the bytes of a pruned file. -/
theorem usage_pruneOneBlockFile {n : Nat} (hsize : (g.info n).nSize ≠ 0) :
    (g.pruneOneBlockFile n).calculateCurrentUsage =
      (g.calculateCurrentUsage + 2 ^ 64 - (g.info n).bytes) % 2 ^ 64 := by
  have hlen : n < g.vinfoBlockFile.length := by
    by_contra h
    rw [info_of_length_le (Nat.not_lt.mp h)] at hsize
    exact hsize rfl
  have hinfo : g.info n = g.vinfoBlockFile[n] := by
    rw [info, List.getD_eq_getElem?_getD, List.getElem?_eq_getElem hlen]
    rfl
  have hset : (g.pruneOneBlockFile n).vinfoBlockFile = g.vinfoBlockFile.set n .null := by
    have hzero : n + 1 - g.vinfoBlockFile.length = 0 := by omega
    simp only [pruneOneBlockFile, setInfo, hzero, List.replicate_zero, List.append_nil]
  have hsum : ((g.vinfoBlockFile.set n .null).map CBlockFileInfo.bytes).sum +
      (g.info n).bytes = (g.vinfoBlockFile.map CBlockFileInfo.bytes).sum := by
    have hl : g.vinfoBlockFile.map CBlockFileInfo.bytes =
        (g.vinfoBlockFile.map CBlockFileInfo.bytes).take n ++ (g.info n).bytes ::
          (g.vinfoBlockFile.map CBlockFileInfo.bytes).drop (n + 1) := by
      rw [hinfo, ← List.getElem_map CBlockFileInfo.bytes (h := by rwa [List.length_map]),
        List.cons_getElem_drop_succ, List.take_append_drop]
    rw [List.map_set, List.set_eq_take_append_cons_drop, if_pos (by rwa [List.length_map])]
    conv_rhs => rw [hl]
    rw [List.sum_append, List.sum_append, List.sum_cons, List.sum_cons]
    have : CBlockFileInfo.null.bytes = 0 := rfl
    omega
  have hbytes : (g.info n).bytes < 2 ^ 32 := Nat.mod_lt _ (by decide)
  rw [calculateCurrentUsage, calculateCurrentUsage, hset]
  omega

/-! ## The loop -/

/-- The bytes that a file and an allocation may take before the next pruning. -/
def pruneBuffer : Nat := BLOCKFILE_CHUNK_SIZE + UNDOFILE_CHUNK_SIZE

/-- The loop stops where the usage is below the target, or after all files that may be pruned. -/
theorem pruneFiles_spec (args : PruneArgs) (limit : Nat) (fileNumbers : List Nat)
    (hnodup : g.chain.mapBlockIndex.Nodup) :
    Prunes limit g (pruneFiles args limit fileNumbers g.calculateCurrentUsage g).2
        (pruneFiles args limit fileNumbers g.calculateCurrentUsage g).1 ∧
      (((pruneFiles args limit fileNumbers g.calculateCurrentUsage g).2.calculateCurrentUsage +
          pruneBuffer) % 2 ^ 64 < args.nPruneTarget ∨
        ∀ n ∈ fileNumbers,
          ((pruneFiles args limit fileNumbers g.calculateCurrentUsage g).2.info n).nSize ≠ 0 → limit <
            ((pruneFiles args limit fileNumbers g.calculateCurrentUsage g).2.info n).nHeightLast) := by
  induction fileNumbers generalizing g with
  | nil => exact ⟨.refl limit g, .inr fun n hn => by cases hn⟩
  | cons n fileNumbers ih =>
    have skip : ∀ {g : Globals} {r : List Nat × Globals}, Prunes limit g r.2 r.1 →
        ((g.info n).nSize ≠ 0 → limit < (g.info n).nHeightLast) →
        (r.2.info n).nSize ≠ 0 → limit < (r.2.info n).nHeightLast := by
      intro g r hr hg hsize
      rw [hr.info n] at hsize ⊢
      split_ifs at hsize ⊢
      · exact absurd rfl hsize
      · exact hg hsize
    rw [pruneFiles]
    by_cases hsize : (g.info n).nSize = 0
    · rw [if_pos hsize]
      obtain ⟨hp, hend⟩ := ih hnodup
      refine ⟨hp, hend.imp_right fun h k hk => ?_⟩
      rcases List.mem_cons.mp hk with rfl | hk
      · exact skip hp fun h => absurd hsize h
      · exact h k hk
    rw [if_neg hsize]
    by_cases hbelow : (g.calculateCurrentUsage + (BLOCKFILE_CHUNK_SIZE + UNDOFILE_CHUNK_SIZE)) %
        2 ^ 64 < args.nPruneTarget
    · rw [if_pos hbelow]
      exact ⟨.refl limit g, .inl hbelow⟩
    rw [if_neg hbelow]
    by_cases hlast : limit < (g.info n).nHeightLast
    · rw [if_pos hlast]
      obtain ⟨hp, hend⟩ := ih hnodup
      refine ⟨hp, hend.imp_right fun h k hk => ?_⟩
      rcases List.mem_cons.mp hk with rfl | hk
      · exact skip hp fun _ => hlast
      · exact h k hk
    · rw [if_neg hlast]
      have hone := Prunes.one hnodup hsize (Nat.not_lt.mp hlast)
      have hnodup' : (g.pruneOneBlockFile n).chain.mapBlockIndex.Nodup := by
        rw [hone.index]
        exact hnodup
      obtain ⟨hp, hend⟩ := ih hnodup'
      rw [usage_pruneOneBlockFile hsize] at hp hend
      have hall := hone.trans hp
      refine ⟨hall, hend.imp_right fun h k hk => ?_⟩
      rcases List.mem_cons.mp hk with rfl | hk
      · intro hs
        have hnull : _ = CBlockFileInfo.null :=
          (hall.info k).trans (if_pos (List.mem_append_left _ (List.mem_singleton_self k)))
        exact absurd (congrArg CBlockFileInfo.nSize hnull) hs
      · exact h k hk

/-! ## FindFilesToPrune -/

/-- What `FindFilesToPrune` leaves. -/
structure PrunedFor (args : PruneArgs) (g g' : Globals) (files : List Nat) : Prop where
  /-- Only blocks that are far below the tip lose their data, on any branch. -/
  recent : ∀ p, g.chain.Known p → (g.chain.status p).haveData = true →
    (g'.chain.status p).haveData = false →
    ∃ tip, g.chain.tip = some tip ∧ g.chain.height p + MIN_BLOCKS_TO_KEEP ≤ g.chain.height tip
  nodup : files.Nodup
  chosen : ∀ n, n ∈ files ↔ (g.info n).nSize ≠ 0 ∧ g'.info n = .null
  /-- Nothing is in a pruned file; entries without data or undo data have the file number zero. -/
  unreferenced : ∀ n ∈ files, ∀ p, g.chain.Known p → (g'.chain.node p).nFile = n →
    n = 0 ∧ (g'.chain.status p).haveData = false ∧ (g'.chain.status p).haveUndo = false
  unlinked : ∀ p, g.chain.Known p → (g.chain.status p).haveData = true →
    (g'.chain.status p).haveData = false → ∀ q, (q, p) ∉ g'.chain.mapBlocksUnlinked
  off : (∀ tip, g.chain.tip = some tip → args.nPruneTarget = 0 ∨
    g.chain.height tip ≤ args.nPruneAfterHeight) → files = [] ∧ g' = g
  target : ∀ tip, g.chain.tip = some tip → args.nPruneTarget ≠ 0 →
    args.nPruneAfterHeight < g.chain.height tip →
    (g'.calculateCurrentUsage + pruneBuffer) % 2 ^ 64 < args.nPruneTarget ∨
      ∀ n < g.nLastBlockFile, (g'.info n).nSize ≠ 0 →
        g.chain.height tip < (g'.info n).nHeightLast + MIN_BLOCKS_TO_KEEP

/-- The files that are left alone. -/
theorem PrunedFor.none (hoff : ∀ tip, g.chain.tip = some tip → args.nPruneTarget ≠ 0 →
    args.nPruneAfterHeight < g.chain.height tip →
    (g.calculateCurrentUsage + pruneBuffer) % 2 ^ 64 < args.nPruneTarget) :
    PrunedFor args g g [] where
  recent p _ hd hd' := absurd (hd.symm.trans hd') (by decide)
  nodup := .nil
  chosen n := by
    constructor
    · intro h
      cases h
    · rintro ⟨hsize, hnull⟩
      rw [hnull] at hsize
      exact absurd rfl hsize
  unreferenced n hn := by cases hn
  unlinked p _ hd hd' := absurd (hd.symm.trans hd') (by decide)
  off _ := ⟨rfl, rfl⟩
  target tip ht hon hheight := .inl (hoff tip ht hon hheight)

/-- Files below the keep limit hold blocks below it. -/
theorem Prunes.prunedFor {tip : Ptr} (h : Prunes limit g g' files) (ht : g.chain.tip = some tip)
    (hlimit : limit + MIN_BLOCKS_TO_KEEP = g.chain.height tip)
    (hdata : ∀ p, g.chain.Known p → (g.chain.status p).haveData = true →
      g.chain.height p ≤ (g.info (g.chain.node p).nFile).nHeightLast)
    (hunlinked : ∀ e ∈ g.chain.mapBlocksUnlinked, g.chain.parent e.2 = some e.1)
    (hon : args.nPruneTarget ≠ 0 ∧ args.nPruneAfterHeight < g.chain.height tip)
    (hend : (g'.calculateCurrentUsage + pruneBuffer) % 2 ^ 64 < args.nPruneTarget ∨
      ∀ n ∈ List.range g.nLastBlockFile, (g'.info n).nSize ≠ 0 → limit < (g'.info n).nHeightLast) :
    PrunedFor args g g' files := by
  -- a block that loses its data is in a chosen file
  have hlost : ∀ p, g.chain.Known p → (g.chain.status p).haveData = true →
      (g'.chain.status p).haveData = false → (g.chain.node p).nFile ∈ files := by
    intro p hp hd hd'
    by_contra hf
    rw [status, h.node p hp, if_neg hf] at hd'
    exact absurd (hd.symm.trans hd') (by decide)
  exact {
    recent := fun p hp hd hd' => by
      have hlow := (h.chosen _ (hlost p hp hd hd')).2
      have hle := hdata p hp hd
      exact ⟨tip, ht, by omega⟩
    nodup := h.nodup
    chosen := fun n => by
      rw [h.info n]
      constructor
      · intro hn
        rw [if_pos hn]
        exact ⟨(h.chosen n hn).1, rfl⟩
      · rintro ⟨hsize, hnull⟩
        split_ifs at hnull with hn
        · exact hn
        · rw [hnull] at hsize
          exact absurd rfl hsize
    unreferenced := fun n hn p hp hf => by
      have hnode := h.node p hp
      split_ifs at hnode with hin
      · rw [hnode] at hf
        rw [status, hnode]
        exact ⟨hf.symm, rfl, rfl⟩
      · rw [hnode] at hf
        exact absurd (hf ▸ hn) hin
    unlinked := fun p hp hd hd' q hq => by
      obtain ⟨hmem, hnot⟩ := h.unlinked _ hq
      exact hnot (hunlinked _ hmem) hp (hlost p hp hd hd')
    off := fun hoff => by
      rcases hoff tip ht with hzero | hle
      · exact absurd hzero hon.1
      · exact absurd hon.2 (Nat.not_lt.mpr hle)
    target := fun tip' ht' _ _ => by
      obtain rfl : tip = tip' := Option.some.inj (ht.symm.trans ht')
      refine hend.imp_right fun hall n hn hsize => ?_
      have := hall n (List.mem_range.mpr hn) hsize
      omega }

/-- `FindFilesToPrune`, where each block with data is in a file whose `nHeightLast` is at least its
height, and the entries of `mapBlocksUnlinked` are below their parents. -/
theorem findFilesToPrune_spec (network : Network)
    (hargs : args.nPruneAfterHeight = network.nPruneAfterHeight)
    (hnodup : g.chain.mapBlockIndex.Nodup)
    (hdata : ∀ p, g.chain.Known p → (g.chain.status p).haveData = true →
      g.chain.height p ≤ (g.info (g.chain.node p).nFile).nHeightLast)
    (hunlinked : ∀ e ∈ g.chain.mapBlocksUnlinked, g.chain.parent e.2 = some e.1)
    (hint : ∀ tip, g.chain.tip = some tip → g.chain.height tip < 2 ^ 31) :
    PrunedFor args g (g.findFilesToPrune args).2 (g.findFilesToPrune args).1 := by
  unfold findFilesToPrune
  cases ht : g.chain.tip with
  | none => exact .none fun tip h => by rw [ht] at h; cases h
  | some tip =>
    dsimp only
    by_cases hoff : args.nPruneTarget = 0 ∨ (g.chain.node tip).nHeight ≤ args.nPruneAfterHeight
    · rw [if_pos hoff]
      refine .none fun tip' ht' hon hheight => ?_
      obtain rfl : tip = tip' := Option.some.inj (ht.symm.trans ht')
      exact (hoff.elim hon (Nat.not_le.mpr hheight)).elim
    rw [if_neg hoff]
    obtain ⟨hon, hheight⟩ := not_or.mp hoff
    by_cases hbelow : (g.calculateCurrentUsage + (BLOCKFILE_CHUNK_SIZE + UNDOFILE_CHUNK_SIZE)) %
        2 ^ 64 < args.nPruneTarget
    · rw [if_pos hbelow]
      exact .none fun _ _ _ _ => hbelow
    rw [if_neg hbelow]
    -- the tip is above the keep limit, so that the unsigned subtraction is one of numbers
    have hkeep : MIN_BLOCKS_TO_KEEP ≤ args.nPruneAfterHeight := by
      rw [hargs]
      cases network <;> decide
    have hint' : (g.chain.node tip).nHeight < 2 ^ 31 := hint tip ht
    have hlimit : ((g.chain.node tip).nHeight + 2 ^ 32 - MIN_BLOCKS_TO_KEEP) % 2 ^ 32 +
        MIN_BLOCKS_TO_KEEP = (g.chain.node tip).nHeight := by
      have : MIN_BLOCKS_TO_KEEP = 960 := rfl
      omega
    obtain ⟨hprunes, hend⟩ := pruneFiles_spec args
      (((g.chain.node tip).nHeight + 2 ^ 32 - MIN_BLOCKS_TO_KEEP) % 2 ^ 32)
      (List.range g.nLastBlockFile) hnodup
    exact hprunes.prunedFor ht hlimit hdata hunlinked ⟨hon, Nat.not_le.mp hheight⟩ hend

/-! ## A node that prunes -/

/-- The entry at height `p` of a chain of stored blocks in the files 0, 1 and 3. -/
def storedNode (p : Nat) : CBlockIndex :=
  { CBlockIndex.ofHeader 0 ⟨2, 0, 0, 1392757230, 0x1e0ffff0, 0⟩ with
    pprev := if p = 0 then none else some (p - 1)
    nHeight := p
    nFile := if p < 100 then 0 else if p < 140 then 1 else 3
    nTx := 1
    nChainTx := p + 1
    nStatus := ⟨BLOCK_VALID_SCRIPTS, true, true, false, false⟩ }

/-- The entries of a chain up to height `n`. -/
@[irreducible] def storedBlocks (n : Nat) : List Ptr := List.range (n + 1)

theorem mem_storedBlocks {n : Nat} {p : Ptr} : p ∈ storedBlocks n ↔ p < n + 1 := by
  rw [storedBlocks, List.mem_range]

theorem storedBlocks_nodup (n : Nat) : (storedBlocks n).Nodup := by
  rw [storedBlocks]
  exact List.nodup_range

theorem storedBlocks_getLast (n : Nat) : (storedBlocks n).getLast? = some n := by
  rw [storedBlocks, List.range_succ, List.getLast?_concat]

/-- A chain up to height 1100: file 0 has its blocks below height 100, file 1 those below 140, and file 3
the others. File 1 was said to reach up to height 200 when a block of a branch that was pruned since was
stored; file 2 was pruned. -/
def storedGlobals : Globals where
  chain := { ChainState.empty with
    node := storedNode
    mapBlockIndex := storedBlocks 1100
    vChain := storedBlocks 1100 }
  setDirtyBlockIndex := []
  setDirtyFileInfo := []
  vinfoBlockFile := [⟨100, 130000000, 10000000, 0, 99, 1392757230, 1392757230⟩,
    ⟨41, 130000000, 10000000, 100, 200, 1392757230, 1392757230⟩, .null,
    ⟨961, 120000000, 10000000, 140, 1100, 1392757230, 1392757230⟩]
  nLastBlockFile := 3
  hashBlock := 0
  fCheckForPruning := true
  fHavePruned := true
  nLastWrite := 0
  nLastFlush := 0

/-- The options of a node that is to prune all it may. -/
def pruneAll : PruneArgs := ⟨true, false, 1, 1000⟩

theorem storedGlobals_data (p : Ptr) (hp : storedGlobals.chain.Known p) :
    storedGlobals.chain.height p ≤
      (storedGlobals.info (storedGlobals.chain.node p).nFile).nHeightLast := by
  have hlt := mem_storedBlocks.mp hp
  show p ≤ (storedGlobals.info (if p < 100 then 0 else if p < 140 then 1 else 3)).nHeightLast
  split_ifs
  · exact Nat.le_of_lt_succ ‹_›
  · show p ≤ 200
    exact Nat.le_of_lt (Nat.lt_trans ‹_› (by decide))
  · exact Nat.le_of_lt_succ hlt

theorem storedGlobals_tip : storedGlobals.chain.tip = some 1100 := storedBlocks_getLast 1100

/-- The file 0 is pruned, and then neither the usage nor a file before the last one that may be pruned
stops the loop. -/
theorem storedGlobals_run :
    (storedGlobals.findFilesToPrune pruneAll).1 = [0] ∧ pruneAll.nPruneTarget ≤
      ((storedGlobals.findFilesToPrune pruneAll).2.calculateCurrentUsage + pruneBuffer) %
        2 ^ 64 := by
  unfold findFilesToPrune
  rw [storedGlobals_tip]
  exact ⟨by decide +kernel, by decide +kernel⟩

theorem storedGlobals_prunes : Prunes 140 storedGlobals
    (storedGlobals.findFilesToPrune pruneAll).2 [0] := by
  have hrun := storedGlobals_run.1
  have hspec := (pruneFiles_spec (g := storedGlobals) pruneAll 140 (List.range 3)
    (storedBlocks_nodup _)).1
  have heq : storedGlobals.findFilesToPrune pruneAll = pruneFiles pruneAll 140 (List.range 3)
      storedGlobals.calculateCurrentUsage storedGlobals := by
    have hlimit : ((storedGlobals.chain.node 1100).nHeight + 2 ^ 32 - MIN_BLOCKS_TO_KEEP) % 2 ^ 32 =
        140 := by decide +kernel
    have hlast : storedGlobals.nLastBlockFile = 3 := rfl
    unfold findFilesToPrune
    rw [storedGlobals_tip]
    dsimp only
    rw [if_neg (by decide +kernel), if_neg (by decide +kernel), hlimit, hlast]
  rw [← heq, hrun] at hspec
  exact hspec

theorem storedGlobals_file {p : Nat} (hp : storedGlobals.chain.Known p) :
    let nFile := ((storedGlobals.findFilesToPrune pruneAll).2.chain.node p).nFile
    nFile ≠ 2 ∧ (nFile = 1 → storedGlobals.chain.height p + MIN_BLOCKS_TO_KEEP ≤ 1100) := by
  intro nFile
  have hnode := storedGlobals_prunes.node p hp
  have hfile : (storedGlobals.chain.node p).nFile =
    if p < 100 then 0 else if p < 140 then 1 else 3 := rfl
  have hcases : nFile = 0 ∨ nFile = (storedGlobals.chain.node p).nFile := by
    show ((storedGlobals.findFilesToPrune pruneAll).2.chain.node p).nFile = 0 ∨ _
    rw [hnode]
    by_cases hf : (storedGlobals.chain.node p).nFile ∈ [0]
    · rw [if_pos hf]
      exact .inl rfl
    · exact .inr (congrArg CBlockIndex.nFile (hnode.trans (if_neg hf)))
  have hheight : storedGlobals.chain.height p = p := rfl
  have hkeep : MIN_BLOCKS_TO_KEEP = 960 := rfl
  rw [hfile] at hcases
  rw [hheight, hkeep]
  generalize nFile = k at hcases
  rcases hcases with hk | hk
  · omega
  · split_ifs at hk <;> omega

/-- Entries of a pruned file keep the number of the file 0, as the entries in it do that are pruned; a
file that was pruned before is not put into the set again; a file whose `nHeightLast` is above the keep
limit is kept although no block in it is; and where pruning is off nothing is pruned. -/
theorem storedGlobals_counterexample :
    (∀ p, storedGlobals.chain.Known p → storedGlobals.chain.height p ≤
      (storedGlobals.info (storedGlobals.chain.node p).nFile).nHeightLast) ∧
    (0 ∈ (storedGlobals.findFilesToPrune pruneAll).1 ∧ storedGlobals.chain.Known 0 ∧
      ((storedGlobals.findFilesToPrune pruneAll).2.chain.node 0).nFile = 0) ∧
    (2 ∉ (storedGlobals.findFilesToPrune pruneAll).1 ∧
      (storedGlobals.findFilesToPrune pruneAll).2.info 2 = .null ∧
      ∀ p, storedGlobals.chain.Known p →
        ((storedGlobals.findFilesToPrune pruneAll).2.chain.node p).nFile ≠ 2) ∧
    (pruneAll.nPruneTarget ≤
        ((storedGlobals.findFilesToPrune pruneAll).2.calculateCurrentUsage + pruneBuffer) %
          2 ^ 64 ∧
      ((storedGlobals.findFilesToPrune pruneAll).2.info 1).nSize ≠ 0 ∧
      ∀ p, storedGlobals.chain.Known p →
        ((storedGlobals.findFilesToPrune pruneAll).2.chain.node p).nFile = 1 →
        storedGlobals.chain.height p + MIN_BLOCKS_TO_KEEP ≤ 1100) ∧
    storedGlobals.findFilesToPrune { pruneAll with nPruneTarget := 0 } =
      ([], storedGlobals) := by
  have hknown : storedGlobals.chain.Known 0 := mem_storedBlocks.mpr (by decide)
  refine ⟨storedGlobals_data, ⟨?_, hknown, ?_⟩, ⟨?_, ?_, fun p hp => (storedGlobals_file hp).1⟩,
    ⟨storedGlobals_run.2, ?_, fun p hp => (storedGlobals_file hp).2⟩, ?_⟩
  · rw [storedGlobals_run.1]
    exact List.mem_singleton_self 0
  · have hfile : (storedGlobals.chain.node 0).nFile ∈ [0] := by decide
    rw [storedGlobals_prunes.node 0 hknown, if_pos hfile]
    rfl
  · rw [storedGlobals_run.1]
    decide
  · rw [storedGlobals_prunes.info 2, if_neg (by decide)]
    rfl
  · rw [storedGlobals_prunes.info 1, if_neg (by decide)]
    decide
  · unfold findFilesToPrune
    rw [storedGlobals_tip]
    rfl

theorem storedGlobals_prunedFor :
    PrunedFor pruneAll storedGlobals (storedGlobals.findFilesToPrune pruneAll).2
      (storedGlobals.findFilesToPrune pruneAll).1 :=
  findFilesToPrune_spec .regtest rfl (storedBlocks_nodup _) (fun p hp _ => storedGlobals_data p hp)
    (fun _ h => nomatch h) fun tip h => by
      obtain rfl : 1100 = tip := Option.some.inj (storedGlobals_tip.symm.trans h)
      decide

end Globals

end GC
