import GameCredits.Proof.Flush

/-!
# Flushing the chain state

`FlushStateToDisk` keeps the invariant of memory and disk, and the disk is consistent after each of
its writes, when the index is written without failure.

* `Ok.findFilesToPrune`: nothing refers to the files that are to be pruned.
* `flushStateToDisk_sound`: `FlushStateToDisk` in any mode.
-/

namespace GC

open Framework ChainState

/-! ## Pruning -/

/-- An entry whose file is pruned. -/
def CBlockIndex.pruned (e : CBlockIndex) : CBlockIndex :=
  { e with
    nStatus := { e.nStatus with haveData := false, haveUndo := false }
    nFile := 0
    nDataPos := 0
    nUndoPos := 0 }

namespace ChainState

variable {s s' : ChainState} {p q : Ptr}

theorem node_pruneEntry (n : Nat) (s : ChainState) (p q : Ptr) :
    (pruneEntry n s p).node q =
      if q = p ∧ (s.node q).nFile = n then (s.node q).pruned else s.node q := by
  unfold pruneEntry
  by_cases hn : (s.node p).nFile = n
  · simp only [hn, if_true]
    show (if q = p then (s.node p).pruned else s.node q) = _
    by_cases hq : q = p
    · subst hq
      rw [if_pos rfl, if_pos ⟨rfl, hn⟩]
    · rw [if_neg hq, if_neg fun h => hq h.1]
  · rw [if_neg hn, if_neg]
    rintro ⟨rfl, h⟩
    exact hn h

/-- `PruneOneBlockFile` changes the entries of the file. -/
theorem node_pruneOneBlockFile (hnodup : s.mapBlockIndex.Nodup) (n : Nat) (q : Ptr) :
    (s.pruneOneBlockFile n).node q =
      if s.Known q ∧ (s.node q).nFile = n then (s.node q).pruned else s.node q := by
  have hfold : ∀ (l : List Ptr) (s : ChainState), l.Nodup → (l.foldl (pruneEntry n) s).node q =
      if q ∈ l ∧ (s.node q).nFile = n then (s.node q).pruned else s.node q := by
    intro l
    induction l with
    | nil => exact fun s _ => by rw [if_neg fun h => absurd h.1 List.not_mem_nil]; rfl
    | cons p l ih =>
      intro s hl
      obtain ⟨hp, hl⟩ := List.nodup_cons.mp hl
      rw [List.foldl_cons, ih _ hl, node_pruneEntry]
      by_cases hq : q = p
      · subst hq
        rw [if_neg fun h => hp h.1]
        simp only [List.mem_cons, true_or, true_and]
      · simp only [hq, false_and, if_false, List.mem_cons, false_or]
  exact hfold _ s hnodup
end ChainState

/-- An element is set in a list that is filled up to it. -/
theorem getD_set_pad {α : Type} (l : List α) (n k : Nat) (a d : α) :
    ((l ++ List.replicate (n + 1 - l.length) d).set n a).getD k d = if k = n then a else l.getD k d := by
  simp only [List.getD_eq_getElem?_getD, List.getElem?_set, List.length_append, List.length_replicate]
  by_cases hk : k = n
  · subst hk
    rw [if_pos rfl, if_pos (by omega), if_pos rfl, Option.getD_some]
  · rw [if_neg (Ne.symm hk), if_neg hk, List.getElem?_append]
    split_ifs with hlt
    · rfl
    · rw [List.getElem?_replicate, List.getElem?_eq_none (Nat.not_lt.mp hlt)]
      split_ifs <;> rfl

namespace Globals

variable {g g' g₀ : Globals} {d : Disk} {dataEnd undoEnd dataEnd' undoEnd' : Nat} {p : Ptr}
  {args : PruneArgs} {env : FlushEnv} {files : List Nat}

theorem info_setInfo (g : Globals) (n k : Nat) (info : CBlockFileInfo) :
    (g.setInfo n info).info k = if k = n then info else g.info k :=
  getD_set_pad g.vinfoBlockFile n k info .null

theorem mem_foldl_insertNew {q : Nat} (l base : List Nat) :
    q ∈ l.foldl (fun l p => insertNew p l) base ↔ q ∈ l ∨ q ∈ base := by
  induction l generalizing base with
  | nil => simp
  | cons p l ih => rw [List.foldl_cons, ih, mem_insertNew, List.mem_cons, or_left_comm, or_assoc]

theorem mem_dirty_pruneOne {q : Ptr} (g : Globals) (n : Nat) :
    q ∈ (g.pruneOneBlockFile n).setDirtyBlockIndex ↔
      (g.chain.Known q ∧ (g.chain.node q).nFile = n) ∨ q ∈ g.setDirtyBlockIndex := by
  have hmem := mem_foldl_insertNew (q := q)
    (g.chain.mapBlockIndex.filter fun p => (g.chain.node p).nFile == n) g.setDirtyBlockIndex
  rw [List.mem_filter, beq_iff_eq] at hmem
  exact hmem

/-- What pruning some files leaves: nothing refers to them, and the rest is as before. -/
structure Pruned (g g' : Globals) (files : List Nat) : Prop where
  tree : g.chain.SameTree g'.chain
  vChain : g'.chain.vChain = g.chain.vChain
  last : g'.nLastBlockFile = g.nLastBlockFile
  info : g'.info g.nLastBlockFile = g.info g.nLastBlockFile
  data : ∀ p, g.chain.Known p → (g'.chain.status p).haveData = true →
    (g.chain.status p).haveData = true ∧ (g'.chain.node p).nFile = (g.chain.node p).nFile ∧
      (g'.chain.node p).nFile ∉ files

theorem Pruned.refl (g : Globals) : g.Pruned g [] :=
  ⟨.refl _, rfl, rfl, rfl, fun _ _ h => ⟨h, rfl, List.not_mem_nil⟩⟩

theorem Pruned.trans {g'' : Globals} {files' : List Nat} (h : g.Pruned g' files)
    (h' : g'.Pruned g'' files') : g.Pruned g'' (files ++ files') where
  tree := h.tree.trans h'.tree
  vChain := h'.vChain.trans h.vChain
  last := h'.last.trans h.last
  info := by rw [← h.info, ← h.last, h'.info]
  data p hp hd := by
    obtain ⟨hd', hf', hn'⟩ := h'.data p (by rwa [h.tree.known]) hd
    obtain ⟨hd'', hf'', hn''⟩ := h.data p hp hd'
    refine ⟨hd'', hf'.trans hf'', fun hmem => ?_⟩
    rcases List.mem_append.mp hmem with hmem | hmem
    · exact hn'' (hf' ▸ hmem)
    · exact hn' hmem

/-- `PruneOneBlockFile` of a file before the last. -/
theorem Ok.pruneOne {n : Nat} (h : g.Ok dataEnd undoEnd d) (hn : n < g.nLastBlockFile) :
    (g.pruneOneBlockFile n).Ok dataEnd undoEnd d ∧ g.Pruned (g.pruneOneBlockFile n) [n] := by
  have hkept := kept_pruneOneBlockFile g.chain n
  have hnode : ∀ p, g.chain.Known p → (g.pruneOneBlockFile n).chain.node p =
      if (g.chain.node p).nFile = n then (g.chain.node p).pruned else g.chain.node p := by
    intro p hp
    have hspec := node_pruneOneBlockFile h.index.tree.nodup n p
    simp only [hp, true_and] at hspec
    exact hspec
  have hflags : ∀ p, g.chain.Known p → ((g.pruneOneBlockFile n).chain.status p).haveData = true ∨
      ((g.pruneOneBlockFile n).chain.status p).haveUndo = true →
      (g.pruneOneBlockFile n).chain.node p = g.chain.node p ∧ (g.chain.node p).nFile ≠ n := by
    intro p hp hflag
    have hp' := hnode p hp
    split_ifs at hp' with hf
    · rw [status, hp'] at hflag
      rcases hflag with hflag | hflag <;> cases hflag
    · exact ⟨hp', hf⟩
  refine ⟨h.update (h.index.kept hkept) hkept.same (fun p hp => ?_) (fun p hp => ?_)
    (fun p hp hclean => ?_) rfl (Nat.le_refl _) (Nat.le_refl _) (fun p hp hu => ?_)
    (fun p hp hd => ?_) (fun p hp hu => ?_) h.best, hkept.same, hkept.chain, rfl, ?_, ?_⟩
  · exact (mem_dirty_pruneOne g n).mpr (.inr hp)
  · exact ((mem_dirty_pruneOne g n).mp hp).elim And.left (h.dirty p)
  · have hp' := hnode p hp
    split_ifs at hp' with hf
    · exact absurd ((mem_dirty_pruneOne g n).mpr (.inl ⟨hp, hf⟩)) hclean
    · rw [hp']
  · obtain ⟨heq, -⟩ := hflags p hp (.inr hu)
    rw [status, heq] at hu ⊢
    exact h.undoData p hp hu
  · obtain ⟨heq, -⟩ := hflags p hp (.inl hd)
    rw [status, heq] at hd
    rw [heq]
    exact h.data p hp hd
  · obtain ⟨heq, -⟩ := hflags p hp (.inr hu)
    rw [status, heq] at hu
    rw [heq]
    exact h.undo p hp hu
  · rw [pruneOneBlockFile, info_setInfo, if_neg (by omega)]
    rfl
  · intro p hp hd
    obtain ⟨heq, hne⟩ := hflags p hp (.inl hd)
    rw [status, heq] at hd
    rw [heq]
    exact ⟨hd, rfl, fun hmem => hne (List.mem_singleton.mp hmem)⟩

theorem Ok.pruneFiles (limit : Nat) {fileNumbers : List Nat} (usage : Nat)
    (h : g.Ok dataEnd undoEnd d) (hlt : ∀ n ∈ fileNumbers, n < g.nLastBlockFile) :
    (pruneFiles args limit fileNumbers usage g).2.Ok dataEnd undoEnd d ∧
      g.Pruned (pruneFiles args limit fileNumbers usage g).2
        (pruneFiles args limit fileNumbers usage g).1 := by
  induction fileNumbers generalizing usage g with
  | nil => exact ⟨h, .refl g⟩
  | cons n fileNumbers ih =>
    have hrest : ∀ k ∈ fileNumbers, k < g.nLastBlockFile := fun k hk =>
      hlt k (List.mem_cons_of_mem _ hk)
    rw [Globals.pruneFiles]
    simp only
    split_ifs
    · exact ih usage h hrest
    · exact ⟨h, .refl g⟩
    · exact ih usage h hrest
    · obtain ⟨h', hp⟩ := h.pruneOne (hlt n (List.mem_cons_self ..))
      obtain ⟨h'', hp'⟩ := ih ((usage + 2 ^ 64 - (g.info n).bytes) % 2 ^ 64) h' hrest
      exact ⟨h'', hp.trans hp'⟩

theorem Ok.findFilesToPrune (args : PruneArgs) (h : g.Ok dataEnd undoEnd d) :
    (g.findFilesToPrune args).2.Ok dataEnd undoEnd d ∧
      g.Pruned (g.findFilesToPrune args).2 (g.findFilesToPrune args).1 := by
  unfold Globals.findFilesToPrune
  cases g.chain.tip with
  | none => exact ⟨h, .refl g⟩
  | some tip =>
    simp only
    split_ifs
    · exact ⟨h, .refl g⟩
    · exact ⟨h, .refl g⟩
    · exact h.pruneFiles _ _ fun n hn => List.mem_range.mp hn

/-! ## `FlushStateToDisk` -/

/-- What holds after a flush, besides the invariant: the tree and the active chain are as before. -/
structure Flushing (g₀ g : Globals) (d : Disk) : Prop where
  inv : g.Inv d
  tree : g₀.chain.SameTree g.chain
  vChain : g.chain.vChain = g₀.chain.vChain

theorem Inv.consistent (h : g.Inv d) : d.Consistent := Ok.consistent h

/-- Memory changes in what neither the invariant nor the chain is about. -/
theorem Flushing.frame (h : Flushing g₀ g d) (hchain : g'.chain = g.chain)
    (hdirty : g'.setDirtyBlockIndex = g.setDirtyBlockIndex)
    (hlast : g'.nLastBlockFile = g.nLastBlockFile) (hvinfo : g'.vinfoBlockFile = g.vinfoBlockFile)
    (hbest : g'.hashBlock = g.hashBlock) : Flushing g₀ g' d where
  inv := by
    have hinfo : g'.info g'.nLastBlockFile = g.info g.nLastBlockFile := by
      rw [Globals.info, Globals.info, hvinfo, hlast]
    refine Ok.frame h.inv hchain hdirty hlast (hbest ▸ Ok.best h.inv) ?_ ?_ <;> rw [hinfo]
  tree := hchain ▸ h.tree
  vChain := (congrArg ChainState.vChain hchain).trans h.vChain

theorem checkForPruning_sound (args : PruneArgs) (h : g.Inv d) :
    (g.checkForPruning args).2.Sound Disk.write Disk.Consistent d
      (fun g' d' => Flushing g g' d' ∧ ∀ p, g'.chain.Known p → (g'.chain.status p).haveData = true →
        (g'.chain.node p).nFile ∉ (g.checkForPruning args).1)
      (Flushing g) := by
  unfold checkForPruning
  split_ifs with hcheck
  · obtain ⟨hok, hp⟩ := Ok.findFilesToPrune args h
    generalize g.findFilesToPrune args = r at hok hp
    obtain ⟨files, g'⟩ := r
    have hinv : g'.Inv d := by
      rw [Inv, hp.last, hp.info]
      exact hok
    have hflushing : Flushing g g' d := ⟨hinv, hp.tree, hp.vChain⟩
    have hfiles : ∀ p, g'.chain.Known p → (g'.chain.status p).haveData = true →
        (g'.chain.node p).nFile ∉ files := fun p hk hd =>
      (hp.data p (by rwa [hp.tree.known] at hk) hd).2.2
    simp only
    split_ifs
    · exact Effect.sound_done h.consistent ⟨hflushing.frame rfl rfl rfl rfl rfl, hfiles⟩
    · have hwritten : Flushing g g' (d.write .prunedFlag) :=
        ⟨Ok.prunedFlag hinv, hp.tree, hp.vChain⟩
      exact Effect.sound_write (.cons h.consistent (stops_nil.mpr hwritten.inv.consistent))
        ⟨hwritten.frame rfl rfl rfl rfl rfl, hfiles⟩
  · exact Effect.sound_done h.consistent
      ⟨⟨h, .refl _, rfl⟩, fun _ _ _ => List.not_mem_nil⟩

/-- The pruned files are removed when nothing refers to them. -/
theorem Ok.unlink (h : g.Ok dataEnd undoEnd d) (hdirty : g.setDirtyBlockIndex = [])
    (hfiles : ∀ p, g.chain.Known p → (g.chain.status p).haveData = true →
      (g.chain.node p).nFile ∉ files) :
    Stops Disk.write Disk.Consistent d (unlinkPrunedFiles files) ∧
      g.Ok dataEnd undoEnd ((unlinkPrunedFiles files).foldl Disk.write d) := by
  refine stops_of_step (I := fun d => g.Ok dataEnd undoEnd d) (fun d hd => hd.consistent)
    (fun w hw d hd => ?_) h
  obtain ⟨n, hn, hw⟩ := List.mem_flatMap.mp hw
  have hne : ∀ p, g.chain.Known p → (g.chain.status p).haveData = true →
      (g.chain.node p).nFile ≠ n := fun p hp hdata heq => hfiles p hp hdata (heq ▸ hn)
  rcases List.mem_pair.mp hw with rfl | rfl
  · exact hd.unlinkBlock hdirty hne
  · exact hd.unlinkUndo hdirty hne

theorem writeBlockIndex_sound (h : Flushing g₀ g d) (henv : env.indexWritten = true)
    (hfiles : ∀ p, g.chain.Known p → (g.chain.status p).haveData = true →
      (g.chain.node p).nFile ∉ files) :
    (g.writeBlockIndex env files).Sound Disk.write Disk.Consistent d
      (fun g' d' => Flushing g₀ g' d' ∧ g'.setDirtyBlockIndex = []) (Flushing g₀) := by
  unfold writeBlockIndex
  by_cases hspace : (!env.spaceForIndex) = true
  · rw [if_pos hspace]
    exact Effect.sound_fail h.inv.consistent h
  · rw [if_neg hspace]
    have hcommit := Ok.commitBlock h.inv
    have hcommits := hcommit.commitUndo
    have hflushed := Ok.flushed h.inv
    refine Effect.Sound.andThen (R := fun g' d' => g' = g ∧ Flushing g₀ g d' ∧
      g.Flushed (g.info g.nLastBlockFile).nSize (g.info g.nLastBlockFile).nUndoSize d') ?_ ?_
    · exact Effect.sound_write (.cons h.inv.consistent (.cons hcommit.consistent
        (stops_nil.mpr hcommits.consistent))) ⟨rfl, ⟨hcommits, h.tree, h.vChain⟩, hflushed⟩
    · rintro g' d' ⟨rfl, h', hf⟩ hP
      simp only [henv, Bool.not_true, Bool.false_eq_true, if_false]
      have hbatch := Ok.batch h'.inv hf
      obtain ⟨hstops, hunlinked⟩ := hbatch.unlink rfl hfiles
      refine Effect.sound_write (hstops.cons hP) ⟨?_, rfl⟩
      have hend : Flushing g₀ { g' with setDirtyFileInfo := [], setDirtyBlockIndex := [] }
          ((unlinkPrunedFiles files).foldl Disk.write (d'.write g'.indexBatch)) :=
        ⟨hunlinked, h'.tree, h'.vChain⟩
      exact hend.frame rfl rfl rfl rfl rfl

theorem writeCoins_sound (h : Flushing g₀ g d) (hdirty : g.setDirtyBlockIndex = []) :
    (g.writeCoins env).Sound Disk.write Disk.Consistent d (Flushing g₀) (Flushing g₀) := by
  unfold writeCoins
  split_ifs
  · exact Effect.sound_fail h.inv.consistent h
  · have hcoins := Ok.coins h.inv hdirty
    have hend : Flushing g₀ g (d.write (.coins g.hashBlock)) := ⟨hcoins, h.tree, h.vChain⟩
    exact Effect.sound_write (.cons h.inv.consistent (stops_nil.mpr hcoins.consistent))
      (hend.frame rfl rfl rfl rfl rfl)

/-- `FlushStateToDisk` in any mode, whether it ends early or not. -/
theorem flushStateToDisk_sound (args : PruneArgs) (mode : FlushStateMode) (h : g.Inv d)
    (henv : env.indexWritten = true) :
    (g.flushStateToDisk args mode env).Sound Disk.write Disk.Consistent d (Flushing g)
      (Flushing g) := by
  have hcheck := checkForPruning_sound args h
  unfold flushStateToDisk
  generalize g.checkForPruning args = r at hcheck
  obtain ⟨files, e⟩ := r
  refine hcheck.andThen fun g' d' ⟨h', hfiles⟩ hP => ?_
  have hstart : Flushing g (g'.startClock env.nNow) d' := h'.frame rfl rfl rfl rfl rfl
  have hwrite := writeBlockIndex_sound hstart henv hfiles
  show Effect.Sound _ _ _ _ _
    (if (g'.startClock env.nNow).doFullFlush mode env !files.isEmpty then
      (if (g'.startClock env.nNow).doFullFlush mode env (!files.isEmpty) ||
          (g'.startClock env.nNow).periodicWrite mode env then
        (g'.startClock env.nNow).writeBlockIndex env files else .done _).andThen (writeCoins env)
    else if (g'.startClock env.nNow).doFullFlush mode env (!files.isEmpty) ||
          (g'.startClock env.nNow).periodicWrite mode env then
        (g'.startClock env.nNow).writeBlockIndex env files else .done _)
  cases (g'.startClock env.nNow).doFullFlush mode env !files.isEmpty with
  | true => exact hwrite.andThen fun g'' d'' ⟨h'', hdirty⟩ _ => writeCoins_sound h'' hdirty
  | false =>
    cases (g'.startClock env.nNow).periodicWrite mode env with
    | true => exact hwrite.mono (fun _ _ h => h.1) fun _ _ h => h
    | false => exact Effect.sound_done hP hstart
end Globals

end GC
