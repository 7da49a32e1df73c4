import GameCredits.Model.Flush
import GameCredits.Proof.Route

/-!
# What memory and disk have in common

The disk is consistent (`Disk.Consistent`) when the best block of the coins and its ancestors are in
the block index, and the index refers to committed data only. `Globals.Ok` is the invariant of memory
and disk behind it: what is not dirty is in the index as it is in memory, and what is there in memory
is placed in the files.

* `Ok.update`, `Ok.frame`: the invariant after changes in memory.
* `Ok.batch`: the batch of the dirty entries may be written when what they refer to is settled.
* `Ok.coins`: the coins may be written when nothing is dirty.
-/

namespace GC

open Framework ChainState

/-! ## Consistent disks -/

/-- The block index has a block and all its ancestors. -/
inductive Disk.Rooted (d : Disk) : UInt256 → Prop
  | root {h e} (hd : d.blockIndex h = some e) (hprev : e.hashPrev = 0) : Rooted d h
  | next {h e} (hd : d.blockIndex h = some e) (hprev : Rooted d e.hashPrev) : Rooted d h

/-- What a node can start from: the best block of the coins is in the index with its ancestors, and
the entries of the index with data or undo data refer to files that are there and to data in them
that has been committed. -/
structure Disk.Consistent (d : Disk) : Prop where
  best : d.bestBlock = 0 ∨ d.Rooted d.bestBlock
  data : ∀ h e, d.blockIndex h = some e → e.nStatus.haveData = true →
    (d.blk e.nFile).present = true ∧ (e.nDataPos, h) ∈ (d.blk e.nFile).committed
  undo : ∀ h e, d.blockIndex h = some e → e.nStatus.haveUndo = true →
    (d.rev e.nFile).present = true ∧ (e.nUndoPos, h) ∈ (d.rev e.nFile).committed

/-- An index that keeps the entries and their parents keeps the ancestors. -/
theorem Disk.Rooted.mono {d d' : Disk} {k : UInt256} (h : d.Rooted k)
    (hmono : ∀ h e, d.blockIndex h = some e →
      ∃ e', d'.blockIndex h = some e' ∧ e'.hashPrev = e.hashPrev) : d'.Rooted k := by
  induction h with
  | root hd hprev =>
    obtain ⟨e', he', heq⟩ := hmono _ _ hd
    exact .root he' (heq.trans hprev)
  | next hd _ ih =>
    obtain ⟨e', he', heq⟩ := hmono _ _ hd
    exact .next he' (heq ▸ ih)

/-- A record after a batch is that of the batch, if it has one. -/
theorem putAll_cases {κ ν : Type} [DecidableEq κ] (records : κ → Option ν) (batch : List (κ × ν))
    (k : κ) :
    (putAll records batch k = records k ∧ ∀ e ∈ batch, e.1 ≠ k) ∨
      ∃ v, (k, v) ∈ batch ∧ putAll records batch k = some v := by
  induction batch using List.reverseRecOn with
  | nil => exact .inl ⟨rfl, fun e he => absurd he List.not_mem_nil⟩
  | append_singleton batch e ih =>
    have hput : putAll records (batch ++ [e]) k = if k = e.1 then some e.2 else putAll records batch k := by
      rw [putAll, List.foldl_append]
      rfl
    rw [hput]
    split_ifs with hk
    · exact .inr ⟨e.2, List.mem_append_right _ (by rw [hk]; exact List.mem_singleton_self e), rfl⟩
    · rcases ih with ⟨hsame, hne⟩ | ⟨v, hv, hput⟩
      · refine .inl ⟨hsame, fun e' he' => ?_⟩
        rcases List.mem_append.mp he' with he' | he'
        · exact hne e' he'
        · rw [List.mem_singleton.mp he']
          exact fun h => hk h.symm
      · exact .inr ⟨v, List.mem_append_left _ hv, hput⟩

/-! ## Entries as they are stored -/

/-- What is stored of an entry, besides the hash of its parent. -/
def CBlockIndex.record (e : CBlockIndex) :
    Nat × Nat × BlockStatus × Nat × Nat × Nat × Int × UInt256 × UInt32 × UInt32 × UInt32 :=
  (e.nHeight, e.nTx, e.nStatus, e.nFile, e.nDataPos, e.nUndoPos, e.nVersion, e.hashMerkleRoot,
    e.nTime, e.nBits, e.nNonce)

namespace ChainState

variable {s s' : ChainState} {p q : Ptr}

theorem SameTree.phashBlock (h : s.SameTree s') (p : Ptr) :
    (s'.node p).phashBlock = (s.node p).phashBlock := by
  have := h.place p
  simp only [CBlockIndex.place, Prod.mk.injEq] at this
  exact this.1

theorem SameTree.hashPrev (h : s.SameTree s') (p : Ptr) : s'.hashPrev p = s.hashPrev p := by
  have hparent : (s'.node p).pprev = (s.node p).pprev := congrFun h.parent p
  rw [ChainState.hashPrev, ChainState.hashPrev, hparent]
  cases (s.node p).pprev with
  | none => rfl
  | some q => exact h.phashBlock q

/-- Entries with the same record are stored alike. -/
theorem diskIndex_eq (h : s.SameTree s') (hr : (s'.node p).record = (s.node p).record) :
    s'.diskIndex p = s.diskIndex p := by
  simp only [CBlockIndex.record, Prod.mk.injEq] at hr
  obtain ⟨h₁, h₂, h₃, h₄, h₅, h₆, h₇, h₈, h₉, h₁₀, h₁₁⟩ := hr
  rw [diskIndex, diskIndex, h.hashPrev, h₁, h₂, h₃, h₄, h₅, h₆, h₇, h₈, h₉, h₁₀, h₁₁]

/-- What the invariant needs of a record: the flags and the positions. -/
theorem record_eq (hr : (s'.node p).record = (s.node p).record) :
    s'.status p = s.status p ∧ (s'.node p).nFile = (s.node p).nFile ∧
      (s'.node p).nDataPos = (s.node p).nDataPos ∧ (s'.node p).nUndoPos = (s.node p).nUndoPos := by
  simp only [CBlockIndex.record, Prod.mk.injEq] at hr
  obtain ⟨-, -, h₃, h₄, h₅, h₆, -⟩ := hr
  exact ⟨h₃, h₄, h₅, h₆⟩

theorem diskIndex_data (h : (s.status p).haveData = true) :
    (s.diskIndex p).nFile = (s.node p).nFile ∧ (s.diskIndex p).nDataPos = (s.node p).nDataPos :=
  ⟨if_pos (by rw [Bool.or_eq_true]; exact .inl h), if_pos h⟩

theorem diskIndex_undo (h : (s.status p).haveUndo = true) :
    (s.diskIndex p).nFile = (s.node p).nFile ∧ (s.diskIndex p).nUndoPos = (s.node p).nUndoPos :=
  ⟨if_pos (by rw [Bool.or_eq_true]; exact .inr h), if_pos h⟩

end ChainState

theorem mem_insertNew {p q : Nat} {l : List Nat} : q ∈ insertNew p l ↔ q = p ∨ q ∈ l := by
  unfold insertNew
  split_ifs with h
  · exact ⟨.inr, fun hq => hq.elim (fun hq => hq ▸ h) id⟩
  · exact List.mem_cons

/-! ## The invariant -/

namespace Globals

/-- Memory and disk fit together. The positions in the last block file are below `dataEnd`, those in
the last undo file below `undoEnd`. -/
structure Ok (dataEnd undoEnd : Nat) (g : Globals) (d : Disk) : Prop where
  index : g.chain.Index
  hashes : ∀ p q, g.chain.Known p → g.chain.Known q →
    (g.chain.node p).phashBlock = (g.chain.node q).phashBlock → p = q
  dirty : ∀ p ∈ g.setDirtyBlockIndex, g.chain.Known p
  /-- Entries that are not dirty are in the index as they are. -/
  clean : ∀ p, g.chain.Known p → p ∉ g.setDirtyBlockIndex →
    d.blockIndex (g.chain.node p).phashBlock = some (g.chain.diskIndex p)
  prev : ∀ p e, g.chain.Known p → d.blockIndex (g.chain.node p).phashBlock = some e →
    e.hashPrev = g.chain.hashPrev p
  known : ∀ h e, d.blockIndex h = some e → ∃ p, g.chain.Known p ∧ (g.chain.node p).phashBlock = h
  undoData : ∀ p, g.chain.Known p → (g.chain.status p).haveUndo = true →
    (g.chain.status p).haveData = true
  data : ∀ p, g.chain.Known p → (g.chain.status p).haveData = true →
    Placed d.blk g.nLastBlockFile dataEnd (g.chain.node p).nFile (g.chain.node p).nDataPos
      (g.chain.node p).phashBlock
  undo : ∀ p, g.chain.Known p → (g.chain.status p).haveUndo = true →
    Placed d.rev g.nLastBlockFile undoEnd (g.chain.node p).nFile (g.chain.node p).nUndoPos
      (g.chain.node p).phashBlock
  settledData : ∀ h e, d.blockIndex h = some e → e.nStatus.haveData = true →
    Settled d.blk g.nLastBlockFile dataEnd e.nFile e.nDataPos h
  settledUndo : ∀ h e, d.blockIndex h = some e → e.nStatus.haveUndo = true →
    Settled d.rev g.nLastBlockFile undoEnd e.nFile e.nUndoPos h
  best : g.hashBlock = 0 ∨ ∃ p, g.chain.Known p ∧ (g.chain.node p).phashBlock = g.hashBlock
  rooted : d.bestBlock = 0 ∨ d.Rooted d.bestBlock

/-- The invariant between operations: the ends are those of `vinfoBlockFile`. -/
def Inv (g : Globals) (d : Disk) : Prop :=
  g.Ok (g.info g.nLastBlockFile).nSize (g.info g.nLastBlockFile).nUndoSize d

variable {g g' : Globals} {d : Disk} {dataEnd undoEnd dataEnd' undoEnd' : Nat} {p : Ptr}

theorem Ok.consistent (h : g.Ok dataEnd undoEnd d) : d.Consistent where
  best := h.rooted
  data k e he hdata := ⟨(h.settledData k e he hdata).present, (h.settledData k e he hdata).committed⟩
  undo k e he hundo := ⟨(h.settledUndo k e he hundo).present, (h.settledUndo k e he hundo).committed⟩

/-! ## Changes in memory -/

/-- Entries change: those whose records change are dirty, and what is there is placed. -/
theorem Ok.update (h : g.Ok dataEnd undoEnd d) (hI : g'.chain.Index)
    (hs : g.chain.SameTree g'.chain)
    (hdirty : ∀ p ∈ g.setDirtyBlockIndex, p ∈ g'.setDirtyBlockIndex)
    (hknown : ∀ p ∈ g'.setDirtyBlockIndex, g.chain.Known p)
    (hrecord : ∀ p, g.chain.Known p → p ∉ g'.setDirtyBlockIndex →
      (g'.chain.node p).record = (g.chain.node p).record)
    (hlast : g'.nLastBlockFile = g.nLastBlockFile) (hdataEnd : dataEnd ≤ dataEnd')
    (hundoEnd : undoEnd ≤ undoEnd')
    (hundoData : ∀ p, g.chain.Known p → (g'.chain.status p).haveUndo = true →
      (g'.chain.status p).haveData = true)
    (hdata : ∀ p, g.chain.Known p → (g'.chain.status p).haveData = true →
      Placed d.blk g.nLastBlockFile dataEnd' (g'.chain.node p).nFile (g'.chain.node p).nDataPos
        (g.chain.node p).phashBlock)
    (hundo : ∀ p, g.chain.Known p → (g'.chain.status p).haveUndo = true →
      Placed d.rev g.nLastBlockFile undoEnd' (g'.chain.node p).nFile (g'.chain.node p).nUndoPos
        (g.chain.node p).phashBlock)
    (hbest : g'.hashBlock = 0 ∨
      ∃ p, g.chain.Known p ∧ (g.chain.node p).phashBlock = g'.hashBlock) :
    g'.Ok dataEnd' undoEnd' d where
  index := hI
  hashes p q hp hq heq := by
    rw [hs.known] at hp hq
    rw [hs.phashBlock, hs.phashBlock] at heq
    exact h.hashes p q hp hq heq
  dirty p hp := by
    rw [hs.known]
    exact hknown p hp
  clean p hp hclean := by
    rw [hs.known] at hp
    rw [hs.phashBlock, diskIndex_eq hs (hrecord p hp hclean)]
    exact h.clean p hp fun hp' => hclean (hdirty p hp')
  prev p e hp he := by
    rw [hs.known] at hp
    rw [hs.phashBlock] at he
    rw [hs.hashPrev]
    exact h.prev p e hp he
  known k e he := by
    obtain ⟨p, hp, rfl⟩ := h.known k e he
    exact ⟨p, by rwa [hs.known], hs.phashBlock p⟩
  undoData p hp := by
    rw [hs.known] at hp
    exact hundoData p hp
  data p hp hd := by
    rw [hs.known] at hp
    rw [hlast, hs.phashBlock]
    exact hdata p hp hd
  undo p hp hu := by
    rw [hs.known] at hp
    rw [hlast, hs.phashBlock]
    exact hundo p hp hu
  settledData k e he hd := by
    rw [hlast]
    exact (h.settledData k e he hd).advance (Nat.le_refl _) fun _ => hdataEnd
  settledUndo k e he hu := by
    rw [hlast]
    exact (h.settledUndo k e he hu).advance (Nat.le_refl _) fun _ => hundoEnd
  best := hbest.imp_right fun ⟨p, hp, heq⟩ => ⟨p, by rwa [hs.known], (hs.phashBlock p).trans heq⟩
  rooted := h.rooted

/-- One entry changes and becomes dirty. -/
theorem Ok.change {c : ChainState} (h : g.Ok dataEnd undoEnd d) (hp : g.chain.Known p) (hI : c.Index)
    (hs : g.chain.SameTree c)
    (hother : ∀ q, q ≠ p → (c.node q).record = (g.chain.node q).record)
    (hundoData : (c.status p).haveUndo = true → (c.status p).haveData = true)
    (hdata : (c.status p).haveData = true →
      Placed d.blk g.nLastBlockFile dataEnd (c.node p).nFile (c.node p).nDataPos
        (g.chain.node p).phashBlock)
    (hundo : (c.status p).haveUndo = true →
      Placed d.rev g.nLastBlockFile undoEnd (c.node p).nFile (c.node p).nUndoPos
        (g.chain.node p).phashBlock) :
    ({ g with chain := c }.markDirty p).Ok dataEnd undoEnd d := by
  refine h.update hI hs (fun q hq => mem_insertNew.mpr (.inr hq)) (fun q hq => ?_) (fun q _ hq => ?_)
    rfl (Nat.le_refl _) (Nat.le_refl _) (fun q hq hu => ?_) (fun q hq hd => ?_) (fun q hq hu => ?_)
    h.best
  · exact (mem_insertNew.mp hq).elim (fun heq => heq ▸ hp) (h.dirty q)
  · exact hother q fun heq => hq (mem_insertNew.mpr (.inl heq))
  · by_cases heq : q = p
    · subst heq; exact hundoData hu
    · obtain ⟨hst, -⟩ := record_eq (hother q heq)
      change (c.status q).haveData = true
      change (c.status q).haveUndo = true at hu
      rw [hst] at hu ⊢
      exact h.undoData q hq hu
  · by_cases heq : q = p
    · subst heq; exact hdata hd
    · obtain ⟨hst, hf, hpos, -⟩ := record_eq (hother q heq)
      change (c.status q).haveData = true at hd
      change Placed _ _ _ (c.node q).nFile (c.node q).nDataPos _
      rw [hst] at hd
      rw [hf, hpos]
      exact h.data q hq hd
  · by_cases heq : q = p
    · subst heq; exact hundo hu
    · obtain ⟨hst, hf, -, hpos⟩ := record_eq (hother q heq)
      change (c.status q).haveUndo = true at hu
      change Placed _ _ _ (c.node q).nFile (c.node q).nUndoPos _
      rw [hst] at hu
      rw [hf, hpos]
      exact h.undo q hq hu

/-- Nothing changes that the invariant is about, but the ends and the best block. -/
theorem Ok.frame (h : g.Ok dataEnd undoEnd d) (hchain : g'.chain = g.chain)
    (hdirty : g'.setDirtyBlockIndex = g.setDirtyBlockIndex)
    (hlast : g'.nLastBlockFile = g.nLastBlockFile)
    (hbest : g'.hashBlock = 0 ∨ ∃ p, g.chain.Known p ∧ (g.chain.node p).phashBlock = g'.hashBlock)
    (hdataEnd : dataEnd ≤ dataEnd') (hundoEnd : undoEnd ≤ undoEnd') :
    g'.Ok dataEnd' undoEnd' d := by
  refine h.update (by rw [hchain]; exact h.index) (by rw [hchain]; exact .refl _)
    (fun q hq => by rwa [hdirty]) (fun q hq => h.dirty q (by rwa [hdirty] at hq))
    (fun q _ _ => by rw [hchain]) hlast hdataEnd hundoEnd (fun q hq => ?_) (fun q hq hd => ?_)
    (fun q hq hu => ?_) hbest
  · rw [hchain]
    exact h.undoData q hq
  · rw [hchain] at hd ⊢
    exact (h.data q hq hd).grow hdataEnd
  · rw [hchain] at hu ⊢
    exact (h.undo q hq hu).grow hundoEnd

/-! ## Writes -/

/-- What memory refers to is settled. -/
structure Flushed (dataEnd undoEnd : Nat) (g : Globals) (d : Disk) : Prop where
  data : ∀ p, g.chain.Known p → (g.chain.status p).haveData = true →
    Settled d.blk g.nLastBlockFile dataEnd (g.chain.node p).nFile (g.chain.node p).nDataPos
      (g.chain.node p).phashBlock
  undo : ∀ p, g.chain.Known p → (g.chain.status p).haveUndo = true →
    Settled d.rev g.nLastBlockFile undoEnd (g.chain.node p).nFile (g.chain.node p).nUndoPos
      (g.chain.node p).phashBlock

theorem Ok.commitBlock (h : g.Ok dataEnd undoEnd d) :
    g.Ok dataEnd undoEnd (d.write (.commitBlock g.nLastBlockFile)) :=
  { h with
    data := fun p hp hd => (h.data p hp hd).settle.placed
    settledData := fun k e he hd => (h.settledData k e he hd).commit _
    rooted := h.rooted.imp_right fun hr => hr.mono fun _ e he => ⟨e, he, rfl⟩ }

theorem Ok.commitUndo (h : g.Ok dataEnd undoEnd d) :
    g.Ok dataEnd undoEnd (d.write (.commitUndo g.nLastBlockFile)) :=
  { h with
    undo := fun p hp hu => (h.undo p hp hu).settle.placed
    settledUndo := fun k e he hu => (h.settledUndo k e he hu).commit _
    rooted := h.rooted.imp_right fun hr => hr.mono fun _ e he => ⟨e, he, rfl⟩ }

/-- `FlushBlockFile` settles everything. -/
theorem Ok.flushed (h : g.Ok dataEnd undoEnd d) :
    g.Flushed dataEnd undoEnd (g.flushBlockFile.foldl Disk.write d) where
  data p hp hd := (h.data p hp hd).settle
  undo p hp hu := (h.undo p hp hu).settle

theorem Ok.prunedFlag (h : g.Ok dataEnd undoEnd d) :
    g.Ok dataEnd undoEnd (d.write .prunedFlag) :=
  { h with rooted := h.rooted.imp_right fun hr => hr.mono fun _ e he => ⟨e, he, rfl⟩ }

/-- The index after the batch of the dirty entries. -/
theorem Ok.batch_cases (h : g.Ok dataEnd undoEnd d) (k : UInt256) :
    ((d.write g.indexBatch).blockIndex k = d.blockIndex k ∧
      ∀ p ∈ g.setDirtyBlockIndex, (g.chain.node p).phashBlock ≠ k) ∨
    ∃ p, g.chain.Known p ∧ (g.chain.node p).phashBlock = k ∧
      (d.write g.indexBatch).blockIndex k = some (g.chain.diskIndex p) := by
  rcases putAll_cases d.blockIndex
    (g.setDirtyBlockIndex.map fun p => ((g.chain.node p).phashBlock, g.chain.diskIndex p)) k with
    ⟨hsame, hne⟩ | ⟨v, hv, hput⟩
  · exact .inl ⟨hsame, fun p hp => hne _ (List.mem_map_of_mem hp)⟩
  · obtain ⟨p, hp, heq⟩ := List.mem_map.mp hv
    obtain ⟨rfl, rfl⟩ := Prod.mk.inj heq
    exact .inr ⟨p, h.dirty p hp, rfl, hput⟩

/-- The batch of the dirty entries, when all that they refer to is settled. -/
theorem Ok.batch (h : g.Ok dataEnd undoEnd d) (hf : g.Flushed dataEnd undoEnd d) :
    { g with setDirtyFileInfo := [], setDirtyBlockIndex := [] }.Ok dataEnd undoEnd
      (d.write g.indexBatch) := by
  have hclean : ∀ p, g.chain.Known p →
      (d.write g.indexBatch).blockIndex (g.chain.node p).phashBlock = some (g.chain.diskIndex p) := by
    intro p hp
    rcases h.batch_cases (g.chain.node p).phashBlock with ⟨hsame, hne⟩ | ⟨q, hq, heq, hput⟩
    · rw [hsame]
      exact h.clean p hp fun hp' => hne p hp' rfl
    · rw [hput, h.hashes q p hq hp heq]
  have hcases : ∀ k e, (d.write g.indexBatch).blockIndex k = some e → d.blockIndex k = some e ∨
      ∃ p, g.chain.Known p ∧ (g.chain.node p).phashBlock = k ∧ e = g.chain.diskIndex p := by
    intro k e he
    rcases h.batch_cases k with ⟨hsame, -⟩ | ⟨p, hp, heq, hput⟩
    · exact .inl (hsame ▸ he)
    · rw [hput] at he
      exact .inr ⟨p, hp, heq, (Option.some.inj he).symm⟩
  exact
    { h with
      dirty := fun p hp => absurd hp List.not_mem_nil
      clean := fun p hp _ => hclean p hp
      prev := fun p e hp he => by
        rw [show (d.write g.indexBatch).blockIndex _ = _ from hclean p hp] at he
        cases he
        rfl
      known := fun k e he => by
        rcases hcases k e he with he | ⟨p, hp, heq, -⟩
        · exact h.known k e he
        · exact ⟨p, hp, heq⟩
      settledData := fun k e he hd => by
        rcases hcases k e he with he | ⟨p, hp, rfl, rfl⟩
        · exact h.settledData k e he hd
        · obtain ⟨hfile, hpos⟩ := diskIndex_data hd
          rw [hfile, hpos]
          exact hf.data p hp hd
      settledUndo := fun k e he hu => by
        rcases hcases k e he with he | ⟨p, hp, rfl, rfl⟩
        · exact h.settledUndo k e he hu
        · obtain ⟨hfile, hpos⟩ := diskIndex_undo hu
          rw [hfile, hpos]
          exact hf.undo p hp hu
      rooted := h.rooted.imp_right fun hr => hr.mono fun k e he => by
        obtain ⟨p, hp, rfl⟩ := h.known k e he
        exact ⟨_, hclean p hp, (h.prev p e hp he).symm⟩ }

/-- When nothing is dirty, the index has every entry with its ancestors. -/
theorem Ok.rooted_of_clean (h : g.Ok dataEnd undoEnd d) (hdirty : g.setDirtyBlockIndex = [])
    (hp : g.chain.Known p) : d.Rooted (g.chain.node p).phashBlock := by
  refine h.index.tree.graded.induct (P := fun p => d.Rooted (g.chain.node p).phashBlock)
    (fun p hp ih => ?_) hp
  have hd := h.clean p hp (by rw [hdirty]; exact List.not_mem_nil)
  cases hq : (g.chain.node p).pprev with
  | none => exact .root hd (by rw [diskIndex, hashPrev, hq])
  | some q =>
    refine .next hd ?_
    rw [diskIndex, hashPrev, hq]
    exact ih q hq

/-- The batch of the coins, when nothing is dirty. -/
theorem Ok.coins (h : g.Ok dataEnd undoEnd d) (hdirty : g.setDirtyBlockIndex = []) :
    g.Ok dataEnd undoEnd (d.write (.coins g.hashBlock)) :=
  { h with
    rooted := h.best.imp_right fun ⟨p, hp, heq⟩ => by
      have hr := h.rooted_of_clean hdirty hp
      rw [heq] at hr
      exact hr.mono fun _ e he => ⟨e, he, rfl⟩ }

/-- When nothing is dirty, the index refers to the same files as memory. -/
theorem Ok.file_of_clean (h : g.Ok dataEnd undoEnd d) (hdirty : g.setDirtyBlockIndex = [])
    {k : UInt256} {e : CDiskBlockIndex} (he : d.blockIndex k = some e)
    (hflag : e.nStatus.haveData = true ∨ e.nStatus.haveUndo = true) :
    ∃ p, g.chain.Known p ∧ (g.chain.status p).haveData = true ∧ e.nFile = (g.chain.node p).nFile := by
  obtain ⟨p, hp, rfl⟩ := h.known k e he
  rw [h.clean p hp (by rw [hdirty]; exact List.not_mem_nil)] at he
  cases he
  refine ⟨p, hp, hflag.elim id (h.undoData p hp), if_pos ?_⟩
  rw [Bool.or_eq_true]
  exact hflag

/-- The removal of a block file to which nothing refers. -/
theorem Ok.unlinkBlock {n : Nat} (h : g.Ok dataEnd undoEnd d) (hdirty : g.setDirtyBlockIndex = [])
    (hn : ∀ p, g.chain.Known p → (g.chain.status p).haveData = true → (g.chain.node p).nFile ≠ n) :
    g.Ok dataEnd undoEnd (d.write (.unlinkBlock n)) :=
  { h with
    data := fun p hp hd => (h.data p hp hd).remove (hn p hp hd)
    settledData := fun k e he hd => by
      obtain ⟨p, hp, hd', hf⟩ := h.file_of_clean hdirty he (.inl hd)
      exact (h.settledData k e he hd).remove (hf ▸ hn p hp hd')
    rooted := h.rooted.imp_right fun hr => hr.mono fun _ e he => ⟨e, he, rfl⟩ }

/-- The removal of an undo file to which nothing refers. -/
theorem Ok.unlinkUndo {n : Nat} (h : g.Ok dataEnd undoEnd d) (hdirty : g.setDirtyBlockIndex = [])
    (hn : ∀ p, g.chain.Known p → (g.chain.status p).haveData = true → (g.chain.node p).nFile ≠ n) :
    g.Ok dataEnd undoEnd (d.write (.unlinkUndo n)) :=
  { h with
    undo := fun p hp hu => (h.undo p hp hu).remove (hn p hp (h.undoData p hp hu))
    settledUndo := fun k e he hu => by
      obtain ⟨p, hp, hd', hf⟩ := h.file_of_clean hdirty he (.inr hu)
      exact (h.settledUndo k e he hu).remove (hf ▸ hn p hp hd')
    rooted := h.rooted.imp_right fun hr => hr.mono fun _ e he => ⟨e, he, rfl⟩ }

/-- Data is written at the end of the last block file. -/
theorem Ok.writeBlock {start : Nat} (h : g.Ok dataEnd undoEnd d) (hstart : dataEnd ≤ start)
    (hash : UInt256) :
    g.Ok dataEnd undoEnd (d.write (.block ⟨g.nLastBlockFile, start⟩ hash)) :=
  { h with
    data := fun p hp hd => (h.data p hp hd).write hstart hash
    settledData := fun k e he hd => (h.settledData k e he hd).write hstart hash
    rooted := h.rooted.imp_right fun hr => hr.mono fun _ e he => ⟨e, he, rfl⟩ }

/-- Data is written at the end of the last undo file. -/
theorem Ok.writeUndoData {start : Nat} (h : g.Ok dataEnd undoEnd d) (hstart : undoEnd ≤ start)
    (hash : UInt256) :
    g.Ok dataEnd undoEnd (d.write (.undo ⟨g.nLastBlockFile, start⟩ hash)) :=
  { h with
    undo := fun p hp hu => (h.undo p hp hu).write hstart hash
    settledUndo := fun k e he hu => (h.settledUndo k e he hu).write hstart hash
    rooted := h.rooted.imp_right fun hr => hr.mono fun _ e he => ⟨e, he, rfl⟩ }

end Globals

end GC
