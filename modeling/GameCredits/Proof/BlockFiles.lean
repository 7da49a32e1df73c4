import GameCredits.Model.BlockFiles
import GameCredits.Proof.Storing
import Mathlib.Order.Bounds.Basic

/-!
# Positions in block files do not overlap

What `FindBlockPos` and `FindUndoPos` give out is apart from all else in the file
(`Framework.Appended`), and the table of files says which blocks are stored where (`Describes`), through
runs in which no 32-bit number wraps around and every new block is stored (`Node.Fits`): the invariant is
`Node.Ok`, with one lemma for each operation, and `Node.allocation_apart` is the result.

`Node.allocation_overlaps` is a run with a number that wraps around.
-/

namespace GC

open Framework
open ChainState (DiskBlockPos)

/-! ## The entries after a change -/

namespace ChainState

variable {s : ChainState} {p q : Ptr}

theorem index_received (nTx : Nat) (pos : DiskBlockPos) :
    (s.receivedBlockTransactions p nTx pos).mapBlockIndex = s.mapBlockIndex :=
  received_rule (I := fun _ t => t.mapBlockIndex = s.mapBlockIndex) nTx pos
    (fun _ _ _ h => sameTree_linkEntry.index.trans h) (fun _ => rfl) fun _ => by
    unfold waitForParent
    split
    · rfl
    · split_ifs <;> rfl

theorem record_received_ne (h : q ≠ p) (nTx : Nat) (pos : DiskBlockPos) :
    ((s.receivedBlockTransactions p nTx pos).node q).record = (s.node q).record := by
  rw [same_record_received nTx pos q]
  exact congrArg CBlockIndex.record (node_modify_ne h _)

/-- The fields of the entry that positions are about. -/
theorem received_self (nTx : Nat) (pos : DiskBlockPos) :
    ((s.receivedBlockTransactions p nTx pos).node p).nStatus.haveData = true ∧
    ((s.receivedBlockTransactions p nTx pos).node p).nStatus.haveUndo = (s.node p).nStatus.haveUndo ∧
    ((s.receivedBlockTransactions p nTx pos).node p).nFile = pos.nFile ∧
    ((s.receivedBlockTransactions p nTx pos).node p).nDataPos = pos.nPos ∧
    ((s.receivedBlockTransactions p nTx pos).node p).nHeight = (s.node p).nHeight ∧
    ((s.receivedBlockTransactions p nTx pos).node p).nTime = (s.node p).nTime := by
  have hmark : (s.markReceived p nTx pos).node p = _ := node_modify_self _
  have hrec := same_record_received (s := s) (p := p) nTx pos p
  simp only [CBlockIndex.record, Prod.mk.injEq] at hrec
  obtain ⟨hheight, -, hstatus, hfile, hdata, -, -, -, htime, -, -⟩ := hrec
  rw [hstatus, hfile, hdata, hheight, htime, hmark]
  simp

end ChainState

theorem uint_eq {n : Nat} (h : n < 2 ^ 32) : uint n = n := Nat.mod_eq_of_lt h

theorem uint_le (n : Nat) : uint n ≤ n := Nat.mod_le n _

/-! ## What the table says of a file -/

/-- The least and the greatest of some numbers, when there are any. -/
structure Spans (first last : Nat) (l : List Nat) : Prop where
  empty : l = [] → last = 0
  first : l ≠ [] → IsLeast {x | x ∈ l} first
  last : l ≠ [] → IsGreatest {x | x ∈ l} last

theorem Spans.add {first last x : Nat} {l : List Nat} (h : Spans first last l) :
    Spans (if l.length = 0 ∨ x < first then x else first) (if last < x then x else last) (x :: l) := by
  refine ⟨fun h => (nomatch h), fun _ => ?_, fun _ => ?_⟩
  · by_cases hl : l = []
    · subst hl
      simp [IsLeast]
    · obtain ⟨hmem, hle⟩ := h.first hl
      have hlen : l.length ≠ 0 := fun h => hl (List.length_eq_zero_iff.mp h)
      constructor
      · show _ ∈ x :: l
        split_ifs
        · exact List.mem_cons_self ..
        · exact List.mem_cons_of_mem x hmem
      · intro y hy
        rcases List.mem_cons.mp hy with rfl | hy
        · split_ifs with hlt
          · exact le_refl _
          · exact Nat.not_lt.mp fun hlt' => hlt (.inr hlt')
        · have := hle hy
          split_ifs with hlt
          · exact ((hlt.resolve_left hlen).trans_le this).le
          · exact this
  · constructor
    · show _ ∈ x :: l
      split_ifs with hlt
      · exact List.mem_cons_self ..
      · by_cases hl : l = []
        · rw [h.empty hl, show x = 0 by have := h.empty hl; omega]
          exact List.mem_cons_self ..
        · exact List.mem_cons_of_mem x (h.last hl).1
    · intro y hy
      rcases List.mem_cons.mp hy with rfl | hy
      · split_ifs <;> omega
      · have := (h.last (List.ne_nil_of_mem hy)).2 hy
        split_ifs <;> omega

theorem Spans.perm {first last : Nat} {l l' : List Nat} (h : Spans first last l) (hp : l.Perm l') :
    Spans first last l' := by
  have hset : {x | x ∈ l'} = {x | x ∈ l} := Set.ext fun x => (hp.mem_iff (a := x)).symm
  refine ⟨fun hl => h.empty ?_, fun hl => ?_, fun hl => ?_⟩
  · subst hl
    exact hp.eq_nil
  · rw [hset]
    exact h.first fun hnil => hl (by subst hnil; exact hp.symm.eq_nil)
  · rw [hset]
    exact h.last fun hnil => hl (by subst hnil; exact hp.symm.eq_nil)

/-- The table has the number, the heights and the times of the blocks in a file. -/
structure CBlockFileInfo.Describes (info : CBlockFileInfo) (blocks : List (Nat × Nat)) : Prop where
  nBlocks : info.nBlocks = blocks.length
  heights : Spans info.nHeightFirst info.nHeightLast (blocks.map Prod.fst)
  times : Spans info.nTimeFirst info.nTimeLast (blocks.map Prod.snd)

namespace CBlockFileInfo.Describes

variable {info info' : CBlockFileInfo} {blocks blocks' : List (Nat × Nat)}

theorem null : CBlockFileInfo.null.Describes [] :=
  ⟨rfl, ⟨fun _ => rfl, fun h => absurd rfl h, fun h => absurd rfl h⟩,
    ⟨fun _ => rfl, fun h => absurd rfl h, fun h => absurd rfl h⟩⟩

theorem perm (h : info.Describes blocks) (hp : blocks.Perm blocks') : info.Describes blocks' :=
  ⟨h.nBlocks.trans hp.length_eq, h.heights.perm (hp.map _), h.times.perm (hp.map _)⟩

theorem addBlock (h : info.Describes blocks) (nHeight nTime : Nat) (hlt : info.nBlocks + 1 < 2 ^ 32) :
    (info.addBlock nHeight nTime).Describes ((nHeight, nTime) :: blocks) where
  nBlocks := by
    rw [CBlockFileInfo.addBlock, List.length_cons, ← h.nBlocks]
    exact uint_eq hlt
  heights := by
    have := h.heights.add (x := nHeight)
    rw [List.length_map, ← h.nBlocks] at this
    exact this
  times := by
    have := h.times.add (x := nTime)
    rw [List.length_map, ← h.nBlocks] at this
    exact this

/-- The sizes do not matter. -/
theorem sized (h : info.Describes blocks) (nSize nUndoSize : Nat) :
    { info with nSize := nSize, nUndoSize := nUndoSize }.Describes blocks :=
  ⟨h.nBlocks, h.heights, h.times⟩

end CBlockFileInfo.Describes

namespace BlockFiles

/-! ## The table of files -/

namespace Files

variable {s s' : Files}

theorem info_setInfo (s : Files) (n k : Nat) (info : CBlockFileInfo) :
    (s.setInfo n info).info k = if k = n then info else s.info k :=
  getD_set_pad s.vinfoBlockFile n k info .null

@[simp] theorem info_setLast (n k : Nat) : (s.setLast n).info k = s.info k := rfl

@[simp] theorem info_markDirty (n k : Nat) : (s.markDirty n).info k = s.info k := rfl

@[simp] theorem nLastBlockFile_setInfo (n : Nat) (info : CBlockFileInfo) :
    (s.setInfo n info).nLastBlockFile = s.nLastBlockFile := rfl

@[simp] theorem nLastBlockFile_setLast (n : Nat) : (s.setLast n).nLastBlockFile = n := rfl

@[simp] theorem nLastBlockFile_markDirty (n : Nat) :
    (s.markDirty n).nLastBlockFile = s.nLastBlockFile := rfl

@[simp] theorem info_noteGrowth (fPruneMode grows : Bool) (k : Nat) :
    (s.noteGrowth fPruneMode grows).info k = s.info k := by
  unfold noteGrowth
  split_ifs <;> rfl

@[simp] theorem nLastBlockFile_noteGrowth (fPruneMode grows : Bool) :
    (s.noteGrowth fPruneMode grows).nLastBlockFile = s.nLastBlockFile := by
  unfold noteGrowth
  split_ifs <;> rfl

/-- The loop ends if the block fits into a new file. -/
theorem filesLeft_isSome {nAddSize : Nat} (h : nAddSize < MAX_BLOCKFILE_SIZE)
    (files : List CBlockFileInfo) : ∃ left, filesLeft nAddSize files = some left := by
  induction files with
  | nil => exact ⟨0, if_neg (Nat.not_le.mpr h)⟩
  | cons info files ih =>
    obtain ⟨left, hleft⟩ := ih
    rw [filesLeft]
    split_ifs
    · exact ⟨left + 1, by rw [hleft]; rfl⟩
    · exact ⟨0, rfl⟩

/-- The file at the end of the loop is the first into which the block seems to fit. -/
theorem filesLeft_spec {nAddSize left : Nat} {files : List CBlockFileInfo}
    (h : filesLeft nAddSize files = some left) :
    (∀ j < left, MAX_BLOCKFILE_SIZE ≤ uint ((files.getD j .null).nSize + nAddSize)) ∧
      uint ((files.getD left .null).nSize + nAddSize) < MAX_BLOCKFILE_SIZE := by
  induction files generalizing left with
  | nil =>
    rw [filesLeft] at h
    split_ifs at h with hsize
    cases h
    refine ⟨fun j hj => absurd hj (Nat.not_lt_zero j), ?_⟩
    rw [List.getD_nil, show CBlockFileInfo.null.nSize = 0 from rfl, Nat.zero_add]
    exact (uint_le _).trans_lt (Nat.not_le.mp hsize)
  | cons info files ih =>
    rw [filesLeft] at h
    split_ifs at h with hsize
    · obtain ⟨k, hk, rfl⟩ := Option.map_eq_some_iff.mp h
      obtain ⟨hfull, hfits⟩ := ih hk
      refine ⟨fun j hj => ?_, hfits⟩
      cases j with
      | zero => exact hsize
      | succ j => exact hfull j (Nat.lt_of_succ_lt_succ hj)
    · cases h
      exact ⟨fun j hj => absurd hj (Nat.not_lt_zero j), Nat.not_le.mp hsize⟩

theorem getD_drop (n k : Nat) : (s.vinfoBlockFile.drop n).getD k .null = s.info (n + k) := by
  simp only [Files.info, List.getD_eq_getElem?_getD, List.getElem?_drop]

/-- The files that a block comes to: those before are full. -/
def Reaches (s : Files) (nAddSize nFile : Nat) : Prop :=
  s.nLastBlockFile ≤ nFile ∧
    ∀ k, s.nLastBlockFile ≤ k → k < nFile → MAX_BLOCKFILE_SIZE ≤ (s.info k).nSize + nAddSize

section

variable (fPruneMode : Bool) (nFile nAddSize nHeight nTime : Nat) (space : Bool)

theorem takeBlockPos_files :
    (s.takeBlockPos fPruneMode nFile nAddSize nHeight nTime space).2.2.nLastBlockFile = nFile ∧
      ∀ k, (s.takeBlockPos fPruneMode nFile nAddSize nHeight nTime space).2.2.info k =
        if k = nFile then
          { (s.info nFile).addBlock nHeight nTime with
            nSize := uint ((s.info nFile).nSize + nAddSize) }
        else s.info k := by
  simp only [takeBlockPos]
  generalize growsChunks _ _ BLOCKFILE_CHUNK_SIZE = grows
  split_ifs
  · refine ⟨?_, fun k => ?_⟩
    · rw [nLastBlockFile_markDirty, nLastBlockFile_noteGrowth, nLastBlockFile_setLast]
    · rw [info_markDirty, info_noteGrowth, info_setLast, info_setInfo]
  · refine ⟨?_, fun k => ?_⟩
    · rw [nLastBlockFile_noteGrowth, nLastBlockFile_setLast]
    · rw [info_noteGrowth, info_setLast, info_setInfo]

theorem takeBlockPos_found :
    (s.takeBlockPos fPruneMode nFile nAddSize nHeight nTime true).2.1 = true := by
  unfold takeBlockPos
  exact Bool.or_true _

end

/-- What `FindBlockPos` does for a new block of which no sum wraps around. -/
structure Found (s : Files) (nAddSize nHeight nTime : Nat) (pos : DiskBlockPos) (s' : Files) : Prop where
  reaches : s.Reaches nAddSize pos.nFile
  start : pos.nPos = (s.info pos.nFile).nSize
  fits : (s.info pos.nFile).nSize + nAddSize < MAX_BLOCKFILE_SIZE
  last : s'.nLastBlockFile = pos.nFile
  info : ∀ k, s'.info k =
    if k = pos.nFile then
      { (s.info pos.nFile).addBlock nHeight nTime with nSize := (s.info pos.nFile).nSize + nAddSize }
    else s.info k

theorem findBlockPos_found {fPruneMode : Bool} {nAddSize nHeight nTime : Nat}
    {r : DiskBlockPos × Bool × Files}
    (hsize : ∀ f, s.Reaches nAddSize f → (s.info f).nSize + nAddSize < 2 ^ 32)
    (h : s.findBlockPos fPruneMode nAddSize nHeight nTime true = some r) :
    s.Found nAddSize nHeight nTime r.1 r.2.2 ∧ r.2.1 = true := by
  obtain ⟨left, hleft, rfl⟩ := Option.map_eq_some_iff.mp h
  obtain ⟨hfull, hfits⟩ := filesLeft_spec hleft
  simp only [getD_drop] at hfull hfits
  have hreach : s.Reaches nAddSize (s.nLastBlockFile + left) := by
    refine ⟨Nat.le_add_right _ _, fun k hle hlt => ?_⟩
    obtain ⟨j, rfl⟩ := Nat.exists_eq_add_of_le hle
    exact (hfull j (by omega)).trans (uint_le _)
  have hlt := uint_eq (hsize _ hreach)
  rw [hlt] at hfits
  obtain ⟨hlast, hinfo⟩ := takeBlockPos_files (s := s) fPruneMode (s.nLastBlockFile + left) nAddSize
    nHeight nTime true
  rw [hlt] at hinfo
  exact ⟨⟨hreach, rfl, hfits, hlast, hinfo⟩, takeBlockPos_found ..⟩

theorem findKnownPos_files (pos : DiskBlockPos) (nAddSize nHeight nTime : Nat) :
    (s.findKnownPos pos nAddSize nHeight nTime).nLastBlockFile = pos.nFile ∧
      ∀ k, (s.findKnownPos pos nAddSize nHeight nTime).info k =
        if k = pos.nFile then
          { (s.info pos.nFile).addBlock nHeight nTime with
            nSize := max (uint (pos.nPos + nAddSize)) (s.info pos.nFile).nSize }
        else s.info k := by
  simp only [findKnownPos]
  refine ⟨?_, fun k => ?_⟩
  · rw [nLastBlockFile_markDirty, nLastBlockFile_setLast]
  · rw [info_markDirty, info_setLast, info_setInfo]
    rfl

theorem findUndoPos_files (fPruneMode : Bool) (nFile nAddSize : Nat) (space : Bool) :
    (s.findUndoPos fPruneMode nFile nAddSize space).2.2.nLastBlockFile = s.nLastBlockFile ∧
      ∀ k, (s.findUndoPos fPruneMode nFile nAddSize space).2.2.info k =
        if k = nFile then
          { s.info nFile with nUndoSize := uint ((s.info nFile).nUndoSize + nAddSize) }
        else s.info k := by
  simp only [findUndoPos]
  refine ⟨?_, fun k => ?_⟩
  · rw [nLastBlockFile_noteGrowth, nLastBlockFile_markDirty, nLastBlockFile_setInfo]
  · rw [info_noteGrowth, info_markDirty, info_setInfo]

theorem setNull_files (fileNumber : Nat) :
    (s.setNull fileNumber).nLastBlockFile = s.nLastBlockFile ∧
      ∀ k, (s.setNull fileNumber).info k = if k = fileNumber then .null else s.info k := by
  rw [setNull]
  refine ⟨?_, fun k => ?_⟩
  · rw [nLastBlockFile_markDirty, nLastBlockFile_setInfo]
  · rw [info_markDirty, info_setInfo]

end Files

/-! ## The invariant -/

namespace Node

variable {s s' : Node}

/-- The entry is known and its data is stored. -/
def HasData (s : Node) (p : Ptr) : Prop :=
  p ∈ s.chain.mapBlockIndex ∧ (s.chain.node p).nStatus.haveData = true

def HasUndo (s : Node) (p : Ptr) : Prop :=
  p ∈ s.chain.mapBlockIndex ∧ (s.chain.node p).nStatus.haveUndo = true

/-- The height and the time of the entries with data in a file. -/
def blocksIn (s : Node) (nFile : Nat) : List (Nat × Nat) :=
  (s.chain.mapBlockIndex.filter fun p =>
    (s.chain.node p).nStatus.haveData && (s.chain.node p).nFile == nFile).map fun p =>
      ((s.chain.node p).nHeight, (s.chain.node p).nTime.toNat)

structure Ok (s : Node) : Prop where
  nodup : s.chain.mapBlockIndex.Nodup
  undo_data : ∀ p, s.HasUndo p → s.HasData p
  blk : Appended MAX_BLOCKFILE_SIZE (· ∈ s.pruned) (fun f => (s.files.info f).nSize) s.blk s.HasData
    s.dataOf
  rev : Appended (2 ^ 32) (· ∈ s.pruned) (fun f => (s.files.info f).nUndoSize) s.rev s.HasUndo s.undoOf
  data : ∀ p, s.HasData p → (s.dataOf p).file = (s.chain.node p).nFile ∧
    ((s.chain.node p).nDataPos = (s.dataOf p).start ∨
      (s.chain.node p).nDataPos = uint ((s.dataOf p).start + 8))
  undo : ∀ p, s.HasUndo p → (s.undoOf p).file = (s.chain.node p).nFile ∧
    (s.chain.node p).nUndoPos = uint ((s.undoOf p).start + 8)
  last : ∀ f ∈ s.pruned, f < s.files.nLastBlockFile
  undoSize : ∀ f ∉ s.pruned, (s.files.info f).nUndoSize = s.undoBytes f
  blocks : ∀ f, (s.files.info f).Describes (s.blocksIn f)
  reindexing : s.reindexing = true → s.blk = [] ∧ s.pruned = []

/-! ## Entries that take up a range -/

section

variable {p q : Ptr}

theorem map_filter_perm {β : Type} {l : List Ptr} {has has' : Ptr → Bool} {v v' : Ptr → β}
    (hnodup : l.Nodup) (hp : p ∈ l) (hold : has p = false) (hnew : has' p = true)
    (hrest : ∀ q ≠ p, has' q = has q ∧ v' q = v q) :
    ((l.filter has').map v').Perm (v' p :: (l.filter has).map v) := by
  have hne : ∀ q ∈ l.erase p, q ≠ p := fun q hq h => hnodup.not_mem_erase (h ▸ hq)
  have hperm := List.perm_cons_erase hp
  have hnew' := (hperm.filter has').map v'
  have hold' := (hperm.filter has).map v
  rw [List.filter_cons_of_pos hnew, List.map_cons] at hnew'
  rw [List.filter_cons_of_neg (by rw [hold]; exact Bool.false_ne_true)] at hold'
  have hsame : (l.erase p).filter has' = (l.erase p).filter has :=
    List.filter_congr fun q hq => (hrest q (hne q hq)).1
  have hmap : ((l.erase p).filter has').map v' = ((l.erase p).filter has).map v := by
    rw [hsame]
    exact List.map_congr_left fun q hq => (hrest q (hne q (List.mem_of_mem_filter hq))).2
  rw [hmap] at hnew'
  exact hnew'.trans (hold'.symm.cons _)

/-- The fields of an entry that positions are about. -/
theorem record_fields {e e' : CBlockIndex} (h : e'.record = e.record) :
    e'.nStatus = e.nStatus ∧ e'.nFile = e.nFile ∧ e'.nDataPos = e.nDataPos ∧
      e'.nUndoPos = e.nUndoPos ∧ e'.nHeight = e.nHeight ∧ e'.nTime = e.nTime := by
  simp only [CBlockIndex.record, Prod.mk.injEq] at h
  obtain ⟨h₁, -, h₃, h₄, h₅, h₆, -, -, h₉, -⟩ := h
  exact ⟨h₃, h₄, h₅, h₆, h₁, h₉⟩

/-- The entries of a file keep their data, heights and times. -/
theorem blocksIn_congr {t : Node} {f : Nat} (hindex : t.chain.mapBlockIndex = s.chain.mapBlockIndex)
    (hfile : ∀ q ∈ s.chain.mapBlockIndex,
      ((t.chain.node q).nStatus.haveData && (t.chain.node q).nFile == f) =
        ((s.chain.node q).nStatus.haveData && (s.chain.node q).nFile == f))
    (hvalue : ∀ q, s.HasData q → (t.chain.node q).nHeight = (s.chain.node q).nHeight ∧
      (t.chain.node q).nTime = (s.chain.node q).nTime) : t.blocksIn f = s.blocksIn f := by
  rw [blocksIn, blocksIn, hindex, List.filter_congr hfile]
  refine List.map_congr_left fun q hq => ?_
  obtain ⟨hq, hflags⟩ := List.mem_filter.mp hq
  obtain ⟨hheight, htime⟩ := hvalue q ⟨hq, (Bool.and_eq_true_iff.mp hflags).1⟩
  rw [hheight, htime]

variable {nTx : Nat} {pos : DiskBlockPos} {e : Extent}

theorem index_received : (s.received p nTx pos e).chain.mapBlockIndex = s.chain.mapBlockIndex :=
  ChainState.index_received nTx pos

theorem record_received (hq : q ≠ p) :
    ((s.received p nTx pos e).chain.node q).record = (s.chain.node q).record :=
  ChainState.record_received_ne hq nTx pos

theorem hasData_received (hp : p ∈ s.chain.mapBlockIndex) :
    (s.received p nTx pos e).HasData = fun q => q = p ∨ s.HasData q := by
  funext q
  refine propext ?_
  by_cases hq : q = p
  · subst hq
    rw [HasData, index_received]
    exact iff_of_true ⟨hp, (ChainState.received_self nTx pos).1⟩ (.inl rfl)
  · rw [HasData, HasData, index_received, or_iff_right hq, (record_fields (record_received hq)).1]

theorem hasUndo_received : (s.received p nTx pos e).HasUndo = s.HasUndo := by
  funext q
  rw [HasUndo, HasUndo, index_received]
  by_cases hq : q = p
  · subst hq
    rw [show ((s.received q nTx pos e).chain.node q).nStatus.haveUndo = _ from
      (ChainState.received_self nTx pos).2.1]
  · rw [(record_fields (record_received hq)).1]

/-- The file of the entry has one more. -/
theorem blocksIn_received (hnodup : s.chain.mapBlockIndex.Nodup) (hp : p ∈ s.chain.mapBlockIndex)
    (hdata : (s.chain.node p).nStatus.haveData = false) (f : Nat) :
    ((s.received p nTx pos e).blocksIn f).Perm (if f = pos.nFile then
      ((s.chain.node p).nHeight, (s.chain.node p).nTime.toNat) :: s.blocksIn f else s.blocksIn f) := by
  obtain ⟨hd, -, hf, -, hheight, htime⟩ := ChainState.received_self (s := s.chain) (p := p) nTx pos
  split_ifs with hff
  · subst hff
    rw [blocksIn, index_received, ← hheight, ← htime]
    refine map_filter_perm hnodup hp (by rw [hdata]; rfl) ?_ fun q hq => ?_
    · rw [show ((s.received p nTx pos e).chain.node p).nStatus.haveData = true from hd,
        show ((s.received p nTx pos e).chain.node p).nFile = pos.nFile from hf]
      exact beq_self_eq_true _
    · obtain ⟨hstatus, hfile, -, -, hheight, htime⟩ := record_fields (record_received hq)
      rw [hstatus, hfile, hheight, htime]
      exact ⟨rfl, rfl⟩
  · refine .of_eq (blocksIn_congr index_received (fun q _ => ?_) fun q hq => ?_)
    · by_cases hqp : q = p
      · subst hqp
        rw [hdata, show ((s.received q nTx pos e).chain.node q).nFile = pos.nFile from hf, Bool.false_and,
          beq_false_of_ne (Ne.symm hff), Bool.and_false]
      · obtain ⟨hstatus, hfile, -⟩ := record_fields (record_received hqp)
        rw [hstatus, hfile]
    · have hqp : q ≠ p := fun hqp => by
        have := hq.2
        rw [hqp, hdata] at this
        cases this
      obtain ⟨-, -, -, -, hheight, htime⟩ := record_fields (record_received hqp)
      exact ⟨hheight, htime⟩

/-- An entry without data takes up a range, and its file counts it. -/
theorem Ok.received (h : s.Ok) {files : Files} (reindexing : Bool) (blk : List Extent) {nSize : Nat}
    (hp : p ∈ s.chain.mapBlockIndex) (hdata : (s.chain.node p).nStatus.haveData = false)
    (hblk : Appended MAX_BLOCKFILE_SIZE (· ∈ s.pruned) (fun f => (files.info f).nSize) blk
      (fun q => q = p ∨ s.HasData q) (Function.update s.dataOf p e))
    (hfile : e.file = pos.nFile) (hpos : pos.nPos = e.start ∨ pos.nPos = uint (e.start + 8))
    (hinfo : ∀ k, files.info k =
      if k = pos.nFile then
        { (s.files.info pos.nFile).addBlock (s.chain.node p).nHeight (s.chain.node p).nTime.toNat with
          nSize := nSize }
      else s.files.info k)
    (hlast : ∀ f ∈ s.pruned, f < files.nLastBlockFile)
    (hcount : (s.files.info pos.nFile).nBlocks + 1 < 2 ^ 32)
    (hre : reindexing = true → blk = [] ∧ s.pruned = []) :
    ({ s with files := files, reindexing := reindexing, blk := blk }.received p nTx pos e).Ok := by
  set s₁ : Node := { s with files := files, reindexing := reindexing, blk := blk }
  obtain ⟨-, -, hf, hpos', -⟩ := ChainState.received_self (s := s.chain) (p := p) nTx pos
  have hother : ∀ q ≠ p, ((s₁.received p nTx pos e).chain.node q).record = (s.chain.node q).record :=
    fun q => record_received
  have hhas : (s₁.received p nTx pos e).HasData = fun q => q = p ∨ s.HasData q :=
    hasData_received (s := s₁) hp
  have hundo : (s₁.received p nTx pos e).HasUndo = s.HasUndo := hasUndo_received (s := s₁)
  have hne : ∀ q, s.HasUndo q → q ≠ p := fun q hq hqp => by
    have hd := (h.undo_data q hq).2
    rw [hqp, hdata] at hd
    cases hd
  have hundoSize : ∀ f, (files.info f).nUndoSize = (s.files.info f).nUndoSize := by
    intro f
    rw [hinfo]
    split_ifs with hf
    · rw [hf]
      rfl
    · rfl
  constructor
  case nodup => exact (index_received (s := s₁)).symm ▸ h.nodup
  case undo_data =>
    intro q hq
    rw [hundo] at hq
    rw [hhas]
    exact .inr (h.undo_data q hq)
  case blk =>
    rw [hhas]
    exact hblk
  case rev =>
    rw [hundo]
    exact h.rev.grow fun f _ => (hundoSize f).ge
  case data =>
    intro q hq
    rw [hhas] at hq
    show (Function.update s.dataOf p e q).file = _ ∧ (_ = (Function.update s.dataOf p e q).start ∨
      _ = uint ((Function.update s.dataOf p e q).start + 8))
    by_cases hqp : q = p
    · subst hqp
      rw [Function.update_self]
      refine ⟨hfile.trans (show ((s₁.received q nTx pos e).chain.node q).nFile = _ from hf).symm, ?_⟩
      rw [show ((s₁.received q nTx pos e).chain.node q).nDataPos = _ from hpos']
      exact hpos
    · obtain ⟨-, hfile', hdata', -⟩ := record_fields (hother q hqp)
      rw [hfile', hdata', Function.update_of_ne hqp]
      exact h.data q (hq.resolve_left hqp)
  case undo =>
    intro q hq
    rw [hundo] at hq
    obtain ⟨-, hfile', -, hundo', -⟩ := record_fields (hother q (hne q hq))
    rw [hfile', hundo']
    exact h.undo q hq
  case last => exact hlast
  case undoSize => exact fun f hf => (hundoSize f).trans (h.undoSize f hf)
  case blocks =>
    intro f
    refine CBlockFileInfo.Describes.perm ?_ (blocksIn_received (s := s₁) h.nodup hp hdata f).symm
    show (files.info f).Describes _
    rw [hinfo]
    split_ifs with hff
    · subst hff
      exact ((h.blocks pos.nFile).addBlock _ _ hcount).sized _ _
    · exact h.blocks f
  case reindexing => exact hre

end

/-! ## The operations -/

/-- No 32-bit number wraps around, and a new block is stored: a block at a known position ends below
2^32, or begins past the size that files of new blocks have; no file that a new block comes to is so large
that its size wraps around; there is space, and the block is written. -/
def Fits : Op → Node → Prop
  | .known _ _ pos nAddSize, s =>
    (pos.nPos + nAddSize < 2 ^ 32 ∨ MAX_BLOCKFILE_SIZE ≤ pos.nPos) ∧
      (s.files.info pos.nFile).nBlocks + 1 < 2 ^ 32
  | .new _ _ nAddSize space write, s =>
    (∀ f, s.files.Reaches nAddSize f → (s.files.info f).nSize + nAddSize < 2 ^ 32 ∧
      ((s.files.info f).nSize + nAddSize < MAX_BLOCKFILE_SIZE →
        (s.files.info f).nBlocks + 1 < 2 ^ 32)) ∧
      space = true ∧ write ≠ .failed
  | .undo .., _ => True
  | .prune _, _ => True

section

variable {p : Ptr} {nTx nAddSize : Nat} {pos : DiskBlockPos}

/-- A range is taken up by one more entry. -/
theorem holds_update {e : Extent} {has : Ptr → Prop} {held : Ptr → Extent} (l : Ptr)
    (h : l = p ∨ has l) : Function.update held p e l = e ∨ has l ∧ Function.update held p e l = held l := by
  by_cases hl : l = p
  · subst hl
    exact .inl (Function.update_self ..)
  · exact .inr ⟨h.resolve_left hl, Function.update_of_ne hl ..⟩

theorem Ok.acceptKnown (h : s.Ok) (hcall : s.calls (.known p nTx pos nAddSize))
    (hfits : Fits (.known p nTx pos nAddSize) s) : (s.acceptKnown p nTx pos nAddSize).Ok := by
  obtain ⟨hre, hp, hdata, hpos, -⟩ := hcall
  obtain ⟨hend, hcount⟩ := hfits
  obtain ⟨hblk, hpruned⟩ := h.reindexing hre
  obtain ⟨-, hinfo⟩ := Files.findKnownPos_files (s := s.files) pos nAddSize (s.chain.node p).nHeight
    (s.chain.node p).nTime.toNat
  have hno : ∀ f, f ∉ s.pruned := fun f hf => by rw [hpruned] at hf; cases hf
  refine h.received s.reindexing s.blk hp hdata ?_ rfl (.inl rfl) hinfo
    (fun f hf => absurd hf (hno f)) hcount h.reindexing
  have hall := h.blk
  rw [hblk] at hall ⊢
  refine hall.adopt (hno _) ?_ (fun f _ => ?_) holds_update
  · show pos.nPos + nAddSize ≤ ((s.files.findKnownPos ..).info pos.nFile).nSize ∨ _
    rw [hinfo, if_pos rfl]
    exact hend.imp_left fun hlt => (uint_eq hlt).ge.trans (le_max_left _ _)
  · show _ ≤ ((s.files.findKnownPos ..).info f).nSize
    rw [hinfo]
    split_ifs with hf
    · rw [hf]
      exact le_max_right _ _
    · exact le_refl _

theorem Ok.acceptNew (h : s.Ok) {fPruneMode space : Bool} {write : BlockWrite}
    (hcall : s.calls (.new p nTx nAddSize space write))
    (hfits : Fits (.new p nTx nAddSize space write) s)
    (hstep : s.acceptNew fPruneMode p nTx nAddSize space write = some s') : s'.Ok := by
  obtain ⟨hp, hdata, -⟩ := hcall
  obtain ⟨hsize, rfl, hwrite⟩ := hfits
  obtain ⟨⟨pos, found, files⟩, hfind, rfl⟩ := Option.map_eq_some_iff.mp hstep
  obtain ⟨hfound, rfl⟩ := Files.findBlockPos_found (fun f hf => (hsize f hf).1) hfind
  have hcount := (hsize _ hfound.reaches).2 hfound.fits
  have hopen : pos.nFile ∉ s.pruned := fun hf =>
    absurd (h.last _ hf) (Nat.not_lt.mpr hfound.reaches.1)
  have hinfo := hfound.info
  have hlast : ∀ f ∈ s.pruned, f < files.nLastBlockFile := fun f hf => by
    rw [hfound.last]
    exact (h.last f hf).trans_le hfound.reaches.1
  have hgrow : ∀ f, (s.files.info f).nSize ≤ (files.info f).nSize := by
    intro f
    rw [hinfo]
    split_ifs with hf
    · rw [hf]
      exact Nat.le_add_right _ _
    · exact le_refl _
  have hstop : (⟨pos.nFile, pos.nPos, nAddSize⟩ : Extent).stop =
      (s.files.info pos.nFile).nSize + nAddSize := by rw [Extent.stop, hfound.start]
  -- the range is given out, and then the entry takes it up
  have hblk := (h.blk.give (e := ⟨pos.nFile, pos.nPos, nAddSize⟩) (fun f => (files.info f).nSize) hopen
    hfound.start (hstop.trans_le hfound.fits.le) (by rw [hstop, hinfo, if_pos rfl])
    fun f _ => hgrow f).take (fun q => q = p ∨ s.HasData q) (List.mem_cons_self ..) hopen holds_update
  cases write with
  | failed => exact absurd rfl hwrite
  | written =>
    exact h.received false _ hp hdata hblk rfl (.inr rfl) hinfo hlast hcount fun hf => (nomatch hf)
  | notOpened =>
    exact h.received false _ hp hdata hblk rfl (.inl rfl) hinfo hlast hcount fun hf => (nomatch hf)

theorem undoBytes_cons (s : Node) (files : Files) (e : Extent) (f : Nat) :
    ({ s with files := files, rev := e :: s.rev } : Node).undoBytes f =
      if f = e.file then s.undoBytes f + e.length else s.undoBytes f := by
  rw [undoBytes]
  split_ifs with hf
  · have heq : (e.file == f) = true := beq_iff_eq.mpr hf.symm
    rw [List.filter_cons_of_pos (p := fun e : Extent => e.file == f) (a := e) heq, List.map_cons,
      List.sum_cons, Nat.add_comm, undoBytes]
  · have hne : ¬(e.file == f) = true := fun h => hf (beq_iff_eq.mp h).symm
    rw [List.filter_cons_of_neg (p := fun e : Extent => e.file == f) (a := e) hne, undoBytes]

/-- `FindUndoPos` has given out a range. -/
theorem Ok.undoGiven (h : s.Ok) {files : Files} {e : Extent} (hopen : e.file ∉ s.pruned)
    (hstart : e.start = (s.files.info e.file).nUndoSize)
    (htotal : s.undoBytes e.file + e.length < 2 ^ 32)
    (hlast : files.nLastBlockFile = s.files.nLastBlockFile)
    (hinfo : ∀ k, files.info k =
      if k = e.file then { s.files.info e.file with nUndoSize := s.undoBytes e.file + e.length }
      else s.files.info k) :
    ({ s with files := files, rev := e :: s.rev } : Node).Ok := by
  have hundo := h.undoSize e.file hopen
  have hstop : e.stop = s.undoBytes e.file + e.length := by rw [Extent.stop, hstart, hundo]
  have hgrow : ∀ k, (s.files.info k).nUndoSize ≤ (files.info k).nUndoSize := by
    intro k
    rw [hinfo]
    split_ifs with hk
    · rw [hk, hundo]
      exact Nat.le_add_right _ _
    · exact le_refl _
  have hrev := h.rev.give (fun k => (files.info k).nUndoSize) hopen hstart
    (hstop.trans_le htotal.le) (by rw [hstop, hinfo, if_pos rfl]) fun k _ => hgrow k
  have hsize : ∀ k, (files.info k).nSize = (s.files.info k).nSize := by
    intro k
    rw [hinfo]
    split_ifs with hk
    · rw [hk]
    · rfl
  have hblk : Appended MAX_BLOCKFILE_SIZE (· ∈ s.pruned) (fun k => (files.info k).nSize) s.blk s.HasData
      s.dataOf := h.blk.grow fun k _ => (hsize k).ge
  refine ⟨h.nodup, h.undo_data, hblk, hrev, h.data, h.undo, ?_, ?_, ?_, h.reindexing⟩
  · intro k hk
    rw [hlast]
    exact h.last k hk
  · intro k hk
    show (files.info k).nUndoSize = _
    rw [hinfo, undoBytes_cons]
    split_ifs with hke
    · rw [hke]
    · exact h.undoSize k hk
  · intro k
    show (files.info k).Describes (s.blocksIn k)
    rw [hinfo]
    split_ifs with hk
    · rw [hk]
      exact (h.blocks e.file).sized _ _
    · exact h.blocks k

/-- `ConnectBlock` leaves the fields that are not about undo data. -/
theorem connected_data (s : Node) (p q : Ptr) (e : Extent) :
    ((s.connected p e).chain.node q).nStatus.haveData = (s.chain.node q).nStatus.haveData ∧
      ((s.connected p e).chain.node q).nFile = (s.chain.node q).nFile ∧
      ((s.connected p e).chain.node q).nDataPos = (s.chain.node q).nDataPos ∧
      ((s.connected p e).chain.node q).nHeight = (s.chain.node q).nHeight ∧
      ((s.connected p e).chain.node q).nTime = (s.chain.node q).nTime := by
  rw [connected]
  by_cases hq : q = p
  · subst hq
    by_cases hprev : (s.chain.node q).pprev = none
    · rw [ChainState.recordConnected, hprev]
      exact ⟨rfl, rfl, rfl, rfl, rfl⟩
    · rw [ChainState.node_recordConnected_self hprev]
      simp
  · rw [ChainState.node_recordConnected_ne hq]
    exact ⟨rfl, rfl, rfl, rfl, rfl⟩

/-- The entry gets its undo data, unless it has it or is that of the genesis block. -/
theorem connected_undo {e : Extent}
    (h : ((s.connected p e).chain.node q).nStatus.haveUndo = true) :
    (q = p ∧ (s.chain.node p).nStatus.haveUndo = false ∧
        ((s.connected p e).chain.node q).nUndoPos = uint (e.start + 8)) ∨
      (s.chain.node q).nStatus.haveUndo = true ∧
        ((s.connected p e).chain.node q).nUndoPos = (s.chain.node q).nUndoPos := by
  rw [connected] at h ⊢
  dsimp only at h ⊢
  by_cases hq : q = p
  · subst hq
    by_cases hprev : (s.chain.node q).pprev = none
    · rw [ChainState.recordConnected, hprev] at h ⊢
      exact .inr ⟨h, rfl⟩
    · rw [ChainState.node_recordConnected_self hprev]
      cases hu : (s.chain.node q).nStatus.haveUndo with
      | true => exact .inr ⟨rfl, rfl⟩
      | false => exact .inl ⟨rfl, rfl, rfl⟩
  · rw [ChainState.node_recordConnected_ne hq] at h ⊢
    exact .inr ⟨h, rfl⟩

/-- An entry takes up a range for its undo data. -/
theorem Ok.undoTaken (h : s.Ok) {e : Extent} (he : e ∈ s.rev) (hp : s.HasData p)
    (hfile : e.file = (s.chain.node p).nFile) :
    (s.connected p e).Ok := by
  have hview := fun q => s.connected_data p q e
  set t : Node := s.connected p e with ht
  have hindex : t.chain.mapBlockIndex = s.chain.mapBlockIndex :=
    (ChainState.sameTree_recordConnected _).index
  have hhas : t.HasData = s.HasData := by
    funext q
    rw [HasData, HasData, hindex, (hview q).1]
  have hopen : e.file ∉ s.pruned := by
    rw [hfile, ← (h.data p hp).1]
    exact h.blk.held_open p hp
  -- what undo data there is now
  have hundo : ∀ q, t.HasUndo q →
      (q = p ∧ t.undoOf q = e ∧ (t.chain.node q).nUndoPos = uint (e.start + 8)) ∨
        s.HasUndo q ∧ t.undoOf q = s.undoOf q ∧
          (t.chain.node q).nUndoPos = (s.chain.node q).nUndoPos := by
    rintro q ⟨hq, hu⟩
    rw [hindex] at hq
    rcases connected_undo hu with ⟨rfl, hnone, hpos⟩ | ⟨hold, hpos⟩
    · refine .inl ⟨rfl, ?_, hpos⟩
      rw [ht, connected, hnone, if_neg Bool.false_ne_true]
      exact Function.update_self ..
    · refine .inr ⟨⟨hq, hold⟩, ?_, hpos⟩
      rw [ht, connected]
      split_ifs with hup
      · rfl
      · refine Function.update_of_ne ?_ ..
        rintro rfl
        exact hup hold
  refine ⟨hindex ▸ h.nodup, ?_, ?_, ?_, ?_, ?_, h.last, h.undoSize, ?_, h.reindexing⟩
  · intro q hq
    rw [hhas]
    rcases hundo q hq with ⟨rfl, -⟩ | ⟨hold, -⟩
    · exact hp
    · exact h.undo_data q hold
  · rw [hhas]
    exact h.blk
  · exact h.rev.take t.HasUndo he hopen fun q hq =>
      (hundo q hq).imp (fun hq => hq.2.1) fun hq => ⟨hq.1, hq.2.1⟩
  · intro q hq
    rw [hhas] at hq
    rw [(hview q).2.1, (hview q).2.2.1]
    exact h.data q hq
  · intro q hq
    rw [(hview q).2.1]
    rcases hundo q hq with ⟨rfl, hof, hpos⟩ | ⟨hold, hof, hpos⟩
    · rw [hof, hpos]
      exact ⟨hfile, rfl⟩
    · rw [hof, hpos]
      exact h.undo q hold
  · intro f
    have hsame : t.blocksIn f = s.blocksIn f := by
      refine blocksIn_congr hindex (fun q _ => ?_) fun q _ => (hview q).2.2.2
      rw [(hview q).1, (hview q).2.1]
    rw [hsame]
    exact h.blocks f

theorem Ok.writeUndo (h : s.Ok) (fPruneMode space written : Bool)
    (hcall : s.calls (.undo p nAddSize space written)) :
    (s.writeUndo fPruneMode p nAddSize space written).Ok := by
  obtain ⟨hp, hdata, htotal⟩ := hcall
  have hopen : (s.chain.node p).nFile ∉ s.pruned := by
    rw [← (h.data p ⟨hp, hdata⟩).1]
    exact h.blk.held_open p ⟨hp, hdata⟩
  obtain ⟨hlast, hinfo⟩ := Files.findUndoPos_files (s := s.files) fPruneMode (s.chain.node p).nFile
    nAddSize space
  rw [h.undoSize _ hopen, uint_eq htotal] at hinfo
  have hgiven := h.undoGiven (e := ⟨(s.chain.node p).nFile,
    (s.files.info (s.chain.node p).nFile).nUndoSize, nAddSize⟩) hopen rfl htotal hlast hinfo
  show (if _ then _ else _ : Node).Ok
  split_ifs
  · exact hgiven.undoTaken (List.mem_cons_self ..) ⟨hp, hdata⟩ rfl
  · exact hgiven

theorem Ok.pruneOneBlockFile (h : s.Ok) {fileNumber : Nat}
    (hcall : s.calls (.prune fileNumber)) : (s.pruneOneBlockFile fileNumber).Ok := by
  obtain ⟨hlast, hinfo⟩ := Files.setNull_files (s := s.files) fileNumber
  set t := s.pruneOneBlockFile fileNumber with ht
  have hindex : t.chain.mapBlockIndex = s.chain.mapBlockIndex :=
    (ChainState.kept_pruneOneBlockFile s.chain fileNumber).same.index
  have hnode : ∀ q, t.chain.node q =
      if s.chain.Known q ∧ (s.chain.node q).nFile = fileNumber then (s.chain.node q).pruned
      else s.chain.node q := ChainState.node_pruneOneBlockFile h.nodup fileNumber
  -- an entry that still has its flags is in another file, and as it was
  have hkept : ∀ q, q ∈ s.chain.mapBlockIndex →
      ((t.chain.node q).nStatus.haveData || (t.chain.node q).nStatus.haveUndo) = true →
      t.chain.node q = s.chain.node q ∧ (s.chain.node q).nFile ≠ fileNumber := by
    intro q hq hflags
    rw [hnode] at hflags ⊢
    split_ifs at hflags ⊢ with hc
    · cases hflags
    · exact ⟨rfl, fun hf => hc ⟨hq, hf⟩⟩
  have hdata : ∀ q, t.HasData q →
      s.HasData q ∧ t.chain.node q = s.chain.node q ∧ (s.chain.node q).nFile ≠ fileNumber := by
    rintro q ⟨hq, hd⟩
    rw [hindex] at hq
    obtain ⟨heq, hne⟩ := hkept q hq (by rw [hd, Bool.true_or])
    exact ⟨⟨hq, heq ▸ hd⟩, heq, hne⟩
  have hundo : ∀ q, t.HasUndo q →
      s.HasUndo q ∧ t.chain.node q = s.chain.node q ∧ (s.chain.node q).nFile ≠ fileNumber := by
    rintro q ⟨hq, hu⟩
    rw [hindex] at hq
    obtain ⟨heq, hne⟩ := hkept q hq (by rw [hu, Bool.or_true])
    exact ⟨⟨hq, heq ▸ hu⟩, heq, hne⟩
  have hclosed : ∀ f, f ∈ s.pruned → f ∈ t.pruned := fun f hf => List.mem_cons_of_mem _ hf
  have hother : ∀ f, f ∉ t.pruned → t.files.info f = s.files.info f := by
    intro f hf
    refine (hinfo f).trans (if_neg ?_)
    rintro rfl
    exact hf (List.mem_cons_self ..)
  have hopen : ∀ f, f ≠ fileNumber → f ∉ s.pruned → f ∉ t.pruned := fun f hne hf hmem =>
    (List.mem_cons.mp hmem).elim hne hf
  refine ⟨hindex ▸ h.nodup, ?_, ?_, ?_, ?_, ?_, ?_, ?_, ?_, fun hf => (nomatch hf)⟩
  · intro q hq
    obtain ⟨hold, heq, -⟩ := hundo q hq
    have hd := h.undo_data q hold
    exact ⟨hindex ▸ hd.1, heq ▸ hd.2⟩
  · refine h.blk.change hclosed (fun f hf => (congrArg _ (hother f hf)).ge) fun q hq => ?_
    obtain ⟨hold, heq, hne⟩ := hdata q hq
    exact ⟨hold, rfl, hopen _ (by rwa [(h.data q hold).1]) (h.blk.held_open q hold)⟩
  · refine h.rev.change hclosed (fun f hf => (congrArg _ (hother f hf)).ge) fun q hq => ?_
    obtain ⟨hold, heq, hne⟩ := hundo q hq
    exact ⟨hold, rfl, hopen _ (by rwa [(h.undo q hold).1]) (h.rev.held_open q hold)⟩
  · intro q hq
    obtain ⟨hold, heq, -⟩ := hdata q hq
    rw [heq]
    exact h.data q hold
  · intro q hq
    obtain ⟨hold, heq, -⟩ := hundo q hq
    rw [heq]
    exact h.undo q hold
  · intro f hf
    refine Nat.lt_of_lt_of_eq ?_ hlast.symm
    rcases List.mem_cons.mp hf with rfl | hf
    · exact hcall
    · exact h.last f hf
  · intro f hf
    rw [hother f hf]
    exact h.undoSize f fun hmem => hf (hclosed f hmem)
  · intro f
    show ((s.files.setNull fileNumber).info f).Describes _
    rw [hinfo]
    split_ifs with hf
    · have hnil : t.blocksIn f = [] := by
        rw [blocksIn, List.filter_eq_nil_iff.mpr fun q hq => ?_]
        · rfl
        · rw [Bool.and_eq_true, beq_iff_eq]
          rintro ⟨hd, hfile⟩
          obtain ⟨-, heq, hne⟩ := hdata q ⟨hq, hd⟩
          exact hne (by rw [← heq, hfile, hf])
      rw [hnil]
      exact .null
    · have hsame : t.blocksIn f = s.blocksIn f := by
        refine blocksIn_congr hindex (fun q hq => ?_) fun q _ => ?_
        · rw [hnode]
          split_ifs with hc
          · rw [hc.2, beq_false_of_ne (Ne.symm hf), Bool.and_false]
            rfl
          · rfl
        · rw [hnode]
          split_ifs <;> exact ⟨rfl, rfl⟩
      rw [hsame]
      exact h.blocks f

end

/-! ## Runs -/

theorem Ok.start {chain : ChainState} (hnodup : chain.mapBlockIndex.Nodup)
    (hnone : ∀ p ∈ chain.mapBlockIndex, (chain.node p).nStatus.haveData = false ∧
      (chain.node p).nStatus.haveUndo = false) : (Node.start chain).Ok := by
  have hdata : ∀ p, ¬(Node.start chain).HasData p := fun p ⟨hp, hd⟩ => by
    rw [show (Node.start chain).chain = chain from rfl, (hnone p hp).1] at hd
    cases hd
  have hundo : ∀ p, ¬(Node.start chain).HasUndo p := fun p ⟨hp, hu⟩ => by
    rw [show (Node.start chain).chain = chain from rfl, (hnone p hp).2] at hu
    cases hu
  refine ⟨hnodup, fun p hp => absurd hp (hundo p), .nil hdata, .nil hundo,
    fun p hp => absurd hp (hdata p), fun p hp => absurd hp (hundo p), fun f hf => (nomatch hf),
    fun f _ => rfl, fun f => ?_, fun _ => ⟨rfl, rfl⟩⟩
  have hnil : (Node.start chain).blocksIn f = [] := by
    rw [blocksIn, List.filter_eq_nil_iff.mpr fun q hq => ?_]
    · rfl
    · rw [show (Node.start chain).chain = chain from rfl, (hnone q hq).1, Bool.false_and]
      exact Bool.false_ne_true
  rw [hnil]
  exact .null

theorem Ok.step {fPruneMode : Bool} {op : Op} (h : s.Ok) (hfits : Fits op s)
    (hstep : s.step fPruneMode op = some s') : s'.Ok := by
  unfold Node.step at hstep
  split_ifs at hstep with hcall
  cases op with
  | known p nTx pos nAddSize =>
    cases hstep
    exact h.acceptKnown hcall hfits
  | new p nTx nAddSize space write => exact h.acceptNew hcall hfits hstep
  | undo p nAddSize space written =>
    cases hstep
    exact h.writeUndo fPruneMode space written hcall
  | prune fileNumber =>
    cases hstep
    exact h.pruneOneBlockFile hcall

/-- A block that fits into a new file finds its place. -/
theorem acceptNew_isSome {p : Ptr} {nTx nAddSize : Nat} {fPruneMode space : Bool} {write : BlockWrite}
    (hcall : s.calls (.new p nTx nAddSize space write)) :
    ∃ s', s.step fPruneMode (.new p nTx nAddSize space write) = some s' := by
  obtain ⟨left, hleft⟩ := Files.filesLeft_isSome hcall.2.2
    (s.files.vinfoBlockFile.drop s.files.nLastBlockFile)
  rw [Node.step, if_pos hcall]
  simp only [acceptNew, Files.findBlockPos, hleft, Option.map_some]
  exact ⟨_, rfl⟩

/-- A new block leaves its file within the size of files. -/
theorem acceptNew_size {p : Ptr} {nTx nAddSize : Nat} {fPruneMode space : Bool} {write : BlockWrite}
    (hfits : Fits (.new p nTx nAddSize space write) s)
    (hstep : s.step fPruneMode (.new p nTx nAddSize space write) = some s') (f : Nat) :
    (s'.files.info f).nSize = (s.files.info f).nSize ∨
      (s'.files.info f).nSize < MAX_BLOCKFILE_SIZE := by
  unfold Node.step at hstep
  split_ifs at hstep
  obtain ⟨hsize, rfl, -⟩ := hfits
  obtain ⟨⟨pos, found, files⟩, hfind, rfl⟩ := Option.map_eq_some_iff.mp hstep
  obtain ⟨hfound, rfl⟩ := Files.findBlockPos_found (fun f hf => (hsize f hf).1) hfind
  have hinfo : (files.info f).nSize = (s.files.info f).nSize ∨
      (files.info f).nSize < MAX_BLOCKFILE_SIZE := by
    rw [hfound.info]
    split_ifs with hf
    · exact .inr hfound.fits
    · exact .inl rfl
  cases write <;> exact hinfo

/-- The ranges given out are apart from each other and from those of the entries, and the table of files
is right: about the ranges, up to when their file is pruned, and about the blocks in a file. -/
structure Separate (s : Node) : Prop where
  blk_apart : s.blk.Pairwise Extent.Apart
  blk_data : ∀ e ∈ s.blk, ∀ p, s.HasData p → s.dataOf p ≠ e → e.Apart (s.dataOf p)
  blk_size : ∀ e ∈ s.blk, e.file ∉ s.pruned → e.stop ≤ (s.files.info e.file).nSize
  blk_max : ∀ e ∈ s.blk, e.stop ≤ MAX_BLOCKFILE_SIZE
  rev_apart : s.rev.Pairwise Extent.Apart
  rev_undo : ∀ e ∈ s.rev, ∀ p, s.HasUndo p → s.undoOf p ≠ e → e.Apart (s.undoOf p)
  rev_size : ∀ e ∈ s.rev, e.file ∉ s.pruned → e.stop ≤ (s.files.info e.file).nUndoSize
  data : ∀ p, s.HasData p → (s.dataOf p).file = (s.chain.node p).nFile ∧
    ((s.chain.node p).nDataPos = (s.dataOf p).start ∨
      (s.chain.node p).nDataPos = uint ((s.dataOf p).start + 8))
  undo : ∀ p, s.HasUndo p → (s.undoOf p).file = (s.chain.node p).nFile ∧
    (s.chain.node p).nUndoPos = uint ((s.undoOf p).start + 8)
  blocks : ∀ f, (s.files.info f).Describes (s.blocksIn f)

theorem Ok.separate (h : s.Ok) : s.Separate :=
  ⟨h.blk.apart, h.blk.held_apart, h.blk.below, h.blk.under, h.rev.apart, h.rev.held_apart, h.rev.below,
    h.data, h.undo, h.blocks⟩

/-- A node whose block index has no data. -/
def Starts (s : Node) : Prop :=
  ∃ chain : ChainState, chain.mapBlockIndex.Nodup ∧
    (∀ p ∈ chain.mapBlockIndex, (chain.node p).nStatus.haveData = false ∧
      (chain.node p).nStatus.haveUndo = false) ∧
    s = Node.start chain

/-- A new block that fits into the last file. -/
theorem fits_last {p : Ptr} {nTx nAddSize : Nat} {write : BlockWrite}
    (hsize : (s.files.info s.files.nLastBlockFile).nSize + nAddSize < MAX_BLOCKFILE_SIZE)
    (hcount : (s.files.info s.files.nLastBlockFile).nBlocks + 1 < 2 ^ 32) (hwrite : write ≠ .failed) :
    Fits (.new p nTx nAddSize true write) s := by
  refine ⟨fun f hf => ?_, rfl, hwrite⟩
  obtain rfl : s.files.nLastBlockFile = f := by
    by_contra hne
    exact absurd (hf.2 _ (le_refl _) (Nat.lt_of_le_of_ne hf.1 hne)) (Nat.not_le.mpr hsize)
  exact ⟨hsize.trans (by decide), fun _ => hcount⟩

/-- Four headers. -/
def headers : ChainState :=
  { ChainState.empty with
    node := fun p => { ChainState.empty.node p with
      phashBlock := Fin.ofNat _ p
      pprev := if p = 0 then none else some (p - 1)
      nHeight := p }
    mapBlockIndex := [0, 1, 2, 3] }

theorem headers_starts : Starts (Node.start headers) :=
  ⟨headers, by decide, by decide, rfl⟩

/-- A block at a known position, with its undo data. -/
def indexed : Node :=
  ((Node.start headers).acceptKnown 1 1 ⟨0, 8⟩ 300).writeUndo true 1 40 true true

/-- Two blocks at known positions, the second near the end of what 32 bits can address, and two new
blocks. -/
def wrappingRun : List Op :=
  [.known 0 1 ⟨0, 8⟩ 100, .known 1 1 ⟨0, 4294965296⟩ 1000, .new 2 1 1050 true .written,
    .new 3 1 100 true .written]

end Node

end BlockFiles

end GC
