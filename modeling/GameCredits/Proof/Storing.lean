import GameCredits.Proof.Flushing
import GameCredits.Proof.Steps

/-!
# Storing and connecting blocks

The operations between the flushes keep the invariant of memory and disk: data that is written goes
to the end of the last file, and the entries that change are dirty.

* `storeBlock_sound`: a block is stored at a new position, or where it is in the last file.
* `connectTip_sound`, `disconnectTip_sound`: the tip moves.
* `Ok.add`: a new entry.
-/

namespace GC

open Framework ChainState

/-! ## Entries after their changes -/

namespace ChainState

variable {s s' : ChainState} {p q : Ptr}

/-- `ReceivedBlockTransactions` changes the record of one entry. -/
theorem same_record_received (nTx : Nat) (pos : DiskBlockPos) :
    Same CBlockIndex.record (s.markReceived p nTx pos) (s.receivedBlockTransactions p nTx pos) :=
  same_marked_received (fun _ _ => same_assignLink fun _ _ _ => rfl) nTx pos

theorem node_recordConnected_self (h : (s.node p).pprev ≠ none) (n : Nat) :
    (s.recordConnected p n).node p =
      { s.node p with
        nUndoPos := if (s.node p).nStatus.haveUndo then (s.node p).nUndoPos else n
        nStatus := { (s.node p).nStatus with haveUndo := true }.raiseValidity BLOCK_VALID_SCRIPTS } := by
  unfold recordConnected
  split
  · next hnone => exact absurd hnone h
  · exact node_modify_self _

theorem node_recordConnected_ne (h : q ≠ p) (n : Nat) : (s.recordConnected p n).node q = s.node q := by
  unfold recordConnected
  split
  · rfl
  · exact node_modify_ne h _

theorem vChain_recordConnected (n : Nat) : (s.recordConnected p n).vChain = s.vChain := by
  unfold recordConnected
  split <;> rfl

/-- A new entry leaves the others as they are stored. -/
theorem Added.hashPrev (A : s.Added s' p) (T : s.Tree) (hq : s.Known q) :
    s'.hashPrev q = s.hashPrev q := by
  rw [ChainState.hashPrev, ChainState.hashPrev, A.node q hq]
  cases hr : (s.node q).pprev with
  | none => rfl
  | some r => exact congrArg CBlockIndex.phashBlock (A.node r (T.graded.closed q r hq hr))

theorem Added.diskIndex (A : s.Added s' p) (T : s.Tree) (hq : s.Known q) :
    s'.diskIndex q = s.diskIndex q := by
  rw [ChainState.diskIndex, ChainState.diskIndex, A.hashPrev T hq, A.node q hq]

theorem hashPrev_eq (h : (s.node p).pprev = some q) : s.hashPrev p = (s.node q).phashBlock := by
  rw [hashPrev, h]
end ChainState

namespace Globals

variable {g g' g₀ : Globals} {d : Disk} {dataEnd undoEnd dataEnd' undoEnd' : Nat} {p : Ptr}
  {args : PruneArgs} {env : FlushEnv}

/-! ## Storing blocks -/

/-- The commits of the files that `FindBlockPos` leaves. -/
theorem Ok.flushes (h : g.Ok dataEnd undoEnd d) (left : Nat) :
    Stops Disk.write Disk.Consistent d (List.replicate left g.flushBlockFile).flatten ∧
      g.Ok dataEnd undoEnd ((List.replicate left g.flushBlockFile).flatten.foldl Disk.write d) := by
  refine stops_of_step (I := fun d => g.Ok dataEnd undoEnd d) (fun d hd => hd.consistent)
    (fun w hw d hd => ?_) h
  obtain ⟨ws, hws, hw⟩ := List.mem_flatten.mp hw
  obtain ⟨-, rfl⟩ := List.mem_replicate.mp hws
  rcases List.mem_pair.mp hw with rfl | rfl
  · exact hd.commitBlock
  · exact hd.commitUndo

/-- When a file is left, everything is settled. -/
theorem Ok.flushes_flushed (h : g.Ok dataEnd undoEnd d) {left : Nat} (hleft : 0 < left) :
    g.Flushed dataEnd undoEnd
      ((List.replicate left g.flushBlockFile).flatten.foldl Disk.write d) := by
  obtain ⟨k, rfl⟩ := Nat.exists_eq_add_of_lt hleft
  rw [Nat.zero_add, List.replicate_succ', List.flatten_append, List.foldl_append,
    List.flatten_singleton]
  exact (h.flushes k).2.flushed

/-- Going on to another file, when everything is settled. -/
theorem Ok.advance (h : g.Ok dataEnd undoEnd d) (hf : g.Flushed dataEnd undoEnd d)
    (hchain : g'.chain = g.chain) (hdirty : g'.setDirtyBlockIndex = g.setDirtyBlockIndex)
    (hbest : g'.hashBlock = g.hashBlock) (hlast : g.nLastBlockFile < g'.nLastBlockFile) :
    g'.Ok dataEnd' undoEnd' d := by
  obtain ⟨chain, dirty, dirtyFiles, vinfo, last, best, check, havePruned, lastWrite, lastFlush⟩ := g'
  dsimp only at hchain hdirty hbest hlast
  subst hchain hdirty hbest
  have hle := Nat.le_of_lt hlast
  have hne : last = g.nLastBlockFile → ∀ {n m : Nat}, n ≤ m := fun heq =>
    absurd heq (Nat.ne_of_gt hlast)
  exact
    { h with
      data := fun p hp hd => ((hf.data p hp hd).advance hle fun heq => hne heq).placed
      undo := fun p hp hu => ((hf.undo p hp hu).advance hle fun heq => hne heq).placed
      settledData := fun k e he hd => (h.settledData k e he hd).advance hle fun heq => hne heq
      settledUndo := fun k e he hu => (h.settledUndo k e he hu).advance hle fun heq => hne heq }

theorem noteGrowth_eq (grows : Bool) (g : Globals) :
    g.noteGrowth args grows =
      { g with fCheckForPruning := grows && args.fPruneMode || g.fCheckForPruning } := by
  unfold noteGrowth
  cases grows && args.fPruneMode <;> rfl

/-- What a position for a block leaves: it is at the end of the last file, which has grown. -/
structure Found (g : Globals) (pos : DiskBlockPos) (nAddSize : Nat) (g' : Globals) (d : Disk) :
    Prop where
  ok : g'.Ok pos.nPos (g'.info g'.nLastBlockFile).nUndoSize d
  chain : g'.chain = g.chain
  file : pos.nFile = g'.nLastBlockFile
  size : (g'.info g'.nLastBlockFile).nSize = pos.nPos + nAddSize

theorem Found.inv {pos : DiskBlockPos} {nAddSize : Nat} (h : Found g pos nAddSize g' d) :
    g'.Inv d := h.ok.frame rfl rfl rfl h.ok.best (by rw [h.size]; omega) (Nat.le_refl _)

/-- The files that `FindBlockPos` leaves have been flushed, and the one it goes on to has grown. -/
theorem Ok.grown (h : g.Ok (g.info g.nLastBlockFile).nSize (g.info g.nLastBlockFile).nUndoSize d)
    {left : Nat} {info : CBlockFileInfo} {check : Bool}
    (hf : 0 < left →
      g.Flushed (g.info g.nLastBlockFile).nSize (g.info g.nLastBlockFile).nUndoSize d)
    (hundo : (g.info (g.nLastBlockFile + left)).nUndoSize ≤ undoEnd) :
    { g.setInfo (g.nLastBlockFile + left) info with
      nLastBlockFile := g.nLastBlockFile + left
      fCheckForPruning := check }.Ok (g.info (g.nLastBlockFile + left)).nSize undoEnd d := by
  rcases Nat.eq_zero_or_pos left with rfl | hleft
  · exact h.frame rfl rfl rfl h.best (Nat.le_refl _) hundo
  · exact h.advance (hf hleft) rfl rfl rfl (Nat.lt_add_of_pos_right hleft)

theorem findBlockPos_sound (args : PruneArgs) (h : g.Inv d) (nAddSize nHeight nTime : Nat) (space : Bool) :
    (g.findBlockPos args nAddSize nHeight nTime space).2.Sound Disk.write Disk.Consistent d
      (Found g (g.findBlockPos args nAddSize nHeight nTime space).1 nAddSize)
      (Found g (g.findBlockPos args nAddSize nHeight nTime space).1 nAddSize) := by
  unfold findBlockPos
  simp only [noteGrowth_eq]
  generalize skipFull nAddSize (g.vinfoBlockFile.drop g.nLastBlockFile) = left
  obtain ⟨hstops, hok⟩ := Ok.flushes h left
  refine ⟨hstops, ?_⟩
  rw [ite_self]
  have hinfo := info_setInfo g (g.nLastBlockFile + left) (g.nLastBlockFile + left)
    { (g.info (g.nLastBlockFile + left)).addBlock nHeight nTime with
      nSize := (g.info (g.nLastBlockFile + left)).nSize + nAddSize }
  rw [if_pos rfl] at hinfo
  refine ⟨hok.grown (Ok.flushes_flushed h) (Nat.le_of_eq ?_), rfl, rfl, ?_⟩
  · exact (congrArg CBlockFileInfo.nUndoSize hinfo).symm
  · exact congrArg CBlockFileInfo.nSize hinfo

/-- `ReceivedBlockTransactions` for a block that is in its file. -/
theorem Ok.received (h : g.Ok dataEnd undoEnd d) (hp : g.chain.Known p)
    (hdata : (g.chain.status p).haveData = false) (nTx : Nat) {pos : DiskBlockPos}
    (hplaced : Placed d.blk g.nLastBlockFile dataEnd pos.nFile pos.nPos (g.chain.node p).phashBlock) :
    (g.receivedBlockTransactions p nTx pos).Ok dataEnd undoEnd d := by
  have hkept := h.index.received hp nTx pos
  have hsame := same_record_received (s := g.chain) (p := p) nTx pos
  obtain ⟨hst, hf, hpos, -⟩ := record_eq (hsame p)
  have hmark : (g.chain.markReceived p nTx pos).node p =
      { g.chain.node p with
        nTx := nTx
        nChainTx := 0
        nFile := pos.nFile
        nDataPos := pos.nPos
        nUndoPos := 0
        nStatus := { g.chain.status p with haveData := true }.raiseValidity
          BLOCK_VALID_TRANSACTIONS } := node_modify_self _
  have hundo : ((g.chain.receivedBlockTransactions p nTx pos).status p).haveUndo = false := by
    rw [hst, status, hmark, BlockStatus.raiseValidity_haveUndo]
    cases hu : (g.chain.status p).haveUndo with
    | false => rfl
    | true => rw [h.undoData p hp hu] at hdata; cases hdata
  refine h.change hp (h.index.kept hkept) hkept.same (fun q hq => ?_) (fun hu => ?_) (fun _ => ?_)
    (fun hu => ?_)
  · exact (hsame q).trans (congrArg CBlockIndex.record (node_modify_ne hq _))
  · rw [hundo] at hu; cases hu
  · rw [hf, hpos, hmark]
    exact hplaced
  · rw [hundo] at hu; cases hu

/-- A block is at a position in the last file. -/
def InPlace (g : Globals) (d : Disk) (p : Ptr) (pos : DiskBlockPos) : Prop :=
  pos.nFile = g.nLastBlockFile ∧ (d.blk pos.nFile).present = true ∧
    (pos.nPos, (g.chain.node p).phashBlock) ∈ (d.blk pos.nFile).written

theorem Ok.findKnownPos (h : g.Inv d) {pos : DiskBlockPos} (hfile : pos.nFile = g.nLastBlockFile)
    (nAddSize nHeight nTime : Nat) :
    (g.findKnownPos pos nAddSize nHeight nTime).Inv d ∧
      pos.nPos + nAddSize ≤ ((g.findKnownPos pos nAddSize nHeight nTime).info
        (g.findKnownPos pos nAddSize nHeight nTime).nLastBlockFile).nSize := by
  have hinfo := info_setInfo g pos.nFile pos.nFile
    { (g.info pos.nFile).addBlock nHeight nTime with
      nSize := max (pos.nPos + nAddSize) (g.info pos.nFile).nSize }
  rw [if_pos rfl] at hinfo
  have hsize := congrArg CBlockFileInfo.nSize hinfo
  have hundo := congrArg CBlockFileInfo.nUndoSize hinfo
  have hok : g.Ok _ _ d := h
  refine ⟨hok.frame rfl rfl hfile hok.best ?_ ?_, ?_⟩
  · rw [← hfile]
    exact Nat.le_trans (Nat.le_max_right _ _) (Nat.le_of_eq hsize.symm)
  · rw [← hfile]
    exact Nat.le_of_eq hundo.symm
  · exact Nat.le_trans (Nat.le_max_left _ _) (Nat.le_of_eq hsize.symm)

/-- A block is stored, at a new position or where it is in the last file. -/
theorem storeBlock_sound (h : g.Inv d) (hp : g.chain.Known p)
    (hdata : (g.chain.status p).haveData = false) {nTx nBlockSize : Nat} (hsize : 0 < nBlockSize)
    {dbp : Option DiskBlockPos} (hdbp : ∀ pos, dbp = some pos → g.InPlace d p pos) {space : Bool}
    {blockWrite : BlockWrite} (hwrite : dbp = none → blockWrite ≠ .notOpened)
    (henv : env.indexWritten = true) :
    (g.storeBlock args p nTx nBlockSize dbp space blockWrite env).Sound Disk.write Disk.Consistent d
      Inv Inv := by
  unfold storeBlock
  refine Effect.Sound.andThen (R := Inv) ?_ fun g' d' h' hP => ?_
  · cases dbp with
    | some pos =>
      obtain ⟨hfile, hpresent, hwritten⟩ := hdbp pos rfl
      obtain ⟨hinv, hlt⟩ := Ok.findKnownPos h hfile (nBlockSize + 8) (g.chain.node p).nHeight
        (g.chain.node p).nTime.toNat
      have hplaced : Placed d.blk pos.nFile ((g.findKnownPos pos (nBlockSize + 8)
          (g.chain.node p).nHeight (g.chain.node p).nTime.toNat).info pos.nFile).nSize pos.nFile pos.nPos
          (g.chain.node p).phashBlock :=
        ⟨Nat.le_refl _, hpresent, hwritten, fun hne => absurd rfl hne, fun _ =>
          Nat.lt_of_lt_of_le (by omega) hlt⟩
      exact Effect.sound_done h.consistent (Ok.received hinv hp hdata nTx hplaced)
    | none =>
      have hfound :=
        findBlockPos_sound args h (nBlockSize + 8) (g.chain.node p).nHeight (g.chain.node p).nTime.toNat
          space
      simp only
      generalize g.findBlockPos args (nBlockSize + 8) (g.chain.node p).nHeight
        (g.chain.node p).nTime.toNat space = r at hfound ⊢
      obtain ⟨⟨nFile, nPos⟩, found⟩ := r
      refine (hfound.mono (fun _ _ h => h) fun _ _ h => h.inv).andThen fun g' d' hg' hP => ?_
      obtain rfl : nFile = g'.nLastBlockFile := hg'.file
      have hok := hg'.inv
      have hp' : g'.chain.Known p := by rw [hg'.chain]; exact hp
      have hdata' : (g'.chain.status p).haveData = false := by rw [hg'.chain]; exact hdata
      cases blockWrite with
      | notOpened => exact absurd rfl (hwrite rfl)
      | failed => exact Effect.sound_fail hP hok
      | written =>
        have hbefore := hg'.ok.writeBlock (Nat.le_add_right nPos 8) (g.chain.node p).phashBlock
        have hlt : nPos + 8 < (g'.info g'.nLastBlockFile).nSize := by
          rw [hg'.size]
          exact Nat.add_lt_add_left (by omega) nPos
        have hend : g'.Inv (d'.write (.block ⟨g'.nLastBlockFile, nPos + 8⟩
            (g.chain.node p).phashBlock)) := hbefore.frame rfl rfl rfl hbefore.best
          (Nat.le_trans (Nat.le_add_right nPos 8) (Nat.le_of_lt hlt)) (Nat.le_refl _)
        refine Effect.sound_write (.cons hP (stops_nil.mpr hbefore.consistent))
          (Ok.received hend hp' hdata' nTx ?_)
        rw [hg'.chain]
        exact placed_write hlt _
  · split_ifs
    · refine Effect.Sound.ignore ?_
      exact (flushStateToDisk_sound args .none h' henv).mono (fun _ _ h => h.inv) fun _ _ h => h.inv
    · exact Effect.sound_done hP h'

/-! ## Moving the tip -/

/-- A block connects whose undo data is in the last file, or was there already. -/
theorem Ok.connected (h : g.Ok dataEnd undoEnd d) (hp : g.chain.Known p)
    (hparent : (g.chain.node p).pprev ≠ none) (hdata : (g.chain.status p).haveData = true) (n : Nat)
    (hplaced : (g.chain.status p).haveUndo = false →
      Placed d.rev g.nLastBlockFile undoEnd (g.chain.node p).nFile n (g.chain.node p).phashBlock) :
    ({ g with chain := g.chain.recordConnected p n }.markDirty p).Ok dataEnd undoEnd d := by
  have hself := node_recordConnected_self hparent n
  have hdata' : ((g.chain.recordConnected p n).status p).haveData = true := by
    rw [status, hself, BlockStatus.raiseValidity_haveData]
    exact hdata
  refine h.change hp (h.index.recordConnected n) (sameTree_recordConnected n)
    (fun q hq => congrArg CBlockIndex.record (node_recordConnected_ne hq n)) (fun _ => hdata')
    (fun _ => ?_) (fun _ => ?_)
  · rw [hself]
    exact h.data p hp hdata
  · rw [hself]
    cases hu : (g.chain.status p).haveUndo with
    | false =>
      rw [status] at hu
      simp only [hu, Bool.false_eq_true, if_false]
      exact hplaced hu
    | true =>
      have := h.undo p hp hu
      rw [status] at hu
      simp only [hu, if_true]
      exact this

@[simp] theorem chain_noteGrowth (grows : Bool) (g : Globals) :
    (g.noteGrowth args grows).chain = g.chain := by rw [noteGrowth_eq]

@[simp] theorem dirty_noteGrowth (grows : Bool) (g : Globals) :
    (g.noteGrowth args grows).setDirtyBlockIndex = g.setDirtyBlockIndex := by rw [noteGrowth_eq]

@[simp] theorem last_noteGrowth (grows : Bool) (g : Globals) :
    (g.noteGrowth args grows).nLastBlockFile = g.nLastBlockFile := by rw [noteGrowth_eq]

@[simp] theorem hashBlock_noteGrowth (grows : Bool) (g : Globals) :
    (g.noteGrowth args grows).hashBlock = g.hashBlock := by rw [noteGrowth_eq]

@[simp] theorem info_noteGrowth (grows : Bool) (g : Globals) (n : Nat) :
    (g.noteGrowth args grows).info n = g.info n := by rw [noteGrowth_eq]; rfl

/-- What the growth of an undo file leaves. -/
structure UndoGrown (g : Globals) (n nUndoSize : Nat) (g' : Globals) (d : Disk) : Prop where
  inv : g'.Inv d
  chain : g'.chain = g.chain
  last : g'.nLastBlockFile = g.nLastBlockFile
  size : (g'.info n).nUndoSize = nUndoSize

theorem Ok.growUndo (h : g.Inv d) (n nUndoSize : Nat) (grows : Bool)
    (hle : (g.info n).nUndoSize ≤ nUndoSize) :
    UndoGrown g n nUndoSize
      ((g.setInfo n { g.info n with nUndoSize := nUndoSize }).noteGrowth args grows) d := by
  have hok : g.Ok _ _ d := h
  refine ⟨hok.frame (chain_noteGrowth _ _) (dirty_noteGrowth _ _) (last_noteGrowth _ _) ?_ ?_ ?_,
    chain_noteGrowth _ _, last_noteGrowth _ _, ?_⟩
  · rw [hashBlock_noteGrowth]
    exact hok.best
  · rw [last_noteGrowth, info_noteGrowth, info_setInfo]
    split_ifs with heq
    · rw [← heq]; exact Nat.le_refl _
    · exact Nat.le_refl _
  · rw [last_noteGrowth, info_noteGrowth, info_setInfo]
    split_ifs with heq
    · rw [← heq] at hle; exact hle
    · exact Nat.le_refl _
  · rw [info_noteGrowth, info_setInfo, if_pos rfl]

/-- The undo data is at the end of the last file, which has grown for it. -/
theorem UndoGrown.connected {start nUndoSize : Nat}
    (h : UndoGrown g g.nLastBlockFile nUndoSize g'
      (d.write (.undo ⟨g.nLastBlockFile, start⟩ (g.chain.node p).phashBlock)))
    (hp : g.chain.Known p) (hparent : (g.chain.node p).pprev ≠ none)
    (hdata : (g.chain.status p).haveData = true)
    (hfile : (g.chain.node p).nFile = g.nLastBlockFile) (hlt : start < nUndoSize) :
    Flushing g ({ g' with chain := g'.chain.recordConnected p start }.markDirty p)
      (d.write (.undo ⟨g.nLastBlockFile, start⟩ (g.chain.node p).phashBlock)) := by
  obtain ⟨hinv, hchain, hlast, hsize⟩ := h
  have hok : g'.Ok _ _ _ := hinv
  rw [← hlast] at hsize
  rw [← hsize] at hlt
  refine ⟨hok.connected (by rwa [hchain]) (by rwa [hchain]) (by rwa [hchain]) start fun _ => ?_, ?_, ?_⟩
  · rw [hchain, hfile, ← hlast]
    exact placed_write hlt _
  · rw [hchain]
    exact sameTree_recordConnected start
  · rw [hchain]
    exact vChain_recordConnected start

/-- `ConnectBlock` writes undo data, when it goes to the last file. -/
theorem writeUndo_sound (args : PruneArgs) (h : g.Inv d) (hp : g.chain.Known p)
    (hdata : (g.chain.status p).haveData = true) (nUndoSize : Nat) (space : Bool) {written : Bool}
    (hlast : (g.chain.node p).pprev ≠ none → (g.chain.status p).haveUndo = false → written = true →
      (g.chain.node p).nFile = g.nLastBlockFile) :
    (g.writeUndo args p nUndoSize space written).Sound Disk.write Disk.Consistent d (Flushing g)
      Inv := by
  have hsame : Flushing g g d := ⟨h, .refl _, rfl⟩
  unfold writeUndo
  simp only
  split_ifs with hparent hundo hvalid hfail
  · exact Effect.sound_done h.consistent hsame
  · exact Effect.sound_done h.consistent hsame
  · have hok := Ok.connected h hp hparent hdata 0 fun hu => by rw [status, hundo] at hu; cases hu
    exact Effect.sound_done h.consistent
      ⟨hok, sameTree_recordConnected 0, vChain_recordConnected 0⟩
  · exact Effect.sound_fail h.consistent (Ok.growUndo h _ _ _ (Nat.le_add_right _ _)).inv
  · have hwritten : written = true := by
      cases written with
      | true => rfl
      | false => exact absurd (Bool.or_true _) hfail
    have hu : (g.chain.status p).haveUndo = false := Bool.eq_false_iff.mpr hundo
    have hfile := hlast hparent hu hwritten
    have hbefore := Ok.writeUndoData h (Nat.le_add_right (g.info g.nLastBlockFile).nUndoSize 8)
      (g.chain.node p).phashBlock
    rw [hfile]
    exact Effect.sound_write (.cons h.consistent (stops_nil.mpr hbefore.consistent))
      ((Ok.growUndo hbefore g.nLastBlockFile _ _ (Nat.le_add_right _ _)).connected hp hparent hdata
        hfile (Nat.add_lt_add_left (by omega) _))

/-- The flag of a block that is invalid is set. -/
theorem Ok.marked {c : ChainState} (h : g.Ok dataEnd undoEnd d) (hp : g.chain.Known p)
    (hkept : g.chain.Kept c)
    (hnode : ∀ q, c.node q = if q = p then { g.chain.node p with
      nStatus := { (g.chain.node p).nStatus with failedValid := true } } else g.chain.node q) :
    ({ g with chain := c }.markDirty p).Ok dataEnd undoEnd d := by
  have hself := (hnode p).trans (if_pos rfl)
  refine h.change hp (h.index.kept hkept) hkept.same (fun q hq => ?_) (fun hu => ?_) (fun hd => ?_)
    (fun hu => ?_)
  · rw [hnode, if_neg hq]
  · rw [status, hself] at hu ⊢
    exact h.undoData p hp hu
  · rw [status, hself] at hd
    rw [hself]
    exact h.data p hp hd
  · rw [status, hself] at hu
    rw [hself]
    exact h.undo p hp hu

theorem invalidBlockFound_inv (h : g.Inv d) (hp : g.chain.Known p) (corruptionPossible : Bool) :
    (g.invalidBlockFound p corruptionPossible).Inv d := by
  unfold invalidBlockFound
  split_ifs
  · exact h
  · exact Ok.marked h hp ((kept_markInvalid _ p).trans (kept_invalidChainFound _ p)) fun _ => rfl

/-- The tip moves, in memory. -/
theorem Ok.updateTip (h : g.Ok dataEnd undoEnd d) {tip : Option Ptr}
    (hI : (g.chain.updateTip tip).Index) :
    { g with chain := g.chain.updateTip tip }.Ok dataEnd undoEnd d :=
  { h with index := hI }

/-- The best block of the coins in memory changes. -/
theorem Flushing.setBest (h : Flushing g₀ g d) (hp : g.chain.Known p) {hash : UInt256}
    (hhash : (g.chain.node p).phashBlock = hash) : Flushing g₀ { g with hashBlock := hash } d :=
  ⟨Ok.frame h.inv rfl rfl rfl (.inr ⟨p, hp, hhash⟩) (Nat.le_refl _) (Nat.le_refl _), h.tree, h.vChain⟩

theorem Flushing.tip (h : Flushing g₀ g d) : g.chain.tip = g₀.chain.tip :=
  congrArg List.getLast? h.vChain

theorem Flushing.trans (h : Flushing g₀ g d) {d' : Disk} (h' : Flushing g g' d') :
    Flushing g₀ g' d' := ⟨h'.inv, h.tree.trans h'.tree, h'.vChain.trans h.vChain⟩

/-- `ConnectTip`, when undo data goes to the last file. -/
theorem connectTip_sound (h : g.Inv d) (hp : g.chain.Known p) {read : Bool} {verdict : ConnectVerdict}
    (hlast : ∀ nUndoSize space written, verdict = .connects nUndoSize space written →
      (g.chain.node p).pprev ≠ none → (g.chain.status p).haveUndo = false → written = true →
        (g.chain.node p).nFile = g.nLastBlockFile)
    (henv : ∀ nUndoSize space written, verdict = .connects nUndoSize space written →
      env.indexWritten = true)
    {e : DiskEffect} (he : g.connectTip args p read verdict env = some e) :
    e.Sound Disk.write Disk.Consistent d Inv Inv := by
  unfold connectTip at he
  split_ifs at he with htip hread hbest
  · cases he
    exact Effect.sound_fail h.consistent h
  · cases verdict with
    | invalid corruptionPossible =>
      cases he
      exact Effect.sound_fail h.consistent (invalidBlockFound_inv h hp corruptionPossible)
    | connects nUndoSize space written =>
      cases he
      have hdata : (g.chain.status p).haveData = true := by
        cases hd : (g.chain.status p).haveData with
        | true => rfl
        | false => rw [status] at hd; rw [hd] at hread; exact absurd rfl hread
      have hconnected := (writeUndo_sound args h hp hdata nUndoSize space (hlast _ _ written rfl)).map
        fun g' d' h' => h'.setBest (by rwa [h'.tree.known]) rfl
      have hflushed : Effect.Sound Disk.write Disk.Consistent d (Flushing g) Inv
          (((g.writeUndo args p nUndoSize space written).map fun g' =>
            { g' with hashBlock := (g'.chain.node p).phashBlock }).andThen
              (flushStateToDisk args .ifNeeded env)) :=
        hconnected.andThen fun g' d' h' _ =>
          (flushStateToDisk_sound args .ifNeeded h'.inv (henv _ _ _ rfl)).mono
            (fun _ _ h'' => h'.trans h'') fun _ _ h'' => h''.inv
      refine hflushed.map fun g' d' h' => ?_
      have hparent : g'.chain.parent p = g'.chain.tip := by
        rw [h'.tree.parent, h'.tip]
        exact not_not.mp htip
      have hok : g'.Ok _ _ _ := h'.inv
      exact hok.updateTip (hok.index.push (by rwa [h'.tree.known]) hparent)

/-- `DisconnectTip`. -/
theorem disconnectTip_sound (h : g.Inv d) {read undone : Bool} (henv : env.indexWritten = true)
    {e : DiskEffect} (he : g.disconnectTip args read undone env = some e) :
    e.Sound Disk.write Disk.Consistent d Inv Inv := by
  have hok : g.Ok _ _ d := h
  unfold disconnectTip at he
  cases htip : g.chain.tip with
  | none => rw [htip] at he; cases he
  | some p =>
    rw [htip] at he
    simp only at he
    split_ifs at he with hread hbest hundone
    · cases he
      exact Effect.sound_fail h.consistent h
    · cases he
      exact Effect.sound_fail h.consistent h
    · cases he
      have hp : g.chain.Known p := tip_known hok.index.path htip
      have hundo : (g.chain.status p).haveUndo = true := by
        cases hu : (g.chain.status p).haveUndo with
        | true => rfl
        | false => rw [status] at hu; rw [hu] at hundone; exact absurd rfl hundone
      obtain ⟨q, hq⟩ := Option.ne_none_iff_exists'.mp (hok.index.tree.undo p hp hundo)
      have hbest' : Flushing g { g with hashBlock := g.chain.hashPrev p } d :=
        Flushing.setBest ⟨h, .refl _, rfl⟩ (hok.index.tree.graded.closed p q hp hq)
          (hashPrev_eq hq).symm
      have hflushed : ({ g with hashBlock := g.chain.hashPrev p }.flushStateToDisk args .ifNeeded
          env).Sound Disk.write Disk.Consistent d (Flushing g) Inv :=
        (flushStateToDisk_sound args .ifNeeded hbest'.inv henv).mono (fun _ _ h' => hbest'.trans h')
          fun _ _ h' => h'.inv
      refine hflushed.map fun g' d' h' => ?_
      have hok' : g'.Ok _ _ _ := h'.inv
      have hpop := hok'.index.pop (h'.tip.trans htip) ((congrFun h'.tree.parent p).trans hq)
      rw [← show (g.chain.node p).pprev = some q from hq] at hpop
      exact hok'.updateTip hpop

/-! ## New entries -/

/-- A new entry: it is dirty, and refers to no file. -/
theorem Ok.add (h : g.Ok dataEnd undoEnd d) (A : g.chain.Added g'.chain p)
    (hhash : ∀ q, g.chain.Known q →
      (g.chain.node q).phashBlock ≠ (g'.chain.node p).phashBlock)
    (hdirty : g'.setDirtyBlockIndex = insertNew p g.setDirtyBlockIndex)
    (hlast : g'.nLastBlockFile = g.nLastBlockFile) (hbest : g'.hashBlock = g.hashBlock) :
    g'.Ok dataEnd undoEnd d where
  index := A.toIndex h.index
  hashes q r hq hr heq := by
    rcases A.known.mp hq with hq | rfl <;> rcases A.known.mp hr with hr | rfl
    · rw [A.node q hq, A.node r hr] at heq
      exact h.hashes q r hq hr heq
    · rw [A.node q hq] at heq
      exact absurd heq (hhash q hq)
    · rw [A.node r hr] at heq
      exact absurd heq.symm (hhash r hr)
    · rfl
  dirty q hq := by
    rw [hdirty] at hq
    exact A.known.mpr ((mem_insertNew.mp hq).elim .inr fun hq => .inl (h.dirty q hq))
  clean q hq hclean := by
    rw [hdirty] at hclean
    rcases A.known.mp hq with hq | rfl
    · rw [A.diskIndex h.index.tree hq, A.node q hq]
      exact h.clean q hq fun hq' => hclean (mem_insertNew.mpr (.inr hq'))
    · exact absurd (mem_insertNew.mpr (.inl rfl)) hclean
  prev q e hq he := by
    rcases A.known.mp hq with hq | rfl
    · rw [A.node q hq] at he
      rw [A.hashPrev h.index.tree hq]
      exact h.prev q e hq he
    · obtain ⟨r, hr, heq⟩ := h.known _ e he
      exact absurd heq (hhash r hr)
  known k e he := by
    obtain ⟨q, hq, rfl⟩ := h.known k e he
    exact ⟨q, A.known.mpr (.inl hq), by rw [A.node q hq]⟩
  undoData q hq hu := by
    rcases A.known.mp hq with hq | rfl
    · rw [A.status_eq hq] at hu ⊢
      exact h.undoData q hq hu
    · rw [A.haveUndo] at hu; cases hu
  data q hq hd := by
    rcases A.known.mp hq with hq | rfl
    · rw [A.status_eq hq] at hd
      rw [A.node q hq, hlast]
      exact h.data q hq hd
    · rw [A.haveData] at hd; cases hd
  undo q hq hu := by
    rcases A.known.mp hq with hq | rfl
    · rw [A.status_eq hq] at hu
      rw [A.node q hq, hlast]
      exact h.undo q hq hu
    · rw [A.haveUndo] at hu; cases hu
  settledData := by rw [hlast]; exact h.settledData
  settledUndo := by rw [hlast]; exact h.settledUndo
  best := by
    rw [hbest]
    exact h.best.imp_right fun ⟨q, hq, heq⟩ => ⟨q, A.known.mpr (.inl hq), by rwa [A.node q hq]⟩
  rooted := h.rooted

theorem addToBlockIndex_inv (h : g.Inv d) (hash : UInt256) (block : CBlockHeader)
    (hp : ¬ g.chain.Known p) : (g.addToBlockIndex hash block p).Inv d := by
  unfold addToBlockIndex
  split
  · exact h
  · next hfind =>
    have hhash : ((g.chain.addEntry hash block p).node p).phashBlock = hash :=
      congrArg CBlockIndex.phashBlock
        (node_modify_self (s := g.chain) fun _ => g.chain.newEntry hash block)
    exact Ok.add h (added_addEntry hash block hp)
      (fun q hq => fun heq => find_eq_none hfind hq (heq.trans hhash)) rfl rfl rfl
end Globals

end GC
