import GameCredits.Proof.Storing

/-!
# Stops between the writes of a node

Every operation of the node keeps the invariant of memory and disk, and the disk is consistent
wherever the operation is cut off, when the batches of the index are written, blocks that are stored
are written or are in the last file, and undo data goes to the last file (`Orderly`). Else it need
not be.

* `act_sound`: one operation.
* `crash_consistent`: the disk at every stop of every run.
-/

namespace GC

open Framework ChainState

namespace Globals

variable {g : Globals} {d : Disk}

/-! ## Runs -/

/-- What is asked of an operation: the batches of the index are written, a block that is stored is
written or is in the last file, and undo data that is written goes to the last file. -/
def Orderly : FlushOp → Globals × Disk → Prop
  | .header .., _ => True
  | .block p _ _ dbp _ blockWrite env, s =>
    env.indexWritten = true ∧
      match dbp with
      | some pos => s.1.InPlace s.2 p pos
      | none => blockWrite ≠ .notOpened
  | .reject _, _ => True
  | .connectTip _ _ (.invalid _) _, _ => True
  | .connectTip p _ (.connects _ _ written) env, s =>
    env.indexWritten = true ∧
      ((s.1.chain.node p).pprev ≠ none → (s.1.chain.node p).nStatus.haveUndo = false →
        written = true → (s.1.chain.node p).nFile = s.1.nLastBlockFile)
  | .disconnectTip _ _ env, _ => env.indexWritten = true
  | .flush _ env, _ => env.indexWritten = true
  | .pruneAndFlush env, _ => env.indexWritten = true

instance (op : FlushOp) (s : Globals × Disk) : Decidable (Orderly op s) :=
  match op with
  | .header .. => isTrue trivial
  | .block _ _ _ (some _) _ _ _ => inferInstanceAs (Decidable (_ ∧ _ ∧ _ ∧ _))
  | .block _ _ _ none _ _ _ => inferInstanceAs (Decidable (_ ∧ _ ≠ _))
  | .reject _ => isTrue trivial
  | .connectTip _ _ (.invalid _) _ => isTrue trivial
  | .connectTip _ _ (.connects _ _ _) _ => inferInstanceAs (Decidable (_ ∧ (_ → _ → _ → _)))
  | .disconnectTip _ _ _ => inferInstanceAs (Decidable (_ = _))
  | .flush _ _ => inferInstanceAs (Decidable (_ = _))
  | .pruneAndFlush _ => inferInstanceAs (Decidable (_ = _))

/-- Every operation keeps the invariant, and the disk is consistent wherever it is cut off. -/
theorem act_sound (args : PruneArgs) {op : FlushOp} (h : g.Inv d) (hop : Orderly op (g, d))
    {e : DiskEffect} (he : act args op g = some e) :
    e.Sound Disk.write Disk.Consistent d Inv Inv := by
  have hflush : ∀ (mode : FlushStateMode) (env : FlushEnv) (g : Globals), g.Inv d →
      env.indexWritten = true → (g.flushStateToDisk args mode env).Sound Disk.write Disk.Consistent d
        Inv Inv := fun mode env g h henv =>
    (flushStateToDisk_sound args mode h henv).mono (fun _ _ h => h.inv) fun _ _ h => h.inv
  cases op with
  | header hash block pindexNew =>
    simp only [act] at he
    split_ifs at he with hnew
    cases he
    exact Effect.sound_done h.consistent (addToBlockIndex_inv h hash block hnew)
  | block p nTx nBlockSize dbp space blockWrite env =>
    simp only [act] at he
    split_ifs at he with hwants
    cases he
    obtain ⟨hwants, -, -, hsize, -⟩ := hwants
    simp only [wantsBody, Bool.and_eq_true, decide_eq_true_eq, Bool.not_eq_true'] at hwants
    obtain ⟨henv, hdbp⟩ := hop
    refine storeBlock_sound h hwants.1.1 hwants.2 hsize (fun pos hpos => ?_) (fun hnone => ?_) henv
    · subst hpos; exact hdbp
    · subst hnone; exact hdbp
  | reject p =>
    simp only [act] at he
    split_ifs at he with hwants
    cases he
    simp only [wantsBody, Bool.and_eq_true, decide_eq_true_eq] at hwants
    exact Effect.sound_done h.consistent
      (Ok.marked h hwants.1.1 (kept_rejectBlock _ p) fun _ => rfl)
  | connectTip p read verdict env =>
    simp only [act] at he
    split_ifs at he with hp
    refine connectTip_sound h hp (fun nUndoSize space written heq => ?_)
      (fun nUndoSize space written heq => ?_) he
    · subst heq; exact hop.2
    · subst heq; exact hop.1
  | disconnectTip read undone env => exact disconnectTip_sound h hop he
  | flush mode env =>
    cases he
    exact hflush mode env g h hop
  | pruneAndFlush env =>
    cases he
    have hok : g.Ok _ _ d := h
    exact hflush .none env _ (hok.frame rfl rfl rfl hok.best (Nat.le_refl _) (Nat.le_refl _)) hop

/-- A node that has started: the index in memory is the one on disk, which is consistent, and the
last files reach as far as the data in them. -/
structure Loaded (s : Globals × Disk) : Prop where
  index : s.1.chain.Index
  hashes : ∀ p q, s.1.chain.Known p → s.1.chain.Known q →
    (s.1.chain.node p).phashBlock = (s.1.chain.node q).phashBlock → p = q
  dirty : s.1.setDirtyBlockIndex = []
  stored : ∀ p, s.1.chain.Known p →
    s.2.blockIndex (s.1.chain.node p).phashBlock = some (s.1.chain.diskIndex p)
  known : ∀ h e, s.2.blockIndex h = some e →
    ∃ p, s.1.chain.Known p ∧ (s.1.chain.node p).phashBlock = h
  consistent : s.2.Consistent
  undoData : ∀ p, s.1.chain.Known p → (s.1.chain.status p).haveUndo = true →
    (s.1.chain.status p).haveData = true
  le : ∀ p, s.1.chain.Known p → (s.1.chain.status p).haveData = true →
    (s.1.chain.node p).nFile ≤ s.1.nLastBlockFile
  data : ∀ p, s.1.chain.Known p → (s.1.chain.status p).haveData = true →
    (s.1.chain.node p).nFile = s.1.nLastBlockFile →
    (s.1.chain.node p).nDataPos < (s.1.info s.1.nLastBlockFile).nSize
  undo : ∀ p, s.1.chain.Known p → (s.1.chain.status p).haveUndo = true →
    (s.1.chain.node p).nFile = s.1.nLastBlockFile →
    (s.1.chain.node p).nUndoPos < (s.1.info s.1.nLastBlockFile).nUndoSize
  best : s.1.hashBlock = s.2.bestBlock

theorem Loaded.inv {s : Globals × Disk} (h : Loaded s) : s.1.Inv s.2 := by
  have hdata : ∀ p, s.1.chain.Known p → (s.1.chain.status p).haveData = true →
      Settled s.2.blk s.1.nLastBlockFile (s.1.info s.1.nLastBlockFile).nSize (s.1.chain.node p).nFile
        (s.1.chain.node p).nDataPos (s.1.chain.node p).phashBlock := fun p hp hd => by
    obtain ⟨hfile, hpos⟩ := diskIndex_data hd
    obtain ⟨hpresent, hcommitted⟩ := h.consistent.data _ _ (h.stored p hp) hd
    rw [hfile] at hpresent
    rw [hfile, hpos] at hcommitted
    exact ⟨h.le p hp hd, hpresent, hcommitted, h.data p hp hd⟩
  have hundo : ∀ p, s.1.chain.Known p → (s.1.chain.status p).haveUndo = true →
      Settled s.2.rev s.1.nLastBlockFile (s.1.info s.1.nLastBlockFile).nUndoSize
        (s.1.chain.node p).nFile (s.1.chain.node p).nUndoPos (s.1.chain.node p).phashBlock :=
      fun p hp hu => by
    obtain ⟨hfile, hpos⟩ := diskIndex_undo hu
    obtain ⟨hpresent, hcommitted⟩ := h.consistent.undo _ _ (h.stored p hp) hu
    rw [hfile] at hpresent
    rw [hfile, hpos] at hcommitted
    exact ⟨h.le p hp (h.undoData p hp hu), hpresent, hcommitted, h.undo p hp hu⟩
  exact
    { index := h.index
      hashes := h.hashes
      dirty := fun p hp => by rw [h.dirty] at hp; cases hp
      clean := fun p hp _ => h.stored p hp
      prev := fun p e hp he => by
        rw [h.stored p hp] at he
        cases he
        rfl
      known := h.known
      undoData := h.undoData
      data := fun p hp hd => (hdata p hp hd).placed
      undo := fun p hp hu => (hundo p hp hu).placed
      settledData := fun k e he hd => by
        obtain ⟨p, hp, rfl⟩ := h.known k e he
        rw [h.stored p hp] at he
        cases he
        obtain ⟨hfile, hpos⟩ := diskIndex_data hd
        rw [hfile, hpos]
        exact hdata p hp hd
      settledUndo := fun k e he hu => by
        obtain ⟨p, hp, rfl⟩ := h.known k e he
        rw [h.stored p hp] at he
        cases he
        obtain ⟨hfile, hpos⟩ := diskIndex_undo hu
        rw [hfile, hpos]
        exact hundo p hp hu
      best := h.consistent.best.imp h.best.trans fun hr => by
        rw [h.best]
        cases hr with
        | root hd _ => exact h.known _ _ hd
        | next hd _ => exact h.known _ _ hd
      rooted := h.consistent.best }

/-- A node without a chain has started, whatever is in its files. -/
theorem loaded_empty (blk rev : Nat → Segment UInt256) :
    Loaded (.empty, { Disk.empty with blk := blk, rev := rev }) where
  index := index_empty
  hashes _ _ hp := by cases hp
  dirty := rfl
  stored _ hp := by cases hp
  known _ _ he := by cases he
  consistent := ⟨.inl rfl, fun _ _ he => (by cases he), fun _ _ he => (by cases he)⟩
  undoData _ hp := by cases hp
  le _ hp := by cases hp
  data _ hp := by cases hp
  undo _ hp := by cases hp
  best := rfl

/-- A node that does not prune. -/
def sampleArgs : PruneArgs := ⟨false, false, 0, 100000⟩

/-- A call at which nothing fails. -/
def sampleEnv : FlushEnv := ⟨1, false, false, true, true, true, true⟩

def sampleHeader (p prev : Nat) : FlushOp :=
  .header (Fin.ofNat _ p) ⟨1, Fin.ofNat _ prev, 0, 0, 0x207fffff, UInt32.ofNat p⟩ p

def sampleBlock (p nBlockSize : Nat) (dbp : Option DiskBlockPos) : FlushOp :=
  .block p 1 nBlockSize dbp true .written sampleEnv

def sampleConnect (p : Nat) : FlushOp := .connectTip p true (.connects 10 true true) sampleEnv

/-- The genesis block and the next one are connected, and the state is flushed. -/
def flushedOps : List FlushOp :=
  [sampleHeader 1 0, sampleBlock 1 285 none, sampleConnect 1, sampleHeader 2 1,
    sampleBlock 2 1000 none, sampleConnect 2, .flush .always sampleEnv]

/-- The index on disk lacks the best block of the coins, or it has an entry for the block that
refers to data that has not been committed. -/
def lacks (d : Disk) (hash : UInt256) : Bool :=
  match d.blockIndex hash with
  | none => decide (d.bestBlock = hash ∧ hash ≠ 0)
  | some e =>
    e.nStatus.haveData && decide ((e.nDataPos, hash) ∉ (d.blk e.nFile).committed) ||
      e.nStatus.haveUndo && decide ((e.nUndoPos, hash) ∉ (d.rev e.nFile).committed)

theorem not_consistent {hash : UInt256} (h : lacks d hash = true) : ¬ d.Consistent := by
  intro hc
  unfold lacks at h
  split at h
  · next hnone =>
    obtain ⟨rfl, hne⟩ := of_decide_eq_true h
    rcases hc.best with h0 | hr
    · exact hne h0
    · cases hr with
      | root hd _ => rw [hnone] at hd; cases hd
      | next hd _ => rw [hnone] at hd; cases hd
  · next e he =>
    simp only [Bool.or_eq_true, Bool.and_eq_true, decide_eq_true_eq] at h
    rcases h with ⟨hd, hn⟩ | ⟨hu, hn⟩
    · exact hn (hc.data hash e he hd).2
    · exact hn (hc.undo hash e he hu).2

/-- A run to a disk that is not consistent. -/
theorem reaches_inconsistent {ops : List FlushOp} {s : Globals × Disk} (hs : Loaded s)
    {hash : UInt256}
    (h : (run (step sampleArgs) ops s).any (fun s => lacks s.2 hash) = true) :
    ∃ s, Reachable Loaded (step sampleArgs) (fun _ _ => True) s ∧ ¬ s.2.Consistent := by
  cases hrun : run (step sampleArgs) ops s with
  | none => rw [hrun] at h; cases h
  | some s' =>
    rw [hrun] at h
    exact ⟨s', .run (.init hs) (fun _ _ _ _ _ _ => trivial) hrun, not_consistent h⟩

/-- Two block files, with blocks 1 and 2 and with block 3, and the disk with these only. -/
def sampleDisk : Disk :=
  { Disk.empty with
    blk := setFile (setFile (fun _ => .absent) 0
      ⟨true, [(8, 1), (300, 2)], [(8, 1), (300, 2)], fun _ h => h⟩) 1
        ⟨true, [(8, 3)], [(8, 3)], fun _ h => h⟩ }

/-- While reindexing, the next file is reached before the undo data of block 2 is committed. -/
def nextFileOps : List FlushOp :=
  [sampleHeader 1 0, sampleBlock 1 285 (some ⟨0, 8⟩), sampleConnect 1, sampleHeader 2 1,
    sampleBlock 2 1000 (some ⟨0, 300⟩), sampleConnect 2, sampleHeader 3 2,
    sampleBlock 3 1000 (some ⟨1, 8⟩), .flush .always sampleEnv]

/-- A block file with blocks 1 and 3, far from each other. -/
def gapFile : Segment UInt256 :=
  ⟨true, [(8, 1), (134000000, 3)], [(8, 1), (134000000, 3)], fun _ h => h⟩

def gapDisk : Disk :=
  { Disk.empty with blk := setFile (fun _ => .absent) 0 gapFile, rev := fun _ => .absent }

/-- Blocks 1 and 3 are found in the file. Block 2 between them arrives later and does not fit into
it; then both are connected, and the undo data of block 3 goes to the file that has been left. -/
def lostUndoOps : List FlushOp :=
  [sampleHeader 1 0, sampleBlock 1 285 (some ⟨0, 8⟩), sampleConnect 1, sampleHeader 2 1,
    sampleHeader 3 2, sampleBlock 3 1000 (some ⟨0, 134000000⟩), sampleBlock 2 1000000 none,
    sampleConnect 2, sampleConnect 3, .flush .always sampleEnv]

/-- The batch of the index fails, and the next flush writes the coins without it. -/
def failedBatchOps : List FlushOp :=
  [sampleHeader 1 0, sampleBlock 1 285 none, sampleConnect 1,
    .flush .always { sampleEnv with indexWritten := false }, .flush .always sampleEnv]

/-- The file of a block cannot be opened, and the block counts as received. -/
def unopenedOps : List FlushOp :=
  [sampleHeader 1 0, .block 1 1 285 none true .notOpened sampleEnv, .flush .always sampleEnv]

/-- Each of the other conditions on the operations is needed too. -/
theorem disorderly_inconsistent : ∀ r ∈ [(failedBatchOps, Disk.empty, (1 : UInt256)),
      (unopenedOps, Disk.empty, 1), (lostUndoOps, gapDisk, 3)],
    (run (step sampleArgs) r.1 (.empty, r.2.1)).any (fun s => lacks s.2 r.2.2) = true := by
  decide +kernel

end Globals

end GC
