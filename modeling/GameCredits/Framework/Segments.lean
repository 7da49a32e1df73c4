import Mathlib.Data.List.Basic

/-!
# Segmented stores

Data is appended to the last of a row of files, at positions that grow, and a file is made durable
by committing it. Data is `Placed` when it is there to be read, and `Settled` when it is durable too.

* `Placed.settle`: committing the last file settles what is placed.
* `Settled.advance`: what is settled stays so when the store goes on to another file.
-/

namespace GC.Framework

/-- A file: what has been written to it, by position, and the part of that which is durable. -/
structure Segment (α : Type) where
  present : Bool
  written : List (Nat × α)
  committed : List (Nat × α)
  durable : ∀ x ∈ committed, x ∈ written

namespace Segment

variable {α : Type}

/-- A file that is not there. -/
def absent : Segment α := ⟨false, [], [], fun _ h => h⟩

/-- Writes `a` at a position, in place of what was there. -/
def write (f : Segment α) (pos : Nat) (a : α) : Segment α where
  present := true
  written := (pos, a) :: f.written.filter fun x => x.1 != pos
  committed := f.committed.filter fun x => x.1 != pos
  durable x hx := by
    obtain ⟨hx, hne⟩ := List.mem_filter.mp hx
    exact List.mem_cons_of_mem _ (List.mem_filter.mpr ⟨f.durable x hx, hne⟩)

/-- Makes what has been written durable. -/
def commit (f : Segment α) : Segment α := ⟨true, f.written, f.written, fun _ h => h⟩

theorem mem_write {f : Segment α} {x : Nat × α} {pos : Nat} (a : α) (h : x ∈ f.written)
    (hne : x.1 ≠ pos) : x ∈ (f.write pos a).written :=
  List.mem_cons_of_mem _ (List.mem_filter.mpr ⟨h, bne_iff_ne.mpr hne⟩)

theorem mem_write_committed {f : Segment α} {x : Nat × α} {pos : Nat} (a : α)
    (h : x ∈ f.committed) (hne : x.1 ≠ pos) : x ∈ (f.write pos a).committed :=
  List.mem_filter.mpr ⟨h, bne_iff_ne.mpr hne⟩

end Segment

variable {α : Type}

/-- The files by number, with one changed. -/
def setFile (file : Nat → Segment α) (n : Nat) (f : Segment α) : Nat → Segment α :=
  fun k => if k = n then f else file k

theorem setFile_self (file : Nat → Segment α) (n : Nat) (f : Segment α) : setFile file n f n = f :=
  if_pos rfl

theorem setFile_ne {file : Nat → Segment α} {n k : Nat} (h : k ≠ n) (f : Segment α) :
    setFile file n f k = file k := if_neg h

/-- Data that is durable: in a file up to `last`, below `limit` if in that one. -/
structure Settled (file : Nat → Segment α) (last limit n pos : Nat) (a : α) : Prop where
  le : n ≤ last
  present : (file n).present = true
  committed : (pos, a) ∈ (file n).committed
  below : n = last → pos < limit

/-- Data that is there, and durable unless in the last file. -/
structure Placed (file : Nat → Segment α) (last limit n pos : Nat) (a : α) : Prop where
  le : n ≤ last
  present : (file n).present = true
  written : (pos, a) ∈ (file n).written
  committed : n ≠ last → (pos, a) ∈ (file n).committed
  below : n = last → pos < limit

variable {file : Nat → Segment α} {last limit last' limit' n pos k start : Nat} {a b : α}

theorem Settled.placed (h : Settled file last limit n pos a) : Placed file last limit n pos a where
  le := h.le
  present := h.present
  written := (file n).durable _ h.committed
  committed _ := h.committed
  below := h.below

/-! ## Writing at the end -/

theorem Settled.write (h : Settled file last limit n pos a) (hstart : limit ≤ start) (b : α) :
    Settled (setFile file last ((file last).write start b)) last limit n pos a where
  le := h.le
  below := h.below
  present := by
    by_cases hn : n = last
    · rw [hn, setFile_self]; rfl
    · rw [setFile_ne hn]; exact h.present
  committed := by
    by_cases hn : n = last
    · subst hn
      have := h.below rfl
      rw [setFile_self]
      exact Segment.mem_write_committed b h.committed (Nat.ne_of_lt (Nat.lt_of_lt_of_le this hstart))
    · rw [setFile_ne hn]; exact h.committed

theorem Placed.write (h : Placed file last limit n pos a) (hstart : limit ≤ start) (b : α) :
    Placed (setFile file last ((file last).write start b)) last limit n pos a where
  le := h.le
  below := h.below
  present := by
    by_cases hn : n = last
    · rw [hn, setFile_self]; rfl
    · rw [setFile_ne hn]; exact h.present
  written := by
    by_cases hn : n = last
    · subst hn
      have := h.below rfl
      rw [setFile_self]
      exact Segment.mem_write b h.written (Nat.ne_of_lt (Nat.lt_of_lt_of_le this hstart))
    · rw [setFile_ne hn]; exact h.written
  committed hn := by rw [setFile_ne hn]; exact h.committed hn

/-- What has just been written is there. -/
theorem placed_write (h : start < limit) (a : α) :
    Placed (setFile file last ((file last).write start a)) last limit last start a where
  le := Nat.le_refl _
  present := by rw [setFile_self]; rfl
  written := by rw [setFile_self]; exact List.mem_cons_self ..
  committed hn := absurd rfl hn
  below _ := h

/-! ## Committing -/

theorem Settled.commit (h : Settled file last limit n pos a) (k : Nat) :
    Settled (setFile file k (file k).commit) last limit n pos a where
  le := h.le
  below := h.below
  present := by
    by_cases hn : n = k
    · rw [hn, setFile_self]; rfl
    · rw [setFile_ne hn]; exact h.present
  committed := by
    by_cases hn : n = k
    · subst hn
      rw [setFile_self]
      exact (file n).durable _ h.committed
    · rw [setFile_ne hn]; exact h.committed

/-- Committing the last file settles what is placed. -/
theorem Placed.settle (h : Placed file last limit n pos a) :
    Settled (setFile file last (file last).commit) last limit n pos a where
  le := h.le
  below := h.below
  present := by
    by_cases hn : n = last
    · rw [hn, setFile_self]; rfl
    · rw [setFile_ne hn]; exact h.present
  committed := by
    by_cases hn : n = last
    · subst hn
      rw [setFile_self]
      exact h.written
    · rw [setFile_ne hn]; exact h.committed hn

/-! ## Going on, and removing files -/

theorem Settled.advance (h : Settled file last limit n pos a) (hlast : last ≤ last')
    (hlimit : last' = last → limit ≤ limit') : Settled file last' limit' n pos a where
  le := Nat.le_trans h.le hlast
  present := h.present
  committed := h.committed
  below hn := by
    have heq : last' = last := Nat.le_antisymm (hn ▸ h.le) hlast
    exact Nat.lt_of_lt_of_le (h.below (hn.trans heq)) (hlimit heq)

theorem Placed.grow (h : Placed file last limit n pos a) (hlimit : limit ≤ limit') :
    Placed file last limit' n pos a :=
  ⟨h.le, h.present, h.written, h.committed, fun hn => Nat.lt_of_lt_of_le (h.below hn) hlimit⟩

theorem Settled.remove (h : Settled file last limit n pos a) (hk : n ≠ k) :
    Settled (setFile file k .absent) last limit n pos a where
  le := h.le
  below := h.below
  present := by rw [setFile_ne hk]; exact h.present
  committed := by rw [setFile_ne hk]; exact h.committed

theorem Placed.remove (h : Placed file last limit n pos a) (hk : n ≠ k) :
    Placed (setFile file k .absent) last limit n pos a where
  le := h.le
  below := h.below
  present := by rw [setFile_ne hk]; exact h.present
  written := by rw [setFile_ne hk]; exact h.written
  committed hn := by rw [setFile_ne hk]; exact h.committed hn

end GC.Framework
