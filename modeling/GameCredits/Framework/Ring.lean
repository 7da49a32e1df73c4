import Mathlib.Data.List.Basic
import Mathlib.Tactic.SplitIfs

/-!
# Ring buffers

A buffer that has the last part of a sequence that is read, the element `i` at place `i` modulo the
length of the buffer (`Window`). Writing the next elements after the last ones moves the window
(`Window.write`), and elements of the window that are together in the buffer are together in the
sequence (`Window.read`).

A queue in a buffer goes round as well: its elements stand from a place on (`Queue`), one is taken away
there (`Queue.pop`) and one put after the last (`Queue.push`).

The whole blocks of a fixed length that a list has from its beginning on (`blocks`): a list whose length
is a whole number of blocks has its blocks before those of what follows it (`blocks_append`).
-/

namespace GC.Framework

variable {α : Type}

/-- `chunk` is written over the elements from `pos` on. -/
def overwrite (buf : List α) (pos : Nat) (chunk : List α) : List α :=
  buf.take pos ++ chunk ++ buf.drop (pos + chunk.length)

section

variable {buf chunk : List α} {pos : Nat}

theorem length_overwrite (h : pos + chunk.length ≤ buf.length) :
    (overwrite buf pos chunk).length = buf.length := by
  simp only [overwrite, List.length_append, List.length_take, List.length_drop]
  omega

theorem getElem?_overwrite_mem (h : pos + chunk.length ≤ buf.length) {j : Nat} (hj : j < chunk.length) :
    (overwrite buf pos chunk)[pos + j]? = chunk[j]? := by
  have hlen : (buf.take pos).length = pos := by
    rw [List.length_take]
    omega
  rw [overwrite, List.append_assoc, List.getElem?_append_right (by omega), hlen,
    Nat.add_sub_cancel_left, List.getElem?_append_left hj]

theorem getElem?_overwrite_of_not_mem (h : pos + chunk.length ≤ buf.length) {i : Nat}
    (hi : i < pos ∨ pos + chunk.length ≤ i) : (overwrite buf pos chunk)[i]? = buf[i]? := by
  have hlen : (buf.take pos).length = pos := by
    rw [List.length_take]
    omega
  rw [overwrite, List.append_assoc]
  rcases hi with hi | hi
  · rw [List.getElem?_append_left (by omega), List.getElem?_take_of_lt hi]
  · rw [List.getElem?_append_right (by omega), List.getElem?_append_right (by omega),
      List.getElem?_drop]
    congr 1
    omega

end

/-- The buffer has the elements of `src` before `n`, as many of them as fit. -/
structure Window (src : List α) (n : Nat) (buf : List α) : Prop where
  le : n ≤ src.length
  get : ∀ i, i < n → n ≤ i + buf.length → buf[i % buf.length]? = src[i]?

namespace Window

variable {src buf : List α} {n : Nat}

theorem start (src buf : List α) : Window src 0 buf := ⟨Nat.zero_le _, nofun⟩

/-- The remainder in the round that begins at `B * q`. -/
theorem mod_eq {B q i : Nat} (h₁ : B * q ≤ i) (h₂ : i < B * q + B) : i % B = i - B * q := by
  obtain ⟨c, rfl⟩ := Nat.exists_eq_add_of_le h₁
  rw [Nat.mul_add_mod, Nat.mod_eq_of_lt (by omega), Nat.add_sub_cancel_left]

/-- The next elements are written after the last ones, where they fit without going round. -/
theorem write (h : Window src n buf) {chunk : List α} (hchunk : (src.drop n).take chunk.length = chunk)
    (hfit : n % buf.length + chunk.length ≤ buf.length) :
    Window src (n + chunk.length) (overwrite buf (n % buf.length) chunk) := by
  have hlen := length_overwrite hfit
  refine ⟨?_, fun i hi hlow => ?_⟩
  · have hlength := congrArg List.length hchunk
    rw [List.length_take, List.length_drop] at hlength
    have hle := h.le
    omega
  rw [hlen] at hlow ⊢
  have hround := Nat.div_add_mod n buf.length
  generalize hq : n / buf.length = q at hround
  by_cases hnew : n ≤ i
  · -- an element of the chunk
    have hj : i - n < chunk.length := by omega
    have hmod : i % buf.length = n % buf.length + (i - n) := by
      rw [mod_eq (q := q) (by omega) (by omega)]
      omega
    rw [hmod, getElem?_overwrite_mem hfit hj, ← hchunk, List.getElem?_take_of_lt hj,
      List.getElem?_drop]
    congr 1
    omega
  · -- an element of the window before, which is not overwritten
    rw [getElem?_overwrite_of_not_mem hfit, h.get i (by omega) (by omega)]
    by_cases hsame : buf.length * q ≤ i
    · rw [mod_eq (q := q) hsame (by omega)]
      omega
    · obtain ⟨q', rfl⟩ : ∃ q', q = q' + 1 := by
        cases q with
        | zero => omega
        | succ q' => exact ⟨q', rfl⟩
      rw [Nat.mul_succ] at hround hsame
      rw [mod_eq (q := q') (by omega) (by omega)]
      omega

/-- Elements of the window, read where they do not go round. -/
theorem read (h : Window src n buf) {r k : Nat} (hlow : n ≤ r + buf.length)
    (hfit : r % buf.length + k ≤ buf.length) (hle : r + k ≤ n) :
    (buf.drop (r % buf.length)).take k = (src.drop r).take k := by
  apply List.ext_getElem?
  intro j
  by_cases hj : j < k
  · rw [List.getElem?_take_of_lt hj, List.getElem?_take_of_lt hj, List.getElem?_drop,
      List.getElem?_drop, ← h.get (r + j) (by omega) (by omega)]
    have hround := Nat.div_add_mod r buf.length
    generalize r / buf.length = q at hround
    rw [mod_eq (i := r + j) (q := q) (by omega) (by omega)]
    congr 1
    omega
  · rw [List.getElem?_take_eq_none (by omega), List.getElem?_take_eq_none (by omega)]

end Window

/-! ## Queues -/

/-- The next place of a buffer of length `n`. -/
def nextPlace (n i : Nat) : Nat := if i + 1 = n then 0 else i + 1

theorem nextPlace_eq {n i : Nat} (h : i < n) : nextPlace n i = (i + 1) % n := by
  unfold nextPlace
  split_ifs with hn
  · rw [hn, Nat.mod_self]
  · rw [Nat.mod_eq_of_lt (by omega)]

/-- The buffer has the elements of `xs` from place `r` on. -/
def Queue (r : Nat) (xs buf : List α) : Prop :=
  ∀ i, i < xs.length → buf[(r + i) % buf.length]? = xs[i]?

namespace Queue

variable {r : Nat} {x : α} {xs buf : List α}

theorem empty (r : Nat) (buf : List α) : Queue r [] buf := nofun

theorem front (h : Queue r (x :: xs) buf) (hr : r < buf.length) : buf[r]? = some x := by
  have h0 := h 0 (Nat.succ_pos _)
  rwa [Nat.add_zero, Nat.mod_eq_of_lt hr] at h0

/-- Two places less than a round apart differ. -/
theorem place_ne {n i j : Nat} (h : i < j) (hj : j < i + n) : i % n ≠ j % n := by
  intro heq
  have hi := Nat.div_add_mod i n
  have hj' := Nat.div_add_mod j n
  rw [heq] at hi
  rcases Nat.lt_or_ge (i / n) (j / n) with hlt | hge
  · have := Nat.mul_le_mul_left n hlt
    rw [Nat.mul_succ] at this
    omega
  · have := Nat.mul_le_mul_left n hge
    omega

/-- The first element is taken away, and its place used for something else. -/
theorem pop (h : Queue r (x :: xs) buf) (hr : r < buf.length) (hlen : xs.length < buf.length) (y : α) :
    Queue ((r + 1) % buf.length) xs (buf.set r y) := by
  intro i hi
  have hplace : ((r + 1) % buf.length + i) % buf.length = (r + (i + 1)) % buf.length := by
    rw [Nat.mod_add_mod]
    congr 1
    omega
  have hne : r ≠ (r + (i + 1)) % buf.length := by
    have := place_ne (n := buf.length) (i := r) (j := r + (i + 1)) (by omega) (by omega)
    rwa [Nat.mod_eq_of_lt hr] at this
  rw [List.length_set, hplace, List.getElem?_set_ne hne, h (i + 1) (Nat.succ_lt_succ hi),
    List.getElem?_cons_succ]

/-- An element is put after the last one. -/
theorem push (h : Queue r xs buf) (hlen : xs.length < buf.length) (x : α) :
    Queue r (xs ++ [x]) (buf.set ((r + xs.length) % buf.length) x) := by
  intro i hi
  rw [List.length_set]
  rcases Nat.lt_or_ge i xs.length with hlt | hge
  · have hne := place_ne (n := buf.length) (i := r + i) (j := r + xs.length) (by omega) (by omega)
    rw [List.getElem?_set_ne hne.symm, h i hlt, List.getElem?_append_left hlt]
  · have hi' : i = xs.length := by
      rw [List.length_append, List.length_singleton] at hi
      omega
    subst hi'
    rw [List.getElem?_set_self (Nat.mod_lt _ (by omega)), List.getElem?_append_right (Nat.le_refl _),
      Nat.sub_self]
    rfl

end Queue

/-! ## Whole blocks -/

/-- The whole blocks of a list. -/
def blocks (B : Nat) (xs : List α) : List (List α) :=
  (List.range (xs.length / B)).map fun i => (xs.drop (B * i)).take B

theorem blocks_of_lt {B : Nat} {xs : List α} (h : xs.length < B) : blocks B xs = [] := by
  rw [blocks, Nat.div_eq_of_lt h]
  rfl

theorem blocks_append {B : Nat} (hB : 0 < B) {xs : List α} (h : B ∣ xs.length) (ys : List α) :
    blocks B (xs ++ ys) = blocks B xs ++ blocks B ys := by
  obtain ⟨q, hq⟩ := h
  have hdiv : (xs ++ ys).length / B = q + ys.length / B := by
    rw [List.length_append, hq, Nat.mul_add_div hB]
  have hself : xs.length / B = q := by rw [hq, Nat.mul_div_cancel_left q hB]
  rw [blocks, hdiv, List.range_add, List.map_append, blocks, hself, blocks, List.map_map]
  congr 1
  · refine List.map_congr_left fun i hi => ?_
    have hlt : B * (i + 1) ≤ B * q := Nat.mul_le_mul_left B (List.mem_range.mp hi)
    rw [Nat.mul_succ] at hlt
    rw [List.drop_append_of_le_length (by omega), List.take_append_of_le_length]
    rw [List.length_drop]
    omega
  · refine List.map_congr_left fun i _ => ?_
    rw [Function.comp_apply, Nat.mul_add, ← hq, List.drop_append]
    have hle : xs.length ≤ xs.length + B * i := Nat.le_add_right _ _
    rw [List.drop_eq_nil_of_le hle, List.nil_append, Nat.add_sub_cancel_left]

/-- A list of the length of a block. -/
theorem blocks_single {B : Nat} {xs : List α} (hB : 0 < B) (h : xs.length = B) : blocks B xs = [xs] := by
  rw [blocks, h, Nat.div_self hB]
  simp [← h]

/-- What was written over a beginning stands after it. -/
theorem take_overwrite {buf chunk : List α} {pos : Nat} (h : pos + chunk.length ≤ buf.length) :
    (overwrite buf pos chunk).take (pos + chunk.length) = buf.take pos ++ chunk := by
  have hlen : (buf.take pos ++ chunk).length = pos + chunk.length := by
    rw [List.length_append, List.length_take]
    omega
  rw [overwrite, List.take_append_of_le_length (Nat.le_of_eq hlen.symm), ← hlen, List.take_length]

end GC.Framework
