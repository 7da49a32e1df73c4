import GameCredits.Proof.Bloom
import GameCredits.Framework.Staggered

/-!
# The rolling filter remembers its window

Two filters that are cleared at staggered times (`Framework/Staggered`), with a counter of 32 bits.
For fewer than 2^31 elements the period of the counter is twice their number, and the last of them
are reported after any run (`remembersWindow_of_lt`). From 2^31 elements on the period wraps around,
and a key is forgotten while it is still in the window (`not_remembersWindow`).
-/

namespace GC

open Framework

namespace CRollingBloomFilter

open CBloomFilter

variable (murmurHash3 : UInt32 → Bytes → UInt32)

/-- A filter with data, as a set that reports what was put into it. -/
theorem recalls_bloom : Recalls (fun f vKey => f.insert murmurHash3 vKey)
    (fun f vKey => f.contains murmurHash3 vKey) CBloomFilter.clear fun f => 0 < f.vData.length where
  insert_ok f vKey hf := by
    obtain ⟨f', hinsert, hext, hreports⟩ :=
      insert_spec murmurHash3 (.inl (List.ne_nil_of_length_pos hf)) vKey
    exact ⟨f', hinsert, by rw [hext.length_eq]; exact hf, hreports, hext.reports⟩
  clear_ok f hf := by
    rw [CBloomFilter.clear, List.length_replicate]
    exact hf

/-- What is done with a rolling filter. -/
inductive Op
  | insert (vKey : Bytes)
  | clear

/-- One operation. -/
def step : Op → CRollingBloomFilter → Option CRollingBloomFilter
  | .insert vKey, r => r.insert murmurHash3 vKey
  | .clear, r => some r.clear

/-- The keys that were inserted since the last `clear`, the last one first. -/
def since : List Bytes → List Op → List Bytes
  | keys, [] => keys
  | keys, .insert vKey :: ops => since (vKey :: keys) ops
  | _, .clear :: ops => since [] ops

/-- A rolling filter for `n` elements remembers its window: whatever the hash functions and the
(positive) size of its filters, in any run every operation succeeds, and the last `n` keys that were
inserted since the last `clear` are reported. -/
def RemembersWindow (n : UInt32) : Prop :=
  ∀ (murmurHash3 : UInt32 → Bytes → UInt32) (size : Nat) (nHashFuncs nTweak : UInt32), 0 < size →
    ∀ ops, ∃ r, run (step murmurHash3) ops (new n size nHashFuncs nTweak) = some r ∧
      ∀ vKey ∈ (since [] ops).take n.toNat, r.contains murmurHash3 vKey = some true

/-! ## Below 2^31 elements -/

/-- The window of a rolling filter whose period does not wrap around. -/
structure Window (n : UInt32) (keys : List Bytes) (r : CRollingBloomFilter) : Prop where
  size_eq : r.nBloomSize.toNat = 2 * n.toNat
  staggered : Staggered (fun f vKey => f.contains murmurHash3 vKey) (fun f => 0 < f.vData.length)
    n.toNat r.b1 r.b2 r.nInsertions.toNat keys

variable {murmurHash3}

theorem Window.insert {n : UInt32} {keys : List Bytes} {r : CRollingBloomFilter}
    (h : Window murmurHash3 n keys r) (vKey : Bytes) :
    ∃ r', r.insert murmurHash3 vKey = some r' ∧ Window murmurHash3 n (vKey :: keys) r' := by
  have hlt := h.staggered.lt
  have hsize := h.size_eq
  have hsmall : r.nBloomSize.toNat < 2 ^ 32 := r.nBloomSize.toNat_lt
  obtain ⟨b1, b2, hb1, hb2, hstag⟩ := h.staggered.put (recalls_bloom murmurHash3) vKey
  -- the conditions on the counter, in numbers
  have hzero : r.nInsertions = 0 ↔ r.nInsertions.toNat = 0 := UInt32.toNat_inj.symm
  have hmid : r.nInsertions = r.nBloomSize / 2 ↔ r.nInsertions.toNat = n.toNat := by
    rw [← UInt32.toNat_inj, UInt32.toNat_div, hsize]
    show _ = 2 * n.toNat / 2 ↔ _
    rw [Nat.mul_div_cancel_left _ (by decide)]
  have hnext : (r.nInsertions + 1).toNat = r.nInsertions.toNat + 1 := by
    rw [UInt32.toNat_add]
    exact Nat.mod_eq_of_lt (by show r.nInsertions.toNat + 1 < 2 ^ 32; omega)
  have hwrap : r.nInsertions + 1 = r.nBloomSize ↔ r.nInsertions.toNat + 1 = 2 * n.toNat := by
    rw [← UInt32.toNat_inj, hnext, hsize]
  refine ⟨{ r with
    nInsertions := if r.nInsertions + 1 = r.nBloomSize then 0 else r.nInsertions + 1
    b1 := b1, b2 := b2 }, ?_, hsize, ?_⟩
  · rw [CRollingBloomFilter.insert]
    simp only [hzero, ne_eq, hmid] at hb1 hb2 ⊢
    rw [hb1, Option.bind_eq_bind, Option.bind_some, hb2]
    rfl
  · have hcount : (if r.nInsertions + 1 = r.nBloomSize then 0 else r.nInsertions + 1).toNat =
        if r.nInsertions.toNat + 1 = 2 * n.toNat then 0 else r.nInsertions.toNat + 1 := by
      by_cases hw : r.nInsertions + 1 = r.nBloomSize
      · rw [if_pos hw, if_pos (hwrap.mp hw)]
        rfl
      · rw [if_neg hw, if_neg (hwrap.not.mp hw), hnext]
    show Staggered _ _ _ b1 b2
      (if r.nInsertions + 1 = r.nBloomSize then 0 else r.nInsertions + 1).toNat _
    rw [hcount]
    exact hstag

theorem Window.clear {n : UInt32} {keys : List Bytes} {r : CRollingBloomFilter}
    (h : Window murmurHash3 n keys r) : Window murmurHash3 n [] r.clear where
  size_eq := h.size_eq
  staggered := .empty (by have := h.staggered.lt; omega)
    ((recalls_bloom murmurHash3).clear_ok _ h.staggered.ok1)
    ((recalls_bloom murmurHash3).clear_ok _ h.staggered.ok2)

theorem Window.run {n : UInt32} {keys : List Bytes} {r : CRollingBloomFilter}
    (h : Window murmurHash3 n keys r) (ops : List Op) :
    ∃ r', Framework.run (step murmurHash3) ops r = some r' ∧
      Window murmurHash3 n (since keys ops) r' := by
  induction ops generalizing keys r with
  | nil => exact ⟨r, rfl, h⟩
  | cons op ops ih =>
    cases op with
    | insert vKey =>
      obtain ⟨r₁, hinsert, h₁⟩ := h.insert vKey
      obtain ⟨r', hrun, h'⟩ := ih h₁
      exact ⟨r', by rw [Framework.run, step, hinsert]; exact hrun, h'⟩
    | clear =>
      obtain ⟨r', hrun, h'⟩ := ih h.clear
      exact ⟨r', hrun, h'⟩

theorem Window.recent {n : UInt32} {keys : List Bytes} {r : CRollingBloomFilter}
    (h : Window murmurHash3 n keys r) {vKey : Bytes} (hk : vKey ∈ keys.take n.toNat) :
    r.contains murmurHash3 vKey = some true := by
  have hlt : r.nInsertions < r.nBloomSize / 2 ↔ r.nInsertions.toNat < n.toNat := by
    rw [UInt32.lt_iff_toNat_lt, UInt32.toNat_div, h.size_eq]
    show _ < 2 * n.toNat / 2 ↔ _
    rw [Nat.mul_div_cancel_left _ (by decide)]
  have hrecent := h.staggered.recent hk
  rw [CRollingBloomFilter.contains]
  simp only [hlt]
  rw [← hrecent]

theorem remembersWindow_of_lt {n : UInt32} (h₁ : 1 ≤ n.toNat) (h : n.toNat < 2 ^ 31) :
    RemembersWindow n := by
  intro murmurHash3 size nHashFuncs nTweak hsize ops
  have hlen : 0 < (CBloomFilter.forRolling size nHashFuncs nTweak).vData.length := by
    rw [CBloomFilter.forRolling, List.length_replicate]
    exact hsize
  have hnew : Window murmurHash3 n [] (new n size nHashFuncs nTweak) := by
    refine ⟨?_, .empty h₁ hlen hlen⟩
    show (n * 2).toNat = _
    rw [UInt32.toNat_mul]
    show n.toNat * 2 % 2 ^ 32 = 2 * n.toNat
    omega
  obtain ⟨r, hrun, hwindow⟩ := hnew.run ops
  exact ⟨r, hrun, fun vKey hk => hwindow.recent hk⟩

/-! ## From 2^31 elements on -/

/-- A hash function that tells the empty key from the others. -/
def firstBit (_seed : UInt32) (data : Bytes) : UInt32 := if data = [] then 0 else 1

/-- A filter of one byte and one hash function. -/
def tiny (bits : UInt8) (isEmpty : Bool) : CBloomFilter := ⟨[bits], false, isEmpty, 1, 0, 0⟩

theorem insert_tiny (bits : UInt8) (isEmpty : Bool) :
    (tiny bits isEmpty).insert firstBit [1] = some (tiny (bits ||| 2) false) := by
  have hbit : bitOf 1 = 2 := by decide
  simp [CBloomFilter.insert, tiny, insertLoop, hashOf, firstBit, hbit]

theorem insert_tiny_nil (bits : UInt8) (isEmpty : Bool) :
    (tiny bits isEmpty).insert firstBit [] = some (tiny (bits ||| 1) false) := by
  have hbit : bitOf 0 = 1 := by decide
  simp [CBloomFilter.insert, tiny, insertLoop, hashOf, firstBit, hbit]

theorem clear_tiny (bits : UInt8) (isEmpty : Bool) : (tiny bits isEmpty).clear = tiny 0 true := rfl

/-- The filter does not have the empty key. -/
def Lacks (f : CBloomFilter) : Prop := ∃ isEmpty, f = tiny 0 isEmpty ∨ f = tiny 2 isEmpty

/-- The filter is one of those that occur here. -/
def Tiny (f : CBloomFilter) : Prop := ∃ bits isEmpty, f = tiny bits isEmpty

theorem Lacks.contains {f : CBloomFilter} (h : Lacks f) : f.contains firstBit [] = some false := by
  obtain ⟨isEmpty, rfl | rfl⟩ := h <;> cases isEmpty <;> rfl

theorem Lacks.insert {f : CBloomFilter} (h : Lacks f) :
    ∃ f', f.insert firstBit [1] = some f' ∧ Lacks f' := by
  obtain ⟨isEmpty, rfl | rfl⟩ := h
  · exact ⟨_, insert_tiny 0 isEmpty, false, .inr rfl⟩
  · exact ⟨_, insert_tiny 2 isEmpty, false, .inr rfl⟩

theorem Tiny.clear {f : CBloomFilter} (h : Tiny f) : Lacks f.clear := by
  obtain ⟨bits, isEmpty, rfl⟩ := h
  exact ⟨true, .inl (clear_tiny bits isEmpty)⟩

theorem Tiny.insert {f : CBloomFilter} (h : Tiny f) :
    ∃ f', f.insert firstBit [1] = some f' ∧ Tiny f' := by
  obtain ⟨bits, isEmpty, rfl⟩ := h
  exact ⟨_, insert_tiny bits isEmpty, _, false, rfl⟩

theorem Lacks.tiny {f : CBloomFilter} (h : Lacks f) : Tiny f := by
  obtain ⟨isEmpty, rfl | rfl⟩ := h
  · exact ⟨0, isEmpty, rfl⟩
  · exact ⟨2, isEmpty, rfl⟩

/-- The counter after an insertion. -/
def nextCount (r : CRollingBloomFilter) : UInt32 :=
  if r.nInsertions + 1 = r.nBloomSize then 0 else r.nInsertions + 1

/-- Inserting another key: which of the two filters lack the empty one afterwards. -/
theorem insert_other {r : CRollingBloomFilter} (h1 : Tiny r.b1) (h2 : Tiny r.b2) :
    ∃ r', r.insert firstBit [1] = some r' ∧ r'.nBloomSize = r.nBloomSize ∧
      r'.nInsertions = nextCount r ∧ Tiny r'.b1 ∧ Tiny r'.b2 ∧
      (r.nInsertions = 0 → Lacks r'.b1) ∧
      (Lacks r.b2 ∨ r.nInsertions ≠ 0 ∧ r.nInsertions = r.nBloomSize / 2 → Lacks r'.b2) := by
  have hb1 : Tiny (if r.nInsertions = 0 then r.b1.clear else r.b1) := by
    split_ifs
    · exact h1.clear.tiny
    · exact h1
  have hb2 : Tiny (if r.nInsertions ≠ 0 ∧ r.nInsertions = r.nBloomSize / 2 then r.b2.clear
      else r.b2) := by
    split_ifs
    · exact h2.clear.tiny
    · exact h2
  obtain ⟨b1, hins1, htiny1⟩ := hb1.insert
  obtain ⟨b2, hins2, htiny2⟩ := hb2.insert
  refine ⟨{ r with nInsertions := nextCount r, b1 := b1, b2 := b2 }, ?_, rfl, rfl, htiny1, htiny2,
    fun hzero => ?_, fun hlacks => ?_⟩
  · rw [CRollingBloomFilter.insert]
    simp only [hins1, hins2, Option.bind_eq_bind, Option.bind_some]
    rfl
  · rw [if_pos hzero] at hins1
    obtain ⟨b1', hins1', hl⟩ := h1.clear.insert
    rw [hins1] at hins1'
    cases hins1'
    exact hl
  · have hl : Lacks (if r.nInsertions ≠ 0 ∧ r.nInsertions = r.nBloomSize / 2 then r.b2.clear
        else r.b2) := by
      by_cases hmid : r.nInsertions ≠ 0 ∧ r.nInsertions = r.nBloomSize / 2
      · rw [if_pos hmid]
        exact h2.clear
      · rw [if_neg hmid]
        exact hlacks.resolve_right hmid
    obtain ⟨b2', hins2', hl'⟩ := hl.insert
    rw [hins2] at hins2'
    cases hins2'
    exact hl'

/-- Other keys, before the counter gets to the end of its period: after `j` of them. -/
theorem insert_others {r : CRollingBloomFilter} (period : Nat) {j : Nat} (h1 : Tiny r.b1)
    (h2 : Tiny r.b2) (hperiod : r.nBloomSize.toNat = period % 2 ^ 32) (hle : period ≤ 2 ^ 32)
    (hj : r.nInsertions.toNat + j < period) :
    ∃ r', run (step firstBit) (List.replicate j (.insert [1])) r = some r' ∧
      r'.nBloomSize = r.nBloomSize ∧ r'.nInsertions.toNat = r.nInsertions.toNat + j ∧
      Tiny r'.b1 ∧ Tiny r'.b2 ∧
      (Lacks r.b2 ∨ 0 < r.nInsertions.toNat ∧ r.nInsertions.toNat ≤ r.nBloomSize.toNat / 2 ∧
        r.nBloomSize.toNat / 2 < r.nInsertions.toNat + j → Lacks r'.b2) := by
  induction j generalizing r with
  | zero =>
    refine ⟨r, rfl, rfl, rfl, h1, h2, fun h => h.resolve_right ?_⟩
    omega
  | succ j ih =>
    obtain ⟨r₁, hinsert, hsize, hcount, ht1, ht2, -, hlacks⟩ := insert_other h1 h2
    have hnext : (r.nInsertions + 1).toNat = r.nInsertions.toNat + 1 := by
      rw [UInt32.toNat_add]
      exact Nat.mod_eq_of_lt (by show r.nInsertions.toNat + 1 < 2 ^ 32; omega)
    have hcount₁ : r₁.nInsertions.toNat = r.nInsertions.toNat + 1 := by
      rw [hcount, nextCount, if_neg, hnext]
      intro hwrap
      have := congrArg UInt32.toNat hwrap
      rw [hnext, hperiod] at this
      omega
    obtain ⟨r', hrun, hsize', hcount', ht1', ht2', hlacks'⟩ := ih ht1 ht2
      (by rw [hsize]; exact hperiod) (by omega)
    refine ⟨r', by rw [List.replicate_succ, run, step, hinsert]; exact hrun, hsize'.trans hsize,
      by omega, ht1', ht2', fun h => hlacks' ?_⟩
    rw [hsize, hcount₁]
    rcases h with h | ⟨hpos, hmid, hafter⟩
    · exact .inl (hlacks (.inl h))
    · by_cases hnow : r.nInsertions.toNat = r.nBloomSize.toNat / 2
      · refine .inl (hlacks (.inr ⟨fun hzero => ?_, ?_⟩))
        · rw [hzero] at hpos
          exact absurd hpos (by decide)
        · rw [← UInt32.toNat_inj, UInt32.toNat_div, hnow]
          rfl
      · exact .inr ⟨Nat.succ_pos _, by omega, by omega⟩

/-- Inserting the empty key. -/
theorem insert_empty {r : CRollingBloomFilter} (h1 : Tiny r.b1) (h2 : Tiny r.b2) :
    ∃ r', r.insert firstBit [] = some r' ∧ r'.nBloomSize = r.nBloomSize ∧
      r'.nInsertions = nextCount r ∧ Tiny r'.b1 ∧ Tiny r'.b2 := by
  have hany : ∀ {f : CBloomFilter} (c : Prop) [Decidable c], Tiny f →
      ∃ f', (if c then f.clear else f).insert firstBit [] = some f' ∧ Tiny f' := by
    rintro f c _ ⟨bits, isEmpty, rfl⟩
    split_ifs
    · exact ⟨_, insert_tiny_nil 0 true, _, false, rfl⟩
    · exact ⟨_, insert_tiny_nil bits isEmpty, _, false, rfl⟩
  obtain ⟨b1, hins1, htiny1⟩ := hany (r.nInsertions = 0) h1
  obtain ⟨b2, hins2, htiny2⟩ :=
    hany (r.nInsertions ≠ 0 ∧ r.nInsertions = r.nBloomSize / 2) h2
  refine ⟨{ r with nInsertions := nextCount r, b1 := b1, b2 := b2 }, ?_, rfl, rfl, htiny1, htiny2⟩
  rw [CRollingBloomFilter.insert]
  simp only [hins1, hins2, Option.bind_eq_bind, Option.bind_some]
  rfl

theorem since_append (keys : List Bytes) (ops ops' : List Op) :
    since keys (ops ++ ops') = since (since keys ops) ops' := by
  induction ops generalizing keys with
  | nil => rfl
  | cons op ops ih => cases op <;> exact ih _

theorem since_replicate (keys : List Bytes) (j : Nat) (vKey : Bytes) :
    since keys (List.replicate j (.insert vKey)) = List.replicate j vKey ++ keys := by
  induction j generalizing keys with
  | zero => rfl
  | succ j ih =>
    rw [List.replicate_succ, since, ih, List.replicate_succ', List.append_assoc]
    rfl

/-- A run after which the empty key is in the window and not reported. -/
theorem not_remembersWindow_of_run {n : UInt32} {r : CRollingBloomFilter} (ops : List Op)
    (hrun : run (step firstBit) ops (new n 1 1 0) = some r)
    (hmem : [] ∈ (since [] ops).take n.toNat) (hlost : r.contains firstBit [] = some false) :
    ¬ RemembersWindow n := by
  intro h
  obtain ⟨r', hrun', hkeys⟩ := h firstBit 1 1 0 (by decide) ops
  rw [hrun] at hrun'
  cases hrun'
  have := hkeys [] hmem
  rw [hlost] at this
  cases this

theorem tiny_new (n : UInt32) : Tiny (new n 1 1 0).b1 ∧ Tiny (new n 1 1 0).b2 :=
  ⟨⟨0, true, rfl⟩, 0, true, rfl⟩

/-- With 2^31 elements the period is all that the counter can count, and its second filter is never
asked. -/
theorem not_remembersWindow_eq {n : UInt32} (hn : n.toNat = 2 ^ 31) : ¬ RemembersWindow n := by
  have hsize : (new n 1 1 0).nBloomSize = 0 := by
    rw [← UInt32.toNat_inj]
    show (n * 2).toNat = 0
    rw [UInt32.toNat_mul, hn]
    rfl
  obtain ⟨j, hj⟩ : ∃ j : Nat, j + 1 = 2 ^ 32 := ⟨2 ^ 32 - 1, by norm_num⟩
  have hstart : (new n 1 1 0).nInsertions.toNat = 0 := rfl
  obtain ⟨r₁, hrun₁, hsize₁, hcount₁, h1, h2, -⟩ := insert_others (2 ^ 32) (j := j)
    (tiny_new n).1 (tiny_new n).2 (by rw [hsize]; norm_num) (Nat.le_refl _) (by omega)
  obtain ⟨r₂, hins₂, hsize₂, hcount₂, h1, h2⟩ := insert_empty h1 h2
  obtain ⟨r₃, hins₃, hsize₃, hcount₃, -, -, hlacks, -⟩ := insert_other h1 h2
  have hlast : r₁.nInsertions + 1 = 0 := by
    rw [← UInt32.toNat_inj, UInt32.toNat_add, hcount₁, hstart]
    show (0 + j + 1) % 2 ^ 32 = 0
    omega
  have hzero : r₂.nInsertions = 0 := by
    rw [hcount₂, nextCount, hsize₁, hsize, if_pos hlast]
  have hone : r₃.nInsertions = 1 := by
    rw [hcount₃, nextCount, hsize₂, hsize₁, hsize, hzero]
    rfl
  refine not_remembersWindow_of_run (r := r₃)
    (List.replicate j (.insert [1]) ++ [.insert [], .insert [1]]) ?_ ?_ ?_
  · rw [run_append hrun₁, run, step, hins₂, Option.bind_some, run, step, hins₃]
    rfl
  · obtain ⟨k, hk⟩ : ∃ k, n.toNat = k + 2 := ⟨n.toNat - 2, by omega⟩
    rw [since_append, since, since, since, hk, List.take_succ_cons, List.take_succ_cons]
    exact List.mem_cons_of_mem _ List.mem_cons_self
  · rw [CRollingBloomFilter.contains, hone, hsize₃, hsize₂, hsize₁, hsize, if_neg (by decide)]
    exact (hlacks hzero).contains

/-- Beyond 2^31 elements the period is shorter than the window. -/
theorem not_remembersWindow_lt {n : UInt32} (hn : 2 ^ 31 < n.toNat) : ¬ RemembersWindow n := by
  obtain ⟨m, hm⟩ := Nat.exists_eq_add_of_lt hn
  have hlt : n.toNat < 2 ^ 32 := n.toNat_lt
  have hsize : (new n 1 1 0).nBloomSize.toNat = 2 * (m + 1) := by
    show (n * 2).toNat = _
    rw [UInt32.toNat_mul]
    show n.toNat * 2 % 2 ^ 32 = 2 * (m + 1)
    omega
  obtain ⟨r₁, hins₁, hsize₁, hcount₁, h1, h2⟩ := insert_empty (tiny_new n).1 (tiny_new n).2
  have hone : r₁.nInsertions = 1 := by
    rw [hcount₁, nextCount, if_neg]
    · rfl
    · intro hwrap
      have := congrArg UInt32.toNat hwrap
      rw [hsize] at this
      have : 1 = 2 * (m + 1) := this
      omega
  have hone' : r₁.nInsertions.toNat = 1 := by rw [hone]; rfl
  obtain ⟨r₂, hrun₂, hsize₂, hcount₂, h1, h2, hlacks₂⟩ := insert_others (2 * (m + 1))
    (j := 2 * m) h1 h2 (by rw [hsize₁, hsize]; omega) (by omega) (by omega)
  obtain ⟨r₃, hins₃, hsize₃, hcount₃, h1, h2, -, hlacks₃⟩ := insert_other h1 h2
  obtain ⟨r₄, hins₄, hsize₄, hcount₄, -, -, hfirst, hsecond⟩ := insert_other h1 h2
  have hsize' : r₂.nBloomSize.toNat = 2 * (m + 1) := by rw [hsize₂, hsize₁, hsize]
  -- the second filter was cleared in the middle of the period, at the last key if that is its middle
  have hl₃ : Lacks r₃.b2 := by
    refine hlacks₃ ?_
    rcases Nat.eq_zero_or_pos m with rfl | hpos
    · refine .inr ⟨fun hzero => ?_, ?_⟩
      · rw [hzero] at hcount₂
        have : 0 = r₁.nInsertions.toNat + 2 * 0 := hcount₂
        omega
      · rw [← UInt32.toNat_inj, UInt32.toNat_div, hsize', hcount₂, hone']
        rfl
    · refine .inl (hlacks₂ (.inr ?_))
      rw [hsize₁, hsize, hone']
      omega
  have hzero : r₃.nInsertions = 0 := by
    rw [hcount₃, nextCount, if_pos]
    rw [← UInt32.toNat_inj, UInt32.toNat_add, hcount₂, hone', hsize']
    show (1 + 2 * m + 1) % 2 ^ 32 = 2 * (m + 1)
    omega
  refine not_remembersWindow_of_run (r := r₄)
    (.insert [] :: (List.replicate (2 * m) (.insert [1]) ++ [.insert [1], .insert [1]]))
    ?_ ?_ ?_
  · rw [run, step, hins₁, Option.bind_some, run_append hrun₂, run, step, hins₃, Option.bind_some,
      run, step, hins₄]
    rfl
  · rw [since, since_append, since_replicate, List.take_of_length_le]
    · show [] ∈ [1] :: [1] :: (List.replicate (2 * m) [1] ++ [[]])
      exact List.mem_cons_of_mem _ (List.mem_cons_of_mem _
        (List.mem_append_right _ List.mem_cons_self))
    · show ([1] :: [1] :: (List.replicate (2 * m) [1] ++ [[]])).length ≤ n.toNat
      simp only [List.length_cons, List.length_append, List.length_replicate, List.length_nil]
      omega
  · rw [CRollingBloomFilter.contains]
    split_ifs
    · exact (hsecond (.inl hl₃)).contains
    · exact (hfirst hzero).contains

end CRollingBloomFilter

end GC
