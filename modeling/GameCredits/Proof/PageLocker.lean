import GameCredits.Framework.RefCounts
import GameCredits.Framework.Run
import GameCredits.Model.PageLocker
import Mathlib.Data.List.Nodup

/-!
# Locked memory pages

The loop of `LockRange` and `UnlockRange` goes through the pages that the range intersects, each once
(`forRange_eq`, `mem_pages`), so the counter of a page follows the number of ranges on it
(`Ok.lockRange`, `Ok.unlockRange`). It is that number as long as the counter, which is an `int`, does
not pass its end (`lockedPages_exact`); a page that is locked too often shows a negative one
(`lockedPages_wrap`).
-/

namespace GC

open Framework Framework.RefCounts

variable {w k : Nat}

/-! ## Counters -/

/-- The counters of the pages. -/
def int32Counter : Counter Int32 where
  ofNat := Int32.ofNat
  succ := (· + 1)
  pred := (· - 1)
  bound := 2 ^ 32
  succ_ofNat n := (Int32.ofNat_add n 1).symm
  pred_ofNat n := by
    rw [Int32.ofNat_add]
    exact Int32.add_sub_cancel _ _
  ne_zero n hpos hlt heq := by
    have hbits : BitVec.ofNat 32 n = BitVec.ofNat 32 0 := congrArg Int32.toBitVec heq
    have hnat := congrArg BitVec.toNat hbits
    rw [BitVec.toNat_ofNat, BitVec.toNat_ofNat, Nat.mod_eq_of_lt hlt] at hnat
    exact hpos.ne' hnat

/-- What a page has in the histogram, as an integer. -/
theorem entry_eq_some {n : Nat} (hn : n < 2 ^ 31) {count : Int32} :
    int32Counter.entry n = some count ↔ count.toInt = n ∧ 0 < n := by
  rcases Nat.eq_zero_or_pos n with rfl | hpos
  · exact iff_of_false (Option.some_ne_none _).symm fun h => absurd h.2 (Nat.lt_irrefl 0)
  · have hint : (Int32.ofNat n).toInt = n := Int32.toInt_ofNat_of_lt hn
    rw [int32Counter.entry_pos hpos, Option.some_inj]
    constructor
    · rintro rfl
      exact ⟨hint, hpos⟩
    · rintro ⟨h, -⟩
      exact Int32.toInt.inj (hint.trans h.symm)

/-! ## Pages -/

/-- The address of a page. -/
def pageAt (w k i : Nat) : BitVec w := BitVec.ofNat w (2 ^ k * i)

theorem toNat_pageAt {i : Nat} (h : 2 ^ k * i < 2 ^ w) : (pageAt w k i).toNat = 2 ^ k * i := by
  rw [pageAt, BitVec.toNat_ofNat, Nat.mod_eq_of_lt h]

theorem pageAt_succ {page_size : BitVec w} (hsize : page_size.toNat = 2 ^ k) (i : Nat) :
    pageAt w k i + page_size = pageAt w k (i + 1) := by
  refine BitVec.eq_of_toNat_eq ?_
  rw [BitVec.toNat_add, pageAt, pageAt, BitVec.toNat_ofNat, BitVec.toNat_ofNat, hsize, Nat.mod_add_mod,
    Nat.mul_succ]

theorem toNat_sub_one {x : BitVec w} (h : 0 < x.toNat) : (x - 1).toNat = x.toNat - 1 := by
  have hone : (1 : BitVec w).toNat = 1 := by
    rw [BitVec.ofNat_eq_ofNat, BitVec.toNat_ofNat, Nat.mod_eq_of_lt (Nat.lt_of_le_of_lt h x.isLt)]
  rw [BitVec.toNat_sub_of_le (by rw [BitVec.le_def, hone]; exact h), hone]

theorem toNat_page_size_sub {page_size : BitVec w} (hsize : page_size.toNat = 2 ^ k) :
    (page_size - 1).toNat = 2 ^ k - 1 := by
  rw [toNat_sub_one (by rw [hsize]; exact Nat.two_pow_pos k), hsize]

/-- The mask takes the offset in the page away. -/
theorem and_page_mask {page_size : BitVec w} (hsize : page_size.toNat = 2 ^ k) (addr : BitVec w) :
    addr &&& ~~~(page_size - 1) = pageAt w k (addr.toNat / 2 ^ k) := by
  have hle : 2 ^ k * (addr.toNat / 2 ^ k) ≤ addr.toNat := Nat.mul_div_le _ _
  refine BitVec.eq_of_toNat_eq ?_
  rw [toNat_pageAt (lt_of_le_of_lt hle addr.isLt), BitVec.toNat_and]
  refine Nat.eq_of_testBit_eq fun i => ?_
  rw [Nat.testBit_and, BitVec.testBit_toNat, BitVec.testBit_toNat, BitVec.getLsbD_not,
    ← BitVec.testBit_toNat (page_size - 1), toNat_page_size_sub hsize, Nat.testBit_two_pow_sub_one,
    Nat.testBit_two_pow_mul, Nat.testBit_div_two_pow, BitVec.testBit_toNat]
  rcases Nat.lt_or_ge i k with hik | hik
  · rw [decide_eq_true hik, decide_eq_false (not_le.mpr hik), Bool.not_true, Bool.and_false,
      Bool.and_false, Bool.false_and]
  · rw [decide_eq_false (not_lt.mpr hik), decide_eq_true hik, Bool.not_false, Bool.and_true,
      Bool.true_and, Nat.sub_add_cancel hik]
    rcases Nat.lt_or_ge i w with hiw | hiw
    · rw [decide_eq_true hiw, Bool.and_true]
    · rw [BitVec.getLsbD_of_ge addr i hiw, Bool.false_and]

namespace LockedPageManagerBase

/-- The constructor takes every power of two. -/
theorem ofPageSize_pow {page_size : BitVec w} (hsize : page_size.toNat = 2 ^ k) :
    ofPageSize page_size = some ⟨[], page_size, ~~~(page_size - 1), ∅⟩ := by
  refine if_pos (BitVec.eq_of_toNat_eq ?_)
  rw [BitVec.toNat_and, toNat_page_size_sub hsize, hsize, Nat.and_two_pow_sub_one_eq_mod, Nat.mod_self]
  rfl

end LockedPageManagerBase

namespace ByteRange

/-- The pages of a range. -/
def pages (k : Nat) (r : ByteRange w) : List (BitVec w) :=
  if r.size = 0 then []
  else
    (List.range' (r.p.toNat / 2 ^ k)
      ((r.p.toNat + r.size.toNat - 1) / 2 ^ k + 1 - r.p.toNat / 2 ^ k)).map (pageAt w k)

variable {page_size page : BitVec w} {r : ByteRange w}

theorem size_pos (h : r.size ≠ 0) : 0 < r.size.toNat :=
  Nat.pos_of_ne_zero fun hzero => h (BitVec.eq_of_toNat_eq (by rw [hzero]; rfl))

/-- The page after the last one of a range is in the address space. -/
theorem BelowLastPage.next_lt (hsize : page_size.toNat = 2 ^ k) (h : r.BelowLastPage page_size)
    (hne : r.size ≠ 0) : 2 ^ k * ((r.p.toNat + r.size.toNat - 1) / 2 ^ k + 1) < 2 ^ w := by
  have hlast := h hne
  have hle := Nat.mul_div_le (r.p.toNat + r.size.toNat - 1) (2 ^ k)
  rw [hsize] at hlast
  rw [Nat.mul_succ]
  omega

/-- An index of a page of a range. -/
theorem toNat_pageAt_of_mem (hsize : page_size.toNat = 2 ^ k) (h : r.BelowLastPage page_size)
    (hne : r.size ≠ 0) {i : Nat} (hi : i ≤ (r.p.toNat + r.size.toNat - 1) / 2 ^ k) :
    (pageAt w k i).toNat = 2 ^ k * i :=
  toNat_pageAt (lt_of_le_of_lt (Nat.mul_le_mul_left _ (Nat.le_succ_of_le hi)) (h.next_lt hsize hne))

theorem nodup_pages (hsize : page_size.toNat = 2 ^ k) (h : r.BelowLastPage page_size) :
    (r.pages k).Nodup := by
  unfold pages
  split_ifs with hne
  · exact List.nodup_nil
  · refine List.Nodup.map_on (fun i hi j hj heq => ?_) List.nodup_range'
    rw [List.mem_range'_1] at hi hj
    have hnat := congrArg BitVec.toNat heq
    rw [toNat_pageAt_of_mem hsize h hne (by omega), toNat_pageAt_of_mem hsize h hne (by omega)] at hnat
    exact Nat.eq_of_mul_eq_mul_left (Nat.two_pow_pos k) hnat

/-- They are the pages that the range intersects. -/
theorem mem_pages (hsize : page_size.toNat = 2 ^ k) (h : r.BelowLastPage page_size) :
    page ∈ r.pages k ↔ r.Intersects page_size page := by
  have hpow := Nat.two_pow_pos k
  unfold pages
  split_ifs with hne
  · refine iff_of_false List.not_mem_nil fun ⟨_, byte, hle, hlt, _⟩ => ?_
    rw [hne, BitVec.ofNat_eq_ofNat, BitVec.toNat_ofNat, Nat.zero_mod] at hlt
    omega
  · have hpos := size_pos hne
    rw [List.mem_map, Intersects, hsize]
    constructor
    · rintro ⟨i, hi, rfl⟩
      rw [List.mem_range'_1] at hi
      have hlast : i ≤ (r.p.toNat + r.size.toNat - 1) / 2 ^ k := by omega
      have hstart : 2 ^ k * i ≤ r.p.toNat + r.size.toNat - 1 :=
        (Nat.mul_le_mul_left _ hlast).trans (Nat.mul_div_le _ _)
      have hend : r.p.toNat < 2 ^ k * i + 2 ^ k := by
        rw [← Nat.mul_succ]
        exact lt_of_lt_of_le (Nat.lt_mul_div_succ _ hpow) (Nat.mul_le_mul_left _ (Nat.succ_le_succ hi.1))
      rw [toNat_pageAt_of_mem hsize h hne hlast]
      exact ⟨Nat.mul_mod_right _ _, max r.p.toNat (2 ^ k * i), by omega⟩
    · rintro ⟨haligned, byte, hbyte⟩
      have hpage : 2 ^ k * (page.toNat / 2 ^ k) = page.toNat :=
        Nat.mul_div_cancel' (Nat.dvd_of_mod_eq_zero haligned)
      -- the byte is in the page of that index
      have hindex : byte / 2 ^ k = page.toNat / 2 ^ k :=
        Nat.div_eq_of_lt_le (by rw [Nat.mul_comm, hpage]; exact hbyte.2.2.1)
          (by rw [Nat.succ_mul, Nat.mul_comm, hpage]; exact hbyte.2.2.2)
      have hfirst : r.p.toNat / 2 ^ k ≤ byte / 2 ^ k := Nat.div_le_div_right hbyte.1
      have hlast : byte / 2 ^ k ≤ (r.p.toNat + r.size.toNat - 1) / 2 ^ k :=
        Nat.div_le_div_right (by omega)
      refine ⟨page.toNat / 2 ^ k, List.mem_range'_1.mpr (by omega), BitVec.eq_of_toNat_eq ?_⟩
      rw [toNat_pageAt_of_mem hsize h hne (by omega), hpage]

end ByteRange

/-! ## The loop -/

namespace LockedPageManagerBase

variable {m : LockedPageManagerBase w}

/-- The histogram and the calls of the locker. -/
abbrev Table (w : Nat) := Assoc.Map (BitVec w) Int32 × List (LockerCall w)

def table (m : LockedPageManagerBase w) : Table w := (m.histogram, m.locker)

def withTable (m : LockedPageManagerBase w) (t : Table w) : LockedPageManagerBase w :=
  { m with histogram := t.1, locker := t.2 }

theorem withTable_histogram (m : LockedPageManagerBase w) (t : Table w) :
    (m.withTable t).histogram = t.1 := rfl

/-- The call for a page that was not locked. -/
def lockCall (page_size page : BitVec w) (count : Option Int32) : Option (LockerCall w) :=
  if count = none then some (.lock page page_size) else none

/-- The call for a page that is not locked any more. -/
def unlockCall (page_size page : BitVec w) (count : Option Int32) : Option (LockerCall w) :=
  if int32Counter.release count = none then some (.unlock page page_size) else none

theorem lockCall_eq_some {page_size page : BitVec w} {count : Option Int32} {call : LockerCall w} :
    lockCall page_size page count = some call ↔ count = none ∧ call = .lock page page_size := by
  unfold lockCall
  split_ifs with h
  · rw [Option.some_inj, eq_comm, and_iff_right h]
  · exact iff_of_false not_false fun hand => h hand.1

theorem unlockCall_eq_some {page_size page : BitVec w} {count : Option Int32} {call : LockerCall w} :
    unlockCall page_size page count = some call ↔
      int32Counter.release count = none ∧ call = .unlock page page_size := by
  unfold unlockCall
  split_ifs with h
  · rw [Option.some_inj, eq_comm, and_iff_right h]
  · exact iff_of_false not_false fun hand => h hand.1

theorem lockPage_eq (m : LockedPageManagerBase w) (t : Table w) (page : BitVec w) :
    (m.withTable t).lockPage page =
      some (m.withTable (touch int32Counter.retain (lockCall m.page_size) t page)) := by
  rw [lockPage, withTable_histogram, touch, lockCall]
  cases t.1.lookup page with
  | none => rfl
  | some count =>
    rw [if_neg (Option.some_ne_none _), Option.toList_none, List.append_nil]
    rfl

theorem unlockPage_eq (m : LockedPageManagerBase w) (t : Table w) (page : BitVec w)
    (h : t.1.lookup page ≠ none) : (m.withTable t).unlockPage page =
      some (m.withTable (touch int32Counter.release (unlockCall m.page_size) t page)) := by
  obtain ⟨count, hcount⟩ := Option.ne_none_iff_exists'.mp h
  have hrelease : int32Counter.release (some count) =
      if count - 1 = 0 then none else some (count - 1) := rfl
  rw [unlockPage, withTable_histogram, touch, unlockCall]
  rw [hcount, hrelease]
  by_cases hlast : count - 1 = 0
  · simp only [hlast, if_true]
    rfl
  · simp only [hlast, if_false, reduceCtorEq, Option.toList_none, List.append_nil]
    rfl

variable {body : LockedPageManagerBase w → BitVec w → Option (LockedPageManagerBase w)}
  {f : Option Int32 → Option Int32} {g : BitVec w → Option Int32 → Option (LockerCall w)}
  {ok : Option Int32 → Prop}

/-- A loop over the pages from `a` to `b` whose body touches a page that is `ok`. -/
theorem pageLoop_eq (hsize : m.page_size.toNat = 2 ^ k)
    (hbody : ∀ t page, ok (t.1.lookup page) →
      body (m.withTable t) page = some (m.withTable (touch f g t page)))
    {b : Nat} (hb : 2 ^ k * (b + 1) < 2 ^ w) {n a fuel : Nat} (ha : a + n = b + 1) (hfuel : n < fuel)
    {t : Table w} (hnodup : ((List.range' a n).map (pageAt w k)).Nodup)
    (hok : ∀ page ∈ (List.range' a n).map (pageAt w k), ok (t.1.lookup page)) :
    pageLoop body (pageAt w k b) fuel (pageAt w k a) (m.withTable t) =
      some (m.withTable (((List.range' a n).map (pageAt w k)).foldl (touch f g) t)) := by
  induction n generalizing a fuel t with
  | zero =>
    obtain ⟨fuel, rfl⟩ := Nat.exists_eq_succ_of_ne_zero hfuel.ne'
    have hpow := Nat.two_pow_pos k
    rw [pageLoop, if_neg]
    · rfl
    · rw [Nat.add_zero] at ha
      rw [BitVec.le_def, ha, toNat_pageAt hb,
        toNat_pageAt (lt_trans (Nat.mul_lt_mul_of_pos_left (Nat.lt_succ_self b) hpow) hb), Nat.mul_succ]
      omega
  | succ n ih =>
    obtain ⟨fuel, rfl⟩ := Nat.exists_eq_succ_of_ne_zero (Nat.ne_of_gt (Nat.zero_lt_of_lt hfuel))
    have hle : 2 ^ k * b < 2 ^ w := lt_of_le_of_lt (Nat.mul_le_mul_left _ (Nat.le_succ b)) hb
    have hab : 2 ^ k * a ≤ 2 ^ k * b := Nat.mul_le_mul_left _ (by omega)
    have hpages : (List.range' a (n + 1)).map (pageAt w k) =
        pageAt w k a :: (List.range' (a + 1) n).map (pageAt w k) := rfl
    rw [hpages] at hnodup hok ⊢
    obtain ⟨hhead, htail⟩ := List.nodup_cons.mp hnodup
    obtain ⟨hokhead, hoktail⟩ := List.forall_mem_cons.mp hok
    have hnext : (m.withTable (touch f g t (pageAt w k a))).page_size = m.page_size := rfl
    rw [pageLoop, if_pos (by rw [BitVec.le_def, toNat_pageAt hle, toNat_pageAt (by omega)]; exact hab),
      hbody t _ hokhead, Option.bind_some]
    show pageLoop body _ fuel (pageAt w k a + m.page_size) _ = _
    rw [pageAt_succ hsize, List.foldl_cons]
    refine ih (by omega) (by omega) htail fun page hpage => ?_
    -- the other pages are still as they were
    have hne : page ≠ pageAt w k a := fun heq => hhead (heq ▸ hpage)
    rw [touch, lookup_put, if_neg hne]
    exact hoktail page hpage

/-- `LockRange` and `UnlockRange` touch each page of the range. -/
theorem forRange_eq (ok : Option Int32 → Prop) (hsize : m.page_size.toNat = 2 ^ k)
    (hmask : m.page_mask = ~~~(m.page_size - 1))
    (hbody : ∀ t page, ok (t.1.lookup page) →
      body (m.withTable t) page = some (m.withTable (touch f g t page)))
    {r : ByteRange w} (hr : r.BelowLastPage m.page_size)
    (hok : ∀ page ∈ r.pages k, ok (m.histogram.lookup page)) :
    m.forRange body r.p r.size = some (m.withTable ((r.pages k).foldl (touch f g) m.table)) := by
  have hnodup := ByteRange.nodup_pages hsize hr
  unfold forRange
  unfold ByteRange.pages at hok hnodup ⊢
  split_ifs at hok hnodup ⊢ with hne
  · rfl
  · have hpos := ByteRange.size_pos hne
    have hnext := hr.next_lt hsize hne
    have hsum : (r.p + r.size).toNat = r.p.toNat + r.size.toNat :=
      BitVec.toNat_add_of_lt (by
        have hend := hr hne
        have hpow := Nat.two_pow_pos k
        omega)
    have hlast : (r.p + r.size - 1).toNat = r.p.toNat + r.size.toNat - 1 := by
      rw [toNat_sub_one (by omega), hsum]
    have hmono : r.p.toNat / 2 ^ k ≤ (r.p.toNat + r.size.toNat - 1) / 2 ^ k :=
      Nat.div_le_div_right (by omega)
    have hfuel : (r.p.toNat + r.size.toNat - 1) / 2 ^ k + 1 < 2 ^ w :=
      lt_of_le_of_lt (Nat.le_mul_of_pos_left _ (Nat.two_pow_pos k)) hnext
    simp only [hmask, and_page_mask hsize, hlast]
    refine pageLoop_eq (t := m.table) hsize hbody hnext ?_ ?_ hnodup hok
    · exact Nat.add_sub_cancel' (hmono.trans (Nat.le_succ _))
    · exact lt_of_le_of_lt (Nat.sub_le _ _) hfuel

end LockedPageManagerBase

/-! ## Sessions -/

namespace PageSession

variable {s s' : PageSession w} {page_size : BitVec w} {r : ByteRange w}

/-- The counters are those of the ranges on each page. -/
structure Ok (page_size : BitVec w) (s : PageSession w) : Prop where
  size : s.manager.page_size = page_size
  mask : s.manager.page_mask = ~~~(page_size - 1)
  below : ∀ r ∈ s.outstanding, r.BelowLastPage page_size
  holds : int32Counter.Holds s.manager.histogram s.refs

/-- The locker is called once for each page whose number of ranges changes from or to zero, and for
no other. -/
def Called (page_size : BitVec w) (s s' : PageSession w) (calls : List (LockerCall w)) : Prop :=
  calls.Nodup ∧ ∀ call, call ∈ calls ↔
    (∃ page, call = .lock page page_size ∧ s.refs page = 0 ∧ s'.refs page = 1) ∨
    (∃ page, call = .unlock page page_size ∧ s.refs page = 1 ∧ s'.refs page = 0)

theorem refs_eq (hs : s.manager.page_size = page_size) (page : BitVec w) :
    s.refs page = s.outstanding.countP fun r => r.Intersects page_size page := by
  rw [refs, hs]

/-- The calls of `LockRange`. -/
theorem called_lock {pages : List (BitVec w)} (hnodup : pages.Nodup)
    (hholds : int32Counter.Holds s.manager.histogram s.refs)
    (hcount : ∀ page, s'.refs page = s.refs page + if page ∈ pages then 1 else 0) :
    Called page_size s s' (pages.filterMap fun page =>
      LockedPageManagerBase.lockCall page_size page (s.manager.histogram.lookup page)) := by
  refine ⟨List.Nodup.filterMap (fun page page' call h h' => ?_) hnodup, fun call => ?_⟩
  · obtain ⟨-, rfl⟩ := LockedPageManagerBase.lockCall_eq_some.mp (Option.mem_def.mp h)
    obtain ⟨-, heq⟩ := LockedPageManagerBase.lockCall_eq_some.mp (Option.mem_def.mp h')
    exact (LockerCall.lock.injEq .. ▸ heq).1
  · rw [List.mem_filterMap]
    constructor
    · rintro ⟨page, hpage, h⟩
      obtain ⟨hnone, rfl⟩ := LockedPageManagerBase.lockCall_eq_some.mp h
      have hzero : s.refs page = 0 := int32Counter.entry_eq_none.mp ((hholds page).symm.trans hnone)
      exact .inl ⟨page, rfl, hzero, by rw [hcount, hzero, if_pos hpage]⟩
    · rintro (⟨page, rfl, hzero, hone⟩ | ⟨page, rfl, hone, hzero⟩)
      · have hpage : page ∈ pages := by
          by_contra hnot
          rw [hcount, hzero, if_neg hnot] at hone
          cases hone
        refine ⟨page, hpage, LockedPageManagerBase.lockCall_eq_some.mpr ⟨?_, rfl⟩⟩
        rw [hholds page, hzero]
        rfl
      · rw [hcount, hone] at hzero
        omega

/-- The calls of `UnlockRange`. -/
theorem called_unlock {pages : List (BitVec w)} (hnodup : pages.Nodup)
    (hholds : int32Counter.Holds s.manager.histogram s.refs)
    (hfits : ∀ page, s.refs page < 2 ^ 31) (hpos : ∀ page ∈ pages, 0 < s.refs page)
    (hcount : ∀ page, s'.refs page = s.refs page - if page ∈ pages then 1 else 0) :
    Called page_size s s' (pages.filterMap fun page =>
      LockedPageManagerBase.unlockCall page_size page (s.manager.histogram.lookup page)) := by
  have hrelease : ∀ page, int32Counter.release (s.manager.histogram.lookup page) =
      int32Counter.entry (s.refs page - 1) := by
    intro page
    have hbound : s.refs page ≤ 2 ^ 32 := (hfits page).le.trans (by decide)
    rw [hholds page]
    exact int32Counter.release_entry hbound
  refine ⟨List.Nodup.filterMap (fun page page' call h h' => ?_) hnodup, fun call => ?_⟩
  · obtain ⟨-, rfl⟩ := LockedPageManagerBase.unlockCall_eq_some.mp (Option.mem_def.mp h)
    obtain ⟨-, heq⟩ := LockedPageManagerBase.unlockCall_eq_some.mp (Option.mem_def.mp h')
    exact (LockerCall.unlock.injEq .. ▸ heq).1
  · rw [List.mem_filterMap]
    constructor
    · rintro ⟨page, hpage, h⟩
      obtain ⟨hnone, rfl⟩ := LockedPageManagerBase.unlockCall_eq_some.mp h
      have hone : s.refs page - 1 = 0 :=
        int32Counter.entry_eq_none.mp ((hrelease page).symm.trans hnone)
      have := hpos page hpage
      exact .inr ⟨page, rfl, by omega, by rw [hcount, if_pos hpage]; exact hone⟩
    · rintro (⟨page, rfl, hzero, hone⟩ | ⟨page, rfl, hone, hzero⟩)
      · rw [hcount, hzero, Nat.zero_sub] at hone
        cases hone
      · have hpage : page ∈ pages := by
          by_contra hnot
          rw [hcount, hone, if_neg hnot] at hzero
          cases hzero
        refine ⟨page, hpage, LockedPageManagerBase.unlockCall_eq_some.mpr ⟨?_, rfl⟩⟩
        rw [hrelease page, hone]
        rfl

theorem Ok.lockRange (hsize : page_size.toNat = 2 ^ k) (h : s.Ok page_size)
    (hr : r.BelowLastPage page_size) : ∃ s' calls, step (.lockRange r) s = some s' ∧
      s'.Ok page_size ∧ s'.outstanding = r :: s.outstanding ∧
      s'.manager.locker = s.manager.locker ++ calls ∧ Called page_size s s' calls := by
  obtain ⟨hps, hmask, hbelow, hholds⟩ := h
  subst hps
  have hnodup := ByteRange.nodup_pages hsize hr
  have hrange : s.manager.lockRange r.p r.size = _ :=
    LockedPageManagerBase.forRange_eq (fun _ => True) hsize hmask
      (fun t page _ => LockedPageManagerBase.lockPage_eq s.manager t page) hr fun _ _ => trivial
  obtain ⟨s', hs'⟩ : ∃ s' : PageSession w, s' = ⟨s.manager.withTable ((r.pages k).foldl
      (touch int32Counter.retain (LockedPageManagerBase.lockCall s.manager.page_size)) s.manager.table),
      r :: s.outstanding⟩ := ⟨_, rfl⟩
  have hcount : ∀ page, s'.refs page = s.refs page + if page ∈ r.pages k then 1 else 0 := by
    intro page
    have hsame : s'.manager.page_size = s.manager.page_size := by rw [hs']; rfl
    rw [refs_eq hsame, refs_eq rfl, hs', List.countP_cons]
    simp only [decide_eq_true_eq, ByteRange.mem_pages hsize hr]
  refine ⟨s', _, by rw [step, hrange, hs']; rfl, ⟨by rw [hs']; rfl, by rw [hs']; exact hmask, ?_, ?_⟩,
    by rw [hs'], by rw [hs']; exact log_foldl_touch hnodup, called_lock hnodup hholds hcount⟩
  · rw [hs']
    exact List.forall_mem_cons.mpr ⟨hr, hbelow⟩
  · rw [hs']
    rw [hs'] at hcount
    exact hholds.retain hnodup hcount

theorem Ok.unlockRange (hsize : page_size.toNat = 2 ^ k) (h : s.Ok page_size)
    (hfits : ∀ page, s.refs page < 2 ^ 31) (hr : r ∈ s.outstanding) :
    ∃ s' calls, step (.unlockRange r) s = some s' ∧ s'.Ok page_size ∧
      s'.outstanding = s.outstanding.erase r ∧
      s'.manager.locker = s.manager.locker ++ calls ∧ Called page_size s s' calls := by
  obtain ⟨hps, hmask, hbelow, hholds⟩ := h
  subst hps
  have hnodup := ByteRange.nodup_pages hsize (hbelow r hr)
  -- the range itself is on each of its pages
  have hpos : ∀ page ∈ r.pages k, 0 < s.refs page := fun page hpage =>
    List.countP_pos_iff.mpr
      ⟨r, hr, decide_eq_true ((ByteRange.mem_pages hsize (hbelow r hr)).mp hpage)⟩
  have hrange : s.manager.unlockRange r.p r.size = _ :=
    LockedPageManagerBase.forRange_eq (· ≠ none) hsize hmask
      (LockedPageManagerBase.unlockPage_eq s.manager) (hbelow r hr) fun page hpage => by
        rw [hholds page, int32Counter.entry_pos (hpos page hpage)]
        exact Option.some_ne_none _
  obtain ⟨s', hs'⟩ : ∃ s' : PageSession w, s' = ⟨s.manager.withTable ((r.pages k).foldl
      (touch int32Counter.release (LockedPageManagerBase.unlockCall s.manager.page_size))
      s.manager.table), s.outstanding.erase r⟩ := ⟨_, rfl⟩
  have hcount : ∀ page, s'.refs page = s.refs page - if page ∈ r.pages k then 1 else 0 := by
    intro page
    have hsame : s'.manager.page_size = s.manager.page_size := by rw [hs']; rfl
    rw [refs_eq hsame, refs_eq rfl, hs', List.countP_erase]
    simp only [decide_eq_true_eq, ByteRange.mem_pages hsize (hbelow r hr), hr, true_and]
  refine ⟨s', _, by rw [step, hrange, hs']; rfl, ⟨by rw [hs']; rfl, by rw [hs']; exact hmask, ?_, ?_⟩,
    by rw [hs'], by rw [hs']; exact log_foldl_touch hnodup,
    called_unlock hnodup hholds hfits hpos hcount⟩
  · rw [hs']
    exact fun r' hr' => hbelow r' (List.mem_of_mem_erase hr')
  · rw [hs']
    rw [hs'] at hcount
    exact hholds.release hnodup (fun page _ => (hfits page).le.trans (by decide)) hcount

/-! ## Runs -/

/-- A locked range leaves fewer than `2 ^ 31` ranges on each of its pages. -/
def Fits : PageCall w → PageSession w → Prop
  | .lockRange r, s => ∀ page, r.Intersects s.manager.page_size page → s.refs page + 1 < 2 ^ 31
  | .unlockRange _, _ => True

/-- The histogram has exactly the pages that are on a locked range, with the number of such ranges. -/
def Exact (s : PageSession w) : Prop :=
  ∀ page count, s.manager.histogram.lookup page = some count ↔
    count.toInt = s.refs page ∧ 0 < s.refs page

/-- What calls that fit maintain. -/
structure Fitting (page_size : BitVec w) (s : PageSession w) : Prop where
  ok : s.Ok page_size
  fits : ∀ page, s.refs page < 2 ^ 31

theorem Fitting.exact (h : s.Fitting page_size) : s.Exact := by
  intro page count
  rw [h.ok.holds page]
  exact entry_eq_some (h.fits page)

theorem Init.fitting (hsize : page_size.toNat = 2 ^ k) (h : s.Init page_size) :
    s.Fitting page_size := by
  obtain ⟨manager, outstanding⟩ := s
  obtain ⟨hmanager, rfl⟩ := h
  rw [LockedPageManagerBase.ofPageSize_pow hsize] at hmanager
  cases hmanager
  refine ⟨⟨rfl, rfl, fun r hr => absurd hr List.not_mem_nil, fun page => ?_⟩, fun page => ?_⟩
  · exact AList.lookup_empty page
  · exact Nat.two_pow_pos 31

/-- A call that is valid and fits succeeds. -/
theorem Fitting.step (hsize : page_size.toNat = 2 ^ k) (h : s.Fitting page_size) {call : PageCall w}
    (hvalid : Valid call s) (hfits : Fits call s) :
    ∃ s' calls, step call s = some s' ∧ s'.Fitting page_size ∧
      s'.manager.locker = s.manager.locker ++ calls ∧ Called page_size s s' calls := by
  obtain ⟨hok, hbound⟩ := h
  cases call with
  | lockRange r =>
    have hr : r.BelowLastPage page_size := hok.size ▸ hvalid
    obtain ⟨s', calls, hstep, hok', hout, hcalls⟩ := hok.lockRange hsize hr
    refine ⟨s', calls, hstep, ⟨hok', fun page => ?_⟩, hcalls⟩
    rw [refs_eq hok'.size, hout, List.countP_cons, ← refs_eq hok.size]
    split_ifs with hpage
    · exact hfits page (hok.size ▸ of_decide_eq_true hpage)
    · exact hbound page
  | unlockRange r =>
    obtain ⟨s', calls, hstep, hok', hout, hcalls⟩ := hok.unlockRange hsize hbound hvalid
    refine ⟨s', calls, hstep, ⟨hok', fun page => lt_of_le_of_lt ?_ (hbound page)⟩, hcalls⟩
    rw [refs_eq hok'.size, refs_eq hok.size, hout]
    exact List.Sublist.countP_le List.erase_sublist

/-- **Locked pages are counted exactly** in every run in which no page gets `2 ^ 31` ranges: the
histogram has the pages of the locked ranges with their numbers, no assertion fails, and each call
locks and unlocks the pages whose number changes from and to zero. -/
theorem lockedPages_exact (hsize : page_size.toNat = 2 ^ k) :
    (∃ s : PageSession w, s.Init page_size) ∧
    ∀ s, Reachable (Init page_size) PageSession.step (fun call s => Valid call s ∧ Fits call s) s →
      s.Exact ∧ ∀ call, Valid call s → Fits call s →
        ∃ s' calls, PageSession.step call s = some s' ∧
          s'.manager.locker = s.manager.locker ++ calls ∧ Called page_size s s' calls := by
  refine ⟨⟨⟨_, []⟩, LockedPageManagerBase.ofPageSize_pow hsize, rfl⟩, fun s hs => ?_⟩
  have h : s.Fitting page_size := by
    refine hs.invariant (fun s hs => hs.fitting hsize) ?_
    intro call s s' h hok hstep
    obtain ⟨t, -, ht, hfitting, -⟩ := h.step hsize hok.1 hok.2
    rw [hstep] at ht
    cases ht
    exact hfitting
  refine ⟨h.exact, fun call hvalid hfits => ?_⟩
  obtain ⟨s', calls, hstep, -, hcalls⟩ := h.step hsize hvalid hfits
  exact ⟨s', calls, hstep, hcalls⟩

/-- A range locked over and over. -/
theorem reachable_replicate (hsize : page_size.toNat = 2 ^ k) (hr : r.BelowLastPage page_size)
    (n : Nat) :
    ∃ s, Reachable (Init page_size) PageSession.step Valid s ∧ s.Ok page_size ∧
      s.outstanding = List.replicate n r := by
  induction n with
  | zero =>
    have hinit : Init page_size ⟨_, []⟩ := ⟨LockedPageManagerBase.ofPageSize_pow hsize, rfl⟩
    exact ⟨_, .init hinit, (hinit.fitting hsize).ok, rfl⟩
  | succ n ih =>
    obtain ⟨s, hs, hok, hout⟩ := ih
    obtain ⟨s', calls, hstep, hok', hout', -⟩ := hok.lockRange hsize hr
    have hvalid : Valid (.lockRange r) s := by
      rw [Valid, hok.size]
      exact hr
    exact ⟨s', .step hs hvalid hstep, hok', by rw [hout', hout, List.replicate_succ]⟩

/-- A range of two pages. -/
theorem lockedPages_exact_first : ∃ s : PageSession 64, s.Init 4096 ∧ s.Exact ∧
    ∃ s' calls, PageSession.step (.lockRange ⟨100, 8000⟩) s = some s' ∧
      s'.manager.locker = s.manager.locker ++ calls ∧ Called 4096 s s' calls := by
  obtain ⟨⟨s, hinit⟩, hall⟩ := lockedPages_exact (show (4096 : BitVec 64).toNat = 2 ^ 12 from rfl)
  obtain ⟨hexact, hcall⟩ := hall s (.init hinit)
  have hsize := (hinit.fitting (k := 12) rfl).ok.size
  refine ⟨s, hinit, hexact, hcall _ ?_ fun page _ => ?_⟩
  · rw [Valid, hsize]
    exact fun _ => by decide
  · rw [refs, hinit.2, List.countP_nil]
    decide

/-- A byte that is locked `2 ^ 31` times: the counter of its page is negative. -/
theorem lockedPages_wrap : ∃ s : PageSession 64, Reachable (Init 4096) PageSession.step Valid s ∧
    s.outstanding = List.replicate (2 ^ 31) ⟨4096, 1⟩ ∧ s.refs 4096 = 2 ^ 31 ∧
    s.manager.histogram.lookup 4096 = some (-2147483648) ∧ ¬ s.Exact := by
  obtain ⟨s, hs, hok, hout⟩ := reachable_replicate (r := ⟨4096, 1⟩)
    (show (4096 : BitVec 64).toNat = 2 ^ 12 from rfl) (fun _ => by decide) (2 ^ 31)
  have hrefs : s.refs 4096 = 2 ^ 31 := by
    rw [refs_eq hok.size, hout, List.countP_replicate, if_pos (by decide)]
  have hlookup : s.manager.histogram.lookup 4096 = some (-2147483648) := by
    rw [hok.holds, hrefs, int32Counter.entry_pos (Nat.two_pow_pos 31)]
    rfl
  refine ⟨s, hs, hout, hrefs, hlookup, fun hexact => ?_⟩
  have hint := ((hexact 4096 (-2147483648)).mp hlookup).1
  rw [hrefs] at hint
  exact absurd hint (by decide)

end PageSession

end GC
