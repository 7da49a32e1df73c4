import Mathlib.Data.List.GetD
import Mathlib.Data.Nat.Bitwise
import GameCredits.Model.MerkleBlock
import GameCredits.Proof.Merkle

/-!
# Partial merkle trees

What `CPartialMerkleTree` takes from a tree and what `ExtractMatches` makes of it.

* `extractMatches_build`: the matched ids and the root of the block are extracted from the tree that
  was built for them, also after it has been written and read.
* `extractMatches_total`: extraction ends, and reads no flag or hash that is not there.
* `extractMatches_sound`: if the root of the block is extracted, what is matched are transactions
  of the block.
-/

namespace GC

open Framework MerkleTree

variable {hash : Bytes → UInt256}

/-! ## Widths and heights -/

theorem calcTreeWidth_eq {n : UInt32} {height : Nat} (hn : n.toNat ≤ 2 ^ 31) (hh : height ≤ 31) :
    calcTreeWidth n height = (n.toNat + 2 ^ height - 1) / 2 ^ height := by
  have hpos : 0 < 2 ^ height := Nat.pow_pos (by decide)
  have hle : 2 ^ height ≤ 2 ^ 31 := Nat.pow_le_pow_right (by decide) hh
  rw [calcTreeWidth, Nat.shiftRight_eq_div_pow, Nat.mod_eq_of_lt (by omega)]

variable (hash) in
/-- A level has the width that is calculated for it. -/
theorem length_level_eq {n : UInt32} {ids : List UInt256} {height : Nat} (hids : ids.length = n.toNat)
    (hn : n.toNat ≤ 2 ^ 31) (hh : height ≤ 31) :
    (level (pairHash hash) height ids).length = calcTreeWidth n height := by
  rw [length_level, calcTreeWidth_eq hn hh, hids]

theorem calcTreeWidth_31 (n : UInt32) : calcTreeWidth n 31 ≤ 1 := by
  rw [calcTreeWidth, Nat.shiftRight_eq_div_pow]
  omega

theorem calcHeightFrom_spec {n : UInt32} (steps nHeight : Nat) (hs : steps + nHeight = 32)
    (hpos : 0 < steps) : ∃ k, calcHeightFrom n steps nHeight = some k ∧ k ≤ 31 ∧
      calcTreeWidth n k ≤ 1 ∧ ∀ j, nHeight ≤ j → j < k → 1 < calcTreeWidth n j := by
  induction steps generalizing nHeight with
  | zero => omega
  | succ steps ih =>
    rw [calcHeightFrom]
    split_ifs with h
    · have hne : steps ≠ 0 := by
        rintro rfl
        obtain rfl : nHeight = 31 := by omega
        exact absurd (calcTreeWidth_31 n) (by omega)
      obtain ⟨k, hk, hle, hw, hlt⟩ := ih (nHeight + 1) (by omega) (by omega)
      refine ⟨k, hk, hle, hw, fun j hj hjk => ?_⟩
      rcases Nat.eq_or_lt_of_le hj with rfl | hj
      · exact h
      · exact hlt j hj hjk
    · exact ⟨nHeight, rfl, by omega, by omega, fun j hj hjk => by omega⟩

/-- The calculated height is the first with at most one node. -/
theorem calcHeight_spec (n : UInt32) : ∃ k, calcHeight n = some k ∧ k ≤ 31 ∧
    calcTreeWidth n k ≤ 1 ∧ ∀ j < k, 1 < calcTreeWidth n j := by
  obtain ⟨k, hk, hle, hw, hlt⟩ := @calcHeightFrom_spec n 32 0 rfl (by decide)
  exact ⟨k, hk, hle, hw, fun j => hlt j (Nat.zero_le j)⟩

/-! ## Encoding of the flag bits -/

theorem and_shift_ne_zero (x : UInt8) {j : Nat} (hj : j < 8) :
    (x &&& UInt8.ofNat (1 <<< j) != 0) = x.toNat.testBit j := by
  have hpow : 2 ^ j < 2 ^ 8 := Nat.pow_lt_pow_right (by decide) hj
  have hnat : (x &&& UInt8.ofNat (1 <<< j)).toNat = (x.toNat.testBit j).toNat * 2 ^ j := by
    rw [UInt8.toNat_and, UInt8.toNat_ofNat', Nat.one_shiftLeft, Nat.mod_eq_of_lt hpow,
      Nat.and_two_pow]
  rw [bne, beq_eq_decide, ← decide_not]
  have hiff : ¬ x &&& UInt8.ofNat (1 <<< j) = 0 ↔ x.toNat.testBit j = true := by
    rw [← UInt8.toNat_inj, hnat]
    have : 0 < 2 ^ j := Nat.pow_pos (by decide)
    cases x.toNat.testBit j <;> simp
  simp only [hiff, Bool.decide_eq_true]

theorem testBit_eq (vBytes : Bytes) (p : Nat) :
    testBit vBytes p = (vBytes.getD (p / 8) 0).toNat.testBit (p % 8) :=
  and_shift_ne_zero _ (Nat.mod_lt _ (by decide))

theorem length_packFrom (vBytes : Bytes) (p : Nat) (vBits : List Bool) :
    (packFrom vBytes p vBits).length = vBytes.length := by
  induction vBits generalizing vBytes p with
  | nil => rfl
  | cons bit vBits ih => rw [packFrom, ih, orBit, List.length_modify]

theorem testBit_orBit {vBytes : Bytes} {p : Nat} (hp : p / 8 < vBytes.length) (bit : Bool)
    (q : Nat) : testBit (orBit vBytes p bit) q = (testBit vBytes q || (decide (p = q) && bit)) := by
  have hj : p % 8 < 8 := Nat.mod_lt _ (by decide)
  have hbit : ∀ j < 8, (UInt8.ofNat (bit.toNat <<< (p % 8))).toNat.testBit j =
      (decide (p % 8 = j) && bit) := by
    intro j hj'
    have hpow : 2 ^ (p % 8) < 2 ^ 8 := Nat.pow_lt_pow_right (by decide) hj
    cases bit with
    | false => simp
    | true =>
      rw [UInt8.toNat_ofNat', Bool.toNat_true, Nat.one_shiftLeft, Nat.mod_eq_of_lt hpow,
        Nat.testBit_two_pow, Bool.and_true]
  rw [testBit_eq, testBit_eq, orBit]
  by_cases hq : p / 8 = q / 8
  · rw [← hq, List.getD_eq_getElem?_getD, List.getD_eq_getElem?_getD, List.getElem?_modify_eq,
      List.getElem?_eq_getElem hp, Option.map_eq_map, Option.map_some, Option.getD_some,
      Option.getD_some, UInt8.toNat_or, Nat.testBit_or, hbit _ (Nat.mod_lt _ (by decide))]
    congr 2
    exact decide_eq_decide.mpr ⟨fun h => by omega, fun h => by rw [h]⟩
  · have hpq : p ≠ q := fun h => hq (by rw [h])
    rw [List.getD_eq_getElem?_getD, List.getElem?_modify_ne _ _ hq, ← List.getD_eq_getElem?_getD,
      decide_eq_false hpq, Bool.false_and, Bool.or_false]

theorem testBit_packFrom {vBytes : Bytes} {p : Nat} {vBits : List Bool}
    (hp : (p + vBits.length + 7) / 8 ≤ vBytes.length) (q : Nat) :
    testBit (packFrom vBytes p vBits) q =
      (testBit vBytes q || (decide (p ≤ q) && vBits.getD (q - p) false)) := by
  induction vBits generalizing vBytes p with
  | nil => simp [packFrom]
  | cons bit vBits ih =>
    rw [List.length_cons] at hp
    rw [packFrom, ih (by rw [orBit, List.length_modify]; omega), testBit_orBit (by omega),
      Bool.or_assoc]
    congr 1
    rcases Nat.lt_trichotomy p q with h | rfl | h
    · rw [decide_eq_false (by omega : ¬ p = q), decide_eq_true (by omega : p + 1 ≤ q),
        decide_eq_true (by omega : p ≤ q), Bool.false_and, Bool.false_or,
        show q - p = q - (p + 1) + 1 by omega, List.getD_cons_succ]
    · simp
    · rw [decide_eq_false (by omega : ¬ p = q), decide_eq_false (by omega : ¬ p + 1 ≤ q),
        decide_eq_false (by omega : ¬ p ≤ q)]
      rfl

theorem length_packBits (vBits : List Bool) :
    (packBits vBits).length = (vBits.length + 7) / 8 := by
  rw [packBits, length_packFrom, List.length_replicate]

/-- What is read back of the flag bits: the bits, and padding to whole bytes. -/
theorem unpackBits_packBits (vBits : List Bool) : unpackBits (packBits vBits) =
    vBits ++ List.replicate ((vBits.length + 7) / 8 * 8 - vBits.length) false := by
  refine List.ext_getElem ?_ fun q h₁ h₂ => ?_
  · rw [unpackBits, List.length_map, List.length_range, length_packBits, List.length_append,
      List.length_replicate]
    omega
  · have hzero : testBit (List.replicate ((vBits.length + 7) / 8) 0) q = false := by
      rw [testBit_eq, List.getD_eq_getElem?_getD, List.getElem?_replicate]
      split_ifs <;> simp
    rw [← List.getD_eq_getElem _ false h₂]
    simp only [unpackBits, List.getElem_map, List.getElem_range]
    rw [packBits, testBit_packFrom (by rw [List.length_replicate, Nat.zero_add]), hzero,
      decide_eq_true (Nat.zero_le q), Bool.false_or, Bool.true_and, Nat.sub_zero]
    by_cases hq : q < vBits.length
    · rw [List.getD_append _ _ _ _ hq]
    · rw [List.getD_append_right _ _ _ _ (by omega), List.getD_eq_default _ _ (by omega),
        List.getD_eq_getElem?_getD, List.getElem?_replicate]
      split_ifs <;> rfl

theorem readUInt256_write : RoundTrip uint256Bytes readUInt256 fun _ => True := by
  intro h _ s
  rw [uint256Bytes, readUInt256, Get.run_bind_some (getLE_append 32 h.val s), Get.run_pure]
  congr 2
  ext
  have := h.isLt
  show h.val % 256 ^ 32 % 2 ^ 256 = h.val
  omega

theorem getByte_write : RoundTrip (fun b => [b]) getByte fun _ => True := fun _ _ _ => rfl

/-- A tree is read back with its flag bits padded. -/
theorem readPartialMerkleTree_write {t : CPartialMerkleTree} (hHash : t.vHash.length ≤ MAX_SIZE)
    (hBits : t.vBits.length ≤ MAX_SIZE) (s : Bytes) :
    readPartialMerkleTree.run (t.bytes ++ s) =
      some (⟨t.nTransactions, unpackBits (packBits t.vBits), t.vHash, false⟩, s) := by
  have hlen : (packBits t.vBits).length ≤ MAX_SIZE := by rw [length_packBits]; omega
  rw [CPartialMerkleTree.bytes, List.append_assoc, List.append_assoc, readPartialMerkleTree,
    uint32Bytes, Get.run_bind_some (getLE_append 4 _ _),
    Get.run_bind_some (readVector_write readUInt256_write _ ⟨hHash, fun _ _ => trivial⟩ _),
    Get.run_bind_some (readVector_write getByte_write _ ⟨hlen, fun _ _ => trivial⟩ _),
    Get.run_pure]
  have hn := t.nTransactions.toNat_lt
  rw [Nat.mod_eq_of_lt (by omega), UInt32.ofNat_toNat]

/-! ## The leaves below a node -/

/-- The elements below the node `pos` at a height. -/
def slice {α : Type} (height pos : Nat) (l : List α) : List α :=
  (l.drop (pos * 2 ^ height)).take (2 ^ height)

theorem slice_succ {α : Type} (height pos : Nat) (l : List α) :
    slice (height + 1) pos l = slice height (pos * 2) l ++ slice height (pos * 2 + 1) l := by
  rw [slice, slice, slice, pow_succ, Nat.mul_two, List.take_add, List.drop_drop]
  congr 3
  · ring
  · ring

theorem slice_eq_nil {α : Type} {height pos : Nat} {l : List α} (h : l.length ≤ pos * 2 ^ height) :
    slice height pos l = [] := by
  rw [slice, List.drop_eq_nil_of_le h, List.take_nil]

theorem slice_zero {α : Type} {pos : Nat} {l : List α} {a : α} (h : l[pos]? = some a) :
    slice 0 pos l = [a] := by
  obtain ⟨hlt, rfl⟩ := List.getElem?_eq_some_iff.mp h
  rw [slice, pow_zero, Nat.mul_one, List.drop_eq_getElem_cons hlt]
  rfl

theorem length_slice {α β : Type} {height pos : Nat} {l : List α} {l' : List β}
    (h : l.length = l'.length) : (slice height pos l).length = (slice height pos l').length := by
  simp only [slice, List.length_take, List.length_drop, h]

/-- The elements that the mask selects. -/
def matched (ids : List UInt256) (vMatch : List Bool) : List UInt256 :=
  ((ids.zip vMatch).filter Prod.snd).map Prod.fst

theorem matched_append {ids ids' : List UInt256} {vMatch vMatch' : List Bool}
    (h : ids.length = vMatch.length) :
    matched (ids ++ ids') (vMatch ++ vMatch') = matched ids vMatch ++ matched ids' vMatch' := by
  rw [matched, List.zip_append h, List.filter_append, List.map_append]
  rfl

theorem matched_eq_nil {ids : List UInt256} {vMatch : List Bool} (h : vMatch.any id = false) :
    matched ids vMatch = [] := by
  rw [matched, List.map_eq_nil_iff, List.filter_eq_nil_iff]
  intro p hp hsnd
  have := List.any_eq_false.mp h p.2 (List.of_mem_zip hp).2
  exact this hsnd

section

variable {n : UInt32} {ids : List UInt256} {vMatch : List Bool}

theorem lt_calcTreeWidth {height pos : Nat} (hn : n.toNat ≤ 2 ^ 31) (hh : height ≤ 31) :
    pos < calcTreeWidth n height ↔ pos * 2 ^ height < n.toNat := by
  have hpos : 0 < 2 ^ height := Nat.pow_pos (by decide)
  rw [calcTreeWidth_eq hn hh, Nat.lt_iff_add_one_le, Nat.le_div_iff_mul_le hpos, Nat.add_mul,
    Nat.one_mul]
  omega

/-- `CalcHash` computes the nodes of the tree. -/
theorem calcHash_eq (hids : ids.length = n.toNat) (hn : n.toNat ≤ 2 ^ 31) {height : Nat}
    (hh : height ≤ 31) (pos : Nat) :
    calcHash hash n ids height pos = (level (pairHash hash) height ids)[pos]? := by
  induction height generalizing pos with
  | zero => rfl
  | succ height ih =>
    have hlen := length_level_eq hash hids hn (show height ≤ 31 by omega)
    rw [calcHash, ih (by omega), ih (by omega), level, getElem?_up, Nat.mul_comm pos 2]
    cases hl : (level (pairHash hash) height ids)[2 * pos]? with
    | none => rfl
    | some left =>
      rw [Option.map_some, List.getD_eq_getElem?_getD]
      split_ifs with hw
      · rw [List.getElem?_eq_getElem (by omega)]
        rfl
      · rw [List.getElem?_eq_none (by omega)]
        rfl

theorem foldlM_any (a m : Nat) (b : Bool) (h : m = 0 ∨ a + m ≤ vMatch.length) :
    (List.range' a m).foldlM (fun f p => vMatch[p]?.map (f || ·)) b =
      some (b || ((vMatch.drop a).take m).any id) := by
  induction m generalizing a b with
  | zero => simp
  | succ m ih =>
    have ha : a < vMatch.length := by omega
    rw [List.range'_succ, List.foldlM_cons, List.getElem?_eq_getElem ha, Option.map_some,
      Option.bind_eq_bind, Option.bind_some, ih (a + 1) _ (by omega),
      List.drop_eq_getElem_cons ha, List.take_succ_cons, List.any_cons, Bool.or_assoc]
    rfl

/-- The flag of a node says whether a leaf below it is matched. -/
theorem parentOfMatch_eq (hvm : vMatch.length = n.toNat) (height pos : Nat) :
    parentOfMatch n vMatch height pos = some ((slice height pos vMatch).any id) := by
  simp only [parentOfMatch, slice, Nat.shiftLeft_eq, Nat.add_mul, Nat.one_mul]
  generalize pos * 2 ^ height = first
  generalize 2 ^ height = size
  rw [foldlM_any _ _ _ (by omega), Bool.false_or]
  congr 2
  rw [List.take_eq_take_iff, List.length_drop]
  omega

/-! ## Building and extracting -/

variable (hash) in
/-- A node of the tree is there for every position below the width of its level. -/
theorem exists_node (hids : ids.length = n.toNat) (hn : n.toNat ≤ 2 ^ 31) {height pos : Nat}
    (hh : height ≤ 31) (hpos : pos < calcTreeWidth n height) :
    ∃ node, (level (pairHash hash) height ids)[pos]? = some node :=
  ⟨_, List.getElem?_eq_getElem (by rw [length_level_eq hash hids hn hh]; exact hpos)⟩

/-- A node that is not descended into. -/
theorem traverseAndBuild_stop (hvm : vMatch.length = n.toNat) {height pos : Nat} {node : UInt256}
    (hstop : height = 0 ∨ (slice height pos vMatch).any id = false)
    (hnode : calcHash hash n ids height pos = some node) :
    traverseAndBuild hash n ids vMatch height pos =
      some ([(slice height pos vMatch).any id], [node]) := by
  cases height with
  | zero =>
    simp only [traverseAndBuild, parentOfMatch_eq hvm, hnode, Option.bind_eq_bind, Option.bind_some]
    rfl
  | succ height =>
    have hf : (slice (height + 1) pos vMatch).any id = false := hstop.resolve_left (by omega)
    simp only [traverseAndBuild, parentOfMatch_eq hvm, hnode, hf, Option.bind_eq_bind,
      Option.bind_some, Bool.not_false, if_true]
    rfl

/-- What the right child of a node adds. -/
def rightBuild (hash : Bytes → UInt256) (n : UInt32) (ids : List UInt256) (vMatch : List Bool)
    (height pos : Nat) : Option (List Bool × List UInt256) :=
  if pos * 2 + 1 < calcTreeWidth n height then
    traverseAndBuild hash n ids vMatch height (pos * 2 + 1)
  else some ([], [])

/-- A node that is descended into. -/
theorem traverseAndBuild_descend (hvm : vMatch.length = n.toNat) {height pos : Nat}
    {left right : List Bool × List UInt256}
    (hf : (slice (height + 1) pos vMatch).any id = true)
    (hleft : traverseAndBuild hash n ids vMatch height (pos * 2) = some left)
    (hright : rightBuild hash n ids vMatch height pos = some right) :
    traverseAndBuild hash n ids vMatch (height + 1) pos =
      some (true :: (left.1 ++ right.1), left.2 ++ right.2) := by
  rw [rightBuild] at hright
  simp only [traverseAndBuild, parentOfMatch_eq hvm, hf, hleft, Option.bind_eq_bind,
    Option.bind_some, Bool.not_true, Bool.false_eq_true, if_false, Option.pure_def]
  split_ifs at hright ⊢
  · rw [hright, Option.bind_some]
  · rw [← Option.some.inj hright]

/-- What building leaves for the node: no more hashes than leaves below it, and no more bits than
nodes. -/
structure Built (ids : List UInt256) (height pos : Nat) (out : List Bool × List UInt256) : Prop where
  hashes : out.2.length ≤ (slice height pos ids).length
  bits : out.2.length ≤ out.1.length
  nodes : out.1.length < 2 ^ (height + 1)

theorem slice_pos {height pos : Nat} (h : pos * 2 ^ height < ids.length) :
    1 ≤ (slice height pos ids).length := by
  have hpow : 0 < 2 ^ height := Nat.pow_pos (by decide)
  rw [slice, List.length_take, List.length_drop]
  omega

variable (hash) in
/-- Building goes through. -/
theorem traverseAndBuild_some (hids : ids.length = n.toNat) (hvm : vMatch.length = n.toNat)
    (hn : n.toNat ≤ 2 ^ 31) {height pos : Nat} (hh : height ≤ 31)
    (hpos : pos < calcTreeWidth n height) :
    ∃ out, traverseAndBuild hash n ids vMatch height pos = some out ∧ Built ids height pos out := by
  have stop : ∀ {height pos : Nat}, height ≤ 31 → pos < calcTreeWidth n height →
      height = 0 ∨ (slice height pos vMatch).any id = false →
      ∃ out, traverseAndBuild hash n ids vMatch height pos = some out ∧
        Built ids height pos out := by
    intro height pos hh hpos hstop
    obtain ⟨node, hnode⟩ := exists_node hash hids hn hh hpos
    have hlt := (lt_calcTreeWidth hn hh).mp hpos
    exact ⟨_, traverseAndBuild_stop hvm hstop ((calcHash_eq hids hn hh pos).trans hnode),
      slice_pos (by omega), le_rfl, Nat.one_lt_two_pow (by omega)⟩
  induction height generalizing pos with
  | zero => exact stop hh hpos (.inl rfl)
  | succ height ih =>
    cases hf : (slice (height + 1) pos vMatch).any id with
    | false => exact stop hh hpos (.inr hf)
    | true =>
      have hlt := (lt_calcTreeWidth hn hh).mp hpos
      rw [pow_succ, ← Nat.mul_assoc, Nat.mul_right_comm] at hlt
      have hleft : pos * 2 < calcTreeWidth n height := (lt_calcTreeWidth hn (by omega)).mpr hlt
      obtain ⟨left, hl, hbl⟩ := ih (by omega) hleft
      obtain ⟨right, hr, h₁, h₂, h₃⟩ : ∃ right, rightBuild hash n ids vMatch height pos = some right ∧
          right.2.length ≤ (slice height (pos * 2 + 1) ids).length ∧
          right.2.length ≤ right.1.length ∧ right.1.length < 2 ^ (height + 1) := by
        rw [rightBuild]
        split_ifs with hw
        · obtain ⟨right, hr, hbr⟩ := ih (by omega) hw
          exact ⟨right, hr, hbr.hashes, hbr.bits, hbr.nodes⟩
        · exact ⟨([], []), rfl, Nat.zero_le _, le_rfl, Nat.pow_pos (by decide)⟩
      obtain ⟨hbl₁, hbl₂, hbl₃⟩ := hbl
      refine ⟨_, traverseAndBuild_descend hvm hf hl hr, ?_, ?_, ?_⟩
      · rw [slice_succ, List.length_append, List.length_append]; omega
      · rw [List.length_append, List.length_cons, List.length_append]; omega
      · rw [List.length_cons, List.length_append, pow_succ]; omega

end

section

variable {t : CPartialMerkleTree} {s : Extraction}

theorem nextBit_drop {bit : Bool} {bits : List Bool} (h : t.vBits.drop s.nBitsUsed = bit :: bits) :
    t.nextBit s = some (some bit, { s with nBitsUsed := s.nBitsUsed + 1 }) := by
  have hlt : s.nBitsUsed < t.vBits.length := by
    by_contra hge
    rw [List.drop_eq_nil_of_le (by omega)] at h
    cases h
  rw [List.drop_eq_getElem_cons hlt, List.cons.injEq] at h
  rw [CPartialMerkleTree.nextBit, if_neg (by omega), List.getElem?_eq_getElem hlt, h.1]
  rfl

theorem storedHash_drop {node : UInt256} {hashes : List UInt256} (isMatch : Bool)
    (h : t.vHash.drop s.nHashUsed = node :: hashes) :
    t.storedHash isMatch s = some (node,
      ⟨s.nBitsUsed, s.nHashUsed + 1, s.vMatch ++ if isMatch then [node] else [], s.fBad⟩) := by
  have hlt : s.nHashUsed < t.vHash.length := by
    by_contra hge
    rw [List.drop_eq_nil_of_le (by omega)] at h
    cases h
  rw [List.drop_eq_getElem_cons hlt, List.cons.injEq] at h
  rw [CPartialMerkleTree.storedHash, if_neg (by omega), List.getElem?_eq_getElem hlt, h.1]
  cases isMatch
  · rw [if_neg Bool.false_ne_true, List.append_nil]
    rfl
  · rfl

/-- A node that is not descended into. -/
theorem traverseAndExtract_stop {height pos : Nat} {bit : Bool} {bits : List Bool} {node : UInt256}
    {hashes : List UInt256} (hstop : height = 0 ∨ bit = false)
    (hbits : t.vBits.drop s.nBitsUsed = bit :: bits)
    (hhash : t.vHash.drop s.nHashUsed = node :: hashes) :
    t.traverseAndExtract hash height pos s = some (node,
      ⟨s.nBitsUsed + 1, s.nHashUsed + 1, s.vMatch ++ if bit then [node] else [], s.fBad⟩) := by
  have hstored : ∀ isMatch, t.storedHash isMatch { s with nBitsUsed := s.nBitsUsed + 1 } = _ :=
    fun isMatch => storedHash_drop isMatch hhash
  cases height with
  | zero =>
    simp only [CPartialMerkleTree.traverseAndExtract, nextBit_drop hbits, Option.bind_eq_bind,
      Option.bind_some, hstored]
  | succ height =>
    obtain rfl : bit = false := hstop.resolve_left (by omega)
    simp only [CPartialMerkleTree.traverseAndExtract, nextBit_drop hbits, Option.bind_eq_bind,
      Option.bind_some, hstored]

/-- A node with both children. -/
theorem traverseAndExtract_both {height pos : Nat} {bits : List Bool} {left right : UInt256}
    {s₁ s₂ : Extraction} (hbits : t.vBits.drop s.nBitsUsed = true :: bits)
    (hl : t.traverseAndExtract hash height (pos * 2) { s with nBitsUsed := s.nBitsUsed + 1 } =
      some (left, s₁))
    (hw : pos * 2 + 1 < calcTreeWidth t.nTransactions height)
    (hr : t.traverseAndExtract hash height (pos * 2 + 1) s₁ = some (right, s₂)) :
    t.traverseAndExtract hash (height + 1) pos s = some (pairHash hash left right,
      if right = left then { s₂ with fBad := true } else s₂) := by
  simp only [CPartialMerkleTree.traverseAndExtract, nextBit_drop hbits, Option.bind_eq_bind,
    Option.bind_some, hl, hw, if_true, hr]
  rfl

/-- A node without a right child. -/
theorem traverseAndExtract_single {height pos : Nat} {bits : List Bool} {left : UInt256}
    {s₁ : Extraction} (hbits : t.vBits.drop s.nBitsUsed = true :: bits)
    (hl : t.traverseAndExtract hash height (pos * 2) { s with nBitsUsed := s.nBitsUsed + 1 } =
      some (left, s₁))
    (hw : ¬ pos * 2 + 1 < calcTreeWidth t.nTransactions height) :
    t.traverseAndExtract hash (height + 1) pos s = some (pairHash hash left left, s₁) := by
  simp only [CPartialMerkleTree.traverseAndExtract, nextBit_drop hbits, Option.bind_eq_bind,
    Option.bind_some, hl, hw, if_false]
  rfl

/-- The state after `bits` and `hashes` have been read and `found` has been matched. -/
def Extraction.after (s : Extraction) (out : List Bool × List UInt256) (found : List UInt256) :
    Extraction :=
  ⟨s.nBitsUsed + out.1.length, s.nHashUsed + out.2.length, s.vMatch ++ found, s.fBad⟩

/-- Extraction reads what building wrote, and finds the node and the matched leaves below it. -/
theorem traverseAndExtract_build {ids : List UInt256} {vMatch : List Bool}
    (hids : ids.length = t.nTransactions.toNat) (hvm : vMatch.length = t.nTransactions.toNat)
    (hn : t.nTransactions.toNat ≤ 2 ^ 31) {height pos : Nat} (hh : height ≤ 31)
    (hnodup : ∀ j < height, (level (pairHash hash) j ids).Nodup)
    (hpos : pos < calcTreeWidth t.nTransactions height) {out : List Bool × List UInt256}
    {rb : List Bool} {rh : List UInt256}
    (hbuild : traverseAndBuild hash t.nTransactions ids vMatch height pos = some out)
    (hbits : t.vBits.drop s.nBitsUsed = out.1 ++ rb)
    (hhash : t.vHash.drop s.nHashUsed = out.2 ++ rh) :
    ∃ node, (level (pairHash hash) height ids)[pos]? = some node ∧
      t.traverseAndExtract hash height pos s =
        some (node, s.after out (matched (slice height pos ids) (slice height pos vMatch))) := by
  induction height generalizing pos s out rb rh with
  | zero =>
    obtain ⟨node, hnode⟩ := exists_node hash hids hn hh hpos
    have hlt := (lt_calcTreeWidth hn hh).mp hpos
    rw [pow_zero, Nat.mul_one] at hlt
    have hpm : pos < vMatch.length := by omega
    have hm : vMatch[pos]? = some vMatch[pos] := List.getElem?_eq_getElem hpm
    have hid : ids[pos]? = some node := hnode
    rw [traverseAndBuild_stop hvm (.inl rfl) hid, slice_zero hm] at hbuild
    obtain rfl := Option.some.inj hbuild
    refine ⟨node, hnode, ?_⟩
    rw [traverseAndExtract_stop (.inl rfl) hbits hhash, slice_zero hid, slice_zero hm]
    cases vMatch[pos] <;> rfl
  | succ height ih =>
    obtain ⟨node, hnode⟩ := exists_node hash hids hn hh hpos
    cases hf : (slice (height + 1) pos vMatch).any id with
    | false =>
      rw [traverseAndBuild_stop hvm (.inr hf) ((calcHash_eq hids hn hh pos).trans hnode),
        hf] at hbuild
      obtain rfl := Option.some.inj hbuild
      refine ⟨node, hnode, ?_⟩
      rw [traverseAndExtract_stop (.inr rfl) hbits hhash, matched_eq_nil hf]
      rfl
    | true =>
      have hlt := (lt_calcTreeWidth hn hh).mp hpos
      rw [pow_succ, ← Nat.mul_assoc, Nat.mul_right_comm] at hlt
      have hleft : pos * 2 < calcTreeWidth t.nTransactions height :=
        (lt_calcTreeWidth hn (by omega)).mpr hlt
      obtain ⟨lout, hlout, -⟩ := traverseAndBuild_some hash hids hvm hn
        (show height ≤ 31 by omega) hleft
      have hsl : (slice height (pos * 2) ids).length = (slice height (pos * 2) vMatch).length :=
        length_slice (hids.trans hvm.symm)
      rw [level, getElem?_up, Nat.mul_comm 2 pos, slice_succ, slice_succ, matched_append hsl]
      by_cases hw : pos * 2 + 1 < calcTreeWidth t.nTransactions height
      · obtain ⟨rout, hrout, -⟩ := traverseAndBuild_some hash hids hvm hn
          (show height ≤ 31 by omega) hw
        rw [traverseAndBuild_descend hvm hf hlout ((if_pos hw).trans hrout)] at hbuild
        obtain rfl := Option.some.inj hbuild
        rw [List.cons_append, List.append_assoc] at hbits
        rw [List.append_assoc] at hhash
        -- the left subtree, then the right one from where the left one ended
        obtain ⟨left, hl, hel⟩ := ih (s := { s with nBitsUsed := s.nBitsUsed + 1 }) (by omega)
          (fun j hj => hnodup j (by omega)) hleft hlout
          (by rw [← List.drop_drop, hbits]; rfl) hhash
        have hbits' : t.vBits.drop (s.nBitsUsed + 1 + lout.1.length) = rout.1 ++ rb := by
          rw [← List.drop_drop, ← List.drop_drop, hbits, List.drop_succ_cons, List.drop_zero,
            List.drop_left]
        have hhash' : t.vHash.drop (s.nHashUsed + lout.2.length) = rout.2 ++ rh := by
          rw [← List.drop_drop, hhash, List.drop_left]
        obtain ⟨right, hr, her⟩ := ih (s := Extraction.after { s with nBitsUsed := s.nBitsUsed + 1 }
            lout (matched (slice height (pos * 2) ids) (slice height (pos * 2) vMatch)))
          (by omega) (fun j hj => hnodup j (by omega)) hw hrout hbits' hhash'
        have hne : right ≠ left := by
          rintro rfl
          obtain ⟨h₁, e₁⟩ := List.getElem?_eq_some_iff.mp hl
          obtain ⟨h₂, e₂⟩ := List.getElem?_eq_some_iff.mp hr
          have := (hnodup height (by omega)).getElem_inj_iff.mp (e₁.trans e₂.symm)
          omega
        refine ⟨pairHash hash left right, ?_, ?_⟩
        · rw [hl, Option.map_some, List.getD_eq_getElem?_getD, hr]
          rfl
        · rw [traverseAndExtract_both hbits hel hw her, if_neg hne]
          simp only [Extraction.after, List.length_cons, List.length_append, List.append_assoc,
            Option.some.injEq, Prod.mk.injEq, Extraction.mk.injEq, true_and, and_true]
          omega
      · rw [traverseAndBuild_descend hvm hf hlout (if_neg hw)] at hbuild
        obtain rfl := Option.some.inj hbuild
        simp only [List.append_nil, List.cons_append] at hbits hhash
        obtain ⟨left, hl, hel⟩ := ih (s := { s with nBitsUsed := s.nBitsUsed + 1 }) (by omega)
          (fun j hj => hnodup j (by omega)) hleft hlout
          (by rw [← List.drop_drop, hbits]; rfl) hhash
        have hlen := length_level_eq hash hids hn (show height ≤ 31 by omega)
        have hout : t.nTransactions.toNat ≤ (pos * 2 + 1) * 2 ^ height := by
          by_contra h
          exact hw ((lt_calcTreeWidth hn (by omega)).mpr (by omega))
        refine ⟨pairHash hash left left, ?_, ?_⟩
        · rw [hl, Option.map_some, List.getD_eq_default _ _ (by omega)]
        · have hnil : slice height (pos * 2 + 1) ids = [] := slice_eq_nil (by omega)
          have hnil' : slice height (pos * 2 + 1) vMatch = [] := slice_eq_nil (by omega)
          have hnone : matched [] [] = [] := rfl
          rw [traverseAndExtract_single hbits hel hw, hnil, hnil', hnone]
          simp only [Extraction.after, List.length_cons, List.append_nil,
            Option.some.injEq, Prod.mk.injEq, Extraction.mk.injEq, true_and, and_true]
          omega

end

variable (hash) in
/-- The height that is calculated is that of the root. -/
theorem calcHeight_level {n : UInt32} {ids : List UInt256} (hids : ids.length = n.toNat)
    (hn : n.toNat ≤ 2 ^ 31) : ∃ k, calcHeight n = some k ∧ k ≤ 31 ∧
      (level (pairHash hash) k ids).length ≤ 1 ∧
      ∀ j < k, 1 < (level (pairHash hash) j ids).length := by
  obtain ⟨k, hk, hle, hw, hlt⟩ := calcHeight_spec n
  refine ⟨k, hk, hle, by rwa [length_level_eq hash hids hn hle], fun j hj => ?_⟩
  rw [length_level_eq hash hids hn (by omega)]
  exact hlt j hj

/-- The root of a block is the node of the highest level. -/
theorem merkleRoot_eq {ids : List UInt256} {k : Nat}
    (hk : (level (pairHash hash) k ids).length ≤ 1)
    (hlt : ∀ j < k, 1 < (level (pairHash hash) j ids).length) :
    merkleRoot (merkleTree hash ids) =
      (level (pairHash hash) k ids)[0]?.getD 0 := by
  rw [merkleRoot_tree, root_eq_level le_rfl hk hlt, List.head?_eq_getElem?]

/-- All leaves are below the root. -/
theorem slice_root {ids : List UInt256} {k : Nat}
    (hk : (level (pairHash hash) k ids).length ≤ 1) {α : Type} {l : List α}
    (hl : l.length = ids.length) : slice k 0 l = l := by
  have hpow : 0 < 2 ^ k := Nat.pow_pos (by decide)
  rw [length_level, ← Nat.lt_succ_iff, Nat.div_lt_iff_lt_mul hpow] at hk
  rw [slice, Nat.zero_mul, List.drop_zero, List.take_of_length_le (by omega)]

/-- A partial tree built from ids that differ is written, read and extracted. -/
theorem extractMatches_build {vTxid : List UInt256} {vMatch : List Bool} (hne : vTxid ≠ [])
    (hnodup : vTxid.Nodup) (hlen : vTxid.length ≤ MAX_BLOCK_SIZE / 60)
    (hvm : vMatch.length = vTxid.length)
    (hinj : NoCollision (pairHash hash) (allPairs (pairHash hash) vTxid.length vTxid)) :
    ∃ vMerkleTree fMutated t t', buildVMerkleTree hash vTxid = some (vMerkleTree, fMutated) ∧
      CPartialMerkleTree.ofMatches hash vTxid vMatch = some t ∧
      readPartialMerkleTree.run t.bytes = some (t', []) ∧
      t'.extractMatches hash =
        some (merkleRoot vMerkleTree,
          ⟨t.vBits.length, t'.vHash.length, matched vTxid vMatch, false⟩) ∧
      t'.vBits.length < t.vBits.length + 8 := by
  have hmax : MAX_BLOCK_SIZE / 60 = 16666 := rfl
  have hpos : 0 < vTxid.length := List.length_pos_iff.mpr hne
  have hn : (UInt32.ofNat vTxid.length).toNat = vTxid.length := by
    rw [UInt32.toNat_ofNat', Nat.mod_eq_of_lt (by omega)]
  obtain ⟨n, hn'⟩ : ∃ n, UInt32.ofNat vTxid.length = n := ⟨_, rfl⟩
  rw [hn'] at hn
  obtain ⟨k, hk, hk31, hroot, hlt⟩ := calcHeight_level hash hn.symm (by omega)
  -- sixteen levels are enough
  have hk15 : k < 15 + 1 := by
    by_contra hge
    have := hlt 15 (by omega)
    rw [length_level] at this
    omega
  have hw : 0 < calcTreeWidth n k :=
    (lt_calcTreeWidth (by omega) hk31).mpr (by rw [Nat.zero_mul]; omega)
  obtain ⟨⟨bits, hashes⟩, hout, hb₁, hb₂, hb₃⟩ := traverseAndBuild_some hash hn.symm
    (hvm.trans hn.symm) (by omega) hk31 hw
  have hbits : bits.length < 2 ^ 17 :=
    Nat.lt_of_lt_of_le hb₃ (Nat.pow_le_pow_right (by decide) (by omega))
  have hhashes : hashes.length ≤ vTxid.length := by
    refine le_trans hb₁ ?_
    rw [slice, List.length_take, List.length_drop]
    omega
  have hsize : (2 : Nat) ^ 17 ≤ MAX_SIZE := by decide
  refine ⟨_, _, ⟨n, bits, hashes, false⟩,
    ⟨n, bits ++ List.replicate ((bits.length + 7) / 8 * 8 - bits.length) false, hashes, false⟩,
    buildVMerkleTree_eq (by omega), ?_, ?_, ?_, ?_⟩
  · simp only [CPartialMerkleTree.ofMatches, hn', hk, hout, Option.bind_eq_bind, Option.bind_some]
    rfl
  · have := readPartialMerkleTree_write (t := ⟨n, bits, hashes, false⟩)
      (show hashes.length ≤ MAX_SIZE by omega) (show bits.length ≤ MAX_SIZE by omega) []
    rwa [List.append_nil, unpackBits_packBits] at this
  · obtain ⟨node, hnode, hex⟩ := @traverseAndExtract_build hash
      ⟨n, bits ++ List.replicate ((bits.length + 7) / 8 * 8 - bits.length) false, hashes, false⟩
      ⟨0, 0, [], false⟩ vTxid vMatch hn.symm (hvm.trans hn.symm) (show n.toNat ≤ 2 ^ 31 by omega) _ _ hk31
      (fun j hj => nodup_level hinj le_rfl (fun i hi => hlt i (by omega)) hnodup) hw _ _ _ hout rfl
      (List.append_nil _).symm
    rw [slice_root hroot rfl, slice_root hroot hvm] at hex
    have hn0 : n ≠ 0 := by
      rintro rfl
      exact absurd hn (by rw [UInt32.toNat_zero]; omega)
    have hvBits : (bits ++ List.replicate ((bits.length + 7) / 8 * 8 - bits.length) false).length =
        (bits.length + 7) / 8 * 8 := by
      rw [List.length_append, List.length_replicate]
      omega
    have hle : hashes.length ≤ bits.length := hb₂
    rw [CPartialMerkleTree.extractMatches, if_neg hn0,
      if_neg (show ¬ MAX_BLOCK_SIZE / 60 < n.toNat by omega),
      if_neg (show ¬ n.toNat < hashes.length by omega),
      if_neg (by rw [hvBits]; show ¬ _ < hashes.length; omega)]
    simp only [CPartialMerkleTree.traverse, hk, hex, Extraction.after, Option.bind_eq_bind,
      Option.bind_some, Bool.false_eq_true, if_false, Nat.zero_add, List.nil_append, hvBits]
    rw [if_neg (by omega), if_neg (by simp), merkleRoot_eq hroot hlt, hnode]
    rfl
  · rw [List.length_append, List.length_replicate]
    show bits.length + _ < bits.length + 8
    omega

/-- Three ids, of which the first and the last are matched. -/
theorem sampleIds_build :
    ∃ vMerkleTree fMutated t t', buildVMerkleTree foldHash [1, 2, 3] = some (vMerkleTree, fMutated) ∧
      CPartialMerkleTree.ofMatches foldHash [1, 2, 3] [true, false, true] = some t ∧
      readPartialMerkleTree.run t.bytes = some (t', []) ∧
      t'.extractMatches foldHash =
        some (merkleRoot vMerkleTree,
          ⟨t.vBits.length, t'.vHash.length, [1, 3], false⟩) ∧
      t'.vBits.length < t.vBits.length + 8 :=
  @extractMatches_build foldHash [1, 2, 3] [true, false, true] (by decide) (by decide)
    (by decide) rfl (by decide +kernel)

/-! ## Trees from the wire -/

section

variable {t : CPartialMerkleTree} {s s' : Extraction}

/-- What a node can do: fail, take the stored hash, or go on below. -/
theorem traverseAndExtract_cases (hash : Bytes → UInt256) (t : CPartialMerkleTree)
    (height pos : Nat) (s : Extraction) :
    t.traverseAndExtract hash height pos s = some (0, { s with fBad := true }) ∨
    t.traverseAndExtract hash height pos s =
      some (0, { s with nBitsUsed := s.nBitsUsed + 1, fBad := true }) ∨
    (∃ bit node, (bit = true → height = 0) ∧ t.traverseAndExtract hash height pos s = some (node,
      ⟨s.nBitsUsed + 1, s.nHashUsed + 1, s.vMatch ++ if bit then [node] else [], s.fBad⟩)) ∨
    ∃ bits, t.vBits.drop s.nBitsUsed = true :: bits ∧ height ≠ 0 := by
  rcases Nat.lt_or_ge s.nBitsUsed t.vBits.length with hlt | hge
  · obtain ⟨bit, hdrop⟩ : ∃ bit, t.vBits.drop s.nBitsUsed = bit :: t.vBits.drop (s.nBitsUsed + 1) :=
      ⟨_, List.drop_eq_getElem_cons hlt⟩
    by_cases hstop : bit = true ∧ height ≠ 0
    · exact .inr (.inr (.inr ⟨_, by rw [hdrop, hstop.1], hstop.2⟩))
    · rcases Nat.lt_or_ge s.nHashUsed t.vHash.length with hh | hh
      · have hhash := List.drop_eq_getElem_cons hh
        refine .inr (.inr (.inl ⟨bit, _, fun hbit => ?_, traverseAndExtract_stop ?_ hdrop hhash⟩))
        · by_contra h0
          exact hstop ⟨hbit, h0⟩
        · cases bit
          · exact .inr rfl
          · exact .inl (by by_contra h0; exact hstop ⟨rfl, h0⟩)
      · refine .inr (.inl ?_)
        have hstored : ∀ isMatch, t.storedHash isMatch { s with nBitsUsed := s.nBitsUsed + 1 } =
            some (0, ⟨s.nBitsUsed + 1, s.nHashUsed, s.vMatch, true⟩) := fun _ => if_pos hh
        cases height with
        | zero =>
          simp only [CPartialMerkleTree.traverseAndExtract, nextBit_drop hdrop, Option.bind_eq_bind,
            Option.bind_some, hstored]
        | succ height =>
          obtain rfl : bit = false := by
            cases bit
            · rfl
            · exact (hstop ⟨rfl, by omega⟩).elim
          simp only [CPartialMerkleTree.traverseAndExtract, nextBit_drop hdrop, Option.bind_eq_bind,
            Option.bind_some, hstored]
  · have hbit : t.nextBit s = some (none, { s with fBad := true }) := if_pos hge
    refine .inl ?_
    cases height with
    | zero =>
      simp only [CPartialMerkleTree.traverseAndExtract, hbit, Option.bind_eq_bind, Option.bind_some,
        Option.pure_def]
    | succ height =>
      simp only [CPartialMerkleTree.traverseAndExtract, hbit, Option.bind_eq_bind, Option.bind_some,
        Option.pure_def]

/-- Extraction ends, and reads no flag or hash that is not there. -/
theorem traverseAndExtract_total (hash : Bytes → UInt256) (t : CPartialMerkleTree)
    (height pos : Nat) (s : Extraction) :
    ∃ node s', t.traverseAndExtract hash height pos s = some (node, s') := by
  induction height generalizing pos s with
  | zero =>
    rcases traverseAndExtract_cases hash t 0 pos s with h | h | ⟨_, _, _, h⟩ | ⟨_, _, h⟩
    · exact ⟨_, _, h⟩
    · exact ⟨_, _, h⟩
    · exact ⟨_, _, h⟩
    · exact (h rfl).elim
  | succ height ih =>
    rcases traverseAndExtract_cases hash t (height + 1) pos s with h | h | ⟨_, _, _, h⟩ | ⟨_, hb, _⟩
    · exact ⟨_, _, h⟩
    · exact ⟨_, _, h⟩
    · exact ⟨_, _, h⟩
    · obtain ⟨left, s₁, hl⟩ := ih (pos * 2) { s with nBitsUsed := s.nBitsUsed + 1 }
      by_cases hw : pos * 2 + 1 < calcTreeWidth t.nTransactions height
      · obtain ⟨right, s₂, hr⟩ := ih (pos * 2 + 1) s₁
        exact ⟨_, _, traverseAndExtract_both hb hl hw hr⟩
      · exact ⟨_, _, traverseAndExtract_single hb hl hw⟩

/-- No other pair has the hash of one of the given pairs. -/
def NoSecondPreimage (hash : Bytes → UInt256) (ps : List (UInt256 × UInt256)) : Prop :=
  ∀ p ∈ ps, ∀ left right, pairHash hash left right = pairHash hash p.1 p.2 → (left, right) = p

/-- Where extraction finds the node of a tree, it matches leaves below that node only. -/
theorem traverseAndExtract_sound {ids : List UInt256} (hids : ids.length = t.nTransactions.toNat)
    (hn : t.nTransactions.toNat ≤ 2 ^ 31)
    (hsecond : NoSecondPreimage hash (allPairs (pairHash hash) ids.length ids)) {height pos : Nat}
    (hh : height ≤ 31) (hlt : ∀ j < height, 1 < (level (pairHash hash) j ids).length)
    {node : UInt256} (hex : t.traverseAndExtract hash height pos s = some (node, s'))
    (hbad : s'.fBad = false) (hnode : (level (pairHash hash) height ids)[pos]? = some node) :
    s.fBad = false ∧ ∃ found, s'.vMatch = s.vMatch ++ found ∧
      found.Sublist (slice height pos ids) := by
  induction height generalizing pos s s' node with
  | zero =>
    rcases traverseAndExtract_cases hash t 0 pos s with h | h | ⟨bit, node', _, h⟩ | ⟨_, _, h⟩
    · rw [h] at hex; cases hex; cases hbad
    · rw [h] at hex; cases hex; cases hbad
    · rw [h] at hex
      obtain ⟨rfl, rfl⟩ := Prod.mk.inj (Option.some.inj hex)
      have hid : ids[pos]? = some node' := hnode
      refine ⟨hbad, _, rfl, ?_⟩
      rw [slice_zero hid]
      cases bit
      · exact List.nil_sublist _
      · exact List.Sublist.refl _
    · exact (h rfl).elim
  | succ height ih =>
    rcases traverseAndExtract_cases hash t (height + 1) pos s with
      h | h | ⟨bit, node', hbit, h⟩ | ⟨bits, hb, _⟩
    · rw [h] at hex; cases hex; cases hbad
    · rw [h] at hex; cases hex; cases hbad
    · rw [h] at hex
      obtain ⟨rfl, rfl⟩ := Prod.mk.inj (Option.some.inj hex)
      refine ⟨hbad, _, rfl, ?_⟩
      cases bit
      · exact List.nil_sublist _
      · exact absurd (hbit rfl) (by omega)
    · obtain ⟨left, s₁, hl⟩ := traverseAndExtract_total hash t height (pos * 2)
        { s with nBitsUsed := s.nBitsUsed + 1 }
      -- the children that were hashed are those of the tree
      rw [level, getElem?_up, Option.map_eq_some_iff] at hnode
      obtain ⟨left', hleft', hnode⟩ := hnode
      have hmem : (left', (level (pairHash hash) height ids).getD (2 * pos + 1) left') ∈
          allPairs (pairHash hash) ids.length ids := by
        refine mem_allPairs_of_level le_rfl (fun j hj => hlt j (by omega)) (k := height) ?_
        exact List.mem_of_getElem? (i := pos) (by rw [getElem?_pairs, hleft']; rfl)
      have hlen := length_level_eq hash hids hn (show height ≤ 31 by omega)
      have hlt' : ∀ j < height, 1 < (level (pairHash hash) j ids).length :=
        fun j hj => hlt j (by omega)
      rw [Nat.mul_comm 2 pos] at hleft' hmem hnode
      rw [slice_succ]
      by_cases hw : pos * 2 + 1 < calcTreeWidth t.nTransactions height
      · obtain ⟨right, s₂, hr⟩ := traverseAndExtract_total hash t height (pos * 2 + 1) s₁
        rw [traverseAndExtract_both hb hl hw hr] at hex
        obtain ⟨rfl, rfl⟩ := Prod.mk.inj (Option.some.inj hex)
        obtain ⟨rfl, hright⟩ := Prod.mk.inj (hsecond _ hmem left right hnode.symm)
        have hbad₂ : s₂.fBad = false := by
          split_ifs at hbad
          exact hbad
        rw [List.getD_eq_getElem _ _ (by omega)] at hright
        obtain ⟨hbad₁, found', hm', hsub'⟩ := ih (by omega) hlt' hr hbad₂
          (by rw [hright]; exact List.getElem?_eq_getElem _)
        obtain ⟨hbad₀, found, hm, hsub⟩ := ih (by omega) hlt' hl hbad₁ hleft'
        refine ⟨hbad₀, found ++ found', ?_, hsub.append hsub'⟩
        have hvm : s₂.vMatch = s.vMatch ++ (found ++ found') := by
          rw [hm', hm, List.append_assoc]
        split_ifs <;> exact hvm
      · rw [traverseAndExtract_single hb hl hw] at hex
        obtain ⟨rfl, rfl⟩ := Prod.mk.inj (Option.some.inj hex)
        obtain ⟨rfl, -⟩ := Prod.mk.inj (hsecond _ hmem left left hnode.symm)
        obtain ⟨hbad₀, found, hm, hsub⟩ := ih (by omega) hlt' hl hbad hleft'
        exact ⟨hbad₀, found, hm, hsub.trans (List.sublist_append_left _ _)⟩

end

/-- What `ExtractMatches` returns, and when it does not fail. -/
theorem extractMatches_cases (hash : Bytes → UInt256) (t : CPartialMerkleTree) :
    (∃ s, t.extractMatches hash = some (0, s)) ∨
    t.nTransactions.toNat ≤ MAX_BLOCK_SIZE / 60 ∧ ∃ k r s, calcHeight t.nTransactions = some k ∧
      t.traverseAndExtract hash k 0 ⟨0, 0, [], t.fBad⟩ = some (r, s) ∧ s.fBad = false ∧
      t.extractMatches hash = some (r, s) := by
  obtain ⟨k, hk, -⟩ := calcHeight_spec t.nTransactions
  obtain ⟨r, s, hex⟩ := traverseAndExtract_total hash t k 0 ⟨0, 0, [], t.fBad⟩
  rw [CPartialMerkleTree.extractMatches]
  split_ifs with h₁ h₂ h₃ h₄
  · exact .inl ⟨_, rfl⟩
  · exact .inl ⟨_, rfl⟩
  · exact .inl ⟨_, rfl⟩
  · exact .inl ⟨_, rfl⟩
  · simp only [CPartialMerkleTree.traverse, hk, hex, Option.bind_eq_bind, Option.bind_some]
    split_ifs with h₅ h₆ h₇
    · exact .inl ⟨_, rfl⟩
    · exact .inl ⟨_, rfl⟩
    · exact .inl ⟨_, rfl⟩
    · exact .inr ⟨by omega, k, r, s, rfl, hex, by simpa using h₅, rfl⟩

/-- Extraction of any tree ends within its flags and hashes; where it finds the root of a block of
as many transactions, the ids it matched are those of transactions of the block, in their order. -/
theorem extractMatches_sound (t : CPartialMerkleTree) :
    ∃ r s, t.extractMatches hash = some (r, s) ∧
      ∀ block : CBlock, block.vtx.length = t.nTransactions.toNat →
        NoSecondPreimage hash (block.merklePairs hash) → ∀ vMerkleTree fMutated,
        block.buildMerkleTree hash = some (vMerkleTree, fMutated) → r = merkleRoot vMerkleTree → r ≠ 0 →
        s.vMatch.Sublist (block.txids hash) := by
  rcases extractMatches_cases hash t with ⟨s, h⟩ | ⟨hn, k, r, s, hk, hex, hbad, h⟩
  · exact ⟨0, s, h, fun _ _ _ _ _ _ _ h0 => (h0 rfl).elim⟩
  · refine ⟨r, s, h, fun block hlen hsecond vMerkleTree fMutated hbuild hroot hr => ?_⟩
    have hmax : MAX_BLOCK_SIZE / 60 = 16666 := rfl
    have hids : (block.txids hash).length = t.nTransactions.toNat := by rw [length_txids, hlen]
    have hbuilt : block.buildMerkleTree hash = _ := buildVMerkleTree_eq (hids.trans_le (by omega))
    obtain ⟨rfl, -⟩ := Prod.mk.inj (Option.some.inj (hbuilt.symm.trans hbuild))
    obtain ⟨k', hk', hk31, hone, hlt⟩ := calcHeight_level hash hids (by omega)
    obtain rfl := Option.some.inj (hk.symm.trans hk')
    have hnode : (level (pairHash hash) k (block.txids hash))[0]? = some r := by
      have hroot' : r = (level (pairHash hash) k (block.txids hash))[0]?.getD 0 :=
        hroot.trans (merkleRoot_eq hone hlt)
      cases hl : (level (pairHash hash) k (block.txids hash))[0]? with
      | none => exact (hr (by rw [hroot', hl]; rfl)).elim
      | some a => rw [hroot', hl]; rfl
    obtain ⟨-, found, hm, hsub⟩ := traverseAndExtract_sound hids (by omega) hsecond hk31 hlt hex
      hbad hnode
    rw [slice_root hone rfl] at hsub
    rw [hm]
    exact hsub

theorem uint256Bytes_append_inj {a b c d : UInt256}
    (h : uint256Bytes a ++ uint256Bytes b = uint256Bytes c ++ uint256Bytes d) : (a, b) = (c, d) := by
  have hread := readUInt256_write a trivial (uint256Bytes b)
  rw [h, readUInt256_write c trivial] at hread
  obtain ⟨rfl, hbytes⟩ := Prod.mk.inj (Option.some.inj hread)
  have hread' := readUInt256_write b trivial []
  rw [← hbytes, readUInt256_write d trivial] at hread'
  rw [(Prod.mk.inj (Option.some.inj hread')).1]

/-- A hash function by a table: of two transactions, and of the pair of their ids. -/
def tableHash (s : Bytes) : UInt256 :=
  if s = uint256Bytes 1 ++ uint256Bytes 2 then 7
  else if some s = (payments [1, 2]).vtx[0]?.map CTransaction.bytes then 1
  else if some s = (payments [1, 2]).vtx[1]?.map CTransaction.bytes then 2
  else 0

theorem tableHash_eq_seven {s : Bytes} (h : tableHash s = 7) :
    s = uint256Bytes 1 ++ uint256Bytes 2 := by
  unfold tableHash at h
  split_ifs at h with h₁
  · exact h₁
  all_goals exact absurd h (by decide)

/-- The second of two transactions is matched. -/
theorem tableTree_sound :
    (⟨2, [true, false, true], [1, 2], false⟩ : CPartialMerkleTree).extractMatches tableHash =
      some (7, ⟨3, 2, [2], false⟩) ∧ [2].Sublist ((payments [1, 2]).txids tableHash) := by
  have hrun : (⟨2, [true, false, true], [1, 2], false⟩ : CPartialMerkleTree).extractMatches
      tableHash = some (7, ⟨3, 2, [2], false⟩) := by decide +kernel
  obtain ⟨r, s, h, hsound⟩ := @extractMatches_sound tableHash
    ⟨2, [true, false, true], [1, 2], false⟩
  rw [hrun] at h
  obtain ⟨rfl, rfl⟩ := Prod.mk.inj (Option.some.inj h)
  refine ⟨hrun, hsound (payments [1, 2]) rfl (fun p hp left right heq => ?_) [1, 2, 7] false
    (by decide +kernel) rfl (by decide)⟩
  have hpairs : (payments [1, 2]).merklePairs tableHash = [(1, 2)] := by decide +kernel
  rw [hpairs, List.mem_singleton] at hp
  subst hp
  have hseven : pairHash tableHash 1 2 = 7 := by decide +kernel
  exact uint256Bytes_append_inj (tableHash_eq_seven (heq.trans hseven))

/-- A failure returns 0 and leaves what was matched before, so that a block whose root is 0 seems to
be extracted. -/
theorem extractMatches_zeroRoot :
    ¬ ∀ (hash : Bytes → UInt256) (t : CPartialMerkleTree) (block : CBlock) (s : Extraction)
      (vMerkleTree : List UInt256) (fMutated : Bool),
      block.vtx.length = t.nTransactions.toNat → NoSecondPreimage hash (block.merklePairs hash) →
      block.buildMerkleTree hash = some (vMerkleTree, fMutated) →
      t.extractMatches hash = some (merkleRoot vMerkleTree, s) →
      s.vMatch.Sublist (block.txids hash) := by
  intro h
  -- a hash function for which the id of the only transaction is 0
  have hsub := h (fun s => tableHash s - 1) ⟨1, true :: List.replicate 15 false, [5], false⟩
    (payments [1]) ⟨1, 1, [5], false⟩ [0] false rfl (fun p hp => by cases hp) (by decide +kernel)
    (by decide +kernel)
  exact absurd hsub (by decide +kernel)

end GC
