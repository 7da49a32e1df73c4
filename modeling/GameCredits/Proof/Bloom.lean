import GameCredits.Model.Bloom
import GameCredits.Framework.Run
import GameCredits.Proof.ScriptLimits

/-!
# Bloom filters have no false negatives

The filter as a set of bits (`HasBit`): inserting sets the bits of a key and clears none, and
`contains` asks for all of them. A filter that has data or is full (`Valid`) stays so, and reports
ever more (`Extends`): the flags `isFull` and `isEmpty` hide nothing. From this, for any sequence of
insertions and of transactions that the filter is updated with, what was inserted is reported, and so
is an output that was matched, in every transaction that spends it (`bloom_no_false_negatives`).
-/

namespace GC

open Framework

namespace CBloomFilter

/-! ## Bits -/

/-- The bit `nIndex` of `vData` is set. -/
def HasBit (vData : Bytes) (nIndex : Nat) : Prop :=
  ∃ byte, vData[nIndex >>> 3]? = some byte ∧ byte &&& bitOf nIndex ≠ 0

theorem bitOf_ne_zero (nIndex : Nat) : bitOf nIndex ≠ 0 := by
  have h : ∀ k < 8, (1 : UInt8) <<< UInt8.ofNat k ≠ 0 := by decide
  refine h (7 &&& nIndex) ?_
  exact lt_of_le_of_lt Nat.and_le_left (by decide)

theorem or_and_self (x y : UInt8) : (x ||| y) &&& y = y := by
  refine UInt8.eq_of_toBitVec_eq (BitVec.eq_of_getLsbD_eq fun i _ => ?_)
  simp only [UInt8.toBitVec_and, UInt8.toBitVec_or, BitVec.getLsbD_and, BitVec.getLsbD_or]
  cases x.toBitVec.getLsbD i <;> cases y.toBitVec.getLsbD i <;> rfl

/-- Setting bits clears none. -/
theorem or_and_ne_zero {x z : UInt8} (y : UInt8) (h : x &&& z ≠ 0) : (x ||| y) &&& z ≠ 0 := by
  intro hzero
  refine h (UInt8.eq_of_toBitVec_eq (BitVec.eq_of_getLsbD_eq fun i _ => ?_))
  have hbit := congrArg (fun b : UInt8 => b.toBitVec.getLsbD i) hzero
  simp only [UInt8.toBitVec_and, UInt8.toBitVec_or, BitVec.getLsbD_and, BitVec.getLsbD_or] at hbit ⊢
  cases hx : x.toBitVec.getLsbD i <;> cases hz : z.toBitVec.getLsbD i <;> simp_all

theorem hasBit_set_self {vData : Bytes} {nIndex : Nat} {byte : UInt8}
    (h : vData[nIndex >>> 3]? = some byte) :
    HasBit (vData.set (nIndex >>> 3) (byte ||| bitOf nIndex)) nIndex := by
  obtain ⟨hlt, -⟩ := List.getElem?_eq_some_iff.mp h
  exact ⟨_, List.getElem?_set_self hlt, by rw [or_and_self]; exact bitOf_ne_zero _⟩

theorem HasBit.set {vData : Bytes} {j nIndex : Nat} {byte : UInt8} (hj : HasBit vData j)
    (h : vData[nIndex >>> 3]? = some byte) (bits : UInt8) :
    HasBit (vData.set (nIndex >>> 3) (byte ||| bits)) j := by
  obtain ⟨byte', hbyte', hbit⟩ := hj
  by_cases hsame : nIndex >>> 3 = j >>> 3
  · rw [hsame] at h ⊢
    obtain rfl : byte' = byte := Option.some.inj (hbyte'.symm.trans h)
    obtain ⟨hlt, -⟩ := List.getElem?_eq_some_iff.mp h
    exact ⟨_, List.getElem?_set_self hlt, or_and_ne_zero bits hbit⟩
  · exact ⟨byte', by rw [List.getElem?_set_ne hsame]; exact hbyte', hbit⟩

/-! ## Keys -/

section Keys

variable (murmurHash3 : UInt32 → Bytes → UInt32)

/-- The bit for a key and a hash function. -/
def indexOf (f : CBloomFilter) (i : UInt32) (vKey : Bytes) : Nat :=
  (murmurHash3 (i * 0xFBA4C795 + f.nTweak) vKey).toNat % (f.vData.length * 8)

theorem hashOf_eq {f : CBloomFilter} (hf : f.vData ≠ []) (i : UInt32) (vKey : Bytes) :
    f.hashOf murmurHash3 i vKey = some (f.indexOf murmurHash3 i vKey) := by
  have := List.length_pos_iff.mpr hf
  exact if_neg (by omega)

/-- The index is within the data. -/
theorem exists_byte {f : CBloomFilter} (hf : f.vData ≠ []) (i : UInt32) (vKey : Bytes) :
    ∃ byte, f.vData[f.indexOf murmurHash3 i vKey >>> 3]? = some byte := by
  have hpos := List.length_pos_iff.mpr hf
  have hlt : f.indexOf murmurHash3 i vKey < f.vData.length * 8 := Nat.mod_lt _ (by omega)
  have hbyte : f.indexOf murmurHash3 i vKey >>> 3 < f.vData.length := by
    rw [Nat.shiftRight_eq_div_pow]
    omega
  exact ⟨_, List.getElem?_eq_getElem hbyte⟩

/-- The data of `f'` has the size of that of `f` and all its bits, and the rest is the same. -/
structure Grown (f f' : CBloomFilter) : Prop where
  length_eq : f'.vData.length = f.vData.length
  bits : ∀ j, HasBit f.vData j → HasBit f'.vData j
  rest_eq : f' = { f with vData := f'.vData }

theorem Grown.refl (f : CBloomFilter) : Grown f f := ⟨rfl, fun _ h => h, rfl⟩

theorem Grown.indexOf_eq {f f' : CBloomFilter} (h : Grown f f') (i : UInt32) (vKey : Bytes) :
    f'.indexOf murmurHash3 i vKey = f.indexOf murmurHash3 i vKey := by
  rw [indexOf, indexOf, h.length_eq, h.rest_eq]

theorem insertLoop_spec {f : CBloomFilter} (hf : f.vData ≠ []) (vKey : Bytes) (left : Nat)
    (i : UInt32) : ∃ f', insertLoop murmurHash3 vKey left i f = some f' ∧ Grown f f' ∧
      ∀ t < left, HasBit f'.vData (f.indexOf murmurHash3 (i + UInt32.ofNat t) vKey) := by
  induction left generalizing i f with
  | zero => exact ⟨f, rfl, .refl f, fun t ht => absurd ht (Nat.not_lt_zero t)⟩
  | succ left ih =>
    obtain ⟨byte, hbyte⟩ := exists_byte murmurHash3 hf i vKey
    let nIndex := f.indexOf murmurHash3 i vKey
    let f₁ := { f with vData := f.vData.set (nIndex >>> 3) (byte ||| bitOf nIndex) }
    have hgrown : Grown f f₁ := ⟨List.length_set, fun j hj => hj.set hbyte _, rfl⟩
    have hf₁ : f₁.vData ≠ [] := List.ne_nil_of_length_pos (by
      rw [hgrown.length_eq]
      exact List.length_pos_iff.mpr hf)
    obtain ⟨f', hloop, hgrown', hbits⟩ := ih hf₁ (i + 1)
    refine ⟨f', ?_, ⟨hgrown'.length_eq.trans hgrown.length_eq,
      fun j hj => hgrown'.bits j (hgrown.bits j hj), hgrown'.rest_eq⟩, fun t ht => ?_⟩
    · rw [insertLoop, hashOf_eq murmurHash3 hf, Option.bind_eq_bind, Option.bind_some, hbyte,
        Option.bind_eq_bind, Option.bind_some]
      exact hloop
    · cases t with
      | zero =>
        rw [show i + UInt32.ofNat 0 = i from UInt32.add_zero i]
        exact hgrown'.bits _ (hasBit_set_self hbyte)
      | succ t =>
        have hbit := hbits t (by omega)
        rw [hgrown.indexOf_eq, UInt32.add_assoc] at hbit
        rwa [UInt32.ofNat_add, UInt32.add_comm (UInt32.ofNat t)]

/-- `contains` asks for the bits of all hash functions. -/
theorem containsLoop_spec {f : CBloomFilter} (hf : f.vData ≠ []) (vKey : Bytes) (left : Nat)
    (i : UInt32) : ∃ b, f.containsLoop murmurHash3 vKey left i = some b ∧
      (b = true ↔ ∀ t < left, HasBit f.vData (f.indexOf murmurHash3 (i + UInt32.ofNat t) vKey)) := by
  induction left generalizing i with
  | zero => exact ⟨true, rfl, fun _ t ht => absurd ht (Nat.not_lt_zero t), fun _ => rfl⟩
  | succ left ih =>
    obtain ⟨byte, hbyte⟩ := exists_byte murmurHash3 hf i vKey
    obtain ⟨b, hloop, hb⟩ := ih (i + 1)
    have hzero : i + UInt32.ofNat 0 = i := UInt32.add_zero i
    have hsucc : ∀ t, i + UInt32.ofNat (t + 1) = i + 1 + UInt32.ofNat t := fun t => by
      rw [UInt32.ofNat_add, UInt32.add_comm (UInt32.ofNat t), UInt32.add_assoc]
      rfl
    rw [containsLoop, hashOf_eq murmurHash3 hf, Option.bind_eq_bind, Option.bind_some, hbyte,
      Option.bind_eq_bind, Option.bind_some]
    by_cases hbit : byte &&& bitOf (f.indexOf murmurHash3 i vKey) = 0
    · rw [if_pos hbit]
      refine ⟨false, rfl, fun h => (by cases h), fun h => ?_⟩
      obtain ⟨byte', hbyte', hne⟩ := h 0 (Nat.succ_pos left)
      rw [hzero] at hbyte' hne
      rw [hbyte] at hbyte'
      cases hbyte'
      exact absurd hbit hne
    · rw [if_neg hbit]
      refine ⟨b, hloop, hb.trans ⟨fun h t ht => ?_, fun h t ht => ?_⟩⟩
      · cases t with
        | zero => rw [hzero]; exact ⟨byte, hbyte, hbit⟩
        | succ t => rw [hsucc]; exact h t (by omega)
      · rw [← hsucc]
        exact h (t + 1) (by omega)

/-- The filter has data or is full, so that none of its operations divides by zero. -/
def Valid (f : CBloomFilter) : Prop := f.vData ≠ [] ∨ f.isFull = true

/-- The filter reports a key. -/
def Reports (f : CBloomFilter) (vKey : Bytes) : Prop := f.contains murmurHash3 vKey = some true

/-- `f'` is valid and reports whatever `f` does. -/
structure Extends (f f' : CBloomFilter) : Prop where
  valid : f'.Valid
  length_eq : f'.vData.length = f.vData.length
  flags_eq : f'.nFlags = f.nFlags
  isFull_eq : f'.isFull = f.isFull
  reports : ∀ vKey, f.Reports murmurHash3 vKey → f'.Reports murmurHash3 vKey

variable {murmurHash3}

theorem Extends.refl {f : CBloomFilter} (hf : f.Valid) : Extends murmurHash3 f f :=
  ⟨hf, rfl, rfl, rfl, fun _ h => h⟩

theorem Extends.trans {f f' f'' : CBloomFilter} (h : Extends murmurHash3 f f')
    (h' : Extends murmurHash3 f' f'') : Extends murmurHash3 f f'' :=
  ⟨h'.valid, h'.length_eq.trans h.length_eq, h'.flags_eq.trans h.flags_eq,
    h'.isFull_eq.trans h.isFull_eq,
    fun vKey hk => h'.reports vKey (h.reports vKey hk)⟩

variable (murmurHash3) in
theorem Valid.contains {f : CBloomFilter} (hf : f.Valid) (vKey : Bytes) :
    ∃ b, f.contains murmurHash3 vKey = some b := by
  rw [CBloomFilter.contains]
  split_ifs with hfull hempty
  · exact ⟨true, rfl⟩
  · exact ⟨false, rfl⟩
  · obtain ⟨b, hb, -⟩ := containsLoop_spec murmurHash3 (hf.resolve_right hfull) vKey _ 0
    exact ⟨b, hb⟩

theorem reports_iff {f : CBloomFilter} (hf : f.vData ≠ []) (hfull : ¬ f.isFull = true)
    (vKey : Bytes) : f.Reports murmurHash3 vKey ↔ ¬ f.isEmpty = true ∧
      ∀ t < f.nHashFuncs.toNat,
        HasBit f.vData (f.indexOf murmurHash3 (0 + UInt32.ofNat t) vKey) := by
  rw [Reports, CBloomFilter.contains, if_neg hfull]
  by_cases hempty : f.isEmpty = true
  · rw [if_pos hempty]
    exact ⟨fun h => (by cases h), fun h => absurd hempty h.1⟩
  · rw [if_neg hempty]
    obtain ⟨b, hb, hiff⟩ := containsLoop_spec murmurHash3 hf vKey f.nHashFuncs.toNat 0
    rw [hb, Option.some.injEq, hiff]
    exact ⟨fun h => ⟨hempty, h⟩, fun h => h.2⟩

/-- A filter that reports some key is full, or not empty. -/
theorem Reports.not_isEmpty {f : CBloomFilter} {vKey : Bytes} (h : f.Reports murmurHash3 vKey)
    (hfull : ¬ f.isFull = true) : ¬ f.isEmpty = true := by
  intro hempty
  rw [Reports, CBloomFilter.contains, if_neg hfull, if_pos hempty] at h
  cases h

variable (murmurHash3)

/-- `insert` never fails, and the key is reported from then on. -/
theorem insert_spec {f : CBloomFilter} (hf : f.Valid) (vKey : Bytes) :
    ∃ f', f.insert murmurHash3 vKey = some f' ∧ Extends murmurHash3 f f' ∧
      f'.Reports murmurHash3 vKey := by
  rw [insert]
  by_cases hfull : f.isFull = true
  · rw [if_pos hfull]
    exact ⟨f, rfl, .refl hf, if_pos hfull⟩
  · rw [if_neg hfull]
    have hdata := hf.resolve_right hfull
    obtain ⟨f₁, hloop, hgrown, hbits⟩ :=
      insertLoop_spec murmurHash3 hdata vKey f.nHashFuncs.toNat 0
    let f' := { f₁ with isEmpty := false }
    have hf₁ : f₁.vData ≠ [] := List.ne_nil_of_length_pos (by
      rw [hgrown.length_eq]
      exact List.length_pos_iff.mpr hdata)
    have hrest := hgrown.rest_eq
    have hisFull : f₁.isFull = f.isFull := by rw [hrest]
    have hfuncs : f₁.nHashFuncs = f.nHashFuncs := by rw [hrest]
    have hflags : f₁.nFlags = f.nFlags := by rw [hrest]
    have hfull' : ¬ f'.isFull = true := hisFull ▸ hfull
    -- a key is reported if `f₁` has its bits
    have hreports : ∀ key, (∀ t < f.nHashFuncs.toNat,
        HasBit f₁.vData (f.indexOf murmurHash3 (0 + UInt32.ofNat t) key)) →
        f'.Reports murmurHash3 key := fun key hkey => by
      refine (reports_iff (f := f') hf₁ hfull' key).mpr ⟨Bool.false_ne_true, fun t ht => ?_⟩
      have hbit := hkey t (hfuncs ▸ ht)
      rwa [← hgrown.indexOf_eq] at hbit
    refine ⟨f', by rw [hloop]; rfl, ⟨.inl hf₁, hgrown.length_eq, hflags, hisFull,
      fun key hkey => hreports key fun t ht => ?_⟩, hreports vKey hbits⟩
    exact hgrown.bits _ (((reports_iff hdata hfull key).mp hkey).2 t ht)

/-! ## Transactions -/

theorem containsPush_total {f : CBloomFilter} (hf : f.Valid) {len : Nat} {pc : Bytes}
    (hlen : pc.length ≤ len) : ∃ b, f.containsPush murmurHash3 len pc = some b := by
  induction len generalizing pc with
  | zero =>
    obtain rfl : pc = [] := List.length_eq_zero_iff.mp (Nat.le_zero.mp hlen)
    exact ⟨false, rfl⟩
  | succ len ih =>
    cases pc with
    | nil => exact ⟨false, rfl⟩
    | cons c pc =>
      rw [containsPush]
      cases hop : getOp (c :: pc) with
      | none => exact ⟨false, rfl⟩
      | some op =>
        obtain ⟨opcode, data, pc'⟩ := op
        have hshort := getOp_length hop
        obtain ⟨b, hb⟩ := hf.contains murmurHash3 data
        obtain ⟨b', hb'⟩ : ∃ b, f.containsPush murmurHash3 len pc' = some b := ih (by omega)
        simp only [hb, hb', Option.bind_eq_bind, Option.bind_some]
        split_ifs
        · exact ⟨true, rfl⟩
        · exact ⟨b', rfl⟩

/-- One round over the outputs keeps what is reported, and `fFound`. -/
theorem matchOutput_spec (options : SolverOptions) {f : CBloomFilter} (hf : f.Valid) (txid : UInt256)
    (i : Nat) (txout : CTxOut) (fFound : Bool) :
    ∃ fFound' f', f.matchOutput murmurHash3 options txid i txout fFound = some (fFound', f') ∧
      Extends murmurHash3 f f' ∧ (fFound = true → fFound' = true) ∧
      (f.containsPush murmurHash3 txout.scriptPubKey.length txout.scriptPubKey = some true →
        f.addsOutput options txout.scriptPubKey = true →
        f'.Reports murmurHash3 (COutPoint.bytes ⟨txid, UInt32.ofNat i⟩)) := by
  obtain ⟨b, hb⟩ := containsPush_total murmurHash3 hf
    (Nat.le_refl txout.scriptPubKey.length)
  rw [matchOutput, hb, Option.bind_eq_bind, Option.bind_some]
  cases b with
  | false => exact ⟨fFound, f, rfl, .refl hf, id, fun h => by cases h⟩
  | true =>
    by_cases hadds : f.addsOutput options txout.scriptPubKey = true
    · obtain ⟨f', hinsert, hextends, hreports⟩ := insert_spec murmurHash3 hf
        (COutPoint.bytes ⟨txid, UInt32.ofNat i⟩)
      refine ⟨true, f', ?_, hextends, fun _ => rfl, fun _ _ => hreports⟩
      rw [if_pos rfl, if_pos hadds, hinsert]
      rfl
    · refine ⟨true, f, ?_, .refl hf, fun _ => rfl, fun _ h => absurd h hadds⟩
      rw [if_pos rfl, if_neg hadds]
      rfl

theorem matchOutputs_spec (options : SolverOptions) {f : CBloomFilter} (hf : f.Valid)
    (txid : UInt256) (i : Nat) (vout : List CTxOut) (fFound : Bool) :
    ∃ fFound' f', f.matchOutputs murmurHash3 options txid i vout fFound = some (fFound', f') ∧
      Extends murmurHash3 f f' ∧ (fFound = true → fFound' = true) := by
  induction vout generalizing i f fFound with
  | nil => exact ⟨fFound, f, rfl, .refl hf, id⟩
  | cons txout vout ih =>
    obtain ⟨fFound₁, f₁, hstep, hext₁, hfound₁, -⟩ :=
      matchOutput_spec murmurHash3 options hf txid i txout fFound
    obtain ⟨fFound', f', hrest, hext, hfound⟩ := ih hext₁.valid (i + 1) fFound₁
    refine ⟨fFound', f', ?_, hext₁.trans hext, fun h => hfound (hfound₁ h)⟩
    rw [matchOutputs, hstep]
    exact hrest

variable {murmurHash3} in
/-- The loop over the outputs in two parts. -/
theorem matchOutputs_append (options : SolverOptions) {f f₁ : CBloomFilter} {txid : UInt256}
    {i : Nat} {vout vout' : List CTxOut} {fFound fFound₁ : Bool}
    (h : f.matchOutputs murmurHash3 options txid i vout fFound = some (fFound₁, f₁)) :
    f.matchOutputs murmurHash3 options txid i (vout ++ vout') fFound =
      f₁.matchOutputs murmurHash3 options txid (i + vout.length) vout' fFound₁ := by
  induction vout generalizing i f fFound with
  | nil =>
    cases h
    rfl
  | cons txout vout ih =>
    rw [matchOutputs] at h
    obtain ⟨⟨fFound₂, f₂⟩, hstep, hrest⟩ := Option.bind_eq_some_iff.mp h
    rw [List.cons_append, matchOutputs, hstep, List.length_cons, ← Nat.add_assoc,
      Nat.add_right_comm]
    exact ih hrest

/-- Every input whose output is reported is found. -/
theorem matchInputs_spec {f : CBloomFilter} (hf : f.Valid) (vin : List CTxIn) :
    ∃ b, f.matchInputs murmurHash3 vin = some b ∧
      ((∃ txin ∈ vin, f.Reports murmurHash3 txin.prevout.bytes) → b = true) := by
  induction vin with
  | nil => exact ⟨false, rfl, fun ⟨_, h, _⟩ => absurd h List.not_mem_nil⟩
  | cons txin vin ih =>
    obtain ⟨b, hb⟩ := hf.contains murmurHash3 txin.prevout.bytes
    obtain ⟨b₁, hb₁⟩ := containsPush_total murmurHash3 hf
      (Nat.le_refl txin.scriptSig.length)
    obtain ⟨b₂, hb₂, hrest⟩ := ih
    rw [matchInputs, hb, Option.bind_eq_bind, Option.bind_some]
    cases b with
    | true => exact ⟨true, rfl, fun _ => rfl⟩
    | false =>
      rw [if_neg Bool.false_ne_true, hb₁, Option.bind_some]
      cases b₁ with
      | true => exact ⟨true, rfl, fun _ => rfl⟩
      | false =>
        refine ⟨b₂, hb₂, fun ⟨txin', hmem, hreports⟩ => hrest ?_⟩
        rcases List.mem_cons.mp hmem with rfl | hmem
        · rw [Reports, hb] at hreports
          cases hreports
        · exact ⟨txin', hmem, hreports⟩

/-- `IsRelevantAndUpdate` never fails, and finds a transaction that spends an output that the filter
reports. -/
theorem isRelevantAndUpdate_spec (hash : Bytes → UInt256) (options : SolverOptions)
    {f : CBloomFilter} (hf : f.Valid) (tx : CTransaction) :
    ∃ b f', f.isRelevantAndUpdate murmurHash3 hash options tx = some (b, f') ∧
      Extends murmurHash3 f f' ∧
      ((∃ txin ∈ tx.vin, f.Reports murmurHash3 txin.prevout.bytes) → b = true) := by
  rw [isRelevantAndUpdate]
  by_cases hfull : f.isFull = true
  · rw [if_pos hfull]
    exact ⟨true, f, rfl, .refl hf, fun _ => rfl⟩
  rw [if_neg hfull]
  by_cases hempty : f.isEmpty = true
  · rw [if_pos hempty]
    refine ⟨false, f, rfl, .refl hf, fun ⟨txin, _, hreports⟩ => ?_⟩
    exact absurd hempty (hreports.not_isEmpty hfull)
  rw [if_neg hempty]
  obtain ⟨fFound, hcontains⟩ :=
    hf.contains murmurHash3 (uint256Bytes (tx.getHash hash))
  obtain ⟨fFound', f', houts, hextends, -⟩ :=
    matchOutputs_spec murmurHash3 options hf (tx.getHash hash) 0 tx.vout fFound
  obtain ⟨b, hins, hb⟩ := matchInputs_spec murmurHash3 hextends.valid tx.vin
  simp only [hcontains, houts, hins, Option.bind_eq_bind, Option.bind_some]
  cases fFound' with
  | true => exact ⟨true, f', rfl, hextends, fun _ => rfl⟩
  | false =>
    exact ⟨b, f', rfl, hextends, fun ⟨txin, hmem, hreports⟩ =>
      hb ⟨txin, hmem, hextends.reports _ hreports⟩⟩

end Keys

/-! ## Runs -/

/-- What a node does with the filter of a peer. -/
inductive Op
  | insert (vKey : Bytes)
  | relevant (tx : CTransaction)

section Runs

variable (murmurHash3 : UInt32 → Bytes → UInt32) (hash : Bytes → UInt256) (options : SolverOptions)

/-- One operation. -/
def step : Op → CBloomFilter → Option CBloomFilter
  | .insert vKey, f => f.insert murmurHash3 vKey
  | .relevant tx, f => (f.isRelevantAndUpdate murmurHash3 hash options tx).map Prod.snd

/-- `IsRelevantAndUpdate(tx)` on the filter `f` matches through output `i`: it gets to the loop over
the outputs, and the filter at that output contains a data element of its script. -/
def MatchedThrough (f : CBloomFilter) (tx : CTransaction) (i : Nat) (txout : CTxOut) : Prop :=
  f.isFull = false ∧ f.isEmpty = false ∧ tx.vout[i]? = some txout ∧
    ∃ fFound fFound' f',
      f.contains murmurHash3 (uint256Bytes (tx.getHash hash)) = some fFound ∧
      f.matchOutputs murmurHash3 options (tx.getHash hash) 0 (tx.vout.take i) fFound =
        some (fFound', f') ∧
      f'.containsPush murmurHash3 txout.scriptPubKey.length txout.scriptPubKey = some true

theorem step_spec {f : CBloomFilter} (hf : f.Valid) (op : Op) :
    ∃ f', step murmurHash3 hash options op f = some f' ∧ Extends murmurHash3 f f' := by
  cases op with
  | insert vKey =>
    obtain ⟨f', hinsert, hextends, -⟩ := insert_spec murmurHash3 hf vKey
    exact ⟨f', hinsert, hextends⟩
  | relevant tx =>
    obtain ⟨b, f', hrel, hextends, -⟩ := isRelevantAndUpdate_spec murmurHash3 hash options hf tx
    exact ⟨f', by rw [step, hrel]; rfl, hextends⟩

/-- A run succeeds, and reports ever more. -/
theorem run_spec {f : CBloomFilter} (hf : f.Valid) (ops : List Op) :
    ∃ f', run (step murmurHash3 hash options) ops f = some f' ∧ Extends murmurHash3 f f' := by
  induction ops generalizing f with
  | nil => exact ⟨f, rfl, .refl hf⟩
  | cons op ops ih =>
    obtain ⟨f₁, hstep, hext₁⟩ := step_spec murmurHash3 hash options hf op
    obtain ⟨f', hrun, hext⟩ := ih hext₁.valid
    exact ⟨f', by rw [run, hstep]; exact hrun, hext₁.trans hext⟩

variable {murmurHash3 hash options}

/-- An output that was matched and added is reported from then on. -/
theorem matchedThrough_reports {f f₁ : CBloomFilter} (hf : f.Valid) {tx : CTransaction} {i : Nat}
    {txout : CTxOut} (hm : f.MatchedThrough murmurHash3 hash options tx i txout)
    (hadds : f.addsOutput options txout.scriptPubKey = true)
    (hstep : step murmurHash3 hash options (.relevant tx) f = some f₁) :
    f₁.Reports murmurHash3 (COutPoint.bytes ⟨tx.getHash hash, UInt32.ofNat i⟩) := by
  obtain ⟨hfull, hempty, hout, fFound, fFound', f', hcontains, hbefore, hpush⟩ := hm
  obtain ⟨hi, hget⟩ := List.getElem?_eq_some_iff.mp hout
  -- the outputs before `i`, the output itself, and those after it
  have hsplit : tx.vout = tx.vout.take i ++ txout :: tx.vout.drop (i + 1) := by
    rw [← hget, ← List.drop_eq_getElem_cons hi, List.take_append_drop]
  obtain ⟨_, _, hbefore', hext, -⟩ := matchOutputs_spec murmurHash3 options hf
    (tx.getHash hash) 0 (tx.vout.take i) fFound
  rw [hbefore] at hbefore'
  cases hbefore'
  obtain ⟨fFound₂, f₂, hmatch, hext₂, -, hreports⟩ := matchOutput_spec murmurHash3
    options hext.valid (tx.getHash hash) i txout fFound'
  have hadds' : f'.addsOutput options txout.scriptPubKey = true := by
    rw [addsOutput, hext.flags_eq]
    exact hadds
  obtain ⟨fFound₃, f₃, hafter, hext₃, -⟩ := matchOutputs_spec murmurHash3 options
    hext₂.valid (tx.getHash hash) (i + 1) (tx.vout.drop (i + 1)) fFound₂
  have hall : f.matchOutputs murmurHash3 options (tx.getHash hash) 0 tx.vout fFound =
      some (fFound₃, f₃) := by
    rw [hsplit, matchOutputs_append options hbefore, List.length_take_of_le (Nat.le_of_lt hi),
      Nat.zero_add, matchOutputs, hmatch]
    exact hafter
  have hf₁ : f₁ = f₃ := by
    obtain ⟨b, f₄, hrel, -⟩ := isRelevantAndUpdate_spec murmurHash3 hash options hf tx
    rw [step, hrel] at hstep
    cases hstep
    rw [isRelevantAndUpdate, hfull, hempty] at hrel
    simp only [Bool.false_eq_true, if_false, hcontains, hall, Option.bind_eq_bind,
      Option.bind_some] at hrel
    cases fFound₃ with
    | true => cases hrel; rfl
    | false =>
      obtain ⟨b', -, hb'⟩ := Option.bind_eq_some_iff.mp hrel
      cases hb'
      rfl
  rw [hf₁]
  exact hext₃.reports _ (hreports hpush hadds')

/-- A filter that comes with data, or whose flags were updated, is valid. -/
theorem valid_of_received {f : CBloomFilter} (h : f.vData ≠ [] ∨ ∃ g, f = updateEmptyFull g) :
    f.Valid := by
  rcases h with h | ⟨g, rfl⟩
  · exact .inl h
  · cases hg : g.vData with
    | nil => exact .inr (by rw [updateEmptyFull, hg]; rfl)
    | cons b s => exact .inl (by rw [updateEmptyFull, hg]; exact List.cons_ne_nil b s)

variable (murmurHash3 hash options)

/-- A filter with data, or one that went through `UpdateEmptyFull`, has no false negatives: in any
run every operation succeeds, every key that was inserted is reported, every output that was matched
and added is, and under `BLOOM_UPDATE_ALL` every transaction that spends a matched output is
relevant. -/
theorem bloom_no_false_negatives {f : CBloomFilter}
    (h : f.vData ≠ [] ∨ ∃ g, f = updateEmptyFull g) (ops : List Op) :
    ∃ f', run (step murmurHash3 hash options) ops f = some f' ∧
      (∀ vKey, .insert vKey ∈ ops → f'.contains murmurHash3 vKey = some true) ∧
      ∀ ops₁ tx ops₂ f₁ i txout, ops = ops₁ ++ .relevant tx :: ops₂ →
        run (step murmurHash3 hash options) ops₁ f = some f₁ →
        f₁.MatchedThrough murmurHash3 hash options tx i txout →
        (f₁.addsOutput options txout.scriptPubKey = true →
          f'.contains murmurHash3 (COutPoint.bytes ⟨tx.getHash hash, UInt32.ofNat i⟩) = some true) ∧
        (f.nFlags &&& BLOOM_UPDATE_MASK = BLOOM_UPDATE_ALL →
          ∀ tx' : CTransaction,
            (∃ txin ∈ tx'.vin, txin.prevout = ⟨tx.getHash hash, UInt32.ofNat i⟩) →
            ∃ f'', f'.isRelevantAndUpdate murmurHash3 hash options tx' = some (true, f'')) := by
  have hf := valid_of_received h
  obtain ⟨f', hrun, hext⟩ := run_spec murmurHash3 hash options hf ops
  refine ⟨f', hrun, fun vKey hmem => ?_, fun ops₁ tx ops₂ f₁ i txout hops hrun₁ hm => ?_⟩
  · -- what is inserted stays reported to the end of the run
    obtain ⟨ops₁, ops₂, rfl⟩ := List.append_of_mem hmem
    obtain ⟨f₁, hrun₁, hext₁⟩ := run_spec murmurHash3 hash options hf ops₁
    obtain ⟨f₂, hinsert, hext₂, hreports⟩ := insert_spec murmurHash3
      hext₁.valid vKey
    obtain ⟨f₃, hrun₂, hext₃⟩ := run_spec murmurHash3 hash options hext₂.valid ops₂
    rw [run_append hrun₁, run, step, hinsert, Option.bind_some, hrun₂] at hrun
    cases hrun
    exact hext₃.reports _ hreports
  · obtain ⟨_, hrun₁', hext₁⟩ := run_spec murmurHash3 hash options hf ops₁
    rw [hrun₁] at hrun₁'
    cases hrun₁'
    obtain ⟨f₂, hstep, hext₂⟩ := step_spec murmurHash3 hash options hext₁.valid (.relevant tx)
    obtain ⟨f₃, hrun₂, hext₃⟩ := run_spec murmurHash3 hash options hext₂.valid ops₂
    rw [hops, run_append hrun₁, run, hstep, Option.bind_some, hrun₂] at hrun
    cases hrun
    have hreports := fun hadds => hext₃.reports _
      (matchedThrough_reports hext₁.valid hm hadds hstep)
    refine ⟨hreports, fun hall tx' hspends => ?_⟩
    obtain ⟨txin, hmem, hprev⟩ := hspends
    have hadds : f₁.addsOutput options txout.scriptPubKey = true := by
      rw [addsOutput, hext₁.flags_eq, if_pos hall]
    obtain ⟨b, f'', hrel, -, hb⟩ := isRelevantAndUpdate_spec murmurHash3 hash options hext₃.valid tx'
    have htrue := hb ⟨txin, hmem, by rw [hprev]; exact hreports hadds⟩
    rw [htrue] at hrel
    exact ⟨f'', hrel⟩

end Runs

/-- A filter as `filterload` brings it: two bytes of data, three hash functions, flags not yet
updated. -/
def received : CBloomFilter := ⟨[0, 0x10], true, false, 3, 0, BLOOM_UPDATE_ALL⟩

def lengthHash (seed : UInt32) (data : Bytes) : UInt32 := seed + UInt32.ofNat data.length

/-- A transaction with an output whose script pushes a key, and one that spends it. -/
def paying : CTransaction := ⟨1, [], [⟨0, [2, 1, 2]⟩], 0⟩

def spending : CTransaction := ⟨1, [⟨⟨0, 0⟩, [], 0⟩], [], 0⟩

theorem bloom_no_false_negatives_received :
    ∃ f', run (step lengthHash (fun _ => 0) ⟨true, 83⟩) [.insert [1, 2], .relevant paying]
        received.updateEmptyFull = some f' ∧ f'.contains lengthHash [1, 2] = some true ∧
      ∃ f'', f'.isRelevantAndUpdate lengthHash (fun _ => 0) ⟨true, 83⟩ spending = some (true, f'') := by
  obtain ⟨f', hrun, hkeys, houtputs⟩ := bloom_no_false_negatives lengthHash (fun _ => 0) ⟨true, 83⟩
    (.inr ⟨received, rfl⟩) [.insert [1, 2], .relevant paying]
  have hmatched : ({ received with vData := [0x84, 0x10], isFull := false } : CBloomFilter).MatchedThrough
      lengthHash (fun _ => 0) ⟨true, 83⟩ paying 0 ⟨0, [2, 1, 2]⟩ :=
    ⟨rfl, rfl, rfl, _, _, _, rfl, rfl, rfl⟩
  obtain ⟨-, hspends⟩ := houtputs [.insert [1, 2]] paying [] _ 0 _ rfl rfl hmatched
  exact ⟨f', hrun, hkeys [1, 2] (by simp), hspends rfl spending ⟨_, List.mem_cons_self, rfl⟩⟩

end CBloomFilter

end GC
