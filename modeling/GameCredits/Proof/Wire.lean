import GameCredits.Model.Wire

/-!
# One wire encoding

`Serialize` to any stream writes the bytes of the encodings (`CBlock.serialize_eq`), and what
`Unserialize` reads is exactly these (`exact_transaction`, `exact_block`): the parts that vectors are
read in make no difference (`exact_elements`).
-/

namespace GC

open Framework

/-! ## Writing -/

section Serialize

variable {σ : Type} {write : σ → Bytes → σ}
  (happend : ∀ os a b, write (write os a) b = write os (a ++ b))

include happend

theorem serializeCompactSize_eq (os : σ) (n : Nat) :
    serializeCompactSize write os n = write os (writeCompactSize n) := by
  unfold serializeCompactSize writeCompactSize
  split_ifs
  · rfl
  all_goals
    simp only [serWriteData, happend]
    rfl

theorem serializeScript_eq (os : σ) (v : CScript) :
    serializeScript write os v = write os (scriptBytes v) := by
  rw [serializeScript, serializeCompactSize_eq happend, scriptBytes]
  cases v with
  | nil => rw [List.append_nil]; rfl
  | cons b v => exact happend ..

theorem serializeVector_eq (hnil : ∀ os, write os [] = os) {α : Type} {serialize : σ → α → σ}
    {put : α → Bytes} (hput : ∀ os a, serialize os a = write os (put a)) (os : σ) (v : List α) :
    serializeVector write serialize os v = write os (vectorBytes put v) := by
  have hfold : ∀ os, v.foldl serialize os = write os (v.flatMap put) := by
    induction v with
    | nil => exact fun os => (hnil os).symm
    | cons a v ih =>
      intro os
      rw [List.foldl_cons, ih, hput, happend, List.flatMap_cons]
  rw [serializeVector, hfold, serializeCompactSize_eq happend, happend, vectorBytes]

theorem COutPoint.serialize_eq (os : σ) (o : COutPoint) : o.serialize write os = write os o.bytes :=
  happend ..

theorem CTxIn.serialize_eq (os : σ) (txin : CTxIn) :
    txin.serialize write os = write os txin.bytes := by
  simp only [CTxIn.serialize, COutPoint.serialize_eq happend, serializeScript_eq happend,
    serializeUInt32, serWriteData, happend]
  rfl

theorem CTxOut.serialize_eq (os : σ) (out : CTxOut) : out.serialize write os = write os out.bytes := by
  simp only [CTxOut.serialize, serializeInt64, serializeScript_eq happend, serWriteData, happend]
  rfl

theorem CTransaction.serialize_eq (hnil : ∀ os, write os [] = os) (os : σ) (tx : CTransaction) :
    tx.serialize write os = write os tx.bytes := by
  simp only [CTransaction.serialize, serializeInt32, serializeUInt32, serWriteData, happend,
    serializeVector_eq happend hnil (CTxIn.serialize_eq happend),
    serializeVector_eq happend hnil (CTxOut.serialize_eq happend)]
  rfl

theorem CBlockHeader.serialize_eq (os : σ) (block : CBlockHeader) :
    block.serialize write os = write os block.bytes := by
  simp only [CBlockHeader.serialize, serializeInt32, serializeUInt32, serializeUInt256, serWriteData,
    happend]
  rfl

theorem CBlock.serialize_eq (hnil : ∀ os, write os [] = os) (os : σ) (block : CBlock) :
    block.serialize write os = write os block.bytes := by
  simp only [CBlock.serialize, CBlockHeader.serialize_eq happend, happend,
    serializeVector_eq happend hnil (CTransaction.serialize_eq happend hnil)]
  rfl

end Serialize

theorem streamWrite_append (s a b : Bytes) :
    streamWrite (streamWrite s a) b = streamWrite s (a ++ b) := List.append_assoc ..

theorem sizeWrite_append (n : Nat) (a b : Bytes) :
    sizeWrite (sizeWrite n a) b = sizeWrite n (a ++ b) := by
  simp only [sizeWrite, List.length_append, Nat.add_assoc]

theorem CTransaction.serialize_stream (tx : CTransaction) : tx.serialize streamWrite [] = tx.bytes :=
  tx.serialize_eq streamWrite_append List.append_nil []

theorem CBlock.serialize_stream (block : CBlock) : block.serialize streamWrite [] = block.bytes :=
  block.serialize_eq streamWrite_append List.append_nil []

theorem CTransaction.getSerializeSize_eq (tx : CTransaction) :
    tx.getSerializeSize = tx.bytes.length % 2 ^ 32 := by
  rw [getSerializeSize, tx.serialize_eq sizeWrite_append (fun _ => rfl) 0, sizeWrite, Nat.zero_add]

theorem CBlock.getSerializeSize_eq (block : CBlock) :
    block.getSerializeSize = block.bytes.length % 2 ^ 32 := by
  rw [getSerializeSize, block.serialize_eq sizeWrite_append (fun _ => rfl) 0, sizeWrite, Nat.zero_add]

/-! ## Reading vectors -/

/-- Bytes read in parts are read as at once, by induction on how many are left. -/
theorem unserializeBytes_iff {left : Nat} {v r s s' : Bytes} :
    (unserializeBytes left v).run s = some (r, s') ↔
      ∃ data, data.length = left ∧ s = data ++ s' ∧ r = v ++ data := by
  induction left using Nat.strong_induction_on generalizing v r s s' with
  | _ left ih =>
    rw [unserializeBytes]
    split_ifs with hzero
    · subst hzero
      constructor
      · intro h
        obtain ⟨rfl, rfl⟩ := Prod.mk.inj (Option.some.inj h)
        exact ⟨[], rfl, rfl, (List.append_nil _).symm⟩
      · rintro ⟨data, hdata, rfl, rfl⟩
        rw [List.eq_nil_of_length_eq_zero hdata, List.append_nil]
        rfl
    · obtain ⟨blk, hblk⟩ : ∃ blk, blk = min left 5000000 := ⟨_, rfl⟩
      simp only [← hblk, Get.run_bind_eq_some, getBytes_eq_some]
      constructor
      · rintro ⟨more, s₁, ⟨hmore, rfl⟩, h⟩
        obtain ⟨data, hdata, rfl, rfl⟩ := (ih _ (by omega)).mp h
        refine ⟨more ++ data, ?_, (List.append_assoc ..).symm, List.append_assoc ..⟩
        rw [List.length_append]
        omega
      · rintro ⟨data, hdata, rfl, rfl⟩
        refine ⟨data.take blk, data.drop blk ++ s', ⟨?_, ?_⟩, (ih _ (by omega)).mpr
          ⟨data.drop blk, ?_, rfl, ?_⟩⟩
        · rw [List.length_take]
          omega
        · rw [← List.append_assoc, List.take_append_drop]
        · rw [List.length_drop, hdata]
        · rw [List.append_assoc, List.take_append_drop]

/-- Elements read in parts are read as at once. -/
theorem unserializeElements_iff {α : Type} {size : SizeOf} {get : Get α} {nSize nMid : Nat}
    {v r : List α} {s s' : Bytes} :
    (unserializeElements size get nSize nMid v).run s = some (r, s') ↔
      ∃ more, (getMany get (nSize - nMid)).run s = some (more, s') ∧ r = v ++ more := by
  induction hleft : nSize - nMid using Nat.strong_induction_on generalizing nMid v r s s' with
  | _ left ih =>
    rw [unserializeElements]
    by_cases hmid : nMid < nSize
    · have hpos := size.part_pos
      obtain ⟨next, hnext⟩ : ∃ next, next =
          if nSize < nMid + size.part then nSize else nMid + size.part := ⟨_, rfl⟩
      have hle : nMid < next ∧ next ≤ nSize := by
        rw [hnext]
        split_ifs <;> omega
      have hlast : nSize - next < left := by omega
      have hsum : left = (next - nMid) + (nSize - next) := by omega
      rw [if_pos hmid]
      simp only [← hnext, Get.run_bind_eq_some, ih _ hlast rfl]
      simp only [hsum, getMany_add_iff]
      constructor
      · rintro ⟨as₁, s₁, h₁, as₂, h₂, rfl⟩
        exact ⟨_, ⟨as₁, s₁, as₂, h₁, h₂, rfl⟩, List.append_assoc ..⟩
      · rintro ⟨_, ⟨as₁, s₁, as₂, h₁, h₂, rfl⟩, rfl⟩
        exact ⟨as₁, s₁, h₁, as₂, h₂, (List.append_assoc ..).symm⟩
    · have hzero : left = 0 := by omega
      subst hzero
      rw [if_neg hmid]
      constructor
      · intro h
        obtain ⟨rfl, rfl⟩ := Prod.mk.inj (Option.some.inj h)
        exact ⟨[], rfl, (List.append_nil _).symm⟩
      · rintro ⟨more, h, rfl⟩
        obtain ⟨rfl, rfl⟩ := Prod.mk.inj (Option.some.inj h)
        rw [List.append_nil]
        rfl

theorem exact_script : Exact scriptBytes unserializeScript fun v => v.length ≤ MAX_SIZE := by
  intro s v s'
  rw [unserializeScript, exact_compactSize.run_bind_iff]
  simp only [unserializeBytes_iff, scriptBytes]
  constructor
  · rintro ⟨nSize, s₁, ⟨hmax, rfl⟩, data, rfl, rfl, rfl⟩
    rw [List.append_assoc]
    exact ⟨hmax, rfl⟩
  · rintro ⟨hmax, rfl⟩
    exact ⟨v.length, v ++ s', ⟨hmax, List.append_assoc ..⟩, v, rfl, rfl, rfl⟩

theorem exact_vector {α : Type} {put : α → Bytes} {get : Get α} {P : α → Prop}
    (h : Exact put get P) (size : SizeOf) :
    Exact (vectorBytes put) (unserializeVector size get)
      fun v => v.length ≤ MAX_SIZE ∧ ∀ a ∈ v, P a := by
  intro s v s'
  rw [unserializeVector, exact_compactSize.run_bind_iff]
  simp only [unserializeElements_iff, h.getMany _ _ _ _, vectorBytes]
  constructor
  · rintro ⟨nSize, s₁, ⟨hmax, rfl⟩, data, ⟨⟨rfl, hall⟩, rfl⟩, rfl⟩
    rw [List.append_assoc]
    exact ⟨⟨hmax, hall⟩, rfl⟩
  · rintro ⟨⟨hmax, hall⟩, rfl⟩
    exact ⟨v.length, v.flatMap put ++ s', ⟨hmax, List.append_assoc ..⟩, v, ⟨⟨rfl, hall⟩, rfl⟩, rfl⟩

/-! ## Reading numbers -/

/-- A signed number written in two's complement, for a type of `m` values. -/
theorem exact_signed {n m half : Nat} {M : Int} {P : Int → Prop} (hm : 256 ^ n = m) (hM : M = m)
    (hhalf : m = 2 * half) (hP : ∀ x, P x ↔ -(half : Int) ≤ x ∧ x < half) :
    Exact (fun x : Int => leBytes n (x % M).toNat) (getLE n >>= fun obj => pure (Int.bmod obj m))
      P := by
  have hpos : 0 < m := hm ▸ Nat.pow_pos (by decide)
  refine (exact_le n).map ?_ ?_ fun _ => rfl
  · intro obj hobj
    have hlow := Int.le_bmod (x := obj) (m := m) hpos
    have hhigh := Int.bmod_lt (x := obj) (m := m) hpos
    refine ⟨(hP _).mpr ⟨by omega, by omega⟩, ?_⟩
    rw [hM, Int.bmod_emod, Int.emod_eq_of_lt (by omega) (by omega), Int.toNat_natCast]
  · intro x hx
    obtain ⟨hlow, hhigh⟩ := (hP x).mp hx
    have hnonneg : 0 ≤ x % (m : Int) := Int.emod_nonneg _ (by omega)
    have hlt : x % (m : Int) < m := Int.emod_lt_of_pos _ (by omega)
    rw [hM]
    refine ⟨by omega, ?_⟩
    rw [Int.toNat_of_nonneg hnonneg, Int.emod_bmod]
    exact Int.bmod_eq_of_le (by omega) (by omega)

theorem exact_int32 : Exact int32Bytes unserializeInt32 fun x => -2 ^ 31 ≤ x ∧ x < 2 ^ 31 :=
  @exact_signed _ _ (2 ^ 31) _ _ rfl rfl rfl fun x => by omega

theorem exact_int64 : Exact int64Bytes unserializeInt64 fun x => -2 ^ 63 ≤ x ∧ x < 2 ^ 63 :=
  @exact_signed _ _ (2 ^ 63) _ _ rfl rfl rfl fun x => by omega

theorem exact_uint32 : Exact uint32Bytes unserializeUInt32 fun _ => True := by
  refine (exact_le 4).map (fun obj hobj => ⟨trivial, ?_⟩) (fun x _ => ⟨x.toNat_lt, ?_⟩) fun _ => rfl
  · exact UInt32.toNat_ofNat_of_lt hobj
  · exact UInt32.ofNat_toNat

theorem exact_uint256 : Exact uint256Bytes unserializeUInt256 fun _ => True := by
  refine (exact_le 32).map (fun obj hobj => ⟨trivial, ?_⟩) (fun x _ => ⟨x.isLt, ?_⟩) fun _ => rfl
  · exact Nat.mod_eq_of_lt hobj
  · exact Fin.ext (Nat.mod_eq_of_lt x.isLt)

/-! ## Reading transactions and blocks -/

/-- The values that the types of the fields have, and vectors of at most `MAX_SIZE` elements. -/
def CTxIn.Sized (txin : CTxIn) : Prop := txin.scriptSig.length ≤ MAX_SIZE

@[inherit_doc CTxIn.Sized]
structure CTxOut.Sized (out : CTxOut) : Prop where
  nValue : -2 ^ 63 ≤ out.nValue ∧ out.nValue < 2 ^ 63
  scriptPubKey : out.scriptPubKey.length ≤ MAX_SIZE

@[inherit_doc CTxIn.Sized]
structure CTransaction.Sized (tx : CTransaction) : Prop where
  nVersion : -2 ^ 31 ≤ tx.nVersion ∧ tx.nVersion < 2 ^ 31
  vin : tx.vin.length ≤ MAX_SIZE ∧ ∀ txin ∈ tx.vin, txin.Sized
  vout : tx.vout.length ≤ MAX_SIZE ∧ ∀ out ∈ tx.vout, out.Sized

@[inherit_doc CTxIn.Sized]
structure CBlock.Sized (block : CBlock) : Prop where
  nVersion : -2 ^ 31 ≤ block.nVersion ∧ block.nVersion < 2 ^ 31
  vtx : block.vtx.length ≤ MAX_SIZE ∧ ∀ tx ∈ block.vtx, tx.Sized

theorem exact_outpoint : Exact COutPoint.bytes COutPoint.unserialize fun _ => True := by
  intro s o s'
  rw [COutPoint.unserialize, exact_uint256.run_bind_iff]
  simp only [exact_uint32.run_bind_iff, Get.run_pure]
  constructor
  · rintro ⟨hash, s₁, ⟨-, rfl⟩, n, s₂, ⟨-, rfl⟩, h⟩
    obtain ⟨rfl, rfl⟩ := Prod.mk.inj (Option.some.inj h)
    exact ⟨trivial, (List.append_assoc ..).symm⟩
  · rintro ⟨-, rfl⟩
    exact ⟨o.hash, _, ⟨trivial, List.append_assoc ..⟩, o.n, _, ⟨trivial, rfl⟩, rfl⟩

theorem exact_txIn : Exact CTxIn.bytes CTxIn.unserialize CTxIn.Sized := by
  intro s txin s'
  rw [CTxIn.unserialize, exact_outpoint.run_bind_iff]
  simp only [exact_script.run_bind_iff, exact_uint32.run_bind_iff, Get.run_pure]
  constructor
  · rintro ⟨prevout, s₁, ⟨-, rfl⟩, scriptSig, s₂, ⟨hscript, rfl⟩, nSequence, s₃, ⟨-, rfl⟩, h⟩
    obtain ⟨rfl, rfl⟩ := Prod.mk.inj (Option.some.inj h)
    exact ⟨hscript, by simp only [CTxIn.bytes, List.append_assoc]⟩
  · rintro ⟨hscript, rfl⟩
    simp only [CTxIn.bytes, List.append_assoc]
    exact ⟨txin.prevout, _, ⟨trivial, rfl⟩, txin.scriptSig, _, ⟨hscript, rfl⟩, txin.nSequence, _,
      ⟨trivial, rfl⟩, rfl⟩

theorem exact_txOut : Exact CTxOut.bytes CTxOut.unserialize CTxOut.Sized := by
  intro s out s'
  rw [CTxOut.unserialize, exact_int64.run_bind_iff]
  simp only [exact_script.run_bind_iff, Get.run_pure]
  constructor
  · rintro ⟨nValue, s₁, ⟨hvalue, rfl⟩, scriptPubKey, s₂, ⟨hscript, rfl⟩, h⟩
    obtain ⟨rfl, rfl⟩ := Prod.mk.inj (Option.some.inj h)
    exact ⟨⟨hvalue, hscript⟩, by simp only [CTxOut.bytes, List.append_assoc]⟩
  · rintro ⟨hout, rfl⟩
    simp only [CTxOut.bytes, List.append_assoc]
    exact ⟨out.nValue, _, ⟨hout.nValue, rfl⟩, out.scriptPubKey, _, ⟨hout.scriptPubKey, rfl⟩, rfl⟩

section

variable (hash : Bytes → UInt256) (sizes : SizeOfs)

/-- A transaction with the hash of its encoding. -/
def CachedTransaction.Sized (tx : CachedTransaction) : Prop :=
  tx.toCTransaction.Sized ∧ tx.hash = hash tx.bytes

/-- A transaction is read with the hash of the bytes it is read from. -/
theorem exact_transaction :
    Exact (fun tx : CachedTransaction => tx.bytes) (CTransaction.unserialize hash sizes)
      (CachedTransaction.Sized hash) := by
  intro s tx s'
  rw [CTransaction.unserialize, exact_int32.run_bind_iff]
  simp only [(exact_vector exact_txIn _).run_bind_iff, (exact_vector exact_txOut _).run_bind_iff,
    exact_uint32.run_bind_iff, Get.run_pure, CTransaction.updateHash, CTransaction.serializeHash,
    CTransaction.serialize_stream]
  constructor
  · rintro ⟨nVersion, s₁, ⟨hversion, rfl⟩, vin, s₂, ⟨hvin, rfl⟩, vout, s₃, ⟨hvout, rfl⟩, nLockTime,
      s₄, ⟨-, rfl⟩, h⟩
    obtain ⟨rfl, rfl⟩ := Prod.mk.inj (Option.some.inj h)
    refine ⟨⟨⟨hversion, hvin, hvout⟩, rfl⟩, ?_⟩
    simp only [CTransaction.bytes, List.append_assoc]
  · rintro ⟨⟨hsized, hhash⟩, rfl⟩
    obtain ⟨tx, txHash⟩ := tx
    obtain rfl : txHash = hash tx.bytes := hhash
    simp only [CTransaction.bytes, List.append_assoc]
    exact ⟨tx.nVersion, _, ⟨hsized.nVersion, rfl⟩, tx.vin, _, ⟨hsized.vin, rfl⟩, tx.vout, _,
      ⟨hsized.vout, rfl⟩, tx.nLockTime, _, ⟨trivial, rfl⟩, rfl⟩

theorem exact_header : Exact CBlockHeader.bytes CBlockHeader.unserialize
    fun block => -2 ^ 31 ≤ block.nVersion ∧ block.nVersion < 2 ^ 31 := by
  intro s block s'
  rw [CBlockHeader.unserialize, exact_int32.run_bind_iff]
  simp only [exact_uint256.run_bind_iff, exact_uint32.run_bind_iff, Get.run_pure]
  constructor
  · rintro ⟨nVersion, s₁, ⟨hversion, rfl⟩, hashPrevBlock, s₂, ⟨-, rfl⟩, hashMerkleRoot, s₃,
      ⟨-, rfl⟩, nTime, s₄, ⟨-, rfl⟩, nBits, s₅, ⟨-, rfl⟩, nNonce, s₆, ⟨-, rfl⟩, h⟩
    obtain ⟨rfl, rfl⟩ := Prod.mk.inj (Option.some.inj h)
    exact ⟨hversion, by simp only [CBlockHeader.bytes, List.append_assoc]⟩
  · rintro ⟨hversion, rfl⟩
    simp only [CBlockHeader.bytes, List.append_assoc]
    exact ⟨block.nVersion, _, ⟨hversion, rfl⟩, block.hashPrevBlock, _, ⟨trivial, rfl⟩,
      block.hashMerkleRoot, _, ⟨trivial, rfl⟩, block.nTime, _, ⟨trivial, rfl⟩, block.nBits, _,
      ⟨trivial, rfl⟩, block.nNonce, _, ⟨trivial, rfl⟩, rfl⟩

/-- A block of transactions with the hashes of their encodings. -/
def CachedBlock.Sized (block : CachedBlock) : Prop :=
  block.block.Sized ∧ ∀ tx ∈ block.vtx, tx.hash = hash tx.bytes

theorem CachedBlock.bytes_block (block : CachedBlock) : block.block.bytes =
    block.toCBlockHeader.bytes ++ vectorBytes (fun tx : CachedTransaction => tx.bytes) block.vtx := by
  rw [CBlock.bytes, vectorBytes, vectorBytes, CachedBlock.block, List.length_map, List.flatMap_map]

theorem CachedBlock.sized_iff {block : CachedBlock} : block.Sized hash ↔
    (-2 ^ 31 ≤ block.nVersion ∧ block.nVersion < 2 ^ 31) ∧ block.vtx.length ≤ MAX_SIZE ∧
      ∀ tx ∈ block.vtx, tx.Sized hash := by
  constructor
  · rintro ⟨⟨hversion, hlen, hvtx⟩, hhash⟩
    refine ⟨hversion, by rwa [CachedBlock.block, List.length_map] at hlen, fun tx htx =>
      ⟨hvtx _ (List.mem_map_of_mem htx), hhash tx htx⟩⟩
  · rintro ⟨hversion, hlen, hvtx⟩
    refine ⟨⟨hversion, by rwa [CachedBlock.block, List.length_map], fun tx htx => ?_⟩, fun tx htx =>
      (hvtx tx htx).2⟩
    obtain ⟨tx', htx', rfl⟩ := List.mem_map.mp htx
    exact (hvtx tx' htx').1

/-- A block is read with the hashes of the bytes its transactions are read from. -/
theorem exact_block : Exact (fun block : CachedBlock => block.block.bytes)
    (CBlock.unserialize hash sizes) (CachedBlock.Sized hash) := by
  intro s block s'
  rw [CBlock.unserialize, exact_header.run_bind_iff, CachedBlock.sized_iff]
  simp only [(exact_vector (exact_transaction hash sizes) _).run_bind_iff, Get.run_pure,
    CachedBlock.bytes_block]
  constructor
  · rintro ⟨header, s₁, ⟨hversion, rfl⟩, vtx, s₂, ⟨hvtx, rfl⟩, h⟩
    obtain ⟨rfl, rfl⟩ := Prod.mk.inj (Option.some.inj h)
    exact ⟨⟨hversion, hvtx⟩, (List.append_assoc ..).symm⟩
  · rintro ⟨⟨hversion, hvtx⟩, rfl⟩
    exact ⟨block.toCBlockHeader, _, ⟨hversion, List.append_assoc ..⟩, block.vtx, _, ⟨hvtx, rfl⟩, rfl⟩

end

theorem length_header (block : CBlockHeader) : block.bytes.length = 80 := by
  simp [CBlockHeader.bytes, int32Bytes, uint256Bytes, uint32Bytes]

/-- `Unserialize` returns what was serialized, with the cached hash, and takes nothing else: what it
consumes is the one encoding of its result. The size of the encoding is that of `GetSerializeSize`, as
long as an `unsigned int` holds it. -/
theorem wire_exact (hash : Bytes → UInt256) (sizes : SizeOfs) :
    (∀ tx : CTransaction, tx.Sized →
      (∀ s, (CTransaction.unserialize hash sizes).run (tx.serialize streamWrite [] ++ s) =
        some ({ tx with hash := tx.serializeHash hash }, s)) ∧
      tx.getSerializeSize = (tx.serialize streamWrite []).length % 2 ^ 32) ∧
    (∀ block : CBlock, block.Sized →
      (∀ s, (CBlock.unserialize hash sizes).run (block.serialize streamWrite [] ++ s) =
        some ({ block.toCBlockHeader with
          vtx := block.vtx.map fun tx => { tx with hash := tx.serializeHash hash } }, s)) ∧
      block.getSerializeSize = (block.serialize streamWrite []).length % 2 ^ 32) ∧
    (∀ s tx s', (CTransaction.unserialize hash sizes).run s = some (tx, s') →
      ∃ consumed, s = consumed ++ s' ∧ consumed = tx.serialize streamWrite [] ∧
        tx.hash = hash consumed) ∧
    (∀ s block s', (CBlock.unserialize hash sizes).run s = some (block, s') →
      ∃ consumed, s = consumed ++ s' ∧ consumed = block.block.serialize streamWrite [] ∧
        block.getHash hash = hash (consumed.take 80) ∧
        ∀ tx ∈ block.vtx, tx.hash = tx.serializeHash hash) ∧
    (∀ s t tx s', (CTransaction.unserialize hash sizes).run s = some (tx, s') →
      (CTransaction.unserialize hash sizes).run t = some (tx, s') → s = t) ∧
    ∀ s t block s', (CBlock.unserialize hash sizes).run s = some (block, s') →
      (CBlock.unserialize hash sizes).run t = some (block, s') → s = t := by
  have hhash : ∀ tx : CTransaction, tx.serializeHash hash = hash tx.bytes := fun tx => by
    rw [CTransaction.serializeHash, tx.serialize_stream]
  refine ⟨fun tx hsized => ⟨fun s => ?_, ?_⟩, fun block hsized => ⟨fun s => ?_, ?_⟩,
    fun s tx s' hrun => ?_, fun s block s' hrun => ?_,
    fun s t tx s' => (exact_transaction hash sizes).unique,
    fun s t block s' => (exact_block hash sizes).unique⟩
  · rw [tx.serialize_stream]
    exact (exact_transaction hash sizes).roundTrip ⟨tx, tx.serializeHash hash⟩
      ⟨hsized, hhash tx⟩ s
  · rw [tx.getSerializeSize_eq, tx.serialize_stream]
  · rw [block.serialize_stream]
    obtain ⟨cached, hcached⟩ : ∃ cached : CachedBlock, cached = { block.toCBlockHeader with
      vtx := block.vtx.map fun tx => { tx with hash := tx.serializeHash hash } } := ⟨_, rfl⟩
    have hblock : cached.block = block := by
      rw [hcached, CachedBlock.block, List.map_map]
      exact congrArg (CBlock.mk block.toCBlockHeader) (List.map_id _)
    rw [← hcached, ← hblock]
    refine (exact_block hash sizes).roundTrip cached ⟨hblock ▸ hsized, fun tx htx => ?_⟩ s
    rw [hcached] at htx
    obtain ⟨tx', -, rfl⟩ := List.mem_map.mp htx
    exact hhash tx'
  · rw [block.getSerializeSize_eq, block.serialize_stream]
  · obtain ⟨⟨-, htx⟩, rfl⟩ := ((exact_transaction hash sizes) s tx s').mp hrun
    exact ⟨_, rfl, tx.serialize_stream.symm, htx⟩
  · obtain ⟨⟨-, hvtx⟩, rfl⟩ := ((exact_block hash sizes) s block s').mp hrun
    refine ⟨_, rfl, block.block.serialize_stream.symm, ?_, fun tx htx => (hvtx tx htx).trans
      (hhash tx.toCTransaction).symm⟩
    have htake : block.block.bytes.take 80 = block.toCBlockHeader.bytes :=
      List.take_left' (length_header _)
    exact congrArg hash htake.symm

/-- The sizes of the elements on a platform with pointers of 64 bits. -/
def sizeOfs64 : SizeOfs where
  txIn := ⟨72, by decide, by decide⟩
  txOut := ⟨32, by decide, by decide⟩
  transaction := ⟨96, by decide, by decide⟩

/-- A transaction with an input, no outputs and a negative version. -/
def wireTx : CTransaction := ⟨-1, [⟨⟨5, 1⟩, [0x51], 0xFFFFFFFF⟩], [], 7⟩

theorem wireTx_exact : (CTransaction.unserialize (fun bs => Fin.ofNat _ bs.length) sizeOfs64).run
      (wireTx.serialize streamWrite [] ++ [3]) = some ({ wireTx with hash := 52 }, [3]) ∧
    wireTx.getSerializeSize = 52 := by
  have hsized : wireTx.Sized := ⟨by decide, by simp [wireTx, CTxIn.Sized, MAX_SIZE],
    by simp [wireTx]⟩
  obtain ⟨hrun, hsize⟩ := (wire_exact (fun bs => Fin.ofNat _ bs.length) sizeOfs64).1 wireTx hsized
  exact ⟨hrun [3], hsize⟩

/-- A transaction whose scripts have the greatest size that is read, and the size of its encoding. -/
theorem wire_wrapped : ∃ tx : CTransaction, tx.Sized ∧
    tx.getSerializeSize ≠ (tx.serialize streamWrite []).length := by
  obtain ⟨txin, hsized, htxin⟩ : ∃ txin : CTxIn, txin.Sized ∧ MAX_SIZE ≤ txin.bytes.length := by
    refine ⟨⟨⟨0, 0⟩, List.replicate MAX_SIZE 0, 0⟩, List.length_replicate.le, ?_⟩
    rw [CTxIn.bytes, scriptBytes, List.length_append, List.length_append, List.length_append,
      List.length_replicate]
    omega
  have hvin : ∀ x ∈ List.replicate 128 txin, x.Sized := fun x hx => List.eq_of_mem_replicate hx ▸ hsized
  have hmin : (-2 ^ 31 : Int) ≤ 1 ∧ (1 : Int) < 2 ^ 31 := by decide
  refine ⟨⟨1, List.replicate 128 txin, [], 0⟩,
    ⟨hmin, ⟨by rw [List.length_replicate]; decide, hvin⟩, Nat.zero_le _, fun _ hout => by cases hout⟩, ?_⟩
  rw [CTransaction.getSerializeSize_eq, CTransaction.serialize_stream]
  refine Nat.ne_of_lt (Nat.lt_of_lt_of_le (Nat.mod_lt _ (Nat.two_pow_pos 32)) ?_)
  rw [CTransaction.bytes, vectorBytes, List.length_append, List.length_append, List.length_append,
    List.length_append, List.length_flatMap, List.map_replicate, List.sum_replicate_nat]
  unfold MAX_SIZE at htxin
  omega

end GC
