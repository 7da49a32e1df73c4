import GameCredits.Model.Compressor

/-!
# Undo data (undo.h)

`CTxInUndo`, `CTxUndo`, `CBlockUndo` and their encoding. The metadata of a record is kept only in
the undo of the spend that emptied it; `nHeight = 0` says that there is none.

* `readBlockUndo_write`: reading inverts writing on undo data whose fields fit the encoding
  (`CBlockUndo.Encodable`).
* `readBlockUndo_stored`: where versions are negative, what is read back differs in these only.
-/

namespace GC

open Framework

/-- `CTxInUndo`: the output spent and, when it was the last of its record, the record's metadata. -/
structure CTxInUndo where
  txout : CTxOut
  fCoinBase : Bool
  nHeight : Nat
  nVersion : Int
  deriving DecidableEq, Repr

/-- `CTxInUndo(txout)`: without metadata. -/
def CTxInUndo.ofTxOut (txout : CTxOut) : CTxInUndo := ⟨txout, false, 0, 0⟩

/-- `CTxUndo`. -/
structure CTxUndo where
  vprevout : List CTxInUndo
  deriving DecidableEq, Repr

/-- `CBlockUndo`: the undo data of every transaction but the coinbase. -/
structure CBlockUndo where
  vtxundo : List CTxUndo
  deriving DecidableEq, Repr

section Codec

variable (ops : PubKeyOps)

/-- `CTxInUndo::Serialize`. -/
def writeTxInUndo (undo : CTxInUndo) : Bytes :=
  writeVarInt ((undo.nHeight * 2 + if undo.fCoinBase then 1 else 0) % 2 ^ 32) ++
    (if 0 < undo.nHeight then writeVarIntSigned undo.nVersion else []) ++ writeTxOut ops undo.txout

/-- `CTxInUndo::Unserialize` into a new object. -/
def readTxInUndo : Get CTxInUndo := do
  let nCode ← readVarInt 32
  let nVersion ← if 0 < nCode / 2 then readVarIntSigned else pure 0
  let txout ← readTxOut ops
  return ⟨txout, nCode % 2 == 1, nCode / 2, nVersion⟩

/-- A vector: its size, then its elements. -/
def readVector {α : Type} (get : Get α) : Get (List α) := do
  let nSize ← readCompactSize
  getMany get nSize

def writeTxUndo (undo : CTxUndo) : Bytes := vectorBytes (writeTxInUndo ops) undo.vprevout

def readTxUndo : Get CTxUndo := do
  let vprevout ← readVector (readTxInUndo ops)
  return ⟨vprevout⟩

def writeBlockUndo (undo : CBlockUndo) : Bytes := vectorBytes (writeTxUndo ops) undo.vtxundo

def readBlockUndo : Get CBlockUndo := do
  let vtxundo ← readVector (readTxUndo ops)
  return ⟨vtxundo⟩

end Codec

/-- The undo data of an input that the encoding keeps: a compressible output, with metadata that
fits and is absent exactly when the height is zero. -/
structure CTxInUndo.Encodable (undo : CTxInUndo) : Prop where
  txout : undo.txout.Compressible
  height : undo.nHeight < 2 ^ 31
  version : 0 ≤ undo.nVersion ∧ undo.nVersion < 2 ^ 31
  absent : undo.nHeight = 0 → undo.nVersion = 0

def CTxUndo.Encodable (undo : CTxUndo) : Prop :=
  undo.vprevout.length ≤ MAX_SIZE ∧ ∀ u ∈ undo.vprevout, u.Encodable

def CBlockUndo.Encodable (undo : CBlockUndo) : Prop :=
  undo.vtxundo.length ≤ MAX_SIZE ∧ ∀ u ∈ undo.vtxundo, u.Encodable

/-- Undo data as it is read back: negative versions are not kept. -/
def CTxInUndo.stored (undo : CTxInUndo) : CTxInUndo :=
  { undo with nVersion := storedVersion undo.nVersion }

def CTxUndo.stored (undo : CTxUndo) : CTxUndo := ⟨undo.vprevout.map CTxInUndo.stored⟩

def CBlockUndo.stored (undo : CBlockUndo) : CBlockUndo := ⟨undo.vtxundo.map CTxUndo.stored⟩

variable {ops : PubKeyOps}

theorem vectorBytes_map {α β : Type} {put : α → Bytes} {put' : β → Bytes} {f : α → β}
    (h : ∀ a, put' (f a) = put a) (v : List α) : vectorBytes put' (v.map f) = vectorBytes put v := by
  rw [vectorBytes, vectorBytes, List.length_map, List.flatMap_map]
  simp only [h]

theorem writeTxInUndo_stored (undo : CTxInUndo) :
    writeTxInUndo ops undo.stored = writeTxInUndo ops undo := by
  show _ ++ (if 0 < undo.nHeight then writeVarIntSigned (storedVersion undo.nVersion) else []) ++ _ = _
  rw [writeVarIntSigned_stored]
  rfl

theorem writeTxUndo_stored (undo : CTxUndo) : writeTxUndo ops undo.stored = writeTxUndo ops undo :=
  vectorBytes_map writeTxInUndo_stored undo.vprevout

theorem writeBlockUndo_stored (undo : CBlockUndo) :
    writeBlockUndo ops undo.stored = writeBlockUndo ops undo :=
  vectorBytes_map writeTxUndo_stored undo.vtxundo

theorem readTxInUndo_write (hops : ops.Lawful) :
    RoundTrip (writeTxInUndo ops) (readTxInUndo ops) CTxInUndo.Encodable := by
  rintro ⟨txout, fCoinBase, nHeight, nVersion⟩ ⟨hout, hh, hv, habs⟩ s
  have hh : nHeight < 2 ^ 31 := hh
  obtain ⟨c, hc, hcode⟩ : ∃ c, c < 2 ∧ (if fCoinBase then 1 else 0) = c ∧ (c == 1) = fCoinBase := by
    cases fCoinBase
    · exact ⟨0, by decide, rfl, rfl⟩
    · exact ⟨1, by decide, rfl, rfl⟩
  have hdiv : (nHeight * 2 + c) / 2 = nHeight := by omega
  have hmod : (nHeight * 2 + c) % 2 = c := by omega
  simp only [writeTxInUndo, hcode.1, List.append_assoc]
  rw [Nat.mod_eq_of_lt (by omega : nHeight * 2 + c < 2 ^ 32), readTxInUndo,
    Get.run_bind_some (readVarInt_write (by decide) _ (by omega) _)]
  simp only [hdiv, hmod, hcode.2]
  split_ifs with hpos
  · rw [Get.run_bind_some (readVarIntSigned_write _ hv _),
      Get.run_bind_some (readTxOut_write hops _ hout s), Get.run_pure]
  · obtain rfl : nHeight = 0 := by omega
    rw [List.nil_append, Get.run_bind_some (Get.run_pure _ _),
      Get.run_bind_some (readTxOut_write hops _ hout s), Get.run_pure]
    rw [show (0 : Int) = nVersion from (habs rfl).symm]

theorem readVector_write {α : Type} {put : α → Bytes} {get : Get α} {P : α → Prop}
    (h : RoundTrip put get P) :
    RoundTrip (vectorBytes put) (readVector get) fun v => v.length ≤ MAX_SIZE ∧ ∀ a ∈ v, P a := by
  rintro v ⟨hlen, hP⟩ s
  rw [vectorBytes, List.append_assoc, readVector,
    Get.run_bind_some (readCompactSize_write _ hlen _), h.getMany v hP s]

theorem readTxUndo_write (hops : ops.Lawful) :
    RoundTrip (writeTxUndo ops) (readTxUndo ops) CTxUndo.Encodable := by
  intro undo hu s
  rw [writeTxUndo, readTxUndo,
    Get.run_bind_some (readVector_write (readTxInUndo_write hops) _ hu s), Get.run_pure]

theorem readBlockUndo_write (hops : ops.Lawful) :
    RoundTrip (writeBlockUndo ops) (readBlockUndo ops) CBlockUndo.Encodable := by
  intro undo hu s
  rw [writeBlockUndo, readBlockUndo,
    Get.run_bind_some (readVector_write (readTxUndo_write hops) _ hu s), Get.run_pure]

/-- What is read back of undo data with versions of either sign. -/
theorem readBlockUndo_stored (hops : ops.Lawful) {undo : CBlockUndo} (h : undo.stored.Encodable) :
    (readBlockUndo ops).run (writeBlockUndo ops undo) = some (undo.stored, []) := by
  have := readBlockUndo_write hops undo.stored h []
  rwa [List.append_nil, writeBlockUndo_stored] at this

end GC
