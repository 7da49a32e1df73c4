import GameCredits.Framework.Index
import GameCredits.Framework.Run
import GameCredits.Model.SpendIndex

/-!
# The wallet's index of spends

`mapTxSpends` goes on listing transactions that have been erased. `SyncMetaData` inserts an empty
transaction for each of these that it meets; where it meets none it changes nothing but metadata
(`syncMetaData_sameTx`), so that the index stays one of the transactions in the wallet (`Inv.step`), and
`IsSpent` and `GetConflicts` read it right (`Inv.truthful`).
-/

namespace GC.SpendIndex

open Framework (Bytes IsIndex Reachable run)
open Framework.Assoc (Map)

variable {hash : Bytes → UInt256} {known : Set CTransaction} {m m' : Map UInt256 CWalletTx}
  {w w' : CWallet}

/-- What a transaction spends; a coinbase spends nothing. -/
def Spends (tx : CTransaction) (o : COutPoint) : Prop :=
  tx.isCoinBase = false ∧ o ∈ tx.vin.map CTxIn.prevout

/-- What the transaction with a hash spends. -/
def Refers (hash : Bytes → UInt256) (known : Set CTransaction) (txid : UInt256) (o : COutPoint) : Prop :=
  ∃ tx ∈ known, tx.getHash hash = txid ∧ Spends tx o

/-- The wallet has a transaction for the hash. -/
def Has (m : Map UInt256 CWalletTx) (txid : UInt256) : Prop := (m.lookup txid).isSome = true

/-- What the index is for. -/
structure Truthful (hash : Bytes → UInt256) (w : CWallet) : Prop where
  keys : ∀ txid wtx, w.mapWallet.lookup txid = some wtx → wtx.getHash hash = txid
  indexed : ∀ txid wtx, w.mapWallet.lookup txid = some wtx → ∀ o, Spends wtx.toCTransaction o →
    txid ∈ w.mapTxSpends o
  isSpent : ∀ (depth : CMerkleTx → Int) (o : COutPoint), w.isSpent depth o = true ↔
    ∃ txid wtx, w.mapWallet.lookup txid = some wtx ∧ 0 ≤ depth wtx.toCMerkleTx ∧
      Spends wtx.toCTransaction o
  conflicts : ∀ a b wa wb, w.mapWallet.lookup a = some wa → w.mapWallet.lookup b = some wb → a ≠ b →
    (b ∈ w.getConflicts a ↔ a ∈ w.getConflicts b) ∧
      (b ∈ w.getConflicts a ↔ ∃ o, Spends wa.toCTransaction o ∧ Spends wb.toCTransaction o)

/-! ## Metadata -/

/-- Two maps with the same transactions, which may differ in their metadata. -/
def SameTx (m m' : Map UInt256 CWalletTx) : Prop :=
  ∀ txid, (m.lookup txid).map (fun wtx => wtx.toCTransaction) =
    (m'.lookup txid).map fun wtx => wtx.toCTransaction

theorem SameTx.refl (m : Map UInt256 CWalletTx) : SameTx m m := fun _ => rfl

theorem SameTx.trans {m₁ m₂ m₃ : Map UInt256 CWalletTx} (h₁ : SameTx m₁ m₂) (h₂ : SameTx m₂ m₃) :
    SameTx m₁ m₃ := fun txid => (h₁ txid).trans (h₂ txid)

theorem SameTx.has_iff (h : SameTx m m') (txid : UInt256) : Has m' txid ↔ Has m txid := by
  rw [Has, Has, ← Option.isSome_map (f := fun wtx : CWalletTx => wtx.toCTransaction), ← h txid,
    Option.isSome_map]

theorem SameTx.lookup (h : SameTx m m') {txid : UInt256} {wtx : CWalletTx}
    (hwtx : m'.lookup txid = some wtx) :
    ∃ wtx', m.lookup txid = some wtx' ∧ wtx'.toCTransaction = wtx.toCTransaction := by
  have hsame := h txid
  rw [hwtx] at hsame
  exact Option.map_eq_some_iff.mp hsame

theorem sameTx_insert {txid : UInt256} {wtx wtx' : CWalletTx} (hwtx : m.lookup txid = some wtx)
    (h : wtx.toCTransaction = wtx'.toCTransaction) : SameTx m (m.insert txid wtx') := fun i => by
  by_cases hi : i = txid
  · rw [hi, hwtx, AList.lookup_insert, Option.map_some, Option.map_some, h]
  · rw [AList.lookup_insert_ne hi]

theorem access_of_has {txid : UInt256} (h : Has m txid) :
    ∃ wtx, m.lookup txid = some wtx ∧ access m txid = (wtx, m) := by
  obtain ⟨wtx, hwtx⟩ := Option.isSome_iff_exists.mp h
  exact ⟨wtx, hwtx, by rw [access, hwtx]⟩

theorem findOldest_of_has {range : List UInt256} (h : ∀ txid ∈ range, Has m txid) (n : Int)
    (copyFrom : Option UInt256) : (findOldest range m n copyFrom).2 = m := by
  induction range generalizing n copyFrom with
  | nil => rfl
  | cons txid range ih =>
    obtain ⟨hfirst, hrest⟩ := List.forall_mem_cons.mp h
    obtain ⟨wtx, -, haccess⟩ := access_of_has hfirst
    simp only [findOldest, haccess]
    split_ifs
    · exact ih hrest _ _
    · exact ih hrest _ _

theorem copyMetaData_sameTx {copyFrom : Option UInt256} {range : List UInt256}
    (h : ∀ txid ∈ range, Has m txid) (hcopy : copyMetaData copyFrom range m = some m') :
    SameTx m m' := by
  induction range generalizing m with
  | nil =>
    rw [← Option.some.inj hcopy]
    exact .refl m
  | cons txid range ih =>
    obtain ⟨hfirst, hrest⟩ := List.forall_mem_cons.mp h
    obtain ⟨wtx, hwtx, haccess⟩ := access_of_has hfirst
    simp only [copyMetaData, haccess] at hcopy
    split_ifs at hcopy
    · exact ih hrest hcopy
    · obtain ⟨source, -, hcopy⟩ := Option.bind_eq_some_iff.mp hcopy
      have hsame : SameTx m (m.insert txid { wtx with
          mapValue := source.mapValue
          vOrderForm := source.vOrderForm
          nTimeSmart := source.nTimeSmart
          fFromMe := source.fFromMe
          strFromAccount := source.strFromAccount }) := sameTx_insert hwtx rfl
      exact hsame.trans (ih (fun txid htxid => (hsame.has_iff txid).mpr (hrest txid htxid)) hcopy)

/-- Where all listed transactions are in the wallet, their metadata is all that changes. -/
theorem syncMetaData_sameTx {range : List UInt256} (h : ∀ txid ∈ range, Has m txid)
    (hsync : syncMetaData range m = some m') : SameTx m m' := by
  unfold syncMetaData at hsync
  dsimp only at hsync
  rw [findOldest_of_has h] at hsync
  exact copyMetaData_sameTx h hsync

/-! ## Spends -/

/-- Listing a transaction of the wallet under an outpoint whose listed transactions the wallet has. -/
theorem addOutPoint_sameTx {o : COutPoint} {wtxid : UInt256}
    (hlisted : ∀ txid ∈ w.mapTxSpends o, Has w.mapWallet txid) (hwtxid : Has w.mapWallet wtxid)
    (h : w.addOutPoint o wtxid = some w') :
    SameTx w.mapWallet w'.mapWallet ∧
      w'.mapTxSpends = Function.update w.mapTxSpends o (w.mapTxSpends o ++ [wtxid]) := by
  obtain ⟨mapWallet, hsync, h⟩ := Option.bind_eq_some_iff.mp h
  cases h
  refine ⟨syncMetaData_sameTx (fun txid htxid => ?_) hsync, rfl⟩
  rw [Function.update_self] at htxid
  rcases List.mem_append.mp htxid with htxid | htxid
  · exact hlisted txid htxid
  · rwa [List.mem_singleton.mp htxid]

theorem mem_update {f : COutPoint → List UInt256} {o o' : COutPoint} {wtxid txid : UInt256} :
    txid ∈ Function.update f o (f o ++ [wtxid]) o' ↔ txid ∈ f o' ∨ txid = wtxid ∧ o' = o := by
  by_cases ho : o' = o
  · rw [ho, Function.update_self, List.mem_append, List.mem_singleton, and_iff_left rfl]
  · rw [Function.update_of_ne ho, or_iff_left fun h => ho h.2]

theorem addInputs_sameTx {wtxid : UInt256} {vin : List CTxIn}
    (hlisted : ∀ o ∈ vin.map CTxIn.prevout, ∀ txid ∈ w.mapTxSpends o, Has w.mapWallet txid)
    (hwtxid : Has w.mapWallet wtxid) (h : CWallet.addInputs wtxid vin w = some w') :
    SameTx w.mapWallet w'.mapWallet ∧ ∀ o txid, txid ∈ w'.mapTxSpends o ↔
      txid ∈ w.mapTxSpends o ∨ txid = wtxid ∧ o ∈ vin.map CTxIn.prevout := by
  induction vin generalizing w with
  | nil =>
    cases h
    exact ⟨.refl _, fun o txid => (or_iff_left fun h => List.not_mem_nil h.2).symm⟩
  | cons txin vin ih =>
    obtain ⟨w₁, hfirst, hrest⟩ := Option.bind_eq_some_iff.mp h
    rw [List.map_cons] at hlisted ⊢
    obtain ⟨hlisted₁, hlisted₂⟩ := List.forall_mem_cons.mp hlisted
    obtain ⟨hsame₁, hspends₁⟩ := addOutPoint_sameTx hlisted₁ hwtxid hfirst
    have hmem : ∀ o txid, txid ∈ w₁.mapTxSpends o ↔
        txid ∈ w.mapTxSpends o ∨ txid = wtxid ∧ o = txin.prevout := fun o txid => by
      rw [hspends₁, mem_update]
    obtain ⟨hsame₂, hspends₂⟩ := ih (fun o ho txid htxid => (hsame₁.has_iff txid).mpr (by
      rcases (hmem o txid).mp htxid with htxid | ⟨rfl, -⟩
      · exact hlisted₂ o ho txid htxid
      · exact hwtxid)) ((hsame₁.has_iff wtxid).mpr hwtxid) hrest
    refine ⟨hsame₁.trans hsame₂, fun o txid => ?_⟩
    rw [hspends₂, hmem, List.mem_cons, or_assoc, ← and_or_left]

/-- A transaction of the wallet is listed under what it spends. -/
theorem addToSpends_sameTx {wtxid : UInt256} {wtx : CWalletTx}
    (hwtx : w.mapWallet.lookup wtxid = some wtx)
    (hlisted : ∀ o, Spends wtx.toCTransaction o → ∀ txid ∈ w.mapTxSpends o, Has w.mapWallet txid)
    (h : w.addToSpends wtxid = some w') :
    SameTx w.mapWallet w'.mapWallet ∧ ∀ o txid, txid ∈ w'.mapTxSpends o ↔
      txid ∈ w.mapTxSpends o ∨ txid = wtxid ∧ Spends wtx.toCTransaction o := by
  simp only [CWallet.addToSpends, hwtx, Option.bind_eq_bind, Option.bind_some] at h
  split_ifs at h with hcoinbase
  · cases h
    refine ⟨.refl _, fun o txid => (or_iff_left fun h => ?_).symm⟩
    exact absurd (h.2.1.symm.trans hcoinbase) Bool.false_ne_true
  · rw [Bool.not_eq_true] at hcoinbase
    obtain ⟨hsame, hspends⟩ := addInputs_sameTx (fun o ho => hlisted o ⟨hcoinbase, ho⟩)
      (Option.isSome_iff_exists.mpr ⟨wtx, hwtx⟩) h
    exact ⟨hsame, fun o txid => (hspends o txid).trans (or_congr_right (and_congr_right fun _ =>
      (and_iff_right hcoinbase).symm))⟩

/-! ## The invariant -/

structure Inv (hash : Bytes → UInt256) (known : Set CTransaction) (w : CWallet) : Prop where
  keys : ∀ txid wtx, w.mapWallet.lookup txid = some wtx →
    wtx.toCTransaction ∈ known ∧ wtx.getHash hash = txid
  index : IsIndex (Refers hash known) (Has w.mapWallet) w.mapTxSpends

/-- The transactions of a call are known ones. -/
def Known (known : Set CTransaction) : Call → Prop
  | .addToWallet _ wtxIn _ => wtxIn.toCTransaction ∈ known
  | .eraseFromWallet _ => True

/-- The wallet has the transactions that are listed under what a new transaction spends. -/
def Listed (hash : Bytes → UInt256) : Call → CWallet → Prop
  | .addToWallet _ wtxIn fFromLoadWallet, w =>
    fFromLoadWallet = true ∨ ¬Has w.mapWallet (wtxIn.getHash hash) →
      ∀ o, Spends wtxIn.toCTransaction o → ∀ txid ∈ w.mapTxSpends o,
        txid = wtxIn.getHash hash ∨ Has w.mapWallet txid
  | .eraseFromWallet _, _ => True

theorem refers_iff (hinj : Set.InjOn (CTransaction.getHash hash) known) {tx : CTransaction}
    (htx : tx ∈ known) {o : COutPoint} : Refers hash known (tx.getHash hash) o ↔ Spends tx o := by
  refine ⟨fun ⟨tx', htx', heq, hspends⟩ => ?_, fun h => ⟨tx, htx, rfl, h⟩⟩
  rwa [← hinj htx' htx heq]

/-- Another transaction under the hash of a transaction, with nothing else changed. -/
theorem Inv.congr (h : Inv hash known w) (hsame : SameTx w.mapWallet m) :
    Inv hash known { w with mapWallet := m } where
  keys txid wtx hwtx := by
    obtain ⟨wtx', hwtx', heq⟩ := hsame.lookup hwtx
    have hkeys := h.keys txid wtx' hwtx'
    rw [heq] at hkeys
    exact hkeys
  index := h.index.erase fun txid => (hsame.has_iff txid).mp

/-- A new transaction, put into the map and listed under what it spends. -/
theorem Inv.insert (h : Inv hash known w) (hinj : Set.InjOn (CTransaction.getHash hash) known)
    {tx : CTransaction} {wtx : CWalletTx} (hknown : tx ∈ known) (htx : wtx.toCTransaction = tx)
    (hlookup : ∀ txid, m.lookup txid =
      if txid = tx.getHash hash then some wtx else w.mapWallet.lookup txid)
    (hlisted : ∀ o, Spends tx o → ∀ txid ∈ w.mapTxSpends o,
      txid = tx.getHash hash ∨ Has w.mapWallet txid) {n : Int}
    (hadd : { w with mapWallet := m, nOrderPosNext := n }.addToSpends (tx.getHash hash) = some w') :
    Inv hash known w' := by
  subst htx
  have hself : m.lookup (wtx.getHash hash) = some wtx := by rw [hlookup, if_pos rfl]
  have hhas : ∀ txid, Has m txid ↔ txid = wtx.getHash hash ∨ Has w.mapWallet txid := fun txid => by
    rw [Has, hlookup]
    split_ifs with htxid
    · exact iff_of_true rfl (.inl htxid)
    · exact (or_iff_right htxid).symm
  obtain ⟨hsame, hspends⟩ := addToSpends_sameTx
    (w := { w with mapWallet := m, nOrderPosNext := n }) hself (fun o ho txid htxid => (hhas txid).mpr (hlisted o ho txid htxid)) hadd
  refine ⟨fun txid wtx' hwtx' => ?_,
    h.index.add (k := wtx.getHash hash) (fun txid htxid => ?_) fun o txid => ?_⟩
  · obtain ⟨wtx₁, hwtx₁, heq⟩ := hsame.lookup hwtx'
    have hkeys : wtx₁.toCTransaction ∈ known ∧ wtx₁.getHash hash = txid := by
      rw [hlookup] at hwtx₁
      split_ifs at hwtx₁ with htxid
      · cases hwtx₁
        exact ⟨hknown, htxid.symm⟩
      · exact h.keys txid wtx₁ hwtx₁
    rw [heq] at hkeys
    exact hkeys
  · exact (hhas txid).mp ((hsame.has_iff txid).mp htxid)
  · rw [hspends, refers_iff hinj hknown]

theorem stampTx_toCTransaction (w : CWallet) (env : Env) (txid : UInt256) (wtxIn : CWalletTx) :
    (w.stampTx env txid wtxIn).toCTransaction = wtxIn.toCTransaction := by
  unfold CWallet.stampTx
  dsimp only
  split <;> rfl

theorem merge_toCTransaction (wtx wtxIn : CWalletTx) :
    (CWallet.merge wtx wtxIn).toCTransaction = wtx.toCTransaction := by
  unfold CWallet.merge
  dsimp only
  split_ifs <;> rfl

/-- Every call keeps the invariant, if the wallet has what is listed under the spends of a transaction
that it adds. -/
theorem Inv.step (h : Inv hash known w) (hinj : Set.InjOn (CTransaction.getHash hash) known)
    {call : Call} (hknown : Known known call) (hlisted : Listed hash call w) (hstep : step hash call w = some w') :
    Inv hash known w' := by
  cases call with
  | eraseFromWallet txid =>
    obtain rfl : w.eraseFromWallet txid = w' := Option.some.inj hstep
    unfold CWallet.eraseFromWallet
    split_ifs
    · exact h
    · refine ⟨fun i wtx hwtx => ?_, h.index.erase fun i hi => ?_⟩
      · exact h.keys i wtx (Framework.Assoc.lookup_erase_iff.mp hwtx).2
      · obtain ⟨wtx, hwtx⟩ := Option.isSome_iff_exists.mp hi
        exact Option.isSome_iff_exists.mpr ⟨wtx, (Framework.Assoc.lookup_erase_iff.mp hwtx).2⟩
  | addToWallet env wtxIn fFromLoadWallet =>
    have hstep : w.addToWallet hash env wtxIn fFromLoadWallet = some w' := hstep
    unfold CWallet.addToWallet at hstep
    dsimp only at hstep
    split_ifs at hstep with hload
    · refine h.insert hinj hknown rfl (fun txid => ?_) (hlisted (.inl hload)) hstep
      split_ifs with htxid
      · rw [htxid, AList.lookup_insert]
      · rw [AList.lookup_insert_ne htxid]
    · cases hwtx : w.mapWallet.lookup (wtxIn.getHash hash) with
      | none =>
        rw [hwtx] at hstep
        have hnew : ¬Has w.mapWallet (wtxIn.getHash hash) := by
          rw [Has, hwtx]
          exact Bool.false_ne_true
        refine h.insert hinj hknown (stampTx_toCTransaction w env (wtxIn.getHash hash) wtxIn)
          (fun txid => ?_) (hlisted (.inr hnew)) hstep
        split_ifs with htxid
        · rw [htxid, AList.lookup_insert]
        · rw [AList.lookup_insert_ne htxid]
      | some wtx =>
        rw [hwtx] at hstep
        cases hstep
        exact h.congr (sameTx_insert hwtx (merge_toCTransaction wtx wtxIn).symm)

theorem inv_empty (h : Empty w) : Inv hash known w := by
  obtain ⟨hmap, hspends⟩ := h
  refine ⟨fun txid wtx hwtx => ?_, ?_⟩
  · rw [hmap, AList.lookup_empty] at hwtx
    cases hwtx
  · rw [hspends]
    refine .nil fun txid h => ?_
    rw [Has, hmap, AList.lookup_empty] at h
    exact Bool.false_ne_true h

/-! ## What the index says -/

theorem Inv.refers_iff (h : Inv hash known w) (hinj : Set.InjOn (CTransaction.getHash hash) known)
    {txid : UInt256} {wtx : CWalletTx} (hwtx : w.mapWallet.lookup txid = some wtx) {o : COutPoint} :
    Refers hash known txid o ↔ Spends wtx.toCTransaction o := by
  obtain ⟨hknown, hhash⟩ := h.keys txid wtx hwtx
  rw [← hhash]
  exact SpendIndex.refers_iff hinj hknown

theorem Inv.isSpent_iff (h : Inv hash known w) (hinj : Set.InjOn (CTransaction.getHash hash) known)
    (depth : CMerkleTx → Int) (o : COutPoint) : w.isSpent depth o = true ↔
      ∃ txid wtx, w.mapWallet.lookup txid = some wtx ∧ 0 ≤ depth wtx.toCMerkleTx ∧
        Spends wtx.toCTransaction o := by
  have hlisted : w.isSpent depth o = true ↔ ∃ txid ∈ w.mapTxSpends o, Has w.mapWallet txid ∧
      ∃ wtx, w.mapWallet.lookup txid = some wtx ∧ 0 ≤ depth wtx.toCMerkleTx := by
    rw [CWallet.isSpent, List.any_eq_true]
    refine exists_congr fun txid => and_congr_right fun _ => ?_
    rw [Has]
    cases w.mapWallet.lookup txid with
    | none => simp
    | some wtx => simp
  rw [hlisted, h.index.any_iff]
  constructor
  · rintro ⟨txid, -, ⟨wtx, hwtx, hdepth⟩, hrefers⟩
    exact ⟨txid, wtx, hwtx, hdepth, (h.refers_iff hinj hwtx).mp hrefers⟩
  · rintro ⟨txid, wtx, hwtx, hdepth, hspends⟩
    exact ⟨txid, Option.isSome_iff_exists.mpr ⟨wtx, hwtx⟩, ⟨wtx, hwtx, hdepth⟩,
      (h.refers_iff hinj hwtx).mpr hspends⟩

/-- Only a coinbase has a null `prevout`, which `CheckTransaction` ensures. -/
def NullInCoinBase (known : Set CTransaction) : Prop :=
  ∀ tx ∈ known, tx.isCoinBase = false → ∀ txin ∈ tx.vin, txin.prevout.isNull = false

theorem isNull_of_coinbase {tx : CTransaction} (h : tx.isCoinBase = true) {o : COutPoint}
    (ho : o ∈ tx.vin.map CTxIn.prevout) : o.isNull = true := by
  unfold CTransaction.isCoinBase at h
  split at h
  · next txin heq =>
    rw [heq] at ho
    rwa [List.mem_singleton.mp ho]
  · cases h

theorem Inv.mem_getConflicts (h : Inv hash known w) (hinj : Set.InjOn (CTransaction.getHash hash) known)
    (hnull : NullInCoinBase known) {a b : UInt256} {wa wb : CWalletTx}
    (ha : w.mapWallet.lookup a = some wa) (hb : w.mapWallet.lookup b = some wb) (hne : a ≠ b) :
    b ∈ w.getConflicts a ↔ ∃ o, Spends wa.toCTransaction o ∧ Spends wb.toCTransaction o := by
  have hmem : b ∈ w.getConflicts a ↔
      ∃ o ∈ wa.vin.map CTxIn.prevout, 1 < (w.mapTxSpends o).length ∧ b ∈ w.mapTxSpends o := by
    simp only [CWallet.getConflicts, ha, List.mem_toFinset, List.mem_flatMap, List.mem_map,
      exists_exists_and_eq_and]
    refine exists_congr fun txin => and_congr_right fun _ => ?_
    split_ifs with hle
    · exact iff_of_false List.not_mem_nil fun h => absurd h.1 (not_lt.mpr hle)
    · rw [and_iff_right (not_le.mp hle)]
  have hshared := h.index.shared_iff (Option.isSome_iff_exists.mpr ⟨wa, ha⟩)
    (Option.isSome_iff_exists.mpr ⟨wb, hb⟩) hne
  simp only [h.refers_iff hinj ha, h.refers_iff hinj hb] at hshared
  rw [hmem, ← hshared]
  refine exists_congr fun o => ?_
  rw [Spends]
  cases hcoinbase : wa.isCoinBase with
  | false => rw [and_iff_right rfl]
  | true =>
    -- nothing is listed under the null outpoint
    refine iff_of_false ?_ fun h => absurd h.1.1.symm Bool.false_ne_true
    rintro ⟨ho, -, hlisted⟩
    obtain ⟨tx, htx, -, hspends⟩ := h.index.sound o b hlisted
    obtain ⟨txin, htxin, heq⟩ := List.mem_map.mp hspends.2
    have hfalse := hnull tx htx hspends.1 txin htxin
    rw [heq, isNull_of_coinbase hcoinbase ho] at hfalse
    cases hfalse

theorem Inv.truthful (h : Inv hash known w) (hinj : Set.InjOn (CTransaction.getHash hash) known)
    (hnull : NullInCoinBase known) : Truthful hash w where
  keys txid wtx hwtx := (h.keys txid wtx hwtx).2
  indexed txid wtx hwtx o ho :=
    h.index.complete txid (Option.isSome_iff_exists.mpr ⟨wtx, hwtx⟩) o ((h.refers_iff hinj hwtx).mpr ho)
  isSpent := h.isSpent_iff hinj
  conflicts a b wa wb ha hb hne := by
    have hab := h.mem_getConflicts hinj hnull ha hb hne
    have hba := h.mem_getConflicts hinj hnull hb ha hne.symm
    refine ⟨hab.trans (Iff.trans ?_ hba.symm), hab⟩
    exact exists_congr fun o => and_comm

/-- The index is truthful in every state that is reached, if the wallet has, whenever it adds a
transaction, the transactions listed under what that spends. -/
theorem reachable_truthful (hinj : Set.InjOn (CTransaction.getHash hash) known)
    (hnull : NullInCoinBase known)
    (h : Reachable Empty (step hash) (fun call w => Known known call ∧ Listed hash call w) w) :
    Truthful hash w := by
  have hinv : Inv hash known w := h.invariant (fun w => inv_empty)
    fun call w w' hw hok hstep => hw.step hinj hok.1 hok.2 hstep
  exact hinv.truthful hinj hnull

/-! ## A wallet that erases a transaction -/

def sampleHash (bytes : Bytes) : UInt256 := Fin.ofNat _ (Framework.leNat bytes.reverse)

/-- Transactions that spend one output, and differ in `nLockTime`. -/
def sampleTx (nLockTime : UInt32) : CTransaction := ⟨1, [⟨⟨7, 0⟩, [], 0⟩], [⟨5, []⟩], nLockTime⟩

def sampleWtx (nLockTime : UInt32) : CWalletTx :=
  { CWalletTx.empty with toCTransaction := sampleTx nLockTime }

def sampleEnv : Env := ⟨1000, fun _ => none, []⟩

def emptyWallet : CWallet := ⟨∅, fun _ => [], 0, true⟩

def sampleKnown : Set CTransaction := {sampleTx 1, sampleTx 2}

theorem sampleTx_one_mem : sampleTx 1 ∈ sampleKnown := .inl rfl

theorem sampleTx_two_mem : sampleTx 2 ∈ sampleKnown := .inr rfl

theorem injOn_sampleHash : Set.InjOn (CTransaction.getHash sampleHash) sampleKnown := by
  have hne : (sampleTx 1).getHash sampleHash ≠ (sampleTx 2).getHash sampleHash := by decide +kernel
  rintro tx (rfl | rfl) tx' (rfl | rfl) h
  · rfl
  · exact absurd h hne
  · exact absurd h.symm hne
  · rfl

theorem nullInCoinBase_sampleKnown : NullInCoinBase sampleKnown := by
  rintro tx (rfl | rfl) - txin htxin
  · rw [List.mem_singleton.mp htxin]
    rfl
  · rw [List.mem_singleton.mp htxin]
    rfl

def sampleCall : Call := .addToWallet sampleEnv (sampleWtx 1) false

/-- A wallet with the first of the two transactions. -/
def sampleWallet : CWallet := (step sampleHash sampleCall emptyWallet).get (by decide +kernel)

theorem reachable_truthful_sample : Truthful sampleHash sampleWallet := by
  have hok : Known sampleKnown sampleCall ∧ Listed sampleHash sampleCall emptyWallet :=
    ⟨sampleTx_one_mem, fun _ _ _ _ h => absurd h List.not_mem_nil⟩
  have hstep : step sampleHash sampleCall emptyWallet = some sampleWallet := (Option.some_get _).symm
  exact reachable_truthful injOn_sampleHash nullInCoinBase_sampleKnown
    (.step (.init ⟨rfl, rfl⟩) hok hstep)

/-- A transaction is added and erased, and one that conflicts with it is added. -/
def erasingCalls : List Call :=
  [.addToWallet sampleEnv (sampleWtx 1) false, .eraseFromWallet ((sampleTx 1).getHash sampleHash),
    .addToWallet sampleEnv (sampleWtx 2) false]

def erasingWallet : CWallet :=
  (run (step sampleHash) erasingCalls emptyWallet).get (by decide +kernel)

/-- `SyncMetaData` puts an empty transaction under the hash of the erased one. -/
theorem reachable_truthful_counterexample :
    ¬∀ (hash : Bytes → UInt256) (known : Set CTransaction), Set.InjOn (CTransaction.getHash hash) known →
      NullInCoinBase known → ∀ w, Reachable Empty (step hash) (fun call _ => Known known call) w →
        Truthful hash w := fun h => by
  have hknown : ∀ call ∈ erasingCalls, Known sampleKnown call :=
    List.forall_mem_cons.mpr ⟨sampleTx_one_mem,
      List.forall_mem_cons.mpr ⟨trivial, List.forall_mem_singleton.mpr sampleTx_two_mem⟩⟩
  have hreachable :
      Reachable Empty (step sampleHash) (fun call _ => Known sampleKnown call) erasingWallet :=
    Reachable.run (.init ⟨rfl, rfl⟩) (fun calls call calls' _ heq _ => hknown call (by rw [heq]; simp))
      (Option.some_get _).symm
  have hempty : (erasingWallet.mapWallet.lookup ((sampleTx 1).getHash sampleHash)).map
      (fun wtx => decide (wtx.getHash sampleHash = (sampleTx 1).getHash sampleHash)) = some false := by
    decide +kernel
  obtain ⟨wtx, hwtx, hne⟩ := Option.map_eq_some_iff.mp hempty
  have htruthful := h sampleHash sampleKnown injOn_sampleHash nullInCoinBase_sampleKnown _ hreachable
  exact of_decide_eq_false hne (htruthful.keys _ wtx hwtx)

end GC.SpendIndex
