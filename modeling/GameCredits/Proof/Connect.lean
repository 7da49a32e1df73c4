import GameCredits.Proof.Changes
import Mathlib.Algebra.Order.BigOperators.Group.List

/-!
# What an accepted block does

`ConnectBlock` run on a plain store. Its checks only read; the store changes by the changes of the
block, in order (`connectBlock_ok`), and the undo data is that of these changes.
-/

namespace GC

open Framework (Prog Impl Map Journal)

/-- The plain store as an implementation. -/
abbrev plain : Impl UInt256 CCoins UInt256 CoinsMap := Map.impl .empty

/-- The outpoints that a transaction spends; a coinbase spends none. -/
def CTransaction.spends (tx : CTransaction) : List COutPoint :=
  if tx.isCoinBase then [] else tx.vin.map CTxIn.prevout

theorem spends_coinBase {tx : CTransaction} (h : tx.isCoinBase = true) : tx.spends = [] := if_pos h

theorem spends_not_coinBase {tx : CTransaction} (h : tx.isCoinBase = false) :
    tx.spends = tx.vin.map CTxIn.prevout := if_neg (by rw [h]; decide)

/-- The value of the output at an outpoint, zero when it is not available. -/
def CoinsMap.valueAt (m : CoinsMap) (o : COutPoint) : Int := ((m.output? o).map CTxOut.nValue).getD 0

/-! ## Reading -/

section Reading

variable {m m' : CoinsMap}

/-- Reading a record of a plain store. -/
theorem run_accessCoins {β : Type} (txid : UInt256) (f : Option CCoins → CoinsProg β) :
    (accessCoins txid >>= f).run plain m = (f (m.rec? txid)).run plain m := rfl

theorem run_getBestBlock {β : Type} (f : UInt256 → CoinsProg β) :
    (getBestBlock >>= f).run plain m = (f m.tag).run plain m := rfl

theorem getOutputFor_run (txin : CTxIn) :
    (getOutputFor txin).run plain m = (outputAt (m.rec? txin.prevout.hash) txin.prevout.n.toNat, m) := by
  rw [getOutputFor, Prog.run_bind]
  exact Prog.run_lift _ _

theorem outputAt_rec? {o : COutPoint} {out : CTxOut} :
    outputAt (m.rec? o.hash) o.n.toNat = .ok out ↔ m.output? o = some out := by
  rw [outputAt_getD, outputAt_ok]; rfl

theorem getOutputFor_reads (txin : CTxIn) : (getOutputFor txin).Reads := fun _ => .lift _

theorem valueInFrom_reads (vin : List CTxIn) (n : Int) : (valueInFrom n vin).Reads := by
  induction vin generalizing n with
  | nil => trivial
  | cons txin vin ih => exact (getOutputFor_reads txin).bind fun _ => ih _

theorem haveInputsFrom_reads (vin : List CTxIn) : (haveInputsFrom vin).Reads := by
  induction vin with
  | nil => trivial
  | cons txin vin ih =>
    intro coins
    show Prog.Reads (ite _ _ _)
    split_ifs
    · exact ih
    · trivial

theorem haveInputs_reads (tx : CTransaction) : (haveInputs tx).Reads := by
  unfold haveInputs
  split_ifs
  · trivial
  · exact haveInputsFrom_reads _

theorem p2shSigOpsFrom_reads (vin : List CTxIn) (n : Nat) : (p2shSigOpsFrom n vin).Reads := by
  induction vin generalizing n with
  | nil => trivial
  | cons txin vin ih => exact (getOutputFor_reads txin).bind fun _ => ih _

theorem getP2SHSigOpCount_reads (tx : CTransaction) : (getP2SHSigOpCount tx).Reads := by
  unfold getP2SHSigOpCount
  split_ifs
  · trivial
  · exact p2shSigOpsFrom_reads _ _

theorem getValueIn_reads (tx : CTransaction) : (getValueIn tx).Reads := by
  unfold getValueIn
  split_ifs
  · trivial
  · exact valueInFrom_reads _ _

theorem checkInputValues_reads (nSpendHeight : Int) (vin : List CTxIn) (n : Int) :
    (checkInputValues nSpendHeight n vin).Reads := by
  induction vin generalizing n with
  | nil => trivial
  | cons txin vin ih =>
    intro coins
    exact (Prog.Reads.lift _).bind fun _ => (Prog.Reads.check _ _).bind fun _ =>
      (Prog.Reads.check _ _).bind fun _ => ih _

section

variable (env : Env)

theorem checkInputScripts_reads (tx : CTransaction) (pvChecks : Bool) (vin : List CTxIn) (i : Nat) :
    (checkInputScripts env tx pvChecks i vin).Reads := by
  induction vin generalizing i with
  | nil => trivial
  | cons txin vin ih =>
    intro coins
    exact (Prog.Reads.lift _).bind fun _ => (Prog.Reads.check _ _).bind fun _ =>
      (ih _).bind fun _ => trivial

theorem checkInputs_reads (tx : CTransaction) (fScriptChecks pvChecks : Bool) :
    (checkInputs env tx fScriptChecks pvChecks).Reads := by
  refine (haveInputs_reads tx).bind fun _ => (Prog.Reads.check _ _).bind fun _ => fun _ =>
    (checkInputValues_reads _ _ _).bind fun _ => (Prog.Reads.lift _).bind fun _ =>
    (Prog.Reads.check _ _).bind fun _ => (Prog.Reads.check _ _).bind fun _ =>
    (Prog.Reads.check _ _).bind fun _ => ?_
  split_ifs
  · exact checkInputScripts_reads env tx pvChecks _ _
  · trivial

theorem checkSpends_reads (fScriptChecks : Bool) (tx : CTransaction) (st : ConnectState) :
    (checkSpends env fScriptChecks tx st).Reads :=
  (haveInputs_reads tx).bind fun _ => (Prog.Reads.check _ _).bind fun _ =>
    (getP2SHSigOpCount_reads tx).bind fun _ => (Prog.Reads.check _ _).bind fun _ =>
    (getValueIn_reads tx).bind fun _ => (Prog.Reads.lift _).bind fun _ =>
    (checkInputs_reads env tx _ _).bind fun _ => trivial

theorem connectInputs_reads (fScriptChecks : Bool) (tx : CTransaction) (st : ConnectState) :
    (connectInputs env fScriptChecks tx st).Reads := by
  unfold connectInputs
  split_ifs
  · trivial
  · exact checkSpends_reads env fScriptChecks tx st

theorem checkOverwrite_reads (vtx : List CTransaction) : (checkOverwrite env vtx).Reads := by
  induction vtx with
  | nil => trivial
  | cons tx vtx ih => exact fun _ => (Prog.Reads.check _ _).bind fun _ => ih

/-- After the BIP30 loop no transaction of the block has an unspent output. -/
theorem checkOverwrite_ok {vtx : List CTransaction}
    (h : (checkOverwrite env vtx).run plain m = (.ok (), m')) :
    ∀ tx ∈ vtx, (m.coins (tx.getHash env.hash)).isPruned = true := by
  induction vtx with
  | nil => intro tx htx; cases htx
  | cons tx vtx ih =>
    rw [checkOverwrite, run_accessCoins] at h
    obtain ⟨hp, hrest⟩ := Prog.run_check_bind_ok h
    rw [pruned_getD] at hp
    intro tx' htx'
    rcases List.mem_cons.mp htx' with rfl | hmem
    · exact hp
    · exact ih hrest tx' hmem

end

/-! ## Values -/

/-- The amounts that `CheckInputs` has summed up: every input is available with an amount in range,
and so is their sum. -/
theorem checkInputValues_ok {nSpendHeight n v : Int} {vin : List CTxIn} (hn : 0 ≤ n ∧ n ≤ MAX_MONEY)
    (h : (checkInputValues nSpendHeight n vin).run plain m = (.ok v, m')) :
    v = n + (vin.map fun txin => m.valueAt txin.prevout).sum ∧ n ≤ v ∧ v ≤ MAX_MONEY ∧
      ∀ txin ∈ vin, ∃ out, m.output? txin.prevout = some out ∧ moneyRange out.nValue = true := by
  have hmax := MAX_MONEY_eq
  induction vin generalizing n with
  | nil => cases h; simp [hn.2]
  | cons txin vin ih =>
    rw [checkInputValues, run_accessCoins] at h
    obtain ⟨out, hout, h⟩ := Prog.run_lift_bind_ok h
    rw [outputAt_rec?] at hout
    obtain ⟨-, h⟩ := Prog.run_check_bind_ok h
    obtain ⟨hr, h⟩ := Prog.run_check_bind_ok h
    rw [Bool.and_eq_true] at hr
    obtain ⟨ho, hs⟩ := hr
    have ho' := moneyRange_iff.mp ho
    rw [int64_eq (by omega) (by omega)] at hs h
    have hs' := moneyRange_iff.mp hs
    obtain ⟨hv, hle, hmx, hall⟩ := ih hs' h
    have hat : m.valueAt txin.prevout = out.nValue := by rw [CoinsMap.valueAt, hout]; rfl
    refine ⟨?_, by omega, hmx, fun txin' hmem => ?_⟩
    · rw [List.map_cons, List.sum_cons, hat, hv]; ring
    · rcases List.mem_cons.mp hmem with rfl | hmem
      · exact ⟨out, hout, ho⟩
      · exact hall txin' hmem

/-- `GetValueIn` is the sum of the values of the inputs, when that is in range. -/
theorem valueInFrom_ok {n v : Int} {vin : List CTxIn} (hn : 0 ≤ n)
    (hall : ∀ txin ∈ vin, 0 ≤ m.valueAt txin.prevout)
    (hmx : n + (vin.map fun txin => m.valueAt txin.prevout).sum ≤ MAX_MONEY)
    (h : (valueInFrom n vin).run plain m = (.ok v, m')) :
    v = n + (vin.map fun txin => m.valueAt txin.prevout).sum := by
  have hmax := MAX_MONEY_eq
  induction vin generalizing n with
  | nil => cases h; simp
  | cons txin vin ih =>
    obtain ⟨out, hout, h⟩ := Map.run_reads_bind_ok (getOutputFor_reads txin) h
    rw [getOutputFor_run, Prod.mk.injEq, outputAt_rec?] at hout
    obtain ⟨hout, -⟩ := hout
    have hat : m.valueAt txin.prevout = out.nValue := by rw [CoinsMap.valueAt, hout]; rfl
    have h0 := hall txin (List.mem_cons_self ..)
    have hrest : 0 ≤ (vin.map fun txin => m.valueAt txin.prevout).sum :=
      List.sum_nonneg fun x hx => by
        obtain ⟨txin', hmem, rfl⟩ := List.mem_map.mp hx
        exact hall txin' (List.mem_cons_of_mem _ hmem)
    rw [List.map_cons, List.sum_cons] at hmx ⊢
    rw [hat] at h0 hmx ⊢
    rw [int64_eq (by omega) (by omega)] at h
    rw [ih (by omega) (fun txin' hmem => hall txin' (List.mem_cons_of_mem _ hmem)) (by omega) h]
    ring

/-- The inputs that `CheckInputs` accepts: available, with amounts in range, and no less than the
outputs. -/
theorem checkInputs_ok {env : Env} {tx : CTransaction} {fScriptChecks pvChecks : Bool}
    {vChecks : List Bool}
    (h : (checkInputs env tx fScriptChecks pvChecks).run plain m = (.ok vChecks, m')) :
    ∃ nValueOut, tx.getValueOut = some nValueOut ∧
      nValueOut ≤ (tx.vin.map fun txin => m.valueAt txin.prevout).sum ∧
      (tx.vin.map fun txin => m.valueAt txin.prevout).sum ≤ MAX_MONEY ∧
      ∀ txin ∈ tx.vin, ∃ out, m.output? txin.prevout = some out ∧ moneyRange out.nValue = true := by
  obtain ⟨fHave, -, h⟩ := Map.run_reads_bind_ok (haveInputs_reads tx) h
  obtain ⟨-, h⟩ := Prog.run_check_bind_ok h
  rw [run_getBestBlock] at h
  obtain ⟨nValueIn, hvals, h⟩ := Map.run_reads_bind_ok (checkInputValues_reads _ _ _) h
  obtain ⟨hv, -, hmx, hall⟩ := checkInputValues_ok (by decide) hvals
  obtain ⟨nValueOut, hout, h⟩ := Prog.run_lift_bind_ok h
  obtain ⟨hle, -⟩ := Prog.run_check_bind_ok h
  rw [zero_add] at hv
  refine ⟨nValueOut, ?_, ?_, hv ▸ hmx, hall⟩
  · unfold valueOut at hout
    cases hg : tx.getValueOut with
    | none => rw [hg] at hout; cases hout
    | some x => rw [hg] at hout; cases hout; rfl
  · rw [← hv]; exact of_decide_eq_true hle

end Reading

/-! ## Changes -/

section Changes

variable {env : Env} {nHeight : Nat} {m m' : CoinsMap}

/-- A spend with the undo data that `UpdateCoins` makes for it. -/
def Change.Exact (m : CoinsMap) : Change → Prop
  | .spend out undo => ∃ txout, m.output? out = some txout ∧
      undo = spendUndo (m.coins out.hash) out.n.toNat txout
  | .create _ => True

/-- The spends of a transaction with their undo data. -/
def spendChanges (spends : List COutPoint) (vprevout : List CTxInUndo) : List Change :=
  List.zipWith Change.spend spends vprevout

/-- The changes that a transaction makes, with its undo data. -/
def txChanges (tx : CTransaction) (txundo : CTxUndo) : List Change :=
  spendChanges tx.spends txundo.vprevout ++ [.create tx]

theorem run_modifyCoins {β : Type} (txid : UInt256) (f : CCoins → CCoins)
    (g : CCoins → CoinsProg β) :
    (modifyCoins txid f >>= g).run plain m =
      (g (m.coins txid)).run plain (m.put txid (f (m.coins txid)).cleanup) := rfl

theorem spendInputsFrom_ok {vin : List CTxIn} {vprevout : List CTxInUndo}
    (h : (spendInputsFrom vin).run plain m = (.ok vprevout, m')) :
    vprevout.length = vin.length ∧
      m' = (changes env nHeight).redoAll (spendChanges (vin.map CTxIn.prevout) vprevout) m ∧
      (changes env nHeight).Along Change.Exact m
        (spendChanges (vin.map CTxIn.prevout) vprevout) := by
  induction vin generalizing m vprevout with
  | nil => cases h; exact ⟨rfl, rfl, trivial⟩
  | cons txin vin ih =>
    rw [spendInputsFrom, run_modifyCoins] at h
    obtain ⟨out, hout, h⟩ := Prog.run_lift_bind_ok h
    rw [outputAt_ok] at hout
    obtain ⟨rest, m₁, hrest, h⟩ := Prog.run_bind_ok h
    obtain ⟨rfl, rfl⟩ := Prog.run_pure_ok h
    obtain ⟨hlen, hm, hall⟩ := ih hrest
    exact ⟨by simp [hlen], hm, ⟨out, hout, rfl⟩, hall⟩

theorem updateCoins_ok {tx : CTransaction} {txundo : CTxUndo}
    (h : (updateCoins env tx nHeight).run plain m = (.ok txundo, m')) :
    txundo.vprevout.length = tx.spends.length ∧
      m' = (changes env nHeight).redoAll (txChanges tx txundo) m ∧
      (changes env nHeight).Along Change.Exact m (txChanges tx txundo) := by
  obtain ⟨vprevout, m₁, hspend, h⟩ := Prog.run_bind_ok h
  rw [run_modifyCoins] at h
  obtain ⟨rfl, rfl⟩ := Prog.run_pure_ok h
  have hs : vprevout.length = tx.spends.length ∧
      m₁ = (changes env nHeight).redoAll (spendChanges tx.spends vprevout) m ∧
      (changes env nHeight).Along Change.Exact m (spendChanges tx.spends vprevout) := by
    unfold spendInputs at hspend
    cases hcb : tx.isCoinBase with
    | true =>
      rw [hcb] at hspend
      cases hspend
      rw [spends_coinBase hcb]
      exact ⟨rfl, rfl, trivial⟩
    | false =>
      rw [hcb] at hspend
      rw [spends_not_coinBase hcb, List.length_map]
      exact spendInputsFrom_ok hspend
  obtain ⟨hlen, rfl, hall⟩ := hs
  refine ⟨hlen, ?_, Journal.along_append.mpr ⟨hall, trivial, trivial⟩⟩
  rw [txChanges, Journal.redoAll_append]
  rfl

/-- The value of the inputs of a transaction. -/
def CoinsMap.valueIn (m : CoinsMap) (tx : CTransaction) : Int := (tx.spends.map m.valueAt).sum

/-- What one accepted transaction does to the coins and to the fees. -/
structure TxStep (env : Env) (nHeight : Nat) (m : CoinsMap) (tx : CTransaction) (txundo : CTxUndo)
    (nFees nFees' : Int) (m' : CoinsMap) : Prop where
  length : txundo.vprevout.length = tx.spends.length
  store : m' = (changes env nHeight).redoAll (txChanges tx txundo) m
  exact : (changes env nHeight).Along Change.Exact m (txChanges tx txundo)
  inputs : ∀ o ∈ tx.spends, ∃ out, m.output? o = some out ∧ moneyRange out.nValue = true
  coinBase : tx.isCoinBase = true → nFees' = nFees
  fees : tx.isCoinBase = false → ∃ nValueOut, tx.getValueOut = some nValueOut ∧
    nValueOut ≤ m.valueIn tx ∧ m.valueIn tx ≤ MAX_MONEY ∧
    nFees' = int64 (nFees + int64 (m.valueIn tx - nValueOut))

theorem valueIn_eq {tx : CTransaction} (h : tx.isCoinBase = false) :
    m.valueIn tx = (tx.vin.map fun txin => m.valueAt txin.prevout).sum := by
  rw [CoinsMap.valueIn, spends_not_coinBase h, List.map_map]; rfl

theorem checkSpends_ok {fScriptChecks : Bool} {tx : CTransaction} {st st' : ConnectState}
    (hcb : tx.isCoinBase = false)
    (h : (checkSpends env fScriptChecks tx st).run plain m = (.ok st', m')) :
    m' = m ∧ st'.vtxundo = st.vtxundo ∧
      (∀ o ∈ tx.spends, ∃ out, m.output? o = some out ∧ moneyRange out.nValue = true) ∧
      ∃ nValueOut, tx.getValueOut = some nValueOut ∧ nValueOut ≤ m.valueIn tx ∧
        m.valueIn tx ≤ MAX_MONEY ∧
        st'.nFees = int64 (st.nFees + int64 (m.valueIn tx - nValueOut)) := by
  obtain rfl : m' = m := by
    have : ((checkSpends env fScriptChecks tx st).run plain m).2 = m :=
      Map.run_reads (checkSpends_reads env fScriptChecks tx st)
    rw [h] at this
    exact this
  obtain ⟨fHave, -, h⟩ := Map.run_reads_bind_ok (haveInputs_reads tx) h
  obtain ⟨-, h⟩ := Prog.run_check_bind_ok h
  obtain ⟨nMore, -, h⟩ := Map.run_reads_bind_ok (getP2SHSigOpCount_reads tx) h
  obtain ⟨-, h⟩ := Prog.run_check_bind_ok h
  obtain ⟨nValueIn, hin, h⟩ := Map.run_reads_bind_ok (getValueIn_reads tx) h
  obtain ⟨nValueOut, hout, h⟩ := Prog.run_lift_bind_ok h
  obtain ⟨vChecks, hcheck, h⟩ := Map.run_reads_bind_ok (checkInputs_reads env tx _ _) h
  obtain ⟨nValueOut', hvout, hle, hmx, hall⟩ := checkInputs_ok hcheck
  obtain rfl : nValueOut' = nValueOut := by
    rw [valueOut, hvout] at hout
    exact Except.ok.inj hout
  obtain ⟨rfl, -⟩ := Prog.run_pure_ok h
  rw [getValueIn, hcb] at hin
  have hat : ∀ txin ∈ tx.vin, 0 ≤ m'.valueAt txin.prevout := fun txin hmem => by
    obtain ⟨out, ho, hr⟩ := hall txin hmem
    rw [CoinsMap.valueAt, ho]
    exact (moneyRange_iff.mp hr).1
  have hval := valueInFrom_ok (le_refl 0) hat (by rw [zero_add]; exact hmx) hin
  rw [zero_add, ← valueIn_eq hcb] at hval
  rw [← valueIn_eq hcb] at hle hmx
  refine ⟨rfl, rfl, fun o ho => ?_, nValueOut', hvout, hle, hmx, by rw [hval]⟩
  rw [spends_not_coinBase hcb] at ho
  obtain ⟨txin, hmem, rfl⟩ := List.mem_map.mp ho
  exact hall txin hmem

theorem connectTx_ok {fScriptChecks first : Bool} {tx : CTransaction} {st st' : ConnectState}
    (h : (connectTx env fScriptChecks nHeight first tx st).run plain m = (.ok st', m')) :
    ∃ txundo, TxStep env nHeight m tx txundo st.nFees st'.nFees m' ∧
      st'.vtxundo = if first then st.vtxundo else txundo :: st.vtxundo := by
  obtain ⟨-, h⟩ := Prog.run_check_bind_ok h
  obtain ⟨st₁, hin, h⟩ := Map.run_reads_bind_ok (connectInputs_reads env fScriptChecks tx _) h
  obtain ⟨txundo, m₂, hup, h⟩ := Prog.run_bind_ok h
  obtain ⟨rfl, rfl⟩ := Prog.run_pure_ok h
  unfold connectInputs at hin
  cases hcb : tx.isCoinBase with
  | true =>
    rw [hcb] at hin
    cases hin
    obtain ⟨hlen, hm, hex⟩ := updateCoins_ok hup
    refine ⟨txundo, ⟨hlen, hm, hex, fun o ho => ?_, fun _ => rfl, fun h => ?_⟩, rfl⟩
    · rw [spends_coinBase hcb] at ho; cases ho
    · rw [hcb] at h; cases h
  | false =>
    rw [hcb] at hin
    obtain ⟨-, hundo, hall, hfees⟩ := checkSpends_ok hcb hin
    obtain ⟨hlen, hm, hex⟩ := updateCoins_ok hup
    refine ⟨txundo, ⟨hlen, hm, hex, hall, fun h => ?_, fun _ => hfees⟩, by rw [hundo]⟩
    rw [hcb] at h; cases h

/-- What a list of accepted transactions does to the coins and to the fees. -/
inductive TxSteps (env : Env) (nHeight : Nat) :
    CoinsMap → Int → List (CTransaction × CTxUndo) → Int → CoinsMap → Prop
  | nil (m nFees) : TxSteps env nHeight m nFees [] nFees m
  | cons {m m₁ m' nFees nFees₁ nFees' tx txundo txs}
      (step : TxStep env nHeight m tx txundo nFees nFees₁ m₁)
      (rest : TxSteps env nHeight m₁ nFees₁ txs nFees' m') :
      TxSteps env nHeight m nFees ((tx, txundo) :: txs) nFees' m'

theorem connectTxs_ok {fScriptChecks : Bool} {vtx : List CTransaction} {st st' : ConnectState}
    (h : (connectTxs env fScriptChecks nHeight false vtx st).run plain m = (.ok st', m')) :
    ∃ undos, undos.length = vtx.length ∧ st'.vtxundo = undos.reverse ++ st.vtxundo ∧
      TxSteps env nHeight m st.nFees (vtx.zip undos) st'.nFees m' := by
  induction vtx generalizing m st with
  | nil => cases h; exact ⟨[], rfl, rfl, .nil _ _⟩
  | cons tx vtx ih =>
    obtain ⟨st₁, m₁, htx, h⟩ := Prog.run_bind_ok h
    obtain ⟨txundo, hstep, hundo⟩ := connectTx_ok htx
    obtain ⟨undos, hlen, hundos, hrest⟩ := ih h
    refine ⟨txundo :: undos, by simp [hlen], ?_, .cons hstep hrest⟩
    rw [hundos, hundo]
    simp

end Changes

/-! ## Checked blocks -/

section Checked

theorem bind_ok {ε α β : Type} {x : Except ε α} {f : α → Except ε β} {b : β}
    (h : (x >>= f) = .ok b) : ∃ a, x = .ok a ∧ f a = .ok b := by
  cases x with
  | error e => cases h
  | ok a => exact ⟨a, rfl, h⟩

theorem require_ok {b : Bool} {e : Failure} {u : Unit} (h : require b e = .ok u) : b = true := by
  cases b with
  | false => cases h
  | true => rfl

/-- What `CheckTransaction` has found of an accepted transaction. -/
structure CheckedTx (tx : CTransaction) : Prop where
  vin : tx.vin ≠ []
  size : tx.bytes.length ≤ MAX_BLOCK_SIZE
  values : ∀ txout ∈ tx.vout, 0 ≤ txout.nValue ∧ txout.nValue ≤ MAX_MONEY
  total : (tx.vout.map CTxOut.nValue).sum ≤ MAX_MONEY
  inputs : (tx.vin.map CTxIn.prevout).Nodup

theorem checkTxOuts_ok {n : Int} {vout : List CTxOut} (hn : 0 ≤ n ∧ n ≤ MAX_MONEY)
    (h : checkTxOuts n vout = .ok ()) :
    (∀ txout ∈ vout, 0 ≤ txout.nValue ∧ txout.nValue ≤ MAX_MONEY) ∧
      n + (vout.map CTxOut.nValue).sum ≤ MAX_MONEY := by
  have hmax := MAX_MONEY_eq
  induction vout generalizing n with
  | nil => simp [hn.2]
  | cons txout vout ih =>
    rw [checkTxOuts] at h
    split_ifs at h with h₁ h₂
    rw [int64_eq (by omega) (by omega)] at h
    have h : (if (!moneyRange (n + txout.nValue)) = true then _ else _) = _ := h
    split_ifs at h with h₃
    obtain ⟨hall, hsum⟩ := ih (moneyRange_iff.mp (by simpa using h₃)) h
    refine ⟨fun x hx => ?_, by rw [List.map_cons, List.sum_cons]; omega⟩
    rcases List.mem_cons.mp hx with rfl | hx
    · omega
    · exact hall x hx

theorem checkDuplicateInputs_ok {seen : List COutPoint} {vin : List CTxIn}
    (h : checkDuplicateInputs seen vin = .ok ()) :
    (vin.map CTxIn.prevout).Nodup ∧ ∀ txin ∈ vin, txin.prevout ∉ seen := by
  induction vin generalizing seen with
  | nil => exact ⟨List.nodup_nil, fun _ h => by cases h⟩
  | cons txin vin ih =>
    rw [checkDuplicateInputs] at h
    split_ifs at h with hseen
    obtain ⟨hnd, hnot⟩ := ih h
    refine ⟨List.nodup_cons.mpr ⟨fun hmem => ?_, hnd⟩, fun x hx => ?_⟩
    · obtain ⟨x, hx, hpx⟩ := List.mem_map.mp hmem
      exact hnot x hx (hpx ▸ List.mem_cons_self ..)
    · rcases List.mem_cons.mp hx with rfl | hx
      · exact hseen
      · exact fun hmem => hnot x hx (List.mem_cons_of_mem _ hmem)

theorem checkTransaction_ok {tx : CTransaction} (h : checkTransaction tx = .ok ()) :
    CheckedTx tx := by
  obtain ⟨_, h₁, h⟩ := bind_ok h
  obtain ⟨_, -, h⟩ := bind_ok h
  obtain ⟨_, h₃, h⟩ := bind_ok h
  obtain ⟨_, h₄, h⟩ := bind_ok h
  obtain ⟨_, h₅, -⟩ := bind_ok h
  obtain ⟨hvals, htotal⟩ := checkTxOuts_ok ⟨le_refl 0, by decide⟩ h₄
  refine ⟨fun h0 => ?_, of_decide_eq_true (require_ok h₃), hvals, by rwa [zero_add] at htotal,
    (checkDuplicateInputs_ok h₅).1⟩
  have := require_ok h₁
  rw [h0] at this
  cases this

/-- `GetValueOut` of an accepted transaction is the sum of its outputs. -/
theorem CheckedTx.getValueOut {tx : CTransaction} (h : CheckedTx tx) :
    tx.getValueOut = some (tx.vout.map CTxOut.nValue).sum := by
  have hmax := MAX_MONEY_eq
  have hfrom : ∀ (vout : List CTxOut) (n : Int), 0 ≤ n →
      (∀ txout ∈ vout, 0 ≤ txout.nValue ∧ txout.nValue ≤ MAX_MONEY) →
      n + (vout.map CTxOut.nValue).sum ≤ MAX_MONEY →
      valueOutFrom n vout = some (n + (vout.map CTxOut.nValue).sum) := by
    intro vout
    induction vout with
    | nil => intro n _ _ _; simp [valueOutFrom]
    | cons txout vout ih =>
      intro n hn hall hsum
      have hout := hall txout (List.mem_cons_self ..)
      have hrest : ∀ x ∈ vout, 0 ≤ x.nValue ∧ x.nValue ≤ MAX_MONEY := fun x hx =>
        hall x (List.mem_cons_of_mem _ hx)
      have hnn : 0 ≤ (vout.map CTxOut.nValue).sum := List.sum_nonneg fun x hx => by
        obtain ⟨y, hy, rfl⟩ := List.mem_map.mp hx
        exact (hrest y hy).1
      rw [List.map_cons, List.sum_cons] at hsum ⊢
      rw [valueOutFrom, int64_eq (by omega) (by omega), moneyRange_iff.mpr hout,
        moneyRange_iff.mpr ⟨by omega, by omega⟩]
      show valueOutFrom (n + txout.nValue) vout = _
      rw [ih _ (by omega) hrest (by omega), add_assoc]
  have := hfrom tx.vout 0 (le_refl 0) h.values (by rw [zero_add]; exact h.total)
  rwa [zero_add] at this

/-- What `CheckBlock` has found of an accepted block. -/
structure CheckedBlock (block : CBlock) (coinbase : CTransaction) (rest : List CTransaction) :
    Prop where
  vtx : block.vtx = coinbase :: rest
  first : coinbase.isCoinBase = true
  others : ∀ tx ∈ rest, tx.isCoinBase = false
  txs : ∀ tx ∈ block.vtx, CheckedTx tx
  length : block.vtx.length ≤ MAX_BLOCK_SIZE

theorem checkBlock_ok {env : Env} {block : CBlock} {fCheckPOW fCheckMerkleRoot : Bool}
    (h : checkBlock env block fCheckPOW fCheckMerkleRoot = .ok ()) :
    ∃ coinbase rest, CheckedBlock block coinbase rest := by
  obtain ⟨_, -, h⟩ := bind_ok h
  obtain ⟨_, -, h⟩ := bind_ok h
  obtain ⟨_, hsize, h⟩ := bind_ok h
  obtain ⟨_, hfirst, h⟩ := bind_ok h
  obtain ⟨_, hothers, h⟩ := bind_ok h
  obtain ⟨_, htxs, -⟩ := bind_ok h
  have hsize := require_ok hsize
  have hfirst := require_ok hfirst
  have hothers := require_ok hothers
  rw [Bool.and_eq_true, Bool.and_eq_true] at hsize
  have hforM : ∀ vtx : List CTransaction, vtx.forM checkTransaction = .ok () →
      ∀ tx ∈ vtx, CheckedTx tx := by
    intro vtx
    induction vtx with
    | nil => intro _ tx htx; cases htx
    | cons tx vtx ih =>
      intro hf tx' htx'
      obtain ⟨_, htx, hrest⟩ := bind_ok hf
      rcases List.mem_cons.mp htx' with rfl | hmem
      · exact checkTransaction_ok htx
      · exact ih hrest tx' hmem
  have hall := hforM block.vtx htxs
  rcases hvtx : block.vtx with _ | ⟨coinbase, rest⟩
  · rw [hvtx] at hfirst; cases hfirst
  · refine ⟨coinbase, rest, hvtx, ?_, fun tx htx => ?_, hall, of_decide_eq_true hsize.1.2⟩
    · rw [hvtx] at hfirst; exact hfirst
    · rw [hvtx, List.tail_cons, List.all_eq_true] at hothers
      simpa using hothers tx htx

end Checked

/-! ## Accepted blocks -/

section Block

variable {env : Env} {m m' : CoinsMap}

/-- The transactions of a block with their undo data; the coinbase has none. -/
def undoPairs (coinbase : CTransaction) (rest : List CTransaction) (blockUndo : CBlockUndo) :
    List (CTransaction × CTxUndo) :=
  (coinbase, ⟨[]⟩) :: rest.zip blockUndo.vtxundo

/-- What `ConnectBlock` has done with an accepted block that is not the genesis block: `m₁` are the
coins before the step to the new best block. -/
structure Connected (env : Env) (block : CBlock) (pindex : BlockRef) (coinbase : CTransaction)
    (rest : List CTransaction) (m : CoinsMap) (blockUndo : CBlockUndo) (m₁ : CoinsMap) : Prop where
  checked : CheckedBlock block coinbase rest
  prev : pindex.hashPrev.getD 0 = m.tag
  fresh : ∀ tx ∈ block.vtx, (m.coins (tx.getHash env.hash)).isPruned = true
  length : blockUndo.vtxundo.length = rest.length
  steps : ∃ nFees nValueOut, TxSteps env pindex.nHeight m 0 (undoPairs coinbase rest blockUndo) nFees m₁ ∧
    coinbase.getValueOut = some nValueOut ∧
    nValueOut ≤ int64 (nFees + getBlockSubsidy env pindex.nHeight)

theorem connectTransactions_ok {block : CBlock} {pindex : BlockRef} {coinbase : CTransaction}
    {rest : List CTransaction} {blockUndo : CBlockUndo} (hb : CheckedBlock block coinbase rest)
    (hprev : pindex.hashPrev.getD 0 = m.tag)
    (h : (connectTransactions env block pindex).run plain m = (.ok blockUndo, m')) :
    Connected env block pindex coinbase rest m blockUndo m' := by
  obtain ⟨_, hover, h⟩ := Map.run_reads_bind_ok (checkOverwrite_reads env block.vtx) h
  obtain ⟨st, m₁, htxs, h⟩ := Prog.run_bind_ok h
  obtain ⟨nValueOut, hout, h⟩ := Prog.run_lift_bind_ok h
  obtain ⟨hle, h⟩ := Prog.run_check_bind_ok h
  obtain ⟨-, h⟩ := Prog.run_check_bind_ok h
  obtain ⟨rfl, rfl⟩ := Prog.run_pure_ok h
  rw [hb.vtx] at htxs hout
  obtain ⟨st₁, m₂, hfirst, hrest⟩ := Prog.run_bind_ok htxs
  obtain ⟨txundo, hstep, hundo⟩ := connectTx_ok hfirst
  obtain ⟨undos, hlen, hundos, hsteps⟩ := connectTxs_ok hrest
  have hnil : txundo = ⟨[]⟩ := by
    have := hstep.length
    rw [spends_coinBase hb.first, List.length_nil, List.length_eq_zero_iff] at this
    rw [← this]
  have hrev : st.vtxundo.reverse = undos := by
    rw [hundos, hundo, if_pos rfl, ConnectState.init, List.append_nil, List.reverse_reverse]
  rw [hnil] at hstep
  refine ⟨hb, hprev, checkOverwrite_ok env hover, by rw [hrev]; exact hlen, st.nFees, nValueOut,
    ?_, ?_, of_decide_eq_true hle⟩
  · rw [undoPairs, hrev]; exact .cons hstep hsteps
  · have : valueOut coinbase = .ok nValueOut := hout
    unfold valueOut at this
    cases hg : coinbase.getValueOut with
    | none => rw [hg] at this; cases this
    | some x => rw [hg] at this; cases this; rfl

theorem connectChecked_ok {block : CBlock} {pindex : BlockRef} {fJustCheck : Bool}
    {blockUndo : CBlockUndo} (hgen : block.getHash env.hash ≠ env.hashGenesisBlock)
    (h : (connectChecked env block pindex fJustCheck).run plain m = (.ok blockUndo, m')) :
    ∃ coinbase rest, Connected env block pindex coinbase rest m blockUndo m' := by
  obtain ⟨_, hcheck, h⟩ := Prog.run_lift_bind_ok h
  obtain ⟨coinbase, rest, hb⟩ := checkBlock_ok hcheck
  rw [run_getBestBlock] at h
  obtain ⟨hprev, h⟩ := Prog.run_check_bind_ok h
  rw [if_neg hgen] at h
  exact ⟨coinbase, rest, connectTransactions_ok hb (beq_iff_eq.mp hprev) h⟩

/-- An accepted block: the changes of its transactions, and then its hash as the best block. -/
theorem connectBlock_ok {block : CBlock} {pindex : BlockRef} {blockUndo : CBlockUndo}
    (hgen : block.getHash env.hash ≠ env.hashGenesisBlock)
    (h : (connectBlock env block pindex false).run plain m = (.ok blockUndo, m')) :
    ∃ coinbase rest m₁, Connected env block pindex coinbase rest m blockUndo m₁ ∧
      m' = { m₁ with tag := pindex.hashBlock } := by
  obtain ⟨undo, m₁, hc, h⟩ := Prog.run_bind_ok h
  obtain ⟨_, m₂, hset, h⟩ := Prog.run_bind_ok h
  obtain ⟨rfl, rfl⟩ := Prog.run_pure_ok h
  obtain ⟨coinbase, rest, hconn⟩ := connectChecked_ok hgen hc
  refine ⟨coinbase, rest, m₁, hconn, ?_⟩
  cases hset
  rfl

end Block

end GC
