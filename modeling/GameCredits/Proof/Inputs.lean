import GameCredits.Proof.Inflation

/-!
# Spending what is there

When the inputs of a transaction are available, mature and pay for its outputs, `CheckInputs`
accepts it and `UpdateCoins` goes through (`checkInputs_run`, `updateCoins_run`). What a transaction
leaves alone and what it makes is said once (`Applied`).

`CoinsMap.Origin` says that the outputs of a store are those that certain transactions have made, so
that stores that know the same transactions agree on what an outpoint stands for (`Origin.unique`).
-/

namespace GC

open Framework (Prog Map Journal)

/-- The outpoints of all inputs of a transaction. -/
abbrev CTransaction.prevouts (tx : CTransaction) : List COutPoint := tx.vin.map CTxIn.prevout

/-- The record of an outpoint is not that of a coinbase too young to be spent at a height. -/
def CoinsMap.Mature (m : CoinsMap) (nSpendHeight : Int) (o : COutPoint) : Prop :=
  (m.coins o.hash).fCoinBase = true →
    COINBASE_MATURITY ≤ nSpendHeight - ((m.coins o.hash).nHeight : Int)

/-- The inputs of a transaction are available with amounts in range, and pay for the outputs. -/
structure CoinsMap.Payable (m : CoinsMap) (tx : CTransaction) : Prop where
  inputs : ∀ o ∈ tx.prevouts, ∃ out, m.output? o = some out ∧ moneyRange out.nValue = true
  valueIn : (tx.prevouts.map m.valueAt).sum ≤ MAX_MONEY
  valueOut : (tx.vout.map CTxOut.nValue).sum ≤ (tx.prevouts.map m.valueAt).sum

section

variable {env : Env} {m m' : CoinsMap} {tx : CTransaction} {o : COutPoint} {nHeight : Nat}

theorem valueAt_eq {out : CTxOut} (h : m.output? o = some out) : m.valueAt o = out.nValue := by
  rw [CoinsMap.valueAt, h]; rfl

/-- Whether a transaction can be paid for depends on the outputs that it spends. -/
theorem CoinsMap.Payable.congr (h : m.Payable tx) (heq : ∀ o ∈ tx.prevouts, m'.output? o = m.output? o) :
    m'.Payable tx := by
  have hsum : (tx.prevouts.map m'.valueAt).sum = (tx.prevouts.map m.valueAt).sum :=
    congrArg List.sum (List.map_congr_left fun o ho => by
      rw [CoinsMap.valueAt, CoinsMap.valueAt, heq o ho])
  refine ⟨fun o ho => ?_, hsum ▸ h.valueIn, hsum ▸ h.valueOut⟩
  rw [heq o ho]
  exact h.inputs o ho

/-! ## What `CheckInputs` has found -/

theorem checkInputValues_mature {nSpendHeight n v : Int} {vin : List CTxIn}
    (h : (checkInputValues nSpendHeight n vin).run plain m = (.ok v, m')) :
    ∀ txin ∈ vin, m.Mature nSpendHeight txin.prevout := by
  induction vin generalizing n with
  | nil => intro _ hmem; cases hmem
  | cons txin vin ih =>
    rw [checkInputValues, run_accessCoins] at h
    obtain ⟨out, -, h⟩ := Prog.run_lift_bind_ok h
    obtain ⟨hmat, h⟩ := Prog.run_check_bind_ok h
    obtain ⟨-, h⟩ := Prog.run_check_bind_ok h
    intro txin' hmem
    rcases List.mem_cons.mp hmem with rfl | hmem
    · intro hcb
      cases hrec : m.rec? txin'.prevout.hash with
      | none =>
        rw [CoinsMap.coins, Map.record, hrec] at hcb
        cases hcb
      | some coins =>
        rw [CoinsMap.coins, Map.record, hrec] at hcb ⊢
        rw [hrec] at hmat
        simp only [Option.map_some, Option.getD_some, Bool.not_eq_true', Bool.and_eq_false_iff,
          decide_eq_false_iff_not] at hmat hcb ⊢
        rcases hmat with hfalse | hold
        · rw [hcb] at hfalse
          cases hfalse
        · omega
    · exact ih h txin' hmem

/-- What `CheckInputs` accepts pays for its outputs, and is mature. -/
theorem checkInputs_payable {fScriptChecks pvChecks : Bool} {vChecks : List Bool}
    (htx : CheckedTx tx)
    (h : (checkInputs env tx fScriptChecks pvChecks).run plain m = (.ok vChecks, m')) :
    m.Payable tx ∧ ∀ o ∈ tx.prevouts, m.Mature (env.heightOf m.tag + 1) o := by
  obtain ⟨nValueOut, hout, hle, hmax, hall⟩ := checkInputs_ok h
  rw [htx.getValueOut, Option.some.injEq] at hout
  have hsum : (tx.vin.map fun txin => m.valueAt txin.prevout) = tx.prevouts.map m.valueAt := by
    rw [List.map_map]; rfl
  rw [hsum] at hle hmax
  refine ⟨⟨fun o ho => ?_, hmax, hout ▸ hle⟩, fun o ho => ?_⟩
  · obtain ⟨txin, hmem, rfl⟩ := List.mem_map.mp ho
    exact hall txin hmem
  · obtain ⟨txin, hmem, rfl⟩ := List.mem_map.mp ho
    obtain ⟨fHave, -, h⟩ := Map.run_reads_bind_ok (haveInputs_reads tx) h
    obtain ⟨-, h⟩ := Prog.run_check_bind_ok h
    rw [run_getBestBlock] at h
    obtain ⟨nValueIn, hvals, -⟩ := Map.run_reads_bind_ok (checkInputValues_reads _ _ _) h
    exact checkInputValues_mature hvals txin hmem

/-! ## Checks that succeed -/

theorem haveInputsFrom_run (vin : List CTxIn) :
    (haveInputsFrom vin).run plain m =
      (.ok (vin.all fun txin => (m.output? txin.prevout).isSome), m) := by
  induction vin with
  | nil => rfl
  | cons txin vin ih =>
    rw [haveInputsFrom, run_accessCoins, available_getD]
    have hav : ((m.rec? txin.prevout.hash).getD .empty).isAvailable txin.prevout.n.toNat =
      (m.output? txin.prevout).isSome := rfl
    rw [hav, List.all_cons]
    cases (m.output? txin.prevout).isSome with
    | false => rfl
    | true => exact ih

theorem haveInputs_run (hcb : tx.isCoinBase = false) :
    (haveInputs tx).run plain m = (.ok (tx.prevouts.all fun o => (m.output? o).isSome), m) := by
  rw [haveInputs, hcb, List.all_map]
  exact haveInputsFrom_run tx.vin

theorem checkInputValues_run {nSpendHeight n : Int} {vin : List CTxIn} (hn : 0 ≤ n)
    (hmature : ∀ txin ∈ vin, m.Mature nSpendHeight txin.prevout)
    (hall : ∀ txin ∈ vin, ∃ out, m.output? txin.prevout = some out ∧ moneyRange out.nValue = true)
    (hmax : n + (vin.map fun txin => m.valueAt txin.prevout).sum ≤ MAX_MONEY) :
    (checkInputValues nSpendHeight n vin).run plain m =
      (.ok (n + (vin.map fun txin => m.valueAt txin.prevout).sum), m) := by
  have hM := MAX_MONEY_eq
  induction vin generalizing n with
  | nil => simp [checkInputValues]
  | cons txin vin ih =>
    obtain ⟨out, hout, hrange⟩ := hall txin (List.mem_cons_self ..)
    have hrest : ∀ x ∈ vin, ∃ out, m.output? x.prevout = some out ∧ moneyRange out.nValue = true :=
      fun x hx => hall x (List.mem_cons_of_mem _ hx)
    have hpos : 0 ≤ (vin.map fun txin => m.valueAt txin.prevout).sum :=
      List.sum_nonneg fun x hx => by
        obtain ⟨y, hy, rfl⟩ := List.mem_map.mp hx
        obtain ⟨z, hz, hr⟩ := hrest y hy
        rw [valueAt_eq hz]
        exact (moneyRange_iff.mp hr).1
    have hval := moneyRange_iff.mp hrange
    rw [List.map_cons, List.sum_cons, valueAt_eq hout] at hmax ⊢
    have hmat : (!((m.rec? txin.prevout.hash).map fun coins => coins.fCoinBase &&
        decide (nSpendHeight - coins.nHeight < COINBASE_MATURITY)).getD false) = true := by
      have hm := hmature txin (List.mem_cons_self ..)
      cases hrec : m.rec? txin.prevout.hash with
      | none => rfl
      | some coins =>
        rw [CoinsMap.Mature, CoinsMap.coins, Map.record, hrec] at hm
        simp only [Option.getD_some, Option.map_some, Bool.not_eq_true', Bool.and_eq_false_iff,
          decide_eq_false_iff_not] at hm ⊢
        cases hcb : coins.fCoinBase with
        | false => exact .inl rfl
        | true => exact .inr (by have := hm hcb; omega)
    rw [checkInputValues, run_accessCoins, outputAt_rec?.mpr hout]
    show ((Prog.check _ _ >>= _ : CoinsProg Int)).run plain m = _
    rw [hmat]
    show ((Prog.check (moneyRange out.nValue && moneyRange (int64 (n + out.nValue))) _ >>=
      fun _ => checkInputValues nSpendHeight (int64 (n + out.nValue)) vin : CoinsProg Int)).run plain m = _
    rw [int64_eq (by omega) (by omega), hrange, moneyRange_iff.mpr ⟨by omega, by omega⟩]
    show (checkInputValues nSpendHeight (n + out.nValue) vin).run plain m = _
    rw [ih (by omega) (fun x hx => hmature x (List.mem_cons_of_mem _ hx)) hrest (by omega), add_assoc]

/-- `CheckInputs` without scripts accepts a transaction that pays for its outputs with what is
mature. -/
theorem checkInputs_run {pvChecks : Bool} (htx : CheckedTx tx) (hcb : tx.isCoinBase = false)
    (hpay : m.Payable tx) (hmature : ∀ o ∈ tx.prevouts, m.Mature (env.heightOf m.tag + 1) o) :
    (checkInputs env tx false pvChecks).run plain m = (.ok [], m) := by
  have hM := MAX_MONEY_eq
  have hall : tx.prevouts.all (fun o => (m.output? o).isSome) = true :=
    List.all_eq_true.mpr fun o ho => by
      obtain ⟨out, hout, -⟩ := hpay.inputs o ho
      rw [hout]; rfl
  have hsum : (tx.vin.map fun txin => m.valueAt txin.prevout) = tx.prevouts.map m.valueAt := by
    rw [List.map_map]; rfl
  have hvals := checkInputValues_run (m := m) (n := 0) (le_refl 0)
    (fun txin hx => hmature _ (List.mem_map_of_mem hx))
    (fun txin hx => hpay.inputs _ (List.mem_map_of_mem hx))
    (by rw [zero_add, hsum]; exact hpay.valueIn)
  rw [zero_add, hsum] at hvals
  have hout0 : 0 ≤ (tx.vout.map CTxOut.nValue).sum := List.sum_nonneg fun x hx => by
    obtain ⟨y, hy, rfl⟩ := List.mem_map.mp hx
    exact (htx.values y hy).1
  have hin := hpay.valueIn
  have hle := hpay.valueOut
  rw [checkInputs, Prog.run_bind, haveInputs_run hcb, Prog.runNext_ok, hall]
  show ((getBestBlock >>= _ : CoinsProg (List Bool))).run plain m = _
  rw [run_getBestBlock, Prog.run_bind, hvals, Prog.runNext_ok, valueOut, htx.getValueOut]
  show ((Prog.check _ _ >>= _ : CoinsProg (List Bool))).run plain m = _
  rw [decide_eq_true hle, int64_eq (by omega) (by omega)]
  generalize hfee : (tx.prevouts.map m.valueAt).sum - (tx.vout.map CTxOut.nValue).sum = nTxFee
  have hfee0 : 0 ≤ nTxFee := by omega
  have hrange : moneyRange nTxFee = true := moneyRange_iff.mpr ⟨hfee0, by omega⟩
  show ((Prog.check (decide (0 ≤ nTxFee)) _ >>= fun _ => Prog.check (moneyRange nTxFee) _ >>= _ :
    CoinsProg (List Bool))).run plain m = _
  rw [decide_eq_true hfee0, hrange]
  rfl

/-! ## What a transaction does -/

/-- What a transaction leaves alone in a store, and what it makes. -/
structure Applied (env : Env) (nHeight : Nat) (m : CoinsMap) (tx : CTransaction) (m' : CoinsMap) :
    Prop where
  tag : m'.tag = m.tag
  made : m'.coins (tx.getHash env.hash) = (CCoins.fromTx tx nHeight).cleanup
  fCoinBase : ∀ txid, txid ≠ tx.getHash env.hash →
    (m'.coins txid).fCoinBase = (m.coins txid).fCoinBase
  nHeight : ∀ txid, txid ≠ tx.getHash env.hash → (m'.coins txid).nHeight = (m.coins txid).nHeight
  kept : ∀ o : COutPoint, o.hash ≠ tx.getHash env.hash → o ∉ tx.spends →
    m'.output? o = m.output? o
  left : ∀ txid n out, txid ≠ tx.getHash env.hash → (m'.coins txid).output? n = some out →
    (m.coins txid).output? n = some out

/-- A spend leaves the other outputs and all metadata alone. -/
theorem redo_spend_kept (env : Env) (nHeight : Nat) {out : COutPoint} {undo : CTxInUndo}
    (hex : Change.Exact m (.spend out undo)) :
    (∀ txid, (CoinsMap.coins ((changes env nHeight).redo (.spend out undo) m) txid).fCoinBase =
        (m.coins txid).fCoinBase ∧
      (CoinsMap.coins ((changes env nHeight).redo (.spend out undo) m) txid).nHeight =
        (m.coins txid).nHeight) ∧
      ∀ o, o ≠ out → CoinsMap.output? ((changes env nHeight).redo (.spend out undo) m) o =
        m.output? o := by
  obtain ⟨txout, hout, -⟩ := hex
  have hav : (m.coins out.hash).isAvailable out.n.toNat = true := by
    rw [CCoins.isAvailable, show (m.coins out.hash).output? out.n.toNat = _ from hout]; rfl
  refine ⟨fun txid => ?_, fun o ho => ?_⟩
  · show (CoinsMap.coins (Map.put m out.hash _) txid).fCoinBase = _ ∧
      (CoinsMap.coins (Map.put m out.hash _) txid).nHeight = _
    rw [coins_put]
    split_ifs with h
    · subst h
      simp
    · exact ⟨rfl, rfl⟩
  · show (CoinsMap.coins (Map.put m out.hash _) o.hash).output? _ = _
    rw [coins_put]
    split_ifs with h
    · have hne : o.n.toNat ≠ out.n.toNat := fun hn => ho (place_injective (Prod.ext h hn))
      rw [CCoins.output?_cleanup, CCoins.output?_spend hav, if_neg hne, CoinsMap.output?, h]
    · rfl

theorem spendChanges_kept {spends : List COutPoint} {undos : List CTxInUndo}
    (hex : (changes env nHeight).Along Change.Exact m (spendChanges spends undos)) :
    ((changes env nHeight).redoAll (spendChanges spends undos) m).tag = m.tag ∧
    (∀ txid, (CoinsMap.coins ((changes env nHeight).redoAll (spendChanges spends undos) m)
        txid).fCoinBase = (m.coins txid).fCoinBase ∧
      (CoinsMap.coins ((changes env nHeight).redoAll (spendChanges spends undos) m) txid).nHeight =
        (m.coins txid).nHeight) ∧
      ∀ o ∉ spends, CoinsMap.output? ((changes env nHeight).redoAll (spendChanges spends undos) m) o =
        m.output? o := by
  induction spends generalizing m undos with
  | nil => exact ⟨rfl, fun _ => ⟨rfl, rfl⟩, fun _ _ => rfl⟩
  | cons out spends ih =>
    rcases undos with _ | ⟨undo, undos⟩
    · exact ⟨rfl, fun _ => ⟨rfl, rfl⟩, fun _ _ => rfl⟩
    · obtain ⟨hfirst, hrest⟩ := hex
      obtain ⟨hmeta, hout⟩ := redo_spend_kept env nHeight hfirst
      obtain ⟨htag', hmeta', hout'⟩ := ih hrest
      refine ⟨htag', fun txid => ⟨?_, ?_⟩, fun o ho => ?_⟩
      · exact (hmeta' txid).1.trans (hmeta txid).1
      · exact (hmeta' txid).2.trans (hmeta txid).2
      · exact (hout' o (List.not_mem_of_not_mem_cons ho)).trans
          (hout o (List.ne_of_not_mem_cons ho))

theorem txChanges_applied {txundo : CTxUndo} (hlen : txundo.vprevout.length = tx.spends.length)
    (hex : (changes env nHeight).Along Change.Exact m (txChanges tx txundo)) :
    Applied env nHeight m tx ((changes env nHeight).redoAll (txChanges tx txundo) m) := by
  obtain ⟨hspends, -⟩ := Journal.along_append.mp hex
  obtain ⟨htag, hmeta, hkept⟩ := spendChanges_kept hspends
  have hleft := (spendChanges_output? hlen hspends).2
  rw [txChanges, Journal.redoAll_append]
  generalize (changes env nHeight).redoAll (spendChanges tx.spends txundo.vprevout) m = m₁
    at htag hmeta hkept hleft
  show Applied env nHeight m tx (m₁.put (tx.getHash env.hash) (CCoins.fromTx tx nHeight).cleanup)
  have hne : ∀ txid, txid ≠ tx.getHash env.hash → CoinsMap.coins
      (m₁.put (tx.getHash env.hash) (CCoins.fromTx tx nHeight).cleanup) txid = m₁.coins txid :=
    fun txid h => Map.record_put_ne h _
  refine ⟨htag, Map.record_put_self _ _, fun txid h => ?_, fun txid h => ?_, fun o h ho => ?_,
    fun txid n out h hout => ?_⟩
  · rw [hne txid h]; exact (hmeta txid).1
  · rw [hne txid h]; exact (hmeta txid).2
  · rw [CoinsMap.output?, hne _ h]; exact hkept o ho
  · rw [hne txid h] at hout; exact (hleft txid n out hout).1

theorem TxStep.applied {txundo : CTxUndo} {nFees nFees' : Int}
    (h : TxStep env nHeight m tx txundo nFees nFees' m') : Applied env nHeight m tx m' :=
  h.store ▸ txChanges_applied h.length h.exact

theorem spendInputsFrom_run (env : Env) {vin : List CTxIn} (hnodup : (vin.map CTxIn.prevout).Nodup)
    (hall : ∀ txin ∈ vin, ∃ out, m.output? txin.prevout = some out) :
    ∃ vprevout m', (spendInputsFrom vin).run plain m = (.ok vprevout, m') := by
  induction vin generalizing m with
  | nil => exact ⟨[], m, rfl⟩
  | cons txin vin ih =>
    obtain ⟨out, hout⟩ := hall txin (List.mem_cons_self ..)
    rw [List.map_cons, List.nodup_cons] at hnodup
    have hex : Change.Exact m (.spend txin.prevout _) := ⟨out, hout, rfl⟩
    obtain ⟨vprevout, m', hrun⟩ := ih
      (m := (changes env 0).redo (.spend txin.prevout
        (spendUndo (m.coins txin.prevout.hash) txin.prevout.n.toNat out)) m)
      hnodup.2 fun x hx => by
        obtain ⟨y, hy⟩ := hall x (List.mem_cons_of_mem _ hx)
        have hne : x.prevout ≠ txin.prevout := fun h =>
          hnodup.1 (h ▸ List.mem_map_of_mem (f := CTxIn.prevout) hx)
        exact ⟨y, ((redo_spend_kept _ _ hex).2 _ hne).trans hy⟩
    refine ⟨spendUndo (m.coins txin.prevout.hash) txin.prevout.n.toNat out :: vprevout, m', ?_⟩
    rw [spendInputsFrom, run_modifyCoins, outputAt_ok.mpr hout]
    show ((spendInputsFrom vin >>= _ : CoinsProg (List CTxInUndo))).run plain _ = _
    have hrun : (spendInputsFrom vin).run plain (Map.put m txin.prevout.hash
        ((m.coins txin.prevout.hash).spend txin.prevout.n.toNat).cleanup) = _ := hrun
    rw [Prog.run_bind, hrun, Prog.runNext_ok]
    rfl

/-- `UpdateCoins` goes through when the inputs are available. -/
theorem updateCoins_run (env : Env) (nHeight : Nat) (hcb : tx.isCoinBase = false)
    (hnodup : tx.prevouts.Nodup)
    (hall : ∀ o ∈ tx.prevouts, ∃ out, m.output? o = some out) :
    ∃ txundo m', (updateCoins env tx nHeight).run plain m = (.ok txundo, m') ∧
      Applied env nHeight m tx m' := by
  obtain ⟨vprevout, m₁, hrun⟩ := spendInputsFrom_run env hnodup fun txin hx =>
    hall _ (List.mem_map_of_mem hx)
  have hup : (updateCoins env tx nHeight).run plain m =
      (.ok ⟨vprevout⟩, m₁.put (tx.getHash env.hash) (CCoins.fromTx tx nHeight).cleanup) := by
    rw [updateCoins, Prog.run_bind, spendInputs, hcb,
      show (if false = true then pure [] else spendInputsFrom tx.vin : CoinsProg _).run plain m = _
        from hrun, Prog.runNext_ok, run_modifyCoins]
    rfl
  obtain ⟨hlen, hstore, hex⟩ := updateCoins_ok hup
  exact ⟨_, _, hup, hstore ▸ txChanges_applied hlen hex⟩

/-! ## Where outputs come from -/

/-- Every record with outputs is that of a transaction of the kind `P`, and its outputs are among
those that the transaction makes. -/
def CoinsMap.Origin (env : Env) (P : CTransaction → Prop) (m : CoinsMap) : Prop :=
  ∀ txid, (m.coins txid).isPruned = false → ∃ tx, P tx ∧ tx.getHash env.hash = txid ∧
    (m.coins txid).fCoinBase = tx.isCoinBase ∧
    ∀ n out, (m.coins txid).output? n = some out → (CCoins.fromTx tx 0).output? n = some out

/-- The outputs of a new record do not depend on the height. -/
theorem output?_fromTx_height (tx : CTransaction) (h n : Nat) :
    (CCoins.fromTx tx h).output? n = (CCoins.fromTx tx 0).output? n := by
  rw [CCoins.output?_fromTx, CCoins.output?_fromTx]

variable {P : CTransaction → Prop}

/-- A record with outputs that the transaction has not made had outputs before. -/
theorem Applied.unpruned (h : Applied env nHeight m tx m') {txid : UInt256}
    (hid : txid ≠ tx.getHash env.hash) (hp : (m'.coins txid).isPruned = false) :
    (m.coins txid).isPruned = false := by
  rw [← Bool.not_eq_true, CCoins.isPruned_iff] at hp ⊢
  intro hall
  refine hp fun n => ?_
  by_contra hne
  obtain ⟨out, hout⟩ := Option.ne_none_iff_exists'.mp hne
  have := h.left txid n out hid hout
  rw [hall n] at this
  cases this

theorem Applied.origin (h : Applied env nHeight m tx m') (hm : m.Origin env P) (htx : P tx) :
    m'.Origin env P := by
  intro txid hp
  by_cases hid : txid = tx.getHash env.hash
  · subst hid
    refine ⟨tx, htx, rfl, ?_, fun n out hout => ?_⟩
    · rw [h.made]; rfl
    · rw [h.made, CCoins.output?_cleanup, output?_fromTx_height] at hout
      exact hout
  · have hp' := h.unpruned hid hp
    obtain ⟨s, hs, hhash, hcb, houts⟩ := hm txid hp'
    exact ⟨s, hs, hhash, (h.fCoinBase txid hid).trans hcb, fun n out hout =>
      houts n out (h.left txid n out hid hout)⟩

/-- The transaction of an available output. -/
theorem CoinsMap.Origin.source (hm : m.Origin env P) {out : CTxOut} (h : m.output? o = some out) :
    ∃ tx, P tx ∧ tx.getHash env.hash = o.hash ∧ (m.coins o.hash).fCoinBase = tx.isCoinBase ∧
      (CCoins.fromTx tx 0).output? o.n.toNat = some out := by
  obtain ⟨tx, htx, hhash, hcb, houts⟩ := hm o.hash (CCoins.not_isPruned h)
  exact ⟨tx, htx, hhash, hcb, houts _ _ h⟩

/-- Stores that know the same transactions agree on the outputs that both have available. -/
theorem CoinsMap.Origin.unique (hinj : ∀ s t, P s → P t → s.getHash env.hash = t.getHash env.hash →
    s = t) (hm : m.Origin env P) (hm' : m'.Origin env P) {out out' : CTxOut}
    (h : m.output? o = some out) (h' : m'.output? o = some out') : out = out' := by
  obtain ⟨s, hs, hhash, -, hout⟩ := hm.source h
  obtain ⟨t, ht, hhash', -, hout'⟩ := hm'.source h'
  obtain rfl := hinj s t hs ht (hhash.trans hhash'.symm)
  exact Option.some.inj (hout.symm.trans hout')

end

end GC
