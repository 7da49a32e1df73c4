import GameCredits.Model.Validation

/-!
# Agreement of coin records

Two records agree when the same outputs are available in both and, unless they are pruned, their
metadata is the same, with versions compared by a relation `ver`. Validation cannot tell agreeing
records apart:

* `connectBlock_rel`: on stores whose records agree, `ConnectBlock` gives the same outcome,
  agreeing undo data, and stores whose records agree.
* `disconnectBlock_rel`: so does `DisconnectBlock`, for records that agree in their versions too,
  or it is not clean on either store.
-/

namespace GC

open Framework (Prog OutRel)

/-- The two records have the same available outputs and, unless pruned, the same metadata, up to
`ver` for the versions. -/
structure CCoins.Agrees (ver : Int → Int → Prop) (a b : CCoins) : Prop where
  output : ∀ n, a.output? n = b.output? n
  fCoinBase : b.isPruned = false → a.fCoinBase = b.fCoinBase
  nHeight : b.isPruned = false → a.nHeight = b.nHeight
  nVersion : b.isPruned = false → ver a.nVersion b.nVersion

/-- The version is the same unless the second one is negative: the encodings do not keep negative
versions. -/
def VersionKept (a b : Int) : Prop := 0 ≤ b → a = b

namespace CCoins.Agrees

variable {ver : Int → Int → Prop} {a b c : CCoins}

theorem refl (hver : ∀ v, ver v v) (a : CCoins) : a.Agrees ver a :=
  ⟨fun _ => rfl, fun _ => rfl, fun _ => rfl, fun _ => hver _⟩

theorem isPruned (h : a.Agrees ver b) : a.isPruned = b.isPruned := isPruned_congr h.output

theorem isAvailable (h : a.Agrees ver b) (n : Nat) : a.isAvailable n = b.isAvailable n := by
  rw [CCoins.isAvailable, h.output, ← CCoins.isAvailable]

theorem trans {ver' : Int → Int → Prop} {ver'' : Int → Int → Prop}
    (hver : ∀ {u v w}, ver u v → ver' v w → ver'' u w) (h : a.Agrees ver b) (h' : b.Agrees ver' c) :
    a.Agrees ver'' c := by
  have hp : c.isPruned = false → b.isPruned = false := fun hc => h'.isPruned.trans hc
  refine ⟨fun n => (h.output n).trans (h'.output n), fun hc => ?_, fun hc => ?_, fun hc => ?_⟩
  · exact (h.fCoinBase (hp hc)).trans (h'.fCoinBase hc)
  · exact (h.nHeight (hp hc)).trans (h'.nHeight hc)
  · exact hver (h.nVersion (hp hc)) (h'.nVersion hc)

theorem symm (h : a.Agrees Eq b) : b.Agrees Eq a := by
  have hp : a.isPruned = false → b.isPruned = false := fun ha => h.isPruned.symm.trans ha
  exact ⟨fun n => (h.output n).symm, fun ha => (h.fCoinBase (hp ha)).symm,
    fun ha => (h.nHeight (hp ha)).symm, fun ha => (h.nVersion (hp ha)).symm⟩

theorem mono {ver' : Int → Int → Prop} (hver : ∀ {u v}, ver u v → ver' u v) (h : a.Agrees ver b) :
    a.Agrees ver' b :=
  ⟨h.output, h.fCoinBase, h.nHeight, fun hp => hver (h.nVersion hp)⟩

theorem of_pruned (ha : a.isPruned = true) (hb : b.isPruned = true) : a.Agrees ver b := by
  have hne : b.isPruned = false → False := fun h => by rw [hb] at h; cases h
  exact ⟨fun n => (isPruned_iff.mp ha n).trans (isPruned_iff.mp hb n).symm,
    fun h => (hne h).elim, fun h => (hne h).elim, fun h => (hne h).elim⟩

theorem cleanup (h : a.Agrees ver b) : a.cleanup.Agrees ver b.cleanup := by
  have hp : b.cleanup.isPruned = false → b.isPruned = false := fun hb => by
    rwa [isPruned_cleanup] at hb
  exact ⟨fun n => by rw [output?_cleanup, output?_cleanup, h.output],
    fun hb => h.fCoinBase (hp hb), fun hb => h.nHeight (hp hb), fun hb => h.nVersion (hp hb)⟩

theorem spend (h : a.Agrees ver b) (n : Nat) : (a.spend n).Agrees ver (b.spend n) := by
  by_cases hn : b.isAvailable n = true
  · have hna : a.isAvailable n = true := (h.isAvailable n).trans hn
    obtain ⟨out, hout⟩ := Option.isSome_iff_exists.mp hn
    have hp := not_isPruned hout
    refine ⟨fun m => ?_, fun _ => ?_, fun _ => ?_, fun _ => ?_⟩
    · rw [output?_spend hna, output?_spend hn, h.output]
    · rw [spend_fCoinBase, spend_fCoinBase, h.fCoinBase hp]
    · rw [spend_nHeight, spend_nHeight, h.nHeight hp]
    · rw [spend_nVersion, spend_nVersion]; exact h.nVersion hp
  · have hna : ¬ a.isAvailable n = true := by rwa [h.isAvailable n]
    rw [CCoins.spend, CCoins.spend, if_neg hn, if_neg hna]
    exact h

end CCoins.Agrees

/-- Undo data of an input, up to `ver` for the version. -/
structure CTxInUndo.Agrees (ver : Int → Int → Prop) (u v : CTxInUndo) : Prop where
  txout : u.txout = v.txout
  fCoinBase : u.fCoinBase = v.fCoinBase
  nHeight : u.nHeight = v.nHeight
  nVersion : ver u.nVersion v.nVersion

/-- Undo data of a transaction, up to `ver` for the versions. -/
def CTxUndo.Agrees (ver : Int → Int → Prop) (u v : CTxUndo) : Prop :=
  List.Forall₂ (CTxInUndo.Agrees ver) u.vprevout v.vprevout

/-- Undo data of a block, up to `ver` for the versions. -/
def CBlockUndo.Agrees (ver : Int → Int → Prop) (u v : CBlockUndo) : Prop :=
  List.Forall₂ (CTxUndo.Agrees ver) u.vtxundo v.vtxundo

theorem CTxInUndo.Agrees.eq {u v : CTxInUndo} (h : u.Agrees Eq v) : u = v := by
  obtain ⟨_, _, _, _⟩ := u
  obtain ⟨rfl, rfl, rfl, rfl⟩ := h
  rfl

theorem CTxUndo.Agrees.eq {u v : CTxUndo} (h : u.Agrees Eq v) : u = v := by
  have hall := h.imp fun _ _ => CTxInUndo.Agrees.eq
  rw [List.forall₂_eq_eq_eq] at hall
  exact congrArg CTxUndo.mk hall

theorem CBlockUndo.Agrees.eq {u v : CBlockUndo} (h : u.Agrees Eq v) : u = v := by
  have hall := h.imp fun _ _ => CTxUndo.Agrees.eq
  rw [List.forall₂_eq_eq_eq] at hall
  exact congrArg CBlockUndo.mk hall

/-- A spent record is emptied exactly when no other output was available. -/
theorem spend_isEmpty {c : CCoins} {n : Nat} (h : c.isAvailable n = true) :
    (c.spend n).vout.isEmpty = (c.spend n).isPruned := by
  rw [Bool.eq_iff_iff, List.isEmpty_iff, (CCoins.trimmed_spend h).vout_eq_nil]

theorem spendUndo_agrees {ver : Int → Int → Prop} (hver : ∀ v, ver v v) {a b : CCoins} {n : Nat}
    (h : a.Agrees ver b) (hn : b.isAvailable n = true) (out : CTxOut) :
    (spendUndo a n out).Agrees ver (spendUndo b n out) := by
  have hp : b.isPruned = false := CCoins.not_isPruned (Option.isSome_iff_exists.mp hn).choose_spec
  unfold spendUndo
  rw [spend_isEmpty hn, spend_isEmpty ((h.isAvailable n).trans hn), (h.spend n).isPruned]
  split_ifs
  · exact ⟨rfl, h.fCoinBase hp, h.nHeight hp, h.nVersion hp⟩
  · exact ⟨rfl, rfl, rfl, hver _⟩

/-! ## Reading records -/

/-- A missing record reads as an empty one. -/
theorem outputAt_getD (coins : Option CCoins) (n : Nat) :
    outputAt coins n = outputAt (some (coins.getD .empty)) n := by
  cases coins <;> rfl

theorem available_getD (coins : Option CCoins) (n : Nat) :
    (coins.map (·.isAvailable n)).getD false = (coins.getD .empty).isAvailable n := by
  cases coins <;> rfl

theorem pruned_getD (coins : Option CCoins) :
    (coins.map CCoins.isPruned).getD true = (coins.getD .empty).isPruned := by
  cases coins <;> rfl

theorem outputAt_ok {coins : CCoins} {n : Nat} {out : CTxOut} :
    outputAt (some coins) n = .ok out ↔ coins.output? n = some out := by
  rw [outputAt, Option.bind_some]
  cases coins.output? n <;> simp

theorem outputAt_congr {a b : CCoins} {n : Nat} (h : a.output? n = b.output? n) :
    outputAt (some a) n = outputAt (some b) n := by
  rw [outputAt, outputAt, Option.bind_some, Option.bind_some, h]

/-! ## Connecting -/

section Connect

variable {T : UInt256 → Prop} {ver : Int → Int → Prop} {β γ : Type} {Q : β → γ → Prop}

/-- Relation of programs on stores whose records agree; the best blocks set satisfy `T`. -/
abbrev CoinsRel (T : UInt256 → Prop) (ver : Int → Int → Prop) (Q : β → γ → Prop) (p : CoinsProg β)
    (q : CoinsProg γ) : Prop :=
  Prog.Rel .empty (CCoins.Agrees ver) T Q (fun _ => False) (fun _ => False) p q

theorem CoinsRel.same (r : Except Failure β) :
    CoinsRel T ver Eq (Prog.lift r : CoinsProg β) (Prog.lift r) :=
  Prog.Rel.lift (by cases r <;> exact rfl)

/-- Reading an output gives the same on both sides. -/
theorem outputAt_rel {x y : Option CCoins} (h : (x.getD .empty).Agrees ver (y.getD .empty)) (n : Nat) :
    CoinsRel T ver Eq (Prog.lift (outputAt x n) : CoinsProg CTxOut) (Prog.lift (outputAt y n)) := by
  rw [outputAt_getD x, outputAt_getD y, outputAt_congr (h.output n)]
  exact CoinsRel.same _

theorem getOutputFor_rel (txin : CTxIn) : CoinsRel T ver Eq (getOutputFor txin) (getOutputFor txin) :=
  Prog.Rel.get _ fun _ _ h => outputAt_rel h _

theorem valueInFrom_rel (vin : List CTxIn) (n : Int) :
    CoinsRel T ver Eq (valueInFrom n vin) (valueInFrom n vin) := by
  induction vin generalizing n with
  | nil => exact .ret rfl
  | cons txin vin ih => exact (getOutputFor_rel txin).seq fun _ _ h => h ▸ ih _

theorem getValueIn_rel (tx : CTransaction) : CoinsRel T ver Eq (getValueIn tx) (getValueIn tx) := by
  unfold getValueIn
  split_ifs
  · exact .ret rfl
  · exact valueInFrom_rel _ _

theorem haveInputsFrom_rel (vin : List CTxIn) :
    CoinsRel T ver Eq (haveInputsFrom vin) (haveInputsFrom vin) := by
  induction vin with
  | nil => exact .ret rfl
  | cons txin vin ih =>
    refine Prog.Rel.get _ fun x y h => ?_
    show CoinsRel T ver Eq (ite _ _ _) (ite _ _ _)
    rw [available_getD, available_getD, h.isAvailable]
    split_ifs
    · exact ih
    · exact .ret rfl

theorem haveInputs_rel (tx : CTransaction) : CoinsRel T ver Eq (haveInputs tx) (haveInputs tx) := by
  unfold haveInputs
  split_ifs
  · exact .ret rfl
  · exact haveInputsFrom_rel _

theorem p2shSigOpsFrom_rel (vin : List CTxIn) (n : Nat) :
    CoinsRel T ver Eq (p2shSigOpsFrom n vin) (p2shSigOpsFrom n vin) := by
  induction vin generalizing n with
  | nil => exact .ret rfl
  | cons txin vin ih => exact (getOutputFor_rel txin).seq fun _ _ h => h ▸ ih _

theorem getP2SHSigOpCount_rel (tx : CTransaction) :
    CoinsRel T ver Eq (getP2SHSigOpCount tx) (getP2SHSigOpCount tx) := by
  unfold getP2SHSigOpCount
  split_ifs
  · exact .ret rfl
  · exact p2shSigOpsFrom_rel _ _

/-- A record with an available output is not pruned, so that its metadata agrees too. -/
theorem maturity_congr {x y : Option CCoins} {n : Nat} {out : CTxOut} {nSpendHeight : Int}
    (h : (x.getD .empty).Agrees ver (y.getD .empty)) (hout : outputAt y n = .ok out) :
    (x.map fun coins =>
        coins.fCoinBase && decide (nSpendHeight - coins.nHeight < COINBASE_MATURITY)).getD false =
      (y.map fun coins =>
        coins.fCoinBase && decide (nSpendHeight - coins.nHeight < COINBASE_MATURITY)).getD false := by
  rw [outputAt_getD, outputAt_ok] at hout
  have hp := CCoins.not_isPruned hout
  cases y with
  | none => cases hout
  | some y =>
    have houtx := (h.output n).trans hout
    cases x with
    | none => cases houtx
    | some x =>
      simp only [Option.map_some, Option.getD_some] at h hp ⊢
      rw [h.fCoinBase hp, h.nHeight hp]

theorem checkInputValues_rel (nSpendHeight : Int) (vin : List CTxIn) (n : Int) :
    CoinsRel T ver Eq (checkInputValues nSpendHeight n vin) (checkInputValues nSpendHeight n vin) := by
  induction vin generalizing n with
  | nil => exact .ret rfl
  | cons txin vin ih =>
    refine Prog.Rel.get _ fun x y h => ?_
    show CoinsRel T ver Eq (Prog.lift (outputAt x _) >>= _) (Prog.lift (outputAt y _) >>= _)
    have hxy : outputAt x txin.prevout.n.toNat = outputAt y txin.prevout.n.toNat := by
      rw [outputAt_getD x, outputAt_getD y, outputAt_congr (h.output _)]
    rw [hxy]
    cases hout : outputAt y txin.prevout.n.toNat with
    | error e => exact .fail e
    | ok out =>
      show CoinsRel T ver Eq (Prog.check _ _ >>= _) (Prog.check _ _ >>= _)
      rw [maturity_congr h hout]
      exact Prog.Rel.check rfl _ fun _ => Prog.Rel.check rfl _ fun _ => ih _

section

variable (env : Env)

theorem checkInputScripts_rel (tx : CTransaction) (pvChecks : Bool) (vin : List CTxIn) (i : Nat) :
    CoinsRel T ver Eq (checkInputScripts env tx pvChecks i vin)
      (checkInputScripts env tx pvChecks i vin) := by
  induction vin generalizing i with
  | nil => exact .ret rfl
  | cons txin vin ih =>
    refine Prog.Rel.get _ fun x y h => (outputAt_rel h _).seq ?_
    rintro out _ rfl
    refine Prog.Rel.check rfl _ fun _ => (ih (i + 1)).seq ?_
    rintro rest _ rfl
    exact .ret rfl

theorem checkInputs_rel (tx : CTransaction) (fScriptChecks pvChecks : Bool) :
    CoinsRel T ver Eq (checkInputs env tx fScriptChecks pvChecks)
      (checkInputs env tx fScriptChecks pvChecks) := by
  refine (haveInputs_rel tx).seq ?_
  rintro fHave _ rfl
  refine Prog.Rel.check rfl _ fun _ => Prog.Rel.getTag fun hashBest =>
    (checkInputValues_rel _ _ _).seq ?_
  rintro nValueIn _ rfl
  refine (CoinsRel.same _).seq ?_
  rintro nValueOut _ rfl
  refine Prog.Rel.check rfl _ fun _ => Prog.Rel.check rfl _ fun _ => Prog.Rel.check rfl _ fun _ => ?_
  split_ifs
  · exact checkInputScripts_rel env tx pvChecks _ _
  · exact .ret rfl

variable (hver : ∀ v, ver v v)

include hver

theorem spendInputsFrom_rel (vin : List CTxIn) :
    CoinsRel T ver (List.Forall₂ (CTxInUndo.Agrees ver)) (spendInputsFrom vin)
      (spendInputsFrom vin) := by
  induction vin with
  | nil => exact .ret .nil
  | cons txin vin ih =>
    refine Prog.Rel.edit _ (fun x y h => .inl (h.spend _).cleanup) fun x y h _ => ?_
    show CoinsRel T ver _ (Prog.lift (outputAt (some x) _) >>= _) (Prog.lift (outputAt (some y) _) >>= _)
    rw [outputAt_congr (h.output _)]
    cases hout : outputAt (some y) txin.prevout.n.toNat with
    | error e => exact .fail e
    | ok out =>
      have hn : y.isAvailable txin.prevout.n.toNat = true := by
        rw [CCoins.isAvailable, outputAt_ok.mp hout]; rfl
      exact ih.seq fun us vs huv => .ret (.cons (spendUndo_agrees hver h hn out) huv)

theorem spendInputs_rel (tx : CTransaction) :
    CoinsRel T ver (List.Forall₂ (CTxInUndo.Agrees ver)) (spendInputs tx) (spendInputs tx) := by
  unfold spendInputs
  split_ifs
  · exact .ret .nil
  · exact spendInputsFrom_rel hver _

theorem updateCoins_rel (tx : CTransaction) (nHeight : Nat) :
    CoinsRel T ver (CTxUndo.Agrees ver) (updateCoins env tx nHeight) (updateCoins env tx nHeight) := by
  refine (spendInputs_rel hver tx).seq fun us vs huv => ?_
  exact Prog.Rel.edit _ (fun _ _ _ => .inl (.refl hver _)) fun _ _ _ _ => .ret huv

omit hver

theorem checkOverwrite_rel (vtx : List CTransaction) :
    CoinsRel T ver Eq (checkOverwrite env vtx) (checkOverwrite env vtx) := by
  induction vtx with
  | nil => exact .ret rfl
  | cons tx vtx ih =>
    refine Prog.Rel.get _ fun x y h => ?_
    refine Prog.Rel.check ?_ _ fun _ => ih
    rw [pruned_getD, pruned_getD, h.isPruned]

/-- The variables of the loop of `ConnectBlock`, up to `ver` in the undo data. -/
structure ConnectState.Agrees (ver : Int → Int → Prop) (s t : ConnectState) : Prop where
  nFees : s.nFees = t.nFees
  nSigOps : s.nSigOps = t.nSigOps
  fAllOk : s.fAllOk = t.fAllOk
  vtxundo : List.Forall₂ (CTxUndo.Agrees ver) s.vtxundo t.vtxundo

theorem checkSpends_rel (fScriptChecks : Bool) (tx : CTransaction) {s t : ConnectState}
    (h : s.Agrees ver t) :
    CoinsRel T ver (ConnectState.Agrees ver) (checkSpends env fScriptChecks tx s)
      (checkSpends env fScriptChecks tx t) := by
  unfold checkSpends
  refine (haveInputs_rel tx).seq ?_
  rintro fHave _ rfl
  refine Prog.Rel.check rfl _ fun _ => (getP2SHSigOpCount_rel tx).seq ?_
  rintro nMore _ rfl
  rw [h.nSigOps]
  refine Prog.Rel.check rfl _ fun _ => (getValueIn_rel tx).seq ?_
  rintro nValueIn _ rfl
  refine (CoinsRel.same _).seq ?_
  rintro nValueOut _ rfl
  refine (checkInputs_rel env tx _ _).seq ?_
  rintro vChecks _ rfl
  refine .ret ⟨?_, rfl, ?_, h.vtxundo⟩
  · rw [h.nFees]
  · rw [h.fAllOk]

theorem connectInputs_rel (fScriptChecks : Bool) (tx : CTransaction) {s t : ConnectState}
    (h : s.Agrees ver t) :
    CoinsRel T ver (ConnectState.Agrees ver) (connectInputs env fScriptChecks tx s)
      (connectInputs env fScriptChecks tx t) := by
  unfold connectInputs
  split_ifs
  · exact .ret h
  · exact checkSpends_rel env fScriptChecks tx h

theorem finishConnect_rel (pindex : BlockRef) (fJustCheck : Bool) (hT : T pindex.hashBlock) :
    CoinsRel T ver Eq (finishConnect pindex fJustCheck) (finishConnect pindex fJustCheck) := by
  unfold finishConnect
  split_ifs
  · exact .ret rfl
  · exact .setTag _ hT (.ret rfl)

include hver

theorem connectTx_rel (fScriptChecks : Bool) (nHeight : Nat) (first : Bool) (tx : CTransaction)
    {s t : ConnectState} (h : s.Agrees ver t) :
    CoinsRel T ver (ConnectState.Agrees ver) (connectTx env fScriptChecks nHeight first tx s)
      (connectTx env fScriptChecks nHeight first tx t) := by
  unfold connectTx
  rw [h.nSigOps]
  refine Prog.Rel.check rfl _ fun _ => ?_
  refine (connectInputs_rel env fScriptChecks tx
    (s := { s with nSigOps := t.nSigOps + getLegacySigOpCount tx })
    (t := { t with nSigOps := t.nSigOps + getLegacySigOpCount tx })
    ⟨h.nFees, rfl, h.fAllOk, h.vtxundo⟩).seq fun s' t' hst => ?_
  refine (updateCoins_rel env hver tx nHeight).seq fun u v huv => ?_
  refine .ret ⟨hst.nFees, hst.nSigOps, hst.fAllOk, ?_⟩
  show List.Forall₂ _ (if first then _ else _) (if first then _ else _)
  split_ifs
  · exact hst.vtxundo
  · exact .cons huv hst.vtxundo

theorem connectTxs_rel (fScriptChecks : Bool) (nHeight : Nat) (first : Bool)
    (vtx : List CTransaction) {s t : ConnectState} (h : s.Agrees ver t) :
    CoinsRel T ver (ConnectState.Agrees ver) (connectTxs env fScriptChecks nHeight first vtx s)
      (connectTxs env fScriptChecks nHeight first vtx t) := by
  induction vtx generalizing s t first with
  | nil => exact .ret h
  | cons tx vtx ih =>
    exact (connectTx_rel env hver fScriptChecks nHeight first tx h).seq fun s' t' hst => ih false hst

theorem connectTransactions_rel (block : CBlock) (pindex : BlockRef) :
    CoinsRel T ver (CBlockUndo.Agrees ver) (connectTransactions env block pindex)
      (connectTransactions env block pindex) := by
  refine (checkOverwrite_rel env block.vtx).seq fun _ _ _ => ?_
  refine (connectTxs_rel env hver _ _ _ _ ⟨rfl, rfl, rfl, .nil⟩).seq fun s t hst => ?_
  refine (CoinsRel.same _).seq ?_
  rintro nValueOut _ rfl
  rw [hst.nFees, hst.fAllOk]
  refine Prog.Rel.check rfl _ fun _ => Prog.Rel.check rfl _ fun _ => .ret ?_
  exact List.rel_reverse hst.vtxundo

theorem connectChecked_rel (block : CBlock) (pindex : BlockRef) (fJustCheck : Bool) :
    CoinsRel T ver (CBlockUndo.Agrees ver) (connectChecked env block pindex fJustCheck)
      (connectChecked env block pindex fJustCheck) := by
  refine (CoinsRel.same _).seq fun _ _ _ => Prog.Rel.getTag fun hashBest =>
    Prog.Rel.check rfl _ fun _ => ?_
  split_ifs with hgen
  · exact .ret .nil
  · exact connectTransactions_rel env hver block pindex

theorem connectBlock_rel (block : CBlock) (pindex : BlockRef) (fJustCheck : Bool)
    (hT : T pindex.hashBlock) :
    CoinsRel T ver (CBlockUndo.Agrees ver) (connectBlock env block pindex fJustCheck)
      (connectBlock env block pindex fJustCheck) :=
  (connectChecked_rel env hver block pindex fJustCheck).seq fun _ _ huv =>
    (finishConnect_rel pindex fJustCheck hT).seq fun _ _ _ => .ret huv

end

end Connect

/-! ## Disconnecting -/

/-- An outcome of `DisconnectBlock` other than a clean one. -/
def Unclean (r : Except Failure Bool) : Prop := r ≠ .ok true

theorem always_unclean {β : Type} (p : CoinsProg β) {f : β → CoinsProg Bool}
    (hf : ∀ a, (f a).Always Unclean) : (p >>= f).Always Unclean :=
  Prog.Always.bind (B := fun _ => True) (fun e _ => by rintro ⟨⟩) (fun a _ => hf a) (.trivial p)

/-- Relation of programs that report whether all was clean: the same on both sides, or unclean on
both. -/
abbrev CleanRel (T : UInt256 → Prop) (p q : CoinsProg Bool) : Prop :=
  Prog.Rel .empty (CCoins.Agrees Eq) T Eq Unclean Unclean p q

variable {T : UInt256 → Prop}

theorem CleanRel.bind {p q : CoinsProg Bool} {f g : Bool → CoinsProg Bool} (h : CleanRel T p q)
    (hfg : ∀ b, CleanRel T (f b) (g b)) (hf : (f false).Always Unclean)
    (hg : (g false).Always Unclean) : CleanRel T (p >>= f) (q >>= g) := by
  have hfalse : ∀ b, Unclean (.ok b) → b = false := fun b hb => by
    cases b with
    | false => rfl
    | true => exact (hb rfl).elim
  refine Prog.Rel.bind h (fun a b hab => hab ▸ hfg a) (fun e _ => by rintro ⟨⟩) (fun a ha => ?_)
    (fun e _ => by rintro ⟨⟩) fun b hb => ?_
  · rw [hfalse a ha]; exact hf
  · rw [hfalse b hb]; exact hg

theorem output?_undoSpend (undo : CTxInUndo) (n : UInt32) (coins : CCoins) (m : Nat) :
    (undoSpend undo n coins).output? m =
      if m = n.toNat then undo.txout.unlessNull
      else if undo.nHeight ≠ 0 then none else coins.output? m := by
  unfold undoSpend
  rw [CCoins.output?_set _ (CCoins.lt_length_grow _ _), CCoins.output?_grow]
  split_ifs <;> rfl

theorem undoSpend_fCoinBase (undo : CTxInUndo) (n : UInt32) (coins : CCoins) :
    (undoSpend undo n coins).fCoinBase =
      if undo.nHeight ≠ 0 then undo.fCoinBase else coins.fCoinBase := by
  unfold undoSpend; split_ifs <;> rfl

theorem undoSpend_nHeight (undo : CTxInUndo) (n : UInt32) (coins : CCoins) :
    (undoSpend undo n coins).nHeight = if undo.nHeight ≠ 0 then undo.nHeight else coins.nHeight := by
  unfold undoSpend; split_ifs <;> rfl

theorem undoSpend_nVersion (undo : CTxInUndo) (n : UInt32) (coins : CCoins) :
    (undoSpend undo n coins).nVersion =
      if undo.nHeight ≠ 0 then undo.nVersion else coins.nVersion := by
  unfold undoSpend; split_ifs <;> rfl

/-- Undoing a spend keeps agreement, unless it adds an output to a pruned record. -/
theorem undoSpend_agrees {a b : CCoins} (h : a.Agrees Eq b) (undo : CTxInUndo) (n : UInt32)
    (hb : undo.nHeight = 0 → b.isPruned = false) :
    (undoSpend undo n a).Agrees Eq (undoSpend undo n b) := by
  refine ⟨fun m => ?_, fun _ => ?_, fun _ => ?_, fun _ => ?_⟩
  · rw [output?_undoSpend, output?_undoSpend, h.output]
  · rw [undoSpend_fCoinBase, undoSpend_fCoinBase]
    split_ifs with h0
    · rfl
    · exact h.fCoinBase (hb (not_not.mp h0))
  · rw [undoSpend_nHeight, undoSpend_nHeight]
    split_ifs with h0
    · rfl
    · exact h.nHeight (hb (not_not.mp h0))
  · rw [undoSpend_nVersion, undoSpend_nVersion]
    split_ifs with h0
    · rfl
    · exact h.nVersion (hb (not_not.mp h0))

theorem undoSpendClean_congr {a b : CCoins} (h : a.Agrees Eq b) (undo : CTxInUndo) (n : UInt32) :
    undoSpendClean undo n a = undoSpendClean undo n b := by
  unfold undoSpendClean
  rw [h.isPruned, h.isAvailable]

/-- Adding an output to a pruned record is not clean. -/
theorem undoSpendClean_pruned {undo : CTxInUndo} (h0 : undo.nHeight = 0) (n : UInt32) {coins : CCoins}
    (hp : coins.isPruned = true) : undoSpendClean undo n coins = false := by
  rw [undoSpendClean, if_neg (not_not.mpr h0), hp]; rfl

theorem applyTxInUndo_rel (undo : CTxInUndo) (out : COutPoint) :
    CleanRel T (applyTxInUndo undo out) (applyTxInUndo undo out) := by
  refine Prog.Rel.edit _ (fun x y h => ?_) fun x y h _ => ?_
  · by_cases hb : undo.nHeight = 0 → y.isPruned = false
    · exact .inl (undoSpend_agrees h undo out.n hb).cleanup
    · obtain ⟨h0, hp⟩ := Classical.not_imp.mp hb
      have hy := undoSpendClean_pruned h0 out.n (Bool.not_eq_false _ ▸ hp)
      have hx := (undoSpendClean_congr h undo out.n).trans hy
      refine .inr ⟨?_, ?_⟩
      · show Unclean (.ok (undoSpendClean undo out.n x))
        rw [hx]; rintro ⟨⟩
      · show Unclean (.ok (undoSpendClean undo out.n y))
        rw [hy]; rintro ⟨⟩
  · exact .ret (undoSpendClean_congr h undo out.n)

theorem applyTxUndo_rel (undos : List (CTxIn × CTxInUndo)) :
    CleanRel T (applyTxUndo undos) (applyTxUndo undos) := by
  induction undos with
  | nil => exact .ret rfl
  | cons u undos ih =>
    have hfalse : ∀ b, Prog.Always Unclean (pure (b && false) : CoinsProg Bool) := fun b => by
      rw [Bool.and_false]; rintro ⟨⟩
    have hrest : ∀ b, CleanRel T (applyTxUndo undos >>= fun fRest => pure (b && fRest))
        (applyTxUndo undos >>= fun fRest => pure (b && fRest)) := fun b =>
      ih.bind (fun _ => .ret rfl) (hfalse b) (hfalse b)
    exact (applyTxInUndo_rel u.2 u.1.prevout).bind hrest (always_unclean _ fun _ => by rintro ⟨⟩)
      (always_unclean _ fun _ => by rintro ⟨⟩)

/-- Equality of trimmed records: of the available outputs and, unless pruned, the metadata. -/
theorem beq_iff {a b : CCoins} (ha : a.Trimmed) (hb : b.Trimmed) :
    a.beq b = true ↔ (∀ n, a.output? n = b.output? n) ∧ (b.isPruned = false →
      a.fCoinBase = b.fCoinBase ∧ a.nHeight = b.nHeight ∧ a.nVersion = b.nVersion) := by
  rw [CCoins.beq]
  simp only [Bool.or_eq_true, Bool.and_eq_true, beq_iff_eq]
  constructor
  · rintro (⟨hpa, hpb⟩ | ⟨⟨⟨hc, hh⟩, hv⟩, hvout⟩)
    · refine ⟨fun n => ?_, fun h => by rw [hpb] at h; cases h⟩
      rw [CCoins.isPruned_iff.mp hpa, CCoins.isPruned_iff.mp hpb]
    · exact ⟨fun n => by rw [CCoins.output?, CCoins.output?, hvout], fun _ => ⟨hc, hh, hv⟩⟩
  · rintro ⟨hout, hmeta⟩
    cases hp : b.isPruned with
    | true => exact .inl ⟨(CCoins.isPruned_congr hout).trans hp, rfl⟩
    | false =>
      obtain ⟨hc, hh, hv⟩ := hmeta hp
      exact .inr ⟨⟨⟨hc, hh⟩, hv⟩, CCoins.vout_eq_of_output? ha hb hout⟩

/-- The check of a disconnected transaction compares the spendable outputs, and the metadata of a
record that is not pruned. -/
theorem outsMatch_iff {tx : CTransaction} {nHeight : Nat} {outs : CCoins} :
    outsMatch tx nHeight outs = true ↔
      (∀ n, outs.clearUnspendable.output? n = (CCoins.fromTx tx nHeight).output? n) ∧
        ((CCoins.fromTx tx nHeight).isPruned = false → outs.fCoinBase = tx.isCoinBase ∧
          outs.nHeight = nHeight ∧ (0 ≤ tx.nVersion → outs.nVersion = tx.nVersion)) := by
  have htrim := CCoins.trimmed_clearUnspendable outs
  show CCoins.beq (if tx.nVersion < 0 then _ else _) _ = true ↔ _
  split_ifs with hneg
  · refine (beq_iff (by exact htrim) (CCoins.trimmed_fromTx tx nHeight)).trans ?_
    refine and_congr_right fun _ => imp_congr_right fun _ => ?_
    exact and_congr_right fun _ => and_congr_right fun _ => ⟨fun _ h => by omega, fun _ => rfl⟩
  · refine (beq_iff htrim (CCoins.trimmed_fromTx tx nHeight)).trans ?_
    refine and_congr_right fun _ => imp_congr_right fun _ => ?_
    exact and_congr_right fun _ => and_congr_right fun _ => ⟨fun h _ => h, fun h => h (by omega)⟩

theorem outsMatch_congr {a b : CCoins} (h : a.Agrees Eq b) (tx : CTransaction) (nHeight : Nat) :
    outsMatch tx nHeight a = outsMatch tx nHeight b := by
  rw [Bool.eq_iff_iff, outsMatch_iff, outsMatch_iff]
  simp only [CCoins.output?_clearUnspendable, h.output]
  refine and_congr_right fun hout => imp_congr_right fun hp => ?_
  have hb : b.isPruned = false := by
    rw [← Bool.not_eq_true, CCoins.isPruned_iff] at hp ⊢
    intro hall
    exact hp fun n => by rw [← hout n, hall n]; rfl
  rw [h.fCoinBase hb, h.nHeight hb, h.nVersion hb]

section

variable (env : Env)

theorem removeOutputs_rel (tx : CTransaction) (nHeight : Nat) :
    CleanRel T (removeOutputs env tx nHeight) (removeOutputs env tx nHeight) :=
  Prog.Rel.edit _ (fun _ _ _ => .inl (.refl (fun _ => rfl) _)) fun _ _ h _ =>
    .ret (outsMatch_congr h tx nHeight)

theorem disconnectTxs_rel (nHeight : Nat) (txs : List (CTransaction × CTxUndo)) :
    CleanRel T (disconnectTxs env nHeight txs) (disconnectTxs env nHeight txs) := by
  induction txs with
  | nil => exact .ret rfl
  | cons t txs ih =>
    have hclean : ∀ b, CleanRel T
        (applyTxUndo (t.1.vin.zip t.2.vprevout).reverse >>= fun fClean =>
          disconnectTxs env nHeight txs >>= fun fRest => pure (b && fClean && fRest))
        (applyTxUndo (t.1.vin.zip t.2.vprevout).reverse >>= fun fClean =>
          disconnectTxs env nHeight txs >>= fun fRest => pure (b && fClean && fRest)) := by
      intro b
      refine (applyTxUndo_rel _).bind (fun c => ih.bind (fun _ => .ret rfl) ?_ ?_) ?_ ?_
      · rw [Bool.and_false]; rintro ⟨⟩
      · rw [Bool.and_false]; rintro ⟨⟩
      · exact always_unclean _ fun _ => by rw [Bool.and_false]; rintro ⟨⟩
      · exact always_unclean _ fun _ => by rw [Bool.and_false]; rintro ⟨⟩
    refine (removeOutputs_rel env t.1 nHeight).bind (fun b => ?_) ?_ ?_
    · exact Prog.Rel.check rfl _ fun _ => hclean b
    · exact always_unclean _ fun _ => always_unclean _ fun _ => always_unclean _ fun _ => by
        rintro ⟨⟩
    · exact always_unclean _ fun _ => always_unclean _ fun _ => always_unclean _ fun _ => by
        rintro ⟨⟩

theorem disconnectBlock_rel (block : CBlock) (pindex : BlockRef) (blockUndo : CBlockUndo)
    (hT : T (pindex.hashPrev.getD 0)) :
    CleanRel T (disconnectBlock env block pindex blockUndo)
      (disconnectBlock env block pindex blockUndo) := by
  refine Prog.Rel.getTag fun hashBest => Prog.Rel.check rfl _ fun _ => Prog.Rel.check rfl _ fun _ => ?_
  rcases block.vtx with _ | ⟨coinbase, vtx⟩
  · exact .fail _
  · refine (disconnectTxs_rel env _ _).bind (fun b => ?_) ?_ ?_
    · refine (removeOutputs_rel env _ _).bind (fun c => .setTag _ hT (.ret rfl)) ?_ ?_
      · show Unclean _; rw [Bool.and_false]; rintro ⟨⟩
      · show Unclean _; rw [Bool.and_false]; rintro ⟨⟩
    · exact always_unclean _ fun _ => by show Unclean _; rintro ⟨⟩
    · exact always_unclean _ fun _ => by show Unclean _; rintro ⟨⟩

end

end GC
