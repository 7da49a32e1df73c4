import Mathlib.Algebra.BigOperators.Ring.Finset
import GameCredits.Model.Miner
import GameCredits.Proof.MempoolRemove
import GameCredits.Proof.MempoolTip
import GameCredits.Proof.Subsidy

/-!
# Block templates

What `CreateNewBlock` makes of a pool that is consistent with the coins (`CTxMemPool.Minable`). The
loop over the pool collects all of its transactions (`collectTxs_run`). Every transaction that the
loop over the queue takes is spent into the view (`Spends`), so that the list is one that single-use
outputs allow (`Framework.Ledger`): nothing comes twice, parents come first, and nothing is spent
twice.

* `spendTx_run`: a transaction is skipped, or spent into the view.
* `selectTxs_run`: the loop over the queue ends, with a selection that is `Selection.Ok`.
* `createNewBlock_valid`: the template.
-/

namespace GC

open Framework (Prog Map)
open Framework.Ledger (Done Ordered)
open Framework.Heap (makeHeap_perm popHeap_perm pushHeap_perm)

namespace CTxMemPool

/-- A transaction of the pool. -/
def Holds (env : Env) (pool : CTxMemPool) (tx : CTransaction) : Prop :=
  ∃ e, pool.mapTx.lookup (tx.getHash env.hash) = some e ∧ e.tx = tx

/-- A pool that is consistent with the coins: its books are right, its transactions have passed
`CheckTransaction`, each of their inputs spends an output of the pool or of the coins, and the coins
have nothing of its transactions. -/
structure Minable (env : Env) (pool : CTxMemPool) (m : CoinsMap) : Prop where
  books : pool.Books env
  checked : ∀ {h e}, pool.mapTx.lookup h = some e → CheckedTx e.tx ∧ e.tx.isCoinBase = false
  linked : pool.Linked
  funded : ∀ {h e o}, pool.mapTx.lookup h = some e → o ∈ e.tx.prevouts →
    pool.hasTx o.hash = true ∨ ∃ out, m.output? o = some out
  fresh : ∀ {h}, pool.hasTx h = true → ((m.rec? h).filter fun coins => !coins.vout.isEmpty) = none

/-- The invariant of the pool of a node, and that the coins have nothing of its transactions, which
`AcceptToMemoryPool` checks. -/
theorem Ok.minable {env : Env} {U : CTransaction → Prop} {pool : CTxMemPool} {m : CoinsMap}
    (h : pool.Ok env U (m.CanSpend env)) (hinj : TxidInj env U)
    (hfresh : ∀ {h}, pool.hasTx h = true →
      ((m.rec? h).filter fun coins => !coins.vout.isEmpty) = none) : pool.Minable env m where
  books := h.books
  checked he := ⟨(h.good he).checked, (h.good he).notCoinBase⟩
  linked := h.linked hinj
  funded he ho := (h.funded he ho).imp_right And.left
  fresh := hfresh

variable {env : Env} {pool : CTxMemPool} {m : CoinsMap} {tx : CTransaction}

theorem Holds.checked (h : pool.Holds env tx) (hpool : pool.Minable env m) :
    CheckedTx tx ∧ tx.isCoinBase = false := by
  obtain ⟨e, he, rfl⟩ := h
  exact hpool.checked he

/-- Transactions of the pool are told apart by their identifiers. -/
theorem Holds.eq {tx' : CTransaction} (h : pool.Holds env tx) (h' : pool.Holds env tx')
    (hid : tx.getHash env.hash = tx'.getHash env.hash) : tx = tx' := by
  obtain ⟨e, he, rfl⟩ := h
  obtain ⟨e', he', rfl⟩ := h'
  rw [hid, he'] at he
  rw [Option.some.inj he]

theorem Minable.holds (hpool : pool.Minable env m) {h : UInt256} {e : CTxMemPoolEntry}
    (he : pool.mapTx.lookup h = some e) : pool.Holds env e.tx :=
  ⟨e, by rw [hpool.books.key he]; exact he, rfl⟩

end CTxMemPool

variable {env : Env} {pool : CTxMemPool} {m m' : CoinsMap} {tx : CTransaction} {nHeight : Nat}

/-- `HaveCoins` is true for a record with an available output. -/
theorem CoinsMap.filter_of_output? {txid : UInt256} {n : Nat} {out : CTxOut}
    (h : (m.coins txid).output? n = some out) :
    ∃ coins, ((m.rec? txid).filter fun coins => !coins.vout.isEmpty) = some coins ∧
      coins.output? n = some out := by
  rw [CoinsMap.coins, Map.record] at h
  cases hrec : m.rec? txid with
  | none =>
    rw [hrec] at h
    cases h
  | some coins =>
    rw [hrec, Option.getD_some] at h
    refine ⟨coins, Option.filter_eq_some_iff.mpr ⟨rfl, ?_⟩, h⟩
    have hlt := CCoins.lt_of_output? h
    rw [Bool.not_eq_true', List.isEmpty_eq_false_iff]
    exact List.ne_nil_of_length_pos (Nat.zero_lt_of_lt hlt)

theorem CTxMemPool.Minable.not_avail (hpool : pool.Minable env m) (htx : pool.Holds env tx)
    (n : Nat) : ¬ m.Avail (tx.getHash env.hash, n) := by
  intro hav
  obtain ⟨out, hout⟩ := Option.ne_none_iff_exists'.mp hav
  obtain ⟨coins, hcoins, -⟩ := CoinsMap.filter_of_output? hout
  obtain ⟨e, he, -⟩ := htx
  rw [hpool.fresh (CTxMemPool.hasTx_of_lookup he)] at hcoins
  cases hcoins

/-! ## Collecting -/

/-- The orphans are there, with transactions of the kind `P`. -/
def Orphans.Ok (P : CTransaction → Prop) (vOrphan : Orphans) : Prop :=
  ∀ x ∈ vOrphan, ∃ orphan, x = some orphan ∧ P orphan.tx

/-- The orphans that wait for other transactions are there. -/
def Orphans.Has (vOrphan : Orphans) (mapDependers : UInt256 → List Nat) : Prop :=
  ∀ hash, ∀ porphan ∈ mapDependers hash, porphan < vOrphan.length

section

variable {P : CTransaction → Prop} {vOrphan : Orphans}

theorem Orphans.Ok.modify (h : vOrphan.Ok P) (porphan : Nat) {f : COrphan → COrphan}
    (hf : ∀ orphan, (f orphan).tx = orphan.tx) :
    Orphans.Ok P (vOrphan.modify porphan (Option.map f)) := by
  intro x hx
  obtain ⟨i, hi⟩ := List.mem_iff_getElem?.mp hx
  rw [List.getElem?_modify] at hi
  obtain ⟨y, hy, rfl⟩ := Option.map_eq_some_iff.mp hi
  obtain ⟨orphan, rfl, hP⟩ := h y (List.mem_of_getElem? hy)
  split_ifs
  · exact ⟨f orphan, rfl, by rwa [hf]⟩
  · exact ⟨orphan, rfl, hP⟩

/-- What the loop over the inputs of a transaction keeps. -/
structure InputScan.Ok (P : CTransaction → Prop) (scan : InputScan) : Prop where
  orphans : Orphans.Ok P scan.vOrphan
  dependers : Orphans.Has scan.vOrphan scan.mapDependers
  porphan : ∀ porphan, scan.porphan = some porphan → porphan < scan.vOrphan.length

theorem InputScan.Ok.orphan {scan : InputScan} (h : scan.Ok P) (htx : P tx) :
    Orphans.Ok P (scan.orphan tx).2 ∧ (scan.orphan tx).1 < (scan.orphan tx).2.length ∧
      scan.vOrphan.length ≤ (scan.orphan tx).2.length := by
  unfold InputScan.orphan
  cases hp : scan.porphan with
  | some porphan => exact ⟨h.orphans, h.porphan porphan hp, le_refl _⟩
  | none =>
    refine ⟨fun x hx => ?_, by simp, by simp⟩
    rcases List.mem_append.mp hx with hx | hx
    · exact h.orphans x hx
    · exact ⟨{ tx }, List.mem_singleton.mp hx, htx⟩

theorem InputScan.Ok.total {scan : InputScan} (h : scan.Ok P) (nTotalIn : Int) (dPriority : Float) :
    InputScan.Ok P { scan with nTotalIn, dPriority } := ⟨h.orphans, h.dependers, h.porphan⟩

theorem InputScan.Ok.wait {scan : InputScan} (h : scan.Ok P) (htx : P tx) (hash : UInt256) :
    (scan.wait tx hash).Ok P := by
  obtain ⟨hok, hlt, hle⟩ := h.orphan htx
  unfold InputScan.wait
  rcases hs : scan.orphan tx with ⟨porphan, vOrphan⟩
  rw [hs] at hok hlt hle
  refine ⟨hok.modify porphan fun _ => rfl, fun hash' p hp => ?_, fun p hp => ?_⟩
  · show p < (vOrphan.modify porphan _).length
    rw [List.length_modify]
    by_cases hh : hash' = hash
    · subst hh
      have hp : p ∈ Function.update scan.mapDependers hash' _ hash' := hp
      rw [Function.update_self] at hp
      rcases List.mem_append.mp hp with hp | hp
      · exact Nat.lt_of_lt_of_le (h.dependers hash' p hp) hle
      · rw [List.mem_singleton.mp hp]
        exact hlt
    · have hp : p ∈ Function.update scan.mapDependers hash _ hash' := hp
      rw [Function.update_of_ne hh] at hp
      exact Nat.lt_of_lt_of_le (h.dependers hash' p hp) hle
  · show p < (vOrphan.modify porphan _).length
    rw [List.length_modify]
    cases hp
    exact hlt

end

/-- All inputs of a transaction of the pool are found. -/
theorem scanInputs_run (nHeight : Nat) (hpool : pool.Minable env m) (htx : pool.Holds env tx)
    {vin : List CTxIn} (hvin : ∀ txin ∈ vin, txin.prevout ∈ tx.prevouts) {scan : InputScan}
    (hs : scan.Ok (pool.Holds env)) :
    ∃ scan', (scanInputs pool nHeight tx scan vin).run plain m = (.ok (false, scan'), m) ∧
      scan'.Ok (pool.Holds env) := by
  induction vin generalizing scan with
  | nil => exact ⟨scan, rfl, hs⟩
  | cons txin vin ih =>
    have ho := hvin txin (List.mem_cons_self ..)
    have hvin' : ∀ x ∈ vin, x.prevout ∈ tx.prevouts := fun x hx =>
      hvin x (List.mem_cons_of_mem _ hx)
    obtain ⟨e, he, rfl⟩ := htx
    rw [scanInputs, run_accessCoins]
    cases hrec : (m.rec? txin.prevout.hash).filter fun coins => !coins.vout.isEmpty with
    | none =>
      -- the coins have no such record, so that the output is one of the pool
      have hhas : pool.hasTx txin.prevout.hash = true := by
        refine (hpool.funded he ho).resolve_right fun ⟨out, hout⟩ => ?_
        obtain ⟨coins, hcoins, -⟩ := CoinsMap.filter_of_output? hout
        rw [hrec] at hcoins
        cases hcoins
      obtain ⟨parent, hparent⟩ := CTxMemPool.hasTx_iff.mp hhas
      have hlt := hpool.linked _ _ _ _ he ho hparent
      obtain ⟨out, hout⟩ : ∃ out, parent.tx.vout[txin.prevout.n.toNat]? = some out :=
        ⟨_, List.getElem?_eq_getElem hlt⟩
      simp only [hparent, elementAt, hout]
      exact ih hvin' ((hs.wait ⟨e, he, rfl⟩ txin.prevout.hash).total _ _)
    | some coins =>
      have hnot : pool.hasTx txin.prevout.hash = false := by
        by_contra hhas
        rw [hpool.fresh (by simpa using hhas)] at hrec
        cases hrec
      obtain ⟨out, hout⟩ := (hpool.funded he ho).resolve_left (by simp [hnot])
      obtain ⟨coins', hcoins, hout⟩ := CoinsMap.filter_of_output? hout
      rw [hrec, Option.some.injEq] at hcoins
      rw [← hcoins, CCoins.output?_eq_some] at hout
      simp only [elementAt, hout]
      exact ih hvin' (hs.total _ _)

/-- What the loop over the pool keeps. -/
structure Collected.Ok (P : CTransaction → Prop) (collected : Collected) : Prop where
  queue : ∀ top ∈ collected.vecPriority, P top.tx
  orphans : Orphans.Ok P collected.vOrphan
  dependers : Orphans.Has collected.vOrphan collected.mapDependers

theorem Collected.Ok.scan {P : CTransaction → Prop} {collected : Collected} (h : collected.Ok P) :
    InputScan.Ok P ⟨none, 0, 0, collected.vOrphan, collected.mapDependers⟩ :=
  ⟨h.orphans, h.dependers, fun _ h => by cases h⟩

theorem Collected.Ok.empty (P : CTransaction → Prop) : Collected.Ok P ⟨[], [], fun _ => []⟩ where
  queue _ h := by cases h
  orphans _ h := by cases h
  dependers _ _ h := by cases h

theorem Collected.Ok.enqueue {P : CTransaction → Prop} {scan : InputScan} (hs : scan.Ok P)
    (htx : P tx) {vecPriority : List TxPriority} (hqueue : ∀ top ∈ vecPriority, P top.tx)
    (mapDeltas : Deltas) (nValueOut : Int) :
    Collected.Ok P (Collected.enqueue mapDeltas env tx scan vecPriority nValueOut) := by
  unfold Collected.enqueue
  simp only
  cases scan.porphan with
  | some porphan =>
    refine ⟨hqueue, hs.orphans.modify porphan fun _ => rfl, fun hash p hp => ?_⟩
    show p < (scan.vOrphan.modify porphan _).length
    rw [List.length_modify]
    exact hs.dependers hash p hp
  | none =>
    refine ⟨fun top htop => ?_, hs.orphans, hs.dependers⟩
    rcases List.mem_append.mp htop with htop | htop
    · exact hqueue top htop
    · rw [List.mem_singleton.mp htop]
      exact htx

theorem collectTx_run (nHeight : Nat) (hpool : pool.Minable env m) (htx : pool.Holds env tx)
    (mapDeltas : Deltas) (nTime : Int) {collected : Collected}
    (hc : collected.Ok (pool.Holds env)) :
    ∃ collected', (collectTx pool mapDeltas nHeight env nTime tx collected).run plain m =
        (.ok collected', m) ∧ collected'.Ok (pool.Holds env) := by
  unfold collectTx
  split_ifs
  · exact ⟨collected, rfl, hc⟩
  · obtain ⟨scan, hrun, hscan⟩ :=
      scanInputs_run nHeight hpool htx (fun txin h => List.mem_map_of_mem h) hc.scan
    have hout := (htx.checked hpool).1.getValueOut
    rw [Prog.run_bind, hrun, Prog.runNext_ok]
    simp only [valueOut, hout]
    exact ⟨_, rfl, .enqueue hscan htx hc.queue mapDeltas _⟩

/-- The loop over the pool goes through. -/
theorem collectTxs_run (nHeight : Nat) (hpool : pool.Minable env m) (mapDeltas : Deltas)
    (nTime : Int) {txs : List CTransaction} (htxs : ∀ tx ∈ txs, pool.Holds env tx)
    {collected : Collected} (hc : collected.Ok (pool.Holds env)) :
    ∃ collected', (collectTxs pool mapDeltas nHeight env nTime txs collected).run plain m =
        (.ok collected', m) ∧ collected'.Ok (pool.Holds env) := by
  induction txs generalizing collected with
  | nil => exact ⟨collected, rfl, hc⟩
  | cons tx txs ih =>
    obtain ⟨collected₁, hrun, hc₁⟩ :=
      collectTx_run nHeight hpool (htxs tx (List.mem_cons_self ..)) mapDeltas nTime hc
    obtain ⟨collected', hrest, hc'⟩ := ih (fun x hx => htxs x (List.mem_cons_of_mem _ hx)) hc₁
    refine ⟨collected', ?_, hc'⟩
    rw [collectTxs, Prog.run_bind, hrun, Prog.runNext_ok, hrest]

/-! ## Spending -/

/-- The program ends with a value or finds the transaction invalid. -/
def Judged {α : Type} (r : Except Failure α) : Prop :=
  ∀ e, r = .error e → ∃ nDoS chRejectCode strRejectReason corruptionPossible,
    e = .invalid nDoS chRejectCode strRejectReason corruptionPossible

section

variable {α β : Type}

theorem judged_ok (a : α) : Judged (.ok a) := fun _ h => by cases h

theorem judged_bind {p : CoinsProg α} {f : α → CoinsProg β} (hp : Judged (p.run plain m).1)
    (hf : ∀ a m', p.run plain m = (.ok a, m') → Judged ((f a).run plain m').1) :
    Judged ((p >>= f).run plain m).1 := by
  rw [Prog.run_bind]
  rcases hr : p.run plain m with ⟨e | a, m'⟩
  · rw [hr] at hp
    intro e' he'
    cases he'
    exact hp e rfl
  · exact hf a m' hr

theorem judged_check {b : Bool} {f : Unit → CoinsProg β} {nDoS : Nat} {chRejectCode : UInt8}
    {strRejectReason : String} {corruptionPossible : Bool} (hf : Judged ((f ()).run plain m).1) :
    Judged ((Prog.check b (.invalid nDoS chRejectCode strRejectReason corruptionPossible) >>=
      f).run plain m).1 := by
  cases b with
  | false =>
    intro e he
    cases he
    exact ⟨_, _, _, _, rfl⟩
  | true => exact hf

end

/-- The inputs are available. -/
def CoinsMap.HasInputs (m : CoinsMap) (vin : List CTxIn) : Prop :=
  ∀ txin ∈ vin, ∃ out, m.output? txin.prevout = some out

theorem CoinsMap.HasInputs.head {txin : CTxIn} {vin : List CTxIn} (h : m.HasInputs (txin :: vin)) :
    ∃ out, outputAt (m.rec? txin.prevout.hash) txin.prevout.n.toNat = .ok out := by
  obtain ⟨out, hout⟩ := h txin (List.mem_cons_self ..)
  exact ⟨out, outputAt_rec?.mpr hout⟩

theorem CoinsMap.HasInputs.tail {txin : CTxIn} {vin : List CTxIn} (h : m.HasInputs (txin :: vin)) :
    m.HasInputs vin := fun x hx => h x (List.mem_cons_of_mem _ hx)

theorem valueInFrom_run {vin : List CTxIn} (h : m.HasInputs vin) (n : Int) :
    ∃ v, (valueInFrom n vin).run plain m = (.ok v, m) := by
  induction vin generalizing n with
  | nil => exact ⟨n, rfl⟩
  | cons txin vin ih =>
    obtain ⟨out, hout⟩ := h.head
    obtain ⟨v, hv⟩ := ih h.tail (int64 (n + out.nValue))
    refine ⟨v, ?_⟩
    rw [valueInFrom, Prog.run_bind, getOutputFor_run, hout, Prog.runNext_ok, hv]

theorem p2shSigOpsFrom_run {vin : List CTxIn} (h : m.HasInputs vin) (n : Nat) :
    ∃ k, (p2shSigOpsFrom n vin).run plain m = (.ok k, m) := by
  induction vin generalizing n with
  | nil => exact ⟨n, rfl⟩
  | cons txin vin ih =>
    obtain ⟨out, hout⟩ := h.head
    obtain ⟨k, hk⟩ := ih h.tail _
    refine ⟨k, ?_⟩
    rw [p2shSigOpsFrom, Prog.run_bind, getOutputFor_run, hout, Prog.runNext_ok]
    exact hk

theorem checkInputValues_judged {vin : List CTxIn} (h : m.HasInputs vin) (nSpendHeight n : Int) :
    Judged ((checkInputValues nSpendHeight n vin).run plain m).1 := by
  induction vin generalizing n with
  | nil => exact judged_ok n
  | cons txin vin ih =>
    obtain ⟨out, hout⟩ := h.head
    rw [checkInputValues, run_accessCoins, hout]
    exact judged_check (judged_check (ih h.tail _))

theorem checkInputScripts_judged {vin : List CTxIn} (h : m.HasInputs vin) (pvChecks : Bool)
    (i : Nat) :
    Judged ((checkInputScripts env tx pvChecks i vin).run plain m).1 := by
  induction vin generalizing i with
  | nil => exact judged_ok []
  | cons txin vin ih =>
    obtain ⟨out, hout⟩ := h.head
    rw [checkInputScripts, run_accessCoins, hout]
    exact judged_check (judged_bind (ih h.tail _) fun _ _ _ => judged_ok _)

/-- With the inputs available, `CheckInputs` does not fail otherwise. -/
theorem checkInputs_judged (env : Env) (htx : CheckedTx tx) (hcb : tx.isCoinBase = false)
    (h : m.HasInputs tx.vin) (fScriptChecks pvChecks : Bool) :
    Judged ((checkInputs env tx fScriptChecks pvChecks).run plain m).1 := by
  rw [checkInputs, Prog.run_bind, haveInputs_run hcb, Prog.runNext_ok]
  refine judged_check ?_
  rw [run_getBestBlock]
  refine judged_bind (checkInputValues_judged h _ _) fun nValueIn m' hv => ?_
  obtain rfl : m' = m := by
    have hr : ((checkInputValues (env.heightOf m.tag + 1) 0 tx.vin).run plain m).2 = m :=
      Map.run_reads (checkInputValues_reads _ _ _)
    rwa [hv] at hr
  rw [valueOut, htx.getValueOut]
  refine judged_check (judged_check (judged_check ?_))
  split_ifs
  · exact checkInputScripts_judged h pvChecks 0
  · exact judged_ok _

theorem checkInputsAccepts_run (env : Env) (htx : CheckedTx tx) (hcb : tx.isCoinBase = false)
    (h : m.HasInputs tx.vin) :
    ∃ b, (checkInputsAccepts env tx).run plain m = (.ok b, m) ∧
      (b = true → ∃ vChecks, (checkInputs env tx true false).run plain m = (.ok vChecks, m)) := by
  have hstore : ((checkInputs env tx true false).run plain m).2 = m :=
    Map.run_reads (checkInputs_reads env tx true false)
  have hjudged := checkInputs_judged env htx hcb h true false
  rw [checkInputsAccepts, Prog.run_rescue, Prog.run_bind]
  rcases hrun : (checkInputs env tx true false).run plain m with ⟨e | vChecks, m'⟩
  · rw [hrun] at hstore hjudged
    obtain ⟨_, _, _, _, rfl⟩ := hjudged e rfl
    cases hstore
    exact ⟨false, rfl, fun h => by cases h⟩
  · rw [hrun] at hstore
    cases hstore
    exact ⟨true, rfl, fun _ => ⟨vChecks, rfl⟩⟩

/-- A transaction has been spent into a store, with its fee and its signature operations. -/
structure Spent (env : Env) (nHeight : Nat) (m : CoinsMap) (tx : CTransaction) (nTxFees : Int)
    (nTxSigOps : Nat) (m' : CoinsMap) : Prop where
  fee : nTxFees = m.valueIn tx - (tx.vout.map CTxOut.nValue).sum
  fee_nonneg : 0 ≤ nTxFees
  fee_le : nTxFees ≤ MAX_MONEY
  sigOps : ∃ nMore, (getP2SHSigOpCount tx).run plain m = (.ok nMore, m) ∧
    nTxSigOps = getLegacySigOpCount tx + nMore
  step : ∃ txundo nFees', TxStep env nHeight m tx txundo 0 nFees' m'

/-- What `CheckInputs` accepts is spent by `UpdateCoins`. -/
theorem spent_of_accepted {nValueIn : Int} {nMore : Nat} {vChecks : List Bool} (nHeight : Nat)
    (htx : CheckedTx tx) (hcb : tx.isCoinBase = false)
    (hin : (valueInFrom 0 tx.vin).run plain m = (.ok nValueIn, m))
    (hmore : (getP2SHSigOpCount tx).run plain m = (.ok nMore, m))
    (hcheck : (checkInputs env tx true false).run plain m = (.ok vChecks, m)) :
    ∃ txundo m', (updateCoins env tx nHeight).run plain m = (.ok txundo, m') ∧
      Spent env nHeight m tx (int64 (nValueIn - (tx.vout.map CTxOut.nValue).sum))
        (getLegacySigOpCount tx + nMore) m' := by
  have hM := MAX_MONEY_eq
  obtain ⟨nValueOut, hout, hle, hmax, hinputs⟩ := checkInputs_ok hcheck
  rw [htx.getValueOut, Option.some.injEq] at hout
  have hval : nValueIn = m.valueIn tx := by
    have hat : ∀ txin ∈ tx.vin, 0 ≤ m.valueAt txin.prevout := fun txin hmem => by
      obtain ⟨out, ho, hr⟩ := hinputs txin hmem
      rw [valueAt_eq ho]
      exact (moneyRange_iff.mp hr).1
    rw [valueInFrom_ok (le_refl 0) hat (by rwa [zero_add]) hin, zero_add, valueIn_eq hcb]
  rw [← valueIn_eq hcb] at hle hmax
  have hout0 : 0 ≤ nValueOut := hout ▸ List.sum_nonneg fun x hx => by
    obtain ⟨y, hy, rfl⟩ := List.mem_map.mp hx
    exact (htx.values y hy).1
  have hall : ∀ o ∈ tx.prevouts, ∃ out, m.output? o = some out ∧ moneyRange out.nValue = true :=
    fun o ho => by
      obtain ⟨txin, hmem, rfl⟩ := List.mem_map.mp ho
      exact hinputs txin hmem
  obtain ⟨txundo, m', hrun, -⟩ := updateCoins_run env nHeight hcb htx.inputs fun o ho =>
    (hall o ho).imp fun _ h => h.1
  obtain ⟨hlen, hstore, hex⟩ := updateCoins_ok hrun
  refine ⟨txundo, m', hrun, ?_⟩
  rw [hval, hout, int64_eq (by omega) (by omega)]
  refine ⟨by rw [hout], by omega, by omega, ⟨nMore, hmore, rfl⟩, txundo, _, hlen, hstore, hex, ?_,
    fun h => absurd (hcb.symm.trans h) (by decide), fun _ => ⟨nValueOut, ?_, hle, hmax, rfl⟩⟩
  · rwa [spends_not_coinBase hcb]
  · rw [htx.getValueOut, hout]

/-- A transaction is skipped, or spent into the view. -/
theorem spendTx_run (env : Env) (nHeight : Nat) (htx : CheckedTx tx) (hcb : tx.isCoinBase = false)
    (nBlockSigOps : Nat) :
    (spendTx env nHeight tx nBlockSigOps).run plain m = (.ok none, m) ∨
      ∃ nTxFees nTxSigOps m', (spendTx env nHeight tx nBlockSigOps).run plain m =
          (.ok (some (nTxFees, nTxSigOps)), m') ∧
        nBlockSigOps + nTxSigOps < MAX_BLOCK_SIGOPS ∧
        Spent env nHeight m tx nTxFees nTxSigOps m' := by
  rw [spendTx, Prog.run_bind, haveInputs_run hcb, Prog.runNext_ok]
  cases hall : tx.prevouts.all fun o => (m.output? o).isSome with
  | false => exact .inl rfl
  | true =>
    have hin : m.HasInputs tx.vin := fun txin hmem =>
      Option.isSome_iff_exists.mp (List.all_eq_true.mp hall _ (List.mem_map_of_mem hmem))
    obtain ⟨nValueIn, hvalueIn⟩ := valueInFrom_run hin 0
    obtain ⟨nMore, hmore⟩ := p2shSigOpsFrom_run hin 0
    have hgetIn : (getValueIn tx).run plain m = (.ok nValueIn, m) := by rwa [getValueIn, hcb]
    have hgetMore : (getP2SHSigOpCount tx).run plain m = (.ok nMore, m) := by
      rwa [getP2SHSigOpCount, hcb]
    rw [if_neg (by decide), Prog.run_bind, hgetIn, Prog.runNext_ok, valueOut, htx.getValueOut,
      Prog.run_bind, Prog.run_lift, Prog.runNext_ok, Prog.run_bind, hgetMore, Prog.runNext_ok]
    simp only
    split_ifs with hsigops
    · exact .inl rfl
    · obtain ⟨b, haccepts, hb⟩ := checkInputsAccepts_run env htx hcb hin
      rw [Prog.run_bind, haccepts, Prog.runNext_ok]
      cases b with
      | false => exact .inl rfl
      | true =>
        obtain ⟨vChecks, hcheck⟩ := hb rfl
        obtain ⟨txundo, m', hrun, hspent⟩ :=
          spent_of_accepted nHeight htx hcb hvalueIn hgetMore hcheck
        refine .inr ⟨_, _, m', ?_, not_le.mp hsigops, hspent⟩
        rw [if_neg (by decide), Prog.run_bind, hrun]
        rfl

/-- The transactions `txs` have been spent into `m`, one after the other, with their fees and
signature operations. -/
inductive Spends (env : Env) (nHeight : Nat) (m : CoinsMap) :
    List CTransaction → List Int → List Nat → CoinsMap → Prop
  | nil : Spends env nHeight m [] [] [] m
  | snoc {txs vTxFees vTxSigOps m₁ tx nTxFees nTxSigOps m'}
      (h : Spends env nHeight m txs vTxFees vTxSigOps m₁)
      (step : Spent env nHeight m₁ tx nTxFees nTxSigOps m') :
      Spends env nHeight m (txs ++ [tx]) (vTxFees ++ [nTxFees]) (vTxSigOps ++ [nTxSigOps]) m'

section

variable {txs : List CTransaction} {vTxFees : List Int} {vTxSigOps : List Nat}

/-- Transactions of the pool that are spent one after the other are told apart by their identifiers,
come after those they spend from, and spend nothing twice. -/
theorem Spends.ledger (h : Spends env nHeight m txs vTxFees vTxSigOps m')
    (hpool : pool.Minable env m) (held : ∀ tx ∈ txs, pool.Holds env tx) :
    Done (CTransaction.getHash env.hash) CTransaction.places m.Avail txs m'.Avail ∧
      Ordered (CTransaction.getHash env.hash) CTransaction.places txs := by
  induction h with
  | nil => exact ⟨.nil, fun i j s t hs => by cases hs⟩
  | @snoc txs _ _ m₁ tx _ _ m' _ step ih =>
    obtain ⟨hdone, hordered⟩ := ih fun t ht => held t (List.mem_append_left _ ht)
    have htx := held tx (List.mem_append_right _ (List.mem_singleton_self _))
    obtain ⟨hchecked, hcb⟩ := htx.checked hpool
    obtain ⟨txundo, nFees', hstep⟩ := step.step
    have hledger := hstep.ledger hchecked
    have hfresh := hpool.not_avail htx
    have hinj : ∀ s ∈ txs, s.getHash env.hash = tx.getHash env.hash → s.places = tx.places :=
      fun s hs hid => by rw [(held s (List.mem_append_left _ hs)).eq htx hid]
    have hsome : txs ≠ [] → tx.places ≠ [] := fun _ => by
      rw [CTransaction.places, spends_not_coinBase hcb]
      simpa using hchecked.vin
    exact ⟨hdone.step hledger hfresh hinj hsome, hordered.snoc fun s hs x hx =>
      hdone.not_uses hledger hfresh hinj hsome hs hx⟩

/-- What transactions leave of the value of a store, and their fees. -/
theorem Spends.total_le (h : Spends env nHeight m txs vTxFees vTxSigOps m')
    (htxs : ∀ tx ∈ txs, CheckedTx tx) (hm : m.Nonneg) :
    m'.totalValue + vTxFees.sum ≤ m.totalValue ∧ 0 ≤ vTxFees.sum ∧ m'.Nonneg := by
  induction h with
  | nil => exact ⟨by simp, le_refl _, hm⟩
  | @snoc txs vTxFees _ m₁ tx nTxFees _ m' _ step ih =>
    obtain ⟨hle, h0, hnn⟩ := ih fun t ht => htxs t (List.mem_append_left _ ht)
    have htx := htxs tx (List.mem_append_right _ (List.mem_singleton_self _))
    obtain ⟨txundo, nFees', hstep⟩ := step.step
    obtain ⟨hnext, hnn'⟩ := hstep.total_le htx hnn
    have hfee := step.fee
    have hfee0 := step.fee_nonneg
    rw [List.sum_append, List.sum_singleton]
    exact ⟨by omega, by omega, hnn'⟩

end

/-! ## Selecting -/

section

variable {P : CTransaction → Prop}

/-- What the loop over the queue keeps of the queue and the `n` orphans. -/
structure QueueOk (P : CTransaction → Prop) (n : Nat) (queue : List TxPriority × Orphans) :
    Prop where
  held : ∀ top ∈ queue.1, P top.tx
  orphans : Orphans.Ok P queue.2
  length : queue.2.length = n

theorem releaseOrphan_run {n : Nat} {queue : List TxPriority × Orphans} (hq : QueueOk P n queue)
    (byFee : Bool) (hash : UInt256) {porphan : Nat} (hlt : porphan < n) :
    ∃ queue', releaseOrphan byFee hash porphan queue = .ok queue' ∧ QueueOk P n queue' := by
  have hlt' : porphan < queue.2.length := hq.length ▸ hlt
  obtain ⟨orphan, horphan, hP⟩ := hq.orphans _ (List.getElem_mem hlt')
  have hget : queue.2[porphan]?.join = some orphan := by
    rw [List.getElem?_eq_getElem hlt', horphan]
    rfl
  have hset : Orphans.Ok P (queue.2.set porphan
      (some { orphan with setDependsOn := orphan.setDependsOn.erase hash })) := by
    intro x hx
    rcases List.mem_or_eq_of_mem_set hx with hx | rfl
    · exact hq.orphans x hx
    · exact ⟨_, rfl, hP⟩
  have hlen : (queue.2.set porphan
      (some { orphan with setDependsOn := orphan.setDependsOn.erase hash })).length = n := by
    rw [List.length_set, hq.length]
  unfold releaseOrphan
  rw [hget]
  simp only
  split_ifs
  · exact ⟨queue, rfl, hq⟩
  · refine ⟨_, rfl, fun top htop => ?_, hset, hlen⟩
    have hmem := (pushHeap_perm (txPriorityCompare byFee) queue.1
      ⟨orphan.dPriority, orphan.feeRate, orphan.tx⟩).mem_iff.mp htop
    rcases List.mem_cons.mp hmem with rfl | hmem
    · exact hP
    · exact hq.held top hmem
  · exact ⟨_, rfl, hq.held, hset, hlen⟩

theorem releaseOrphans_run {n : Nat} (byFee : Bool) (hash : UInt256) {porphans : List Nat}
    (hlt : ∀ porphan ∈ porphans, porphan < n) {queue : List TxPriority × Orphans}
    (hq : QueueOk P n queue) :
    ∃ queue', releaseOrphans byFee hash porphans queue = .ok queue' ∧ QueueOk P n queue' := by
  induction porphans generalizing queue with
  | nil => exact ⟨queue, rfl, hq⟩
  | cons porphan porphans ih =>
    obtain ⟨queue₁, hfirst, hq₁⟩ :=
      releaseOrphan_run hq byFee hash (hlt porphan (List.mem_cons_self ..))
    obtain ⟨queue', hrest, hq'⟩ := ih (fun p hp => hlt p (List.mem_cons_of_mem _ hp)) hq₁
    refine ⟨queue', ?_, hq'⟩
    rw [releaseOrphans, hfirst]
    exact hrest

end

/-- What the loop over the queue keeps: transactions of the pool have been spent into the coins, and
the variables say how many, within the limits. -/
structure Selection.Ok (env : Env) (args : MinerArgs) (pool : CTxMemPool) (nHeight : Nat)
    (m : CoinsMap) (nOrphans : Nat) (sel : Selection) (m' : CoinsMap) : Prop where
  queue : QueueOk (pool.Holds env) nOrphans (sel.vecPriority, sel.vOrphan)
  held : ∀ tx ∈ sel.vtx, pool.Holds env tx
  spends : Spends env nHeight m sel.vtx sel.vTxFees sel.vTxSigOps m'
  size : sel.nBlockSize = 1000 + (sel.vtx.map CTransaction.getSerializeSize).sum
  size_lt : sel.vtx ≠ [] → sel.nBlockSize < args.nBlockMaxSize
  sigOps : sel.nBlockSigOps = 100 + sel.vTxSigOps.sum
  sigOps_lt : sel.nBlockSigOps < MAX_BLOCK_SIGOPS
  fees : sel.nFees = int64 sel.vTxFees.sum

namespace Selection.Ok

variable {args : MinerArgs} {nOrphans : Nat} {sel : Selection}

/-- The queue may be put in another order, and shortened. -/
theorem requeue (h : sel.Ok env args pool nHeight m nOrphans m') (fSortedByFee : Bool)
    {vecPriority : List TxPriority} (hsub : ∀ top ∈ vecPriority, top ∈ sel.vecPriority) :
    Selection.Ok env args pool nHeight m nOrphans { sel with fSortedByFee, vecPriority } m' :=
  { h with queue :=
      ⟨fun top htop => h.queue.held top (hsub top htop), h.queue.orphans, h.queue.length⟩ }

theorem pop (h : sel.Ok env args pool nHeight m nOrphans m') {top : TxPriority}
    {rest : List TxPriority} (hqueue : sel.vecPriority = top :: rest) :
    (sel.pop rest).Ok env args pool nHeight m nOrphans m' := by
  refine h.requeue sel.fSortedByFee fun t ht => ?_
  rw [hqueue]
  exact List.mem_cons_of_mem _ ((popHeap_perm _ rest).mem_iff.mp ht)

theorem sort (h : sel.Ok env args pool nHeight m nOrphans m') (top : TxPriority) :
    (sel.sort args top).Ok env args pool nHeight m nOrphans m' := by
  unfold Selection.sort
  split_ifs
  · exact h.requeue true fun t ht => (makeHeap_perm _ sel.vecPriority).mem_iff.mp ht
  · exact h

theorem add {m'' : CoinsMap} (h : sel.Ok env args pool nHeight m nOrphans m')
    (htx : pool.Holds env tx) {nTxFees : Int} {nTxSigOps : Nat} {queue : List TxPriority × Orphans}
    (hqueue : QueueOk (pool.Holds env) nOrphans queue)
    (hspent : Spent env nHeight m' tx nTxFees nTxSigOps m'')
    (hsize : sel.nBlockSize + tx.getSerializeSize < args.nBlockMaxSize)
    (hsigOps : sel.nBlockSigOps + nTxSigOps < MAX_BLOCK_SIGOPS) :
    (sel.add tx nTxFees nTxSigOps queue).Ok env args pool nHeight m nOrphans m'' where
  queue := hqueue
  held t ht := (List.mem_append.mp ht).elim (h.held t) fun ht => List.mem_singleton.mp ht ▸ htx
  spends := h.spends.snoc hspent
  size := by
    show sel.nBlockSize + tx.getSerializeSize = 1000 + ((sel.vtx ++ [tx]).map _).sum
    rw [h.size, List.map_append, List.sum_append, List.map_singleton, List.sum_singleton,
      Nat.add_assoc]
  size_lt _ := hsize
  sigOps := by
    show sel.nBlockSigOps + nTxSigOps = 100 + (sel.vTxSigOps ++ [nTxSigOps]).sum
    rw [h.sigOps, List.sum_append, List.sum_singleton, Nat.add_assoc]
  sigOps_lt := hsigOps
  fees := by
    show int64 (sel.nFees + nTxFees) = int64 (sel.vTxFees ++ [nTxFees]).sum
    rw [h.fees, List.sum_append, List.sum_singleton, int64, int64, int64, Int.bmod_add_bmod]

end Selection.Ok

section

variable {args : MinerArgs} {minRelayTxFee : CFeeRate} {mapDeltas : Deltas} {nOrphans : Nat}

theorem Selection.sort_nBlockSize (args : MinerArgs) (sel : Selection) (top : TxPriority) :
    (sel.sort args top).nBlockSize = sel.nBlockSize := by
  unfold Selection.sort
  split_ifs <;> rfl

theorem Selection.size_of_not_skips {sel : Selection} {top : TxPriority}
    (h : ¬ sel.skips args minRelayTxFee mapDeltas env top = true) :
    sel.nBlockSize + top.tx.getSerializeSize < args.nBlockMaxSize := by
  by_contra hle
  refine h ?_
  rw [Selection.skips]
  simp only [decide_eq_true (not_lt.mp hle), Bool.true_or]

/-- The loop over the queue ends, with a selection. -/
theorem selectTxs_run (minRelayTxFee : CFeeRate) (mapDeltas : Deltas) (hpool : pool.Minable env m)
    {mapDependers : UInt256 → List Nat}
    (hdep : ∀ hash, ∀ porphan ∈ mapDependers hash, porphan < nOrphans) {sel : Selection}
    (h : sel.Ok env args pool nHeight m nOrphans m') :
    ∃ sel' m'', (selectTxs args minRelayTxFee mapDeltas env nHeight mapDependers sel).run plain m' =
        (.ok sel', m'') ∧ sel'.Ok env args pool nHeight m nOrphans m'' := by
  induction sel using selectTxs.induct_unfolding args minRelayTxFee mapDeltas env nHeight mapDependers
    generalizing m' with
  | case1 sel _ => exact ⟨sel, m', rfl, h⟩
  | case2 sel top rest hqueue popped _ =>
    rename_i ih
    exact ih (h.pop hqueue)
  | case3 sel top rest hqueue popped hskip sorted ihNone =>
    rename_i ihSome
    have hsorted : sorted.Ok env args pool nHeight m nOrphans m' := (h.pop hqueue).sort top
    have htx : pool.Holds env top.tx :=
      h.queue.held top (by rw [hqueue]; exact List.mem_cons_self ..)
    obtain ⟨hchecked, hcb⟩ := htx.checked hpool
    rw [Prog.run_bind]
    rcases spendTx_run (m := m') env nHeight hchecked hcb sorted.nBlockSigOps with hrun |
      ⟨nTxFees, nTxSigOps, m₁, hrun, hsigOps, hspent⟩
    · rw [hrun, Prog.runNext_ok]
      exact ihNone hsorted
    · obtain ⟨queue, hrelease, hq⟩ := releaseOrphans_run sorted.fSortedByFee
        (top.tx.getHash env.hash) (hdep _) hsorted.queue
      have hsize : sorted.nBlockSize + top.tx.getSerializeSize < args.nBlockMaxSize :=
        (Selection.sort_nBlockSize args popped top).symm ▸ Selection.size_of_not_skips hskip
      rw [hrun, Prog.runNext_ok]
      simp only
      split
      · rename_i e he
        rw [hrelease] at he
        cases he
      · rename_i queue' he
        rw [hrelease] at he
        cases he
        exact ihSome nTxFees nTxSigOps queue hrelease
          (hsorted.add htx hq hspent hsize hsigOps)

/-- The two loops go through. -/
theorem collectAndSelect_run (args : MinerArgs) (minRelayTxFee : CFeeRate) (mapDeltas : Deltas)
    (nHeight : Nat) (hpool : pool.Minable env m) (nTime : Int) :
    ∃ sel m' nOrphans,
      (collectAndSelect args minRelayTxFee mapDeltas env nHeight pool nTime).run plain m =
        (.ok sel, m') ∧ sel.Ok env args pool nHeight m nOrphans m' := by
  have htxs : ∀ tx ∈ pool.entries.map fun entry => entry.2.tx, pool.Holds env tx := fun tx htx => by
    obtain ⟨entry, hentry, rfl⟩ := List.mem_map.mp htx
    exact hpool.holds (Framework.Assoc.mem_entries.mp (List.mem_mergeSort.mp hentry))
  obtain ⟨collected, hcollect, hcollected⟩ :=
    collectTxs_run nHeight hpool mapDeltas nTime htxs (Collected.Ok.empty _)
  have hstart : (collected.selection args).Ok env args pool nHeight m collected.vOrphan.length m :=
    { queue := ⟨fun top htop => hcollected.queue top
        ((makeHeap_perm _ collected.vecPriority).mem_iff.mp htop), hcollected.orphans, rfl⟩
      held := fun _ h => by cases h
      spends := .nil
      size := rfl
      size_lt := fun h => absurd rfl h
      sigOps := rfl
      sigOps_lt := show 100 < MAX_BLOCK_SIGOPS by decide
      fees := rfl }
  obtain ⟨sel, m', hselect, hsel⟩ :=
    selectTxs_run minRelayTxFee mapDeltas hpool hcollected.dependers hstart
  refine ⟨sel, m', _, ?_, hsel⟩
  rw [collectAndSelect, Prog.run_bind, hcollect, Prog.runNext_ok, hselect]

end

/-! ## The template -/

/-- What the outputs of the coinbase of a template pay. -/
def CBlockTemplate.rewards (template : CBlockTemplate) : Option (List Int) :=
  template.block.vtx.head?.map fun coinbase => coinbase.vout.map CTxOut.nValue

/-- A valid selection from the pool for a block at height `nHeight`. -/
structure CBlockTemplate.Valid (env : Env) (args : MinerArgs) (pool : CTxMemPool) (m : CoinsMap)
    (nHeight : Nat) (template : CBlockTemplate) : Prop where
  held : ∀ tx ∈ template.block.vtx.tail, pool.Holds env tx
  ids : (template.block.vtx.tail.map (CTransaction.getHash env.hash)).Nodup
  ordered : Ordered (CTransaction.getHash env.hash) CTransaction.places template.block.vtx
  once : (template.block.vtx.flatMap CTransaction.spends).Nodup
  spends : ∃ vTxSigOps m', template.vTxSigOps.tail = vTxSigOps.map Nat.cast ∧
    Spends env nHeight m template.block.vtx.tail template.vTxFees.tail vTxSigOps m'
  /-- The maximum is kept, but for a block without transactions when it is 1000. -/
  size : 1000 + (template.block.vtx.tail.map CTransaction.getSerializeSize).sum < args.nBlockMaxSize ∨
    template.block.vtx.tail = [] ∧ args.nBlockMaxSize = 1000
  sigOps : 100 + template.vTxSigOps.tail.sum < MAX_BLOCK_SIGOPS
  reward : template.rewards = some [int64 (getBlockSubsidy env nHeight + template.vTxFees.tail.sum)]
  /-- Without wraparound, as long as the subsidy is defined. -/
  reward_exact : m.Nonneg → m.totalValue ≤ MAX_MONEY → nHeight < 64 * env.nSubsidyHalvingInterval →
    template.rewards = some [getBlockSubsidy env nHeight + template.vTxFees.tail.sum]

section

variable {args : MinerArgs} {minRelayTxFee : CFeeRate} {mapDeltas : Deltas} {tip : MinerTip}
  {scriptPubKeyIn : CScript}

theorem MinerArgs.le_nBlockMaxSize (args : MinerArgs) : 1000 ≤ args.nBlockMaxSize := le_max_left ..

theorem Selection.Ok.valid {nOrphans : Nat} {sel : Selection}
    (h : sel.Ok env args pool (tip.nHeight + 1) m nOrphans m') (hpool : pool.Minable env m) :
    (sel.template env tip scriptPubKeyIn).Valid env args pool m (tip.nHeight + 1) := by
  obtain ⟨hdone, hordered⟩ := h.spends.ledger hpool h.held
  have hreward : (sel.template env tip scriptPubKeyIn).rewards =
      some [int64 (getBlockSubsidy env (tip.nHeight + 1) + sel.vTxFees.sum)] := by
    show some [int64 (sel.nFees + getBlockSubsidy env (tip.nHeight + 1))] = _
    rw [h.fees, int64, int64, int64, Int.bmod_add_bmod, Int.add_comm]
  refine ⟨h.held, hdone.ids, hordered.cons rfl, nodup_spends_of_places hdone.once,
    ⟨sel.vTxSigOps, m', rfl, h.spends⟩, ?_, ?_, hreward, fun hm htotal hheight => ?_⟩
  · show 1000 + (sel.vtx.map CTransaction.getSerializeSize).sum < _ ∨ sel.vtx = [] ∧ _
    by_cases hne : sel.vtx = []
    · rw [hne]
      exact (Nat.lt_or_eq_of_le args.le_nBlockMaxSize).imp id fun h => ⟨rfl, h.symm⟩
    · exact .inl (h.size ▸ h.size_lt hne)
  · have hlt := h.sigOps ▸ h.sigOps_lt
    show 100 + (sel.vTxSigOps.map Nat.cast).sum < (MAX_BLOCK_SIGOPS : Int)
    rw [← Nat.cast_list_sum]
    exact_mod_cast hlt
  · have hchecked : ∀ tx ∈ sel.vtx, CheckedTx tx := fun tx htx => ((h.held tx htx).checked hpool).1
    obtain ⟨hle, h0, hnn⟩ := h.spends.total_le hchecked hm
    have hpos := hnn.total
    have hM := MAX_MONEY_eq
    have hsub0 := halved_nonneg ((tip.nHeight + 1) / env.nSubsidyHalvingInterval)
    have hsub := halved_antitone (Nat.zero_le ((tip.nHeight + 1) / env.nSubsidyHalvingInterval))
    rw [halved_zero, show (50 * COIN : Int) = 5000000000 from rfl] at hsub
    rw [hreward, getBlockSubsidy_eq hheight, int64_eq (by omega) (by omega)]
    rfl

theorem createNewBlock_eq {sel : Selection}
    (h : (collectAndSelect args minRelayTxFee mapDeltas env (tip.nHeight + 1) pool
      (UInt32.ofInt env.adjustedTime).toNat).run plain m = (.ok sel, m')) :
    createNewBlock env args minRelayTxFee mapDeltas tip scriptPubKeyIn pool m =
      (testBlockValidity env tip m (sel.template env tip scriptPubKeyIn).block).map fun _ =>
        sel.template env tip scriptPubKeyIn := by
  rw [createNewBlock, h]
  show (testBlockValidity env tip m (sel.template env tip scriptPubKeyIn).block >>= _) = _
  cases testBlockValidity env tip m (sel.template env tip scriptPubKeyIn).block <;> rfl

/-- `CreateNewBlock` on a consistent pool fails only when the template does not pass
`TestBlockValidity`. -/
theorem createNewBlock_valid (hpool : pool.Minable env m) :
    ∃ template, template.Valid env args pool m (tip.nHeight + 1) ∧
      createNewBlock env args minRelayTxFee mapDeltas tip scriptPubKeyIn pool m =
        (testBlockValidity env tip m template.block).map fun _ => template := by
  obtain ⟨sel, m', nOrphans, hrun, hsel⟩ := collectAndSelect_run args minRelayTxFee mapDeltas
    (tip.nHeight + 1) hpool (UInt32.ofInt env.adjustedTime).toNat
  exact ⟨sel.template env tip scriptPubKeyIn, hsel.valid hpool, createNewBlock_eq hrun⟩

end

/-- The coins of `samplePool`, at block 5. -/
def minerCoins : CoinsMap := Map.put ⟨fun _ => none, 5⟩ 7 ⟨false, [some ⟨20, []⟩], 3, 1⟩

def minerTip : MinerTip where
  hashBlock := 5
  nHeight := 7
  medianTimePast := 0
  getNextWorkRequired _ := 0
  contextualCheck _ := true

open CTxMemPool in
theorem samplePool_lookup {h : UInt256} {e : CTxMemPoolEntry}
    (he : samplePool.mapTx.lookup h = some e) :
    h = sampleChild.getHash sampleEnv.hash ∧ e.tx = sampleChild ∨
      h = sampleParent.getHash sampleEnv.hash ∧ e.tx = sampleParent := by
  rw [samplePool, addUnchecked] at he
  by_cases hchild : h = sampleChild.getHash sampleEnv.hash
  · subst hchild
    rw [AList.lookup_insert] at he
    cases he
    exact .inl ⟨rfl, rfl⟩
  · rw [AList.lookup_insert_ne hchild, addUnchecked] at he
    by_cases hparent : h = sampleParent.getHash sampleEnv.hash
    · subst hparent
      rw [AList.lookup_insert] at he
      cases he
      exact .inr ⟨rfl, rfl⟩
    · rw [AList.lookup_insert_ne hparent] at he
      cases he

open CTxMemPool in
theorem samplePool_minable : samplePool.Minable sampleEnv minerCoins where
  books := samplePool_books
  checked he := by
    rcases samplePool_lookup he with ⟨-, htx⟩ | ⟨-, htx⟩ <;> rw [htx]
    · exact ⟨checkTransaction_ok (by decide +kernel), by decide +kernel⟩
    · exact ⟨checkTransaction_ok (by decide +kernel), by decide +kernel⟩
  linked h e o p he ho hp := by
    rcases samplePool_lookup he with ⟨-, htx⟩ | ⟨-, htx⟩ <;> rw [htx] at ho
    · rw [List.mem_singleton.mp ho] at hp ⊢
      rcases samplePool_lookup hp with ⟨hh, -⟩ | ⟨-, htx⟩
      · exact absurd hh (by decide +kernel)
      · rw [htx]
        decide
    · rw [List.mem_singleton.mp ho]
      rcases samplePool_lookup hp with ⟨-, htx⟩ | ⟨-, htx⟩ <;> rw [htx] <;> decide
  funded he ho := by
    rcases samplePool_lookup he with ⟨-, htx⟩ | ⟨-, htx⟩
    · rw [htx] at ho
      rw [List.mem_singleton.mp ho]
      exact .inl (by decide +kernel)
    · rw [htx] at ho
      rw [List.mem_singleton.mp ho]
      exact .inr ⟨⟨20, []⟩, by decide +kernel⟩
  fresh hhas := by
    obtain ⟨e, he⟩ := hasTx_iff.mp hhas
    rcases samplePool_lookup he with ⟨rfl, -⟩ | ⟨rfl, -⟩
    · decide +kernel
    · decide +kernel

open CTxMemPool in
theorem samplePool_valid :
    ∃ template, template.Valid sampleEnv {} samplePool minerCoins (minerTip.nHeight + 1) ∧
      createNewBlock sampleEnv {} ⟨1000⟩ (fun _ => none) minerTip [] samplePool minerCoins =
        (testBlockValidity sampleEnv minerTip minerCoins template.block).map fun _ => template :=
  createNewBlock_valid samplePool_minable

/-- The selection from an empty pool. -/
def emptySelection : Selection := Collected.selection { blockmaxsize := 1000 } ⟨[], [], fun _ => []⟩

/-- Without transactions and with the least maximum, the block has that size. -/
theorem emptyPool_size :
    ∃ template, createNewBlock sampleEnv { blockmaxsize := 1000 } ⟨1000⟩ (fun _ => none) minerTip []
        .empty ⟨fun _ => none, 5⟩ = .ok template ∧
      ¬ 1000 + (template.block.vtx.tail.map CTransaction.getSerializeSize).sum <
        MinerArgs.nBlockMaxSize { blockmaxsize := 1000 } := by
  have hrun : (collectAndSelect { blockmaxsize := 1000 } ⟨1000⟩ (fun _ => none) sampleEnv
      (minerTip.nHeight + 1) .empty (UInt32.ofInt sampleEnv.adjustedTime).toNat).run plain
        ⟨fun _ => none, 5⟩ = (.ok emptySelection, ⟨fun _ => none, 5⟩) := by
    rw [collectAndSelect, show CTxMemPool.empty.entries = [] from List.mergeSort_nil]
    show (selectTxs _ _ _ _ _ _ _).run _ _ = _
    rw [selectTxs]
    rfl
  have htest : testBlockValidity sampleEnv minerTip ⟨fun _ => none, 5⟩
      (emptySelection.template sampleEnv minerTip []).block = .ok () := by
    decide +kernel
  refine ⟨emptySelection.template sampleEnv minerTip [], ?_, by decide⟩
  rw [createNewBlock_eq hrun, htest]
  rfl

end GC
