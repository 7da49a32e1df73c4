import GameCredits.Framework.Ledger
import GameCredits.Proof.Connect
import GameCredits.Proof.Views
import Mathlib.Tactic.Positivity

/-!
# No inflation

The value of a store is the sum of the amounts of all available outputs. One accepted transaction
takes out the values of its inputs and adds at most those of its outputs (`TxStep.total_le`); the
difference goes to the fees, so that over a block the value and the fees together grow by no more
than the outputs of the coinbase (`TxSteps.total_le`), which the reward bounds.

A transaction identifier occurs once in a block, and no outpoint is spent twice: `TxSteps.done`
instantiates the ledger of single-use outputs.
-/

namespace GC

open Framework (Map Journal Prog)

/-! ## Values of records -/

/-- The sum of the amounts of the available outputs. -/
def CCoins.value (coins : CCoins) : Int := (coins.vout.map fun out => (out.map CTxOut.nValue).getD 0).sum

namespace CCoins

@[simp] theorem value_cleanup (c : CCoins) : c.cleanup.value = c.value := by
  show ((c.vout.rdropWhile Option.isNone).map _).sum = (c.vout.map _).sum
  induction c.vout using List.reverseRecOn with
  | nil => rfl
  | append_singleton vout out ih =>
    rw [List.rdropWhile_concat]
    split_ifs with h
    · rw [ih, Option.isNone_iff_eq_none.mp h]; simp
    · rfl

/-- The value depends on the available outputs only. -/
theorem value_congr {a b : CCoins} (h : ∀ n, a.output? n = b.output? n) : a.value = b.value := by
  have hvout : a.cleanup.vout = b.cleanup.vout :=
    vout_eq_of_output? (trimmed_cleanup a) (trimmed_cleanup b) fun n => by
      rw [output?_cleanup, output?_cleanup, h n]
  rw [← value_cleanup a, ← value_cleanup b, value, value, hvout]

theorem value_spend {c : CCoins} {n : Nat} {out : CTxOut} (h : c.output? n = some out) :
    (c.spend n).value = c.value - out.nValue := by
  have hav : c.isAvailable n = true := by rw [isAvailable, h]; rfl
  have hlt := lt_of_output? h
  have hget : c.vout[n] = some out := by
    have := output?_eq_some.mp h
    rwa [List.getElem?_eq_getElem hlt, Option.some.injEq] at this
  rw [spend, if_pos hav, value_cleanup, value, value, List.map_set, List.sum_set']
  simp [hlt, hget]
  ring

theorem value_fromTx_le {tx : CTransaction} (h : ∀ out ∈ tx.vout, 0 ≤ out.nValue) (nHeight : Nat) :
    (fromTx tx nHeight).value ≤ (tx.vout.map CTxOut.nValue).sum := by
  rw [fromTx, clearUnspendable, value_cleanup, value, List.map_map, List.map_map]
  refine List.sum_le_sum fun out hout => ?_
  have h0 := h out hout
  show ((Option.filter _ out.unlessNull).map CTxOut.nValue).getD 0 ≤ _
  unfold CTxOut.unlessNull
  split_ifs
  · exact h0
  · rw [Option.filter_some]
    split_ifs
    · exact le_refl _
    · exact h0

theorem value_nonneg {c : CCoins} (h : ∀ n out, c.output? n = some out → 0 ≤ out.nValue) :
    0 ≤ c.value := by
  refine List.sum_nonneg fun x hx => ?_
  obtain ⟨o, ho, rfl⟩ := List.mem_map.mp hx
  obtain ⟨n, hn⟩ := List.mem_iff_getElem?.mp ho
  cases o with
  | none => exact le_refl 0
  | some out => exact h n out (output?_eq_some.mpr hn)

end CCoins

/-- The sum of the amounts of all available outputs of a store. -/
def CoinsMap.totalValue (m : CoinsMap) : Int := Map.total .empty CCoins.value m

/-- The value of a store depends on the available outputs only. -/
theorem CoinsMap.totalValue_congr {a b : CoinsMap}
    (h : ∀ txid n, (a.coins txid).output? n = (b.coins txid).output? n) :
    a.totalValue = b.totalValue :=
  Map.total_congr fun txid => CCoins.value_congr (h txid)

/-- No available output has a negative amount. -/
def CoinsMap.Nonneg (m : CoinsMap) : Prop :=
  ∀ txid n out, (m.coins txid).output? n = some out → 0 ≤ out.nValue

theorem CoinsMap.Nonneg.total {m : CoinsMap} (h : m.Nonneg) : 0 ≤ m.totalValue :=
  Map.total_nonneg fun txid => CCoins.value_nonneg (h txid)

/-! ## One transaction -/

section Step

variable {env : Env} {nHeight : Nat} {m m' : CoinsMap}

theorem spendUndo_txout (c : CCoins) (n : Nat) (out : CTxOut) : (spendUndo c n out).txout = out := by
  unfold spendUndo; split_ifs <;> rfl

/-- What remains available after a spend was available before, and is not the output spent. -/
theorem output?_redo_spend {out : COutPoint} {undo : CTxInUndo}
    (hex : Change.Exact m (.spend out undo)) {txid : UInt256} {n : Nat} {x : CTxOut}
    (h : (CoinsMap.coins ((changes env nHeight).redo (.spend out undo) m) txid).output? n = some x) :
    (m.coins txid).output? n = some x ∧ (txid, n) ≠ (out.hash, out.n.toNat) := by
  obtain ⟨txout, hout, -⟩ := hex
  have hav : (m.coins out.hash).isAvailable out.n.toNat = true := by
    rw [CCoins.isAvailable, show (m.coins out.hash).output? out.n.toNat = _ from hout]; rfl
  have hput : (CoinsMap.coins (Map.put m out.hash _) txid).output? n = some x := h
  rw [coins_put] at hput
  split_ifs at hput with ht
  · rw [CCoins.output?_cleanup, CCoins.output?_spend hav] at hput
    split_ifs at hput with hn
    subst ht
    exact ⟨hput, fun hc => hn (Prod.mk.inj hc).2⟩
  · exact ⟨hput, fun hc => ht (Prod.mk.inj hc).1⟩

/-- What a list of spends leaves was there, and was not spent by them; each spends an output of the
store they start from. -/
theorem spendChanges_output? {spends : List COutPoint} {undos : List CTxInUndo}
    (hlen : undos.length = spends.length)
    (hex : (changes env nHeight).Along Change.Exact m (spendChanges spends undos)) :
    List.Forall₂ (fun o u => m.output? o = some u.txout) spends undos ∧
      ∀ txid n x, (CoinsMap.coins ((changes env nHeight).redoAll (spendChanges spends undos) m)
          txid).output? n = some x →
        (m.coins txid).output? n = some x ∧ ∀ o ∈ spends, (txid, n) ≠ (o.hash, o.n.toNat) := by
  induction spends generalizing m undos with
  | nil =>
    obtain rfl := List.length_eq_zero_iff.mp hlen
    exact ⟨.nil, fun _ _ _ h => ⟨h, fun _ ho => by cases ho⟩⟩
  | cons o spends ih =>
    obtain ⟨u, undos, rfl⟩ := List.exists_cons_of_length_eq_add_one hlen
    obtain ⟨hfirst, hrest⟩ := hex
    obtain ⟨hall, hleft⟩ := ih (by simpa using hlen) hrest
    obtain ⟨txout, hout, hu⟩ := id hfirst
    refine ⟨.cons ?_ (hall.imp fun o' u' h' => ?_), fun txid n x hx => ?_⟩
    · rw [hu, spendUndo_txout]; exact hout
    · exact (output?_redo_spend hfirst h').1
    · obtain ⟨hbefore, hnot⟩ := hleft txid n x hx
      obtain ⟨hstart, hne⟩ := output?_redo_spend hfirst hbefore
      refine ⟨hstart, fun o' ho' => ?_⟩
      rcases List.mem_cons.mp ho' with rfl | ho'
      · exact hne
      · exact hnot o' ho'

theorem totalValue_spend {out : COutPoint} {undo : CTxInUndo}
    (hex : Change.Exact m (.spend out undo)) :
    CoinsMap.totalValue ((changes env nHeight).redo (.spend out undo) m) =
      m.totalValue - undo.txout.nValue := by
  obtain ⟨txout, hout, rfl⟩ := hex
  rw [spendUndo_txout]
  refine (Map.total_put m out.hash _).trans ?_
  have hv := CCoins.value_spend (show (m.coins out.hash).output? out.n.toNat = _ from hout)
  rw [CCoins.value_cleanup, hv]
  show m.totalValue - (m.coins out.hash).value + _ = _
  ring

theorem totalValue_spendChanges {spends : List COutPoint} {undos : List CTxInUndo}
    (hlen : undos.length = spends.length)
    (hex : (changes env nHeight).Along Change.Exact m (spendChanges spends undos)) :
    CoinsMap.totalValue ((changes env nHeight).redoAll (spendChanges spends undos) m) =
      m.totalValue - (undos.map fun u => u.txout.nValue).sum := by
  induction spends generalizing m undos with
  | nil =>
    obtain rfl := List.length_eq_zero_iff.mp hlen
    simp [spendChanges]
  | cons o spends ih =>
    obtain ⟨u, undos, rfl⟩ := List.exists_cons_of_length_eq_add_one hlen
    have hrest := ih (by simpa using hlen) hex.2
    refine Eq.trans hrest ?_
    rw [totalValue_spend hex.1, List.map_cons, List.sum_cons]
    ring

/-- The values of the outputs spent, as the store has them. -/
theorem sum_valueAt {spends : List COutPoint} {undos : List CTxInUndo}
    (h : List.Forall₂ (fun o u => m.output? o = some u.txout) spends undos) :
    (spends.map m.valueAt).sum = (undos.map fun u => u.txout.nValue).sum := by
  induction h with
  | nil => rfl
  | cons h _ ih => rw [List.map_cons, List.sum_cons, ih, CoinsMap.valueAt, h]; rfl

theorem Nonneg_spendChanges (hm : m.Nonneg) {spends : List COutPoint} {undos : List CTxInUndo}
    (hlen : undos.length = spends.length)
    (hex : (changes env nHeight).Along Change.Exact m (spendChanges spends undos)) :
    CoinsMap.Nonneg ((changes env nHeight).redoAll (spendChanges spends undos) m) :=
  fun txid n out hout => hm txid n out ((spendChanges_output? hlen hex).2 txid n out hout).1

theorem output?_fromTx_mem {tx : CTransaction} {n : Nat} {out : CTxOut}
    (h : (CCoins.fromTx tx nHeight).output? n = some out) : out ∈ tx.vout := by
  rw [CCoins.output?_fromTx, Option.filter_eq_some_iff, Option.bind_eq_some_iff] at h
  obtain ⟨⟨x, hx, hn⟩, -⟩ := h
  unfold CTxOut.unlessNull at hn
  split_ifs at hn
  cases hn
  exact List.mem_of_getElem? hx

/-- One accepted transaction takes out the values of its inputs, and adds at most those of its
outputs. -/
theorem TxStep.total_le {tx : CTransaction} {txundo : CTxUndo} {nFees nFees' : Int}
    (h : TxStep env nHeight m tx txundo nFees nFees' m') (htx : CheckedTx tx) (hm : m.Nonneg) :
    m'.totalValue ≤ m.totalValue - m.valueIn tx + (tx.vout.map CTxOut.nValue).sum ∧ m'.Nonneg := by
  have hex := (Journal.along_append.mp h.exact).1
  have hsum := sum_valueAt (spendChanges_output? h.length hex).1
  have htotal := totalValue_spendChanges h.length hex
  have hnn := Nonneg_spendChanges hm h.length hex
  have hstore := h.store
  rw [txChanges, Journal.redoAll_append] at hstore
  generalize (changes env nHeight).redoAll (spendChanges tx.spends txundo.vprevout) m = m₁
    at htotal hnn hstore
  have hstore : m' = m₁.put (tx.getHash env.hash) (CCoins.fromTx tx nHeight).cleanup := hstore
  have h0 : ∀ out ∈ tx.vout, 0 ≤ out.nValue := fun out hout => (htx.values out hout).1
  refine ⟨?_, fun txid n out hout => ?_⟩
  · have hput : m'.totalValue = m₁.totalValue - (m₁.coins (tx.getHash env.hash)).value +
        (CCoins.fromTx tx nHeight).value := by
      rw [hstore, ← CCoins.value_cleanup (CCoins.fromTx tx nHeight)]
      exact Map.total_put m₁ _ _
    have hnew := CCoins.value_fromTx_le h0 nHeight
    have hold := CCoins.value_nonneg (hnn (tx.getHash env.hash))
    rw [hput, htotal, CoinsMap.valueIn, hsum]
    omega
  · rw [hstore, coins_put] at hout
    split_ifs at hout
    · rw [CCoins.output?_cleanup] at hout
      exact h0 out (output?_fromTx_mem hout)
    · exact hnn txid n out hout

/-! ## A block -/

/-- The value and the fees together do not grow by transactions other than the coinbase, and the
fees do not overflow. -/
theorem TxSteps.total_le {txs : List (CTransaction × CTxUndo)} {nFees nFees' : Int}
    (h : TxSteps env nHeight m nFees txs nFees' m')
    (htxs : ∀ t ∈ txs, CheckedTx t.1 ∧ t.1.isCoinBase = false) (hm : m.Nonneg) (h0 : 0 ≤ nFees)
    (hmax : m.totalValue + nFees ≤ 2 * MAX_MONEY) :
    m'.totalValue + nFees' ≤ m.totalValue + nFees ∧ 0 ≤ nFees' ∧ m'.Nonneg := by
  have hM := MAX_MONEY_eq
  induction h with
  | nil => exact ⟨le_refl _, h0, hm⟩
  | @cons m m₁ m' nFees nFees₁ nFees' tx txundo txs step _ ih =>
    obtain ⟨htx, hcb⟩ := htxs (tx, txundo) (List.mem_cons_self ..)
    obtain ⟨hle, hnn⟩ := step.total_le htx hm
    obtain ⟨nValueOut, hout, hio, hmx, hfees⟩ := step.fees hcb
    rw [htx.getValueOut, Option.some.injEq] at hout
    have hpos := hnn.total
    have hout0 : 0 ≤ nValueOut := hout ▸ List.sum_nonneg fun x hx => by
      obtain ⟨y, hy, rfl⟩ := List.mem_map.mp hx
      exact (htx.values y hy).1
    rw [hout] at hle
    rw [int64_eq (x := m.valueIn tx - nValueOut) (by omega) (by omega),
      int64_eq (by omega) (by omega)] at hfees
    obtain ⟨hrest, hfin, hnn'⟩ := ih (fun t ht => htxs t (List.mem_cons_of_mem _ ht)) hnn
      (by omega) (by omega)
    exact ⟨by omega, hfin, hnn'⟩

theorem getBlockSubsidy_bounds (env : Env) (nHeight : Nat) :
    -2 ^ 63 ≤ getBlockSubsidy env nHeight ∧ getBlockSubsidy env nHeight < 2 ^ 63 := by
  unfold getBlockSubsidy
  simp only
  split_ifs
  · rw [Int.shiftRight_eq_div_pow]
    have h5 : (50 * COIN : Int) = 5000000000 := rfl
    have hpos : (0 : Int) < ((2 ^ (nHeight / env.nSubsidyHalvingInterval) : Nat) : Int) := by positivity
    rw [h5]
    have hle := Int.ediv_le_self (a := 5000000000) ((2 ^ (nHeight / env.nSubsidyHalvingInterval) : Nat) : Int) (by decide)
    have h0 := Int.ediv_nonneg (a := 5000000000) (by decide) hpos.le
    exact ⟨by omega, by omega⟩
  · exact ⟨Int64.le_toInt _, Int64.toInt_lt _⟩

variable {block : CBlock} {pindex : BlockRef} {coinbase : CTransaction} {rest : List CTransaction}
  {blockUndo : CBlockUndo}

/-- The transactions after the coinbase, with their undo data. -/
theorem Connected.others (h : Connected env block pindex coinbase rest m blockUndo m') :
    ∀ t ∈ rest.zip blockUndo.vtxundo, CheckedTx t.1 ∧ t.1.isCoinBase = false := by
  rintro ⟨tx, u⟩ ht
  have hmem := (List.of_mem_zip ht).1
  exact ⟨h.checked.txs tx (by rw [h.checked.vtx]; exact List.mem_cons_of_mem _ hmem),
    h.checked.others tx hmem⟩

/-- An accepted block adds at most the subsidy to the value of a store. -/
theorem Connected.total_le (h : Connected env block pindex coinbase rest m blockUndo m')
    (hm : m.Nonneg) (hmax : m.totalValue ≤ MAX_MONEY) :
    m'.totalValue ≤ m.totalValue + getBlockSubsidy env pindex.nHeight := by
  have hM := MAX_MONEY_eq
  obtain ⟨nFees, nValueOut, hsteps, hout, hreward⟩ := h.steps
  have hcb : CheckedTx coinbase := h.checked.txs _ (by rw [h.checked.vtx]; exact List.mem_cons_self ..)
  rw [hcb.getValueOut, Option.some.injEq] at hout
  rw [undoPairs] at hsteps
  obtain ⟨-, hsub⟩ := getBlockSubsidy_bounds env pindex.nHeight
  cases hsteps with
  | @cons _ m₁ _ _ nFees₁ _ _ _ _ step hrest =>
    obtain ⟨hle, hnn⟩ := step.total_le hcb hm
    have hin : m.valueIn coinbase = 0 := by
      rw [CoinsMap.valueIn, spends_coinBase h.checked.first]; rfl
    have hfees₁ := step.coinBase h.checked.first
    have htot := hcb.total
    have hcb0 : 0 ≤ nValueOut := hout ▸ List.sum_nonneg fun x hx => by
      obtain ⟨y, hy, rfl⟩ := List.mem_map.mp hx
      exact (hcb.values y hy).1
    rw [hout] at hle htot
    obtain ⟨hend, hfees, hnn'⟩ := hrest.total_le h.others hnn (by omega) (by omega)
    have hpos := hnn'.total
    -- the reward wraps around only to a negative number, below the outputs of the coinbase
    have hwrap : nFees + getBlockSubsidy env pindex.nHeight < 2 ^ 63 := by
      by_contra hbig
      have hw : int64 (nFees + getBlockSubsidy env pindex.nHeight) =
          nFees + getBlockSubsidy env pindex.nHeight - 2 ^ 64 := by
        rw [int64, ← Int.sub_bmod_right]
        exact Int.bmod_eq_of_le (by omega) (by omega)
      omega
    have hlow := (getBlockSubsidy_bounds env pindex.nHeight).1
    rw [int64_eq (by omega) hwrap] at hreward
    omega

/-! ## Double spends -/

/-- The places that a transaction spends. -/
def CTransaction.places (tx : CTransaction) : List (UInt256 × Nat) :=
  tx.spends.map fun o => (o.hash, o.n.toNat)

/-- Whether the output at a place is available. -/
def CoinsMap.Avail (m : CoinsMap) (x : UInt256 × Nat) : Prop := (m.coins x.1).output? x.2 ≠ none

/-- The transactions of a list are told apart by their identifiers. -/
def TxidInjOn (env : Env) (vtx : List CTransaction) : Prop :=
  ∀ s ∈ vtx, ∀ t ∈ vtx, s.getHash env.hash = t.getHash env.hash → s = t

theorem CheckedTx.nodup_spends {tx : CTransaction} (h : CheckedTx tx) : tx.spends.Nodup := by
  unfold CTransaction.spends
  split_ifs
  · exact List.nodup_nil
  · exact h.inputs

theorem place_injective : Function.Injective fun o : COutPoint => (o.hash, o.n.toNat) := by
  rintro ⟨h, n⟩ ⟨h', n'⟩ heq
  simp only [Prod.mk.injEq] at heq
  rw [heq.1, UInt32.toNat_inj.mp heq.2]

theorem nodup_spends_of_places {vtx : List CTransaction}
    (h : (vtx.flatMap CTransaction.places).Nodup) : (vtx.flatMap CTransaction.spends).Nodup := by
  have hmap : vtx.flatMap CTransaction.places =
      (vtx.flatMap CTransaction.spends).map fun o => (o.hash, o.n.toNat) :=
    (List.map_flatMap ..).symm
  rw [hmap] at h
  exact h.of_map _

/-- An accepted transaction uses up available places. -/
theorem TxStep.ledger {tx : CTransaction} {txundo : CTxUndo} {nFees nFees' : Int}
    (h : TxStep env nHeight m tx txundo nFees nFees' m') (htx : CheckedTx tx) :
    Framework.Ledger.Step (CTransaction.getHash env.hash) CTransaction.places m.Avail tx
      m'.Avail where
  used := by
    rintro x hx
    obtain ⟨o, ho, rfl⟩ := List.mem_map.mp hx
    obtain ⟨out, hout, -⟩ := h.inputs o ho
    show (m.coins o.hash).output? o.n.toNat ≠ none
    rw [show (m.coins o.hash).output? o.n.toNat = some out from hout]
    exact Option.some_ne_none _
  distinct := htx.nodup_spends.map place_injective
  after := by
    rintro ⟨txid, n⟩ hx
    obtain ⟨out, hout⟩ := Option.ne_none_iff_exists'.mp hx
    have hex := (Journal.along_append.mp h.exact).1
    have hstore := h.store
    rw [txChanges, Journal.redoAll_append] at hstore
    have hput : m' = Map.put _ (tx.getHash env.hash) (CCoins.fromTx tx nHeight).cleanup := hstore
    rw [hput, coins_put] at hout
    split_ifs at hout with hid
    · exact .inl hid
    · obtain ⟨hbefore, hnot⟩ := (spendChanges_output? h.length hex).2 txid n out hout
      refine .inr ⟨?_, fun hmem => ?_⟩
      · show (m.coins txid).output? n ≠ none
        rw [hbefore]; exact Option.some_ne_none _
      · obtain ⟨o, ho, heq⟩ := List.mem_map.mp hmem
        exact hnot o ho heq.symm

theorem TxSteps.chain {txs : List (CTransaction × CTxUndo)} {nFees nFees' : Int}
    (h : TxSteps env nHeight m nFees txs nFees' m') (htxs : ∀ t ∈ txs, CheckedTx t.1) :
    Framework.Ledger.Chain (CTransaction.getHash env.hash) CTransaction.places m.Avail
      (txs.map Prod.fst) m'.Avail := by
  induction h with
  | nil => exact .nil _
  | @cons m m₁ m' nFees nFees₁ nFees' tx txundo txs step _ ih =>
    exact .cons (step.ledger (htxs _ (List.mem_cons_self ..)))
      (ih fun t ht => htxs t (List.mem_cons_of_mem _ ht))

theorem Connected.pairs_fst (h : Connected env block pindex coinbase rest m blockUndo m') :
    (undoPairs coinbase rest blockUndo).map Prod.fst = block.vtx := by
  rw [undoPairs, List.map_cons, List.map_fst_zip (by rw [h.length]), h.checked.vtx]

theorem Connected.places_ne_nil (h : Connected env block pindex coinbase rest m blockUndo m')
    {tx : CTransaction} (htx : tx ∈ rest) : tx.places ≠ [] := by
  have hvin := (h.checked.txs tx (by rw [h.checked.vtx]; exact List.mem_cons_of_mem _ htx)).vin
  rw [CTransaction.places, spends_not_coinBase (h.checked.others tx htx)]
  simpa using hvin

/-- The ledger after an accepted block: its identifiers are distinct, and so are its outpoints. -/
theorem Connected.done (h : Connected env block pindex coinbase rest m blockUndo m')
    (hinj : TxidInjOn env block.vtx) :
    Framework.Ledger.Done (CTransaction.getHash env.hash) CTransaction.places m.Avail block.vtx
      m'.Avail := by
  obtain ⟨nFees, -, hsteps, -⟩ := h.steps
  have hmem : ∀ t ∈ undoPairs coinbase rest blockUndo, CheckedTx t.1 := fun t ht =>
    h.checked.txs _ (h.pairs_fst ▸ List.mem_map_of_mem ht)
  have hchain := hsteps.chain hmem
  rw [h.pairs_fst] at hchain
  refine hchain.done (fun t ht i hav => ?_) (fun s hs t ht hid => by rw [hinj s hs t ht hid])
    fun t ht => ?_
  · exact hav (CCoins.isPruned_iff.mp (h.fresh t ht) i)
  · rw [h.checked.vtx, List.tail_cons] at ht
    exact h.places_ne_nil ht

end Step

/-! ## Views -/

section View

variable {env : Env} {block : CBlock} {pindex : BlockRef} {view view' : CacheView}
  {blockUndo : CBlockUndo}

/-- Every output that a view has available has an amount in range. -/
def CacheView.MoneyRange (ops : PubKeyOps) (view : CacheView) : Prop :=
  ∀ txid n out, (view.stack.record ops txid).output? n = some out → moneyRange out.nValue = true

/-- The sum of the amounts of all unspent outputs of a view. -/
def CacheView.totalValue (ops : PubKeyOps) (view : CacheView) : Int :=
  CoinsMap.totalValue (view.contents ops)

/-- Running `ConnectBlock` on a view: what it does to the contents. -/
theorem connectBlock_view (hw : view.stack.Wf env.ops)
    (hgen : block.getHash env.hash ≠ env.hashGenesisBlock)
    (h : (connectBlock env block pindex false).run (viewImpl env.ops) view = (.ok blockUndo, view')) :
    ∃ coinbase rest undo m₁,
      Connected env block pindex coinbase rest (view.contents env.ops) undo m₁ ∧
        ∀ txid, (view'.stack.record env.ops txid).Agrees Eq (m₁.coins txid) := by
  obtain ⟨undo, view₁, hchecked, hfinish⟩ := Prog.run_bind_ok h
  obtain ⟨hout, hrepr⟩ := (((connectChecked_rel env (fun _ => rfl) block pindex false).run
    viewImpl_sim (CacheView.repr_contents hw)).resolve_right fun hf => hf.1)
  rw [hchecked] at hout hrepr
  rcases hplain : (connectChecked env block pindex false).run plain (view.contents env.ops) with
    ⟨r, m₁⟩
  rw [hplain] at hout hrepr
  cases r with
  | error e => exact hout.elim
  | ok undo' =>
    obtain ⟨coinbase, rest, hconn⟩ := connectChecked_ok hgen hplain
    refine ⟨coinbase, rest, undo', m₁, hconn, fun txid => ?_⟩
    cases hfinish
    exact hrepr.record txid

/-- Connecting a block that is not the genesis block adds at most the subsidy to the value of a
view, and spends no outpoint twice. -/
theorem connectBlock_no_inflation (hw : view.stack.Wf env.ops)
    (hrange : view.MoneyRange env.ops) (htotal : view.totalValue env.ops ≤ MAX_MONEY)
    (hgen : block.getHash env.hash ≠ env.hashGenesisBlock) (hinj : TxidInjOn env block.vtx)
    (h : (connectBlock env block pindex false).run (viewImpl env.ops) view =
      (.ok blockUndo, view')) :
    view'.totalValue env.ops ≤ view.totalValue env.ops + getBlockSubsidy env pindex.nHeight ∧
      (block.vtx.flatMap CTransaction.spends).Nodup := by
  obtain ⟨coinbase, rest, undo, m₁, hconn, hrec⟩ := connectBlock_view hw hgen h
  refine ⟨?_, ?_⟩
  · have hm : CoinsMap.Nonneg (view.contents env.ops) := fun txid n out hout =>
      (moneyRange_iff.mp (hrange txid n out hout)).1
    have heq : view'.totalValue env.ops = m₁.totalValue :=
      CoinsMap.totalValue_congr fun txid => (hrec txid).output
    rw [heq]
    exact hconn.total_le hm htotal
  · exact nodup_spends_of_places (hconn.done hinj).once

end View

/-! ## A block that pays a fee -/

/-- A chain whose hash is the number that the bytes encode, and whose scripts all succeed. -/
def sampleEnv : Env where
  hash bytes := Fin.ofNat _ (Framework.leNat bytes)
  ops := ⟨fun _ => false, fun _ => none⟩
  checkProofOfWork _ := true
  adjustedTime := 0
  verifyScript _ _ _ _ := none
  hashGenesisBlock := 0
  nSubsidyHalvingInterval := 840000
  undefinedShift _ := 0
  fCheckpointsEnabled := false
  totalBlocksEstimate := 0
  nScriptCheckThreads := 0
  heightOf _ := 7

/-- A coinbase that claims `nValue`. -/
def sampleCoinbase (nValue : Int) : CTransaction :=
  ⟨1, [⟨⟨0, 0xFFFFFFFF⟩, [0x01, 0x02], 0⟩], [⟨nValue, []⟩], 0⟩

/-- A transaction that spends output 0 of transaction 7 for `nValue`. -/
def sampleSpend (nValue : Int) : CTransaction := ⟨1, [⟨⟨7, 0⟩, [], 0⟩], [⟨nValue, []⟩], 0⟩

/-- A block with the given transactions, the hash of whose transactions is right. -/
def sampleBlock (vtx : List CTransaction) : CBlock :=
  let block : CBlock := ⟨⟨1, 5, 0, 0, 0, 0⟩, vtx⟩
  { block with hashMerkleRoot := ((block.buildMerkleTree sampleEnv.hash).map (merkleRoot ·.1)).getD 0 }

/-- A cache on an empty database in which one record, of transaction 7, has been changed. -/
def sampleView (coins : CCoins) : CacheView :=
  ⟨⟨fun txid => if txid = 7 then some ⟨coins, true, true⟩ else none, 5⟩, .db ⟨fun _ => none, 5⟩⟩

theorem sampleView_record (coins : CCoins) (txid : UInt256) :
    (sampleView coins).stack.record sampleEnv.ops txid = if txid = 7 then coins else .empty := by
  by_cases h : txid = 7
  · subst h; rfl
  · have hnone : (sampleView coins).cache.cacheCoins txid = none := if_neg h
    rw [if_neg h, CoinsView.record, CacheView.stack, coins?_of_none hnone]
    rfl

theorem sampleView_wf (coins : CCoins) : (sampleView coins).stack.Wf sampleEnv.ops := by
  refine ⟨fun txid entry he => ?_, trivial⟩
  have he : (if txid = 7 then some (CCoinsCacheEntry.mk coins true true) else none) = some entry := he
  split_ifs at he
  cases he
  exact ⟨fun _ => rfl, fun h => Bool.noConfusion h, fun h => Bool.noConfusion h⟩

theorem sampleView_totalValue (coins : CCoins) :
    (sampleView coins).totalValue sampleEnv.ops = coins.value := by
  have hput : CoinsMap.totalValue ((sampleView coins).contents sampleEnv.ops) =
      CoinsMap.totalValue (Map.put ⟨fun _ => none, 0⟩ 7 coins) :=
    CoinsMap.totalValue_congr fun txid n => by
      rw [coins_put, show CoinsMap.coins ((sampleView coins).contents sampleEnv.ops) txid = _ from
        sampleView_record coins txid]
      rfl
  have hzero : Map.total CCoins.empty CCoins.value (τ := UInt256) (κ := UInt256) ⟨fun _ => none, 0⟩ = 0 :=
    Map.total_eq_zero fun _ => rfl
  rw [CacheView.totalValue, hput, CoinsMap.totalValue, Map.total_put, hzero]
  exact zero_add _

/-- The record of a transaction with one output of 10. -/
def sampleCoins : CCoins := ⟨false, [some ⟨10, []⟩], 3, 1⟩

def paidBlock : CBlock := sampleBlock [sampleCoinbase (50 * COIN + 4), sampleSpend 6]

def paidIndex : BlockRef := ⟨8, some 5, 8⟩

def paidRun : Except Failure CBlockUndo × CacheView :=
  (connectBlock sampleEnv paidBlock paidIndex false).run (viewImpl sampleEnv.ops)
    (sampleView sampleCoins)

theorem paidRun_no_inflation :
    paidRun.2.totalValue sampleEnv.ops ≤
        (sampleView sampleCoins).totalValue sampleEnv.ops + getBlockSubsidy sampleEnv paidIndex.nHeight ∧
      (paidBlock.vtx.flatMap CTransaction.spends).Nodup := by
  have hrun : paidRun = (.ok ⟨[⟨[⟨⟨10, []⟩, false, 3, 1⟩]⟩]⟩, paidRun.2) :=
    Prog.eq_ok_of_fst (by decide +kernel)
  have hrange : (sampleView sampleCoins).MoneyRange sampleEnv.ops := by
    intro txid n out hout
    rw [sampleView_record] at hout
    split_ifs at hout
    · rcases n with _ | n
      · cases hout; decide
      · cases hout
    · cases hout
  have htotal : (sampleView sampleCoins).totalValue sampleEnv.ops ≤ MAX_MONEY := by
    rw [sampleView_totalValue]; decide
  have hinj : TxidInjOn sampleEnv paidBlock.vtx := by unfold TxidInjOn; decide +kernel
  exact @connectBlock_no_inflation sampleEnv paidBlock paidIndex (sampleView sampleCoins) paidRun.2 _
    (sampleView_wf _) hrange htotal (by decide +kernel) hinj hrun

end GC
