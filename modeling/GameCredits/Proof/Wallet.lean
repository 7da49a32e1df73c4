import GameCredits.Framework.Outcome
import GameCredits.Model.Wallet
import Mathlib.Algebra.Order.BigOperators.Group.List

/-!
# Cached amounts of the wallet

`MarkDirty` forgets all cached amounts but one: the immature credit stays. From then on the getters give
the present amounts, in whatever order they are called, if and only if that one is still right or is
not asked for (`markDirty_coherent_iff`).
-/

namespace GC

open Framework

/-- A call of a getter of a `CWalletTx`, with its cache in use. -/
inductive AmountCall where
  | debit (filter : IsMineFilter)
  | credit (filter : IsMineFilter)
  | immatureCredit
  | availableCredit
  | immatureWatchOnlyCredit
  | availableWatchOnlyCredit
  | change
  deriving DecidableEq

section

variable (w : CWallet) (wtx : CMerkleTx)

def AmountCall.getter : AmountCall → AmountGetter
  | debit filter => CWalletTx.getDebit w wtx filter
  | credit filter => CWalletTx.getCredit w wtx filter
  | immatureCredit => CWalletTx.getImmatureCredit w wtx
  | availableCredit => CWalletTx.getAvailableCredit w wtx
  | immatureWatchOnlyCredit => CWalletTx.getImmatureWatchOnlyCredit w wtx
  | availableWatchOnlyCredit => CWalletTx.getAvailableWatchOnlyCredit w wtx
  | change => CWalletTx.getChange w wtx

/-! ## Present amounts -/

/-- A coinbase that is not deep enough in the chain. -/
def Immature : Prop := wtx.isCoinBase = true ∧ 0 < w.getBlocksToMaturity wtx

instance : Decidable (Immature w wtx) := inferInstanceAs (Decidable (_ ∧ _))

/-- An immature coinbase that is in the chain. -/
def Immature.InChain : Prop :=
  wtx.isCoinBase = true ∧ 0 < w.getBlocksToMaturity wtx ∧ w.isInMainChain wtx = true

instance : Decidable (Immature.InChain w wtx) := inferInstanceAs (Decidable (_ ∧ _ ∧ _))

/-- What the amount of a call is now, from the keys, the spends and the chain of the wallet alone. -/
def AmountCall.present : AmountCall → Except String Int
  | debit filter =>
    if wtx.vin.isEmpty then .ok 0
    else sumParts filter (w.getDebit wtx.toCTransaction ISMINE_SPENDABLE)
      (w.getDebit wtx.toCTransaction ISMINE_WATCH_ONLY)
  | credit filter =>
    if Immature w wtx then .ok 0
    else sumParts filter (w.getCredit wtx.toCTransaction ISMINE_SPENDABLE)
      (w.getCredit wtx.toCTransaction ISMINE_WATCH_ONLY)
  | immatureCredit =>
    if Immature.InChain w wtx then w.getCredit wtx.toCTransaction ISMINE_SPENDABLE else .ok 0
  | availableCredit =>
    if Immature w wtx then .ok 0 else w.getUnspentCredit wtx.toCTransaction ISMINE_SPENDABLE
  | immatureWatchOnlyCredit =>
    if Immature.InChain w wtx then w.getCredit wtx.toCTransaction ISMINE_WATCH_ONLY else .ok 0
  | availableWatchOnlyCredit =>
    if Immature w wtx then .ok 0 else w.getUnspentCredit wtx.toCTransaction ISMINE_WATCH_ONLY
  | change => w.getChange wtx.toCTransaction

/-- What each cache is for; that of the immature credit is for a coinbase that is immature. -/
def presentAmount : AmountCache → Except String Int
  | .debit => w.getDebit wtx.toCTransaction ISMINE_SPENDABLE
  | .watchDebit => w.getDebit wtx.toCTransaction ISMINE_WATCH_ONLY
  | .credit => w.getCredit wtx.toCTransaction ISMINE_SPENDABLE
  | .immatureCredit =>
    if Immature.InChain w wtx then w.getCredit wtx.toCTransaction ISMINE_SPENDABLE
    else .error "not immature"
  | .watchCredit | .immatureWatchCredit => w.getCredit wtx.toCTransaction ISMINE_WATCH_ONLY
  | .availableCredit => w.getUnspentCredit wtx.toCTransaction ISMINE_SPENDABLE
  | .availableWatchCredit => w.getUnspentCredit wtx.toCTransaction ISMINE_WATCH_ONLY
  | .change => w.getChange wtx.toCTransaction

/-- Whatever getters are called, and in whatever order, they give the present amounts. -/
def CWalletTx.Current (wtx : CWalletTx) : Prop :=
  ∀ calls : List AmountCall,
    answers (calls.map (AmountCall.getter w wtx.toCMerkleTx)) wtx.cached =
      calls.map (AmountCall.present w wtx.toCMerkleTx)

/-- The caches that are read: that of the immature credit only when the transaction is immature. -/
def CacheRead (cache : AmountCache) : Prop := cache = .immatureCredit → Immature.InChain w wtx

end

/-! ## The getters -/

/-- The flag that a passed check leaves does not change a depth. -/
theorem getDepthInMainChainINTERNAL_verified (w : CWallet) (tx : CMerkleTx)
    (hpassed : ∀ pindex, w.mapBlockIndex tx.hashBlock = some pindex →
      checkMerkleBranch w.hash (tx.getHash w.hash) tx.vMerkleBranch tx.nIndex =
        (w.node pindex).hashMerkleRoot) :
    w.getDepthInMainChainINTERNAL { tx with fMerkleVerified := true } =
      w.getDepthInMainChainINTERNAL tx := by
  unfold CWallet.getDepthInMainChainINTERNAL
  cases hfound : w.mapBlockIndex tx.hashBlock with
  | none => rfl
  | some pindex => simp [hpassed pindex hfound]

section

variable {w : CWallet} {wtx : CMerkleTx} {filter : IsMineFilter} {K : AmountCache → Prop}

theorem serves_filterPart {part : AmountGetter} {a : Except String Int} (mask : IsMineFilter)
    (ha : Serves (presentAmount w wtx) K part a) :
    Serves (presentAmount w wtx) K (filterPart filter mask part) (filterPart filter mask a) :=
  .ite (fun _ => ha) fun _ => .pure 0

theorem serves_sumParts {spendable watchOnly : AmountGetter} {a b : Except String Int}
    (ha : Serves (presentAmount w wtx) K spendable a)
    (hb : Serves (presentAmount w wtx) K watchOnly b) :
    Serves (presentAmount w wtx) K (sumParts filter spendable watchOnly) (sumParts filter a b) := by
  apply (serves_filterPart ISMINE_SPENDABLE ha).bind
  intro nSpendable
  apply (serves_filterPart ISMINE_WATCH_ONLY hb).bind
  intro nWatchOnly
  exact .pure (nSpendable + nWatchOnly)

/-- Every getter gives the present amount. -/
theorem serves_getter (hK : ∀ cache, CacheRead w wtx cache → K cache) (call : AmountCall) :
    Serves (presentAmount w wtx) K (call.getter w wtx) (call.present w wtx) := by
  have hread : ∀ cache, cache ≠ .immatureCredit → K cache := fun cache hne =>
    hK cache fun h => absurd h hne
  cases call with
  | debit filter =>
    refine .ite (fun _ => .pure 0) fun _ => serves_sumParts ?_ ?_
    · exact .fetch (hread .debit nofun) true rfl
    · exact .fetch (hread .watchDebit nofun) true rfl
  | credit filter =>
    refine .ite (fun _ => .pure 0) fun _ => serves_sumParts ?_ ?_
    · exact .fetch (hread .credit nofun) true rfl
    · exact .fetch (hread .watchCredit nofun) true rfl
  | immatureCredit =>
    refine .ite (fun hin => ?_) fun _ => .pure 0
    have hnow : presentAmount w wtx .immatureCredit =
        w.getCredit wtx.toCTransaction ISMINE_SPENDABLE := if_pos hin
    rw [← hnow]
    exact .fetch (hK .immatureCredit fun _ => hin) true rfl
  | immatureWatchOnlyCredit =>
    exact .ite (fun _ => .fetch (hread .immatureWatchCredit nofun) true rfl) fun _ => .pure 0
  | availableCredit =>
    exact .ite (fun _ => .pure 0) fun _ => .fetch (hread .availableCredit nofun) true rfl
  | availableWatchOnlyCredit =>
    exact .ite (fun _ => .pure 0) fun _ => .fetch (hread .availableWatchCredit nofun) true rfl
  | change => exact .fetch (hread .change nofun) true rfl

end

/-! ## What outputs are worth -/

section

variable (w : CWallet) (filter : IsMineFilter)

/-- The sum of the outputs that are the wallet's. -/
def CWallet.ourTotal (vout : List CTxOut) : Int :=
  ((vout.filter fun txout => w.isMineOut txout &&& filter ≠ 0).map CTxOut.nValue).sum

/-- The wallet's outputs of the transaction are worth `nValue`, and no amount is out of range. -/
structure CWallet.Worth (tx : CTransaction) (nValue : Int) : Prop where
  inRange : ∀ txout ∈ tx.vout, moneyRange txout.nValue = true
  total : nValue = w.ourTotal filter tx.vout
  le : nValue ≤ MAX_MONEY

variable {w filter}

theorem ourTotal_cons (txout : CTxOut) (vout : List CTxOut) :
    w.ourTotal filter (txout :: vout) =
      (if w.isMineOut txout &&& filter ≠ 0 then txout.nValue else 0) + w.ourTotal filter vout := by
  unfold CWallet.ourTotal
  by_cases hmine : w.isMineOut txout &&& filter ≠ 0
  · rw [List.filter_cons_of_pos (by simpa using hmine), if_pos hmine, List.map_cons, List.sum_cons]
  · rw [List.filter_cons_of_neg (by simpa using hmine), if_neg hmine, zero_add]

theorem ourTotal_nonneg {vout : List CTxOut}
    (h : ∀ txout ∈ vout, moneyRange txout.nValue = true) : 0 ≤ w.ourTotal filter vout := by
  apply List.sum_nonneg
  intro n hn
  obtain ⟨txout, hmem, rfl⟩ := List.mem_map.mp hn
  exact (moneyRange_iff.mp (h txout (List.mem_filter.mp hmem).1)).1

/-- The loop of `GetCredit`, when `n` has been added up before. -/
theorem addUp_getCreditOut {strWhat : String} {n m : Int} (hn : moneyRange n = true)
    (vout : List CTxOut) :
    CWallet.addUp strWhat n (vout.map (w.getCreditOut filter)) = .ok m ↔
      (∀ txout ∈ vout, moneyRange txout.nValue = true) ∧ m = n + w.ourTotal filter vout ∧
        m ≤ MAX_MONEY := by
  have hM := MAX_MONEY_eq
  induction vout generalizing n with
  | nil =>
    have hle := (moneyRange_iff.mp hn).2
    show Except.ok n = .ok m ↔ (∀ txout ∈ [], _) ∧ m = n + 0 ∧ _
    constructor
    · rintro ⟨⟩
      exact ⟨nofun, (add_zero _).symm, hle⟩
    · rintro ⟨-, rfl, -⟩
      rw [add_zero]
  | cons txout vout ih =>
    rw [List.map_cons, ourTotal_cons, List.forall_mem_cons, CWallet.getCreditOut]
    by_cases hout : moneyRange txout.nValue = true
    · have hrange := moneyRange_iff.mp hout
      have hn' := moneyRange_iff.mp hn
      simp only [hout, Bool.not_true, Bool.false_eq_true, if_false, true_and]
      generalize hc : (if w.isMineOut txout &&& filter ≠ 0 then txout.nValue else 0) = c
      have hc' : 0 ≤ c ∧ c ≤ MAX_MONEY := by
        rw [← hc]
        split_ifs
        · exact hrange
        · omega
      rw [CWallet.addUp, ok_bind, int64_eq (by omega) (by omega)]
      by_cases hsum : moneyRange (n + c) = true
      · simp only [hsum, Bool.not_true, Bool.false_eq_true, if_false]
        rw [← add_assoc]
        exact ih hsum
      · simp only [Bool.not_eq_true] at hsum
        simp only [hsum, Bool.not_false, if_true]
        refine iff_of_false nofun ?_
        rintro ⟨hall, rfl, hle⟩
        have h0 : 0 ≤ w.ourTotal filter vout := ourTotal_nonneg hall
        exact absurd (moneyRange_iff.mpr ⟨by omega, by omega⟩) (Bool.eq_false_iff.mp hsum)
    · refine iff_of_false ?_ fun h => hout h.1.1
      rw [if_pos (by simpa using hout)]
      exact nofun

/-- `CWallet::GetCredit` gives what the outputs are worth. -/
theorem getCredit_eq_ok_iff {tx : CTransaction} {nValue : Int} :
    w.getCredit tx filter = .ok nValue ↔ w.Worth filter tx nValue := by
  rw [CWallet.getCredit, addUp_getCreditOut rfl, zero_add]
  exact ⟨fun ⟨hrange, htotal, hle⟩ => ⟨hrange, htotal, hle⟩,
    fun h => ⟨h.inRange, h.total, h.le⟩⟩

end

/-! ## After MarkDirty -/

section

variable {w : CWallet}

/-- The immature credit that the transaction has in its cache, if any, is what its spendable outputs are
worth, or is not asked for. -/
def CWalletTx.ImmatureCurrent (w : CWallet) (wtx : CWalletTx) : Prop :=
  Immature.InChain w wtx.toCMerkleTx → (wtx.cached .immatureCredit).fCached = true →
    w.Worth ISMINE_SPENDABLE wtx.toCTransaction (wtx.cached .immatureCredit).nCached

theorem presentAmount_immatureCredit {wtx : CMerkleTx} (hin : Immature.InChain w wtx) :
    presentAmount w wtx .immatureCredit = w.getCredit wtx.toCTransaction ISMINE_SPENDABLE :=
  if_pos hin

/-- The amounts that stay cached are those of the immature credit. -/
theorem coherent_markDirty_iff (wtx : CWalletTx) :
    Coherent (presentAmount w wtx.toCMerkleTx) (CacheRead w wtx.toCMerkleTx) wtx.markDirty.cached ↔
      wtx.ImmatureCurrent w := by
  unfold CWalletTx.markDirty
  rw [coherent_forget]
  constructor
  · intro h hin hcached
    have hnow := h .immatureCredit ⟨fun _ => hin, by decide⟩ hcached
    rw [presentAmount_immatureCredit hin] at hnow
    exact getCredit_eq_ok_iff.mp hnow
  · rintro h cache ⟨hread, hkept⟩ hcached
    obtain rfl : cache = .immatureCredit := by
      revert hkept
      cases cache <;> decide
    rw [presentAmount_immatureCredit (hread rfl)]
    exact getCredit_eq_ok_iff.mpr (h (hread rfl) hcached)

/-- After `MarkDirty` the getters give the present amounts just when the immature credit does. -/
theorem current_markDirty_iff (wtx : CWalletTx) :
    wtx.markDirty.Current w ↔ wtx.ImmatureCurrent w := by
  constructor
  · intro h hin hcached
    have hcall := h [.immatureCredit]
    have hkeeps : (wtx.markDirty.cached .immatureCredit).fCached = true := hcached
    have hpresent : AmountCall.present w wtx.toCMerkleTx .immatureCredit =
        w.getCredit wtx.toCTransaction ISMINE_SPENDABLE := if_pos hin
    have hgetter : AmountCall.getter w wtx.toCMerkleTx .immatureCredit =
        Memo.fetch true .immatureCredit (w.getCredit wtx.toCTransaction ISMINE_SPENDABLE) := if_pos hin
    change answers [AmountCall.getter w wtx.toCMerkleTx .immatureCredit] _ =
      [AmountCall.present w wtx.toCMerkleTx .immatureCredit] at hcall
    rw [hpresent, hgetter, answers, Memo.fetch_cached hkeeps] at hcall
    exact getCredit_eq_ok_iff.mp (List.head_eq_of_cons_eq hcall).symm
  · exact fun h => answers_eq (serves_getter fun _ h => h) ((coherent_markDirty_iff wtx).mpr h)

/-- The keys and the chain are the same after `CWallet::MarkDirty`. -/
theorem immatureCurrent_markDirty (wtx : CWalletTx) :
    wtx.ImmatureCurrent w.markDirty ↔ wtx.ImmatureCurrent w :=
  forall_congr' fun _ => forall_congr' fun _ =>
    ⟨fun h => ⟨h.inRange, h.total, h.le⟩, fun h => ⟨h.inRange, h.total, h.le⟩⟩

/-! ## Caches that were filled before -/

/-- A transaction whose caches were filled by calls in the state `w` of the wallet. -/
def CWalletTx.filled (w : CWallet) (tx : CMerkleTx) (calls : List AmountCall) : CWalletTx :=
  { tx with
    cached := remembers (calls.map (AmountCall.getter w tx)) (CWalletTx.ofMerkleTx tx).cached }

/-- The immature credit that a call leaves is that of the state in which it was made. -/
theorem filled_immatureCredit {tx : CMerkleTx} {calls : List AmountCall}
    (hcached : ((CWalletTx.filled w tx calls).cached .immatureCredit).fCached = true) :
    Immature.InChain w tx ∧ w.Worth ISMINE_SPENDABLE tx.toCTransaction
      ((CWalletTx.filled w tx calls).cached .immatureCredit).nCached := by
  have hfresh : Coherent (presentAmount w tx) (fun _ => True) (CWalletTx.ofMerkleTx tx).cached :=
    fun _ _ h => absurd h Bool.false_ne_true
  have hfilled := coherent_remembers (serves_getter fun _ _ => trivial) hfresh calls
  have hnow := hfilled .immatureCredit trivial hcached
  by_cases hin : Immature.InChain w tx
  · rw [presentAmount_immatureCredit hin] at hnow
    exact ⟨hin, getCredit_eq_ok_iff.mp hnow⟩
  · rw [presentAmount, if_neg hin] at hnow
    cases hnow

/-- `MarkDirty` makes up for what calls in an earlier state of the wallet left, unless the transaction
was an immature coinbase then and is one now, and its spendable outputs are not worth the same. -/
theorem current_filled_iff (w₀ w : CWallet) (tx : CMerkleTx) :
    (∀ calls, (CWalletTx.filled w₀ tx calls).markDirty.Current w) ↔
      (Immature.InChain w tx → Immature.InChain w₀ tx →
        ∀ n, w₀.Worth ISMINE_SPENDABLE tx.toCTransaction n →
          w.Worth ISMINE_SPENDABLE tx.toCTransaction n) := by
  constructor
  · intro h hin hin₀ n hworth
    have hgetter : AmountCall.getter w₀ tx .immatureCredit =
        Memo.fetch true .immatureCredit (.ok n) :=
      (if_pos hin₀).trans (by rw [getCredit_eq_ok_iff.mpr hworth])
    have hcached : (CWalletTx.filled w₀ tx [.immatureCredit]).cached .immatureCredit = ⟨true, n⟩ := by
      show remembers [AmountCall.getter w₀ tx .immatureCredit] _ _ = _
      rw [hgetter]
      rfl
    have hcurrent := (current_markDirty_iff _).mp (h [.immatureCredit]) hin
    rw [hcached] at hcurrent
    exact hcurrent rfl
  · intro h calls
    refine (current_markDirty_iff _).mpr fun hin hcached => ?_
    obtain ⟨hin₀, hworth⟩ := filled_immatureCredit hcached
    exact h hin hin₀ _ hworth

end

/-- After `MarkDirty` of a transaction, or of the wallet, the getters give the present amounts in
whatever order they are called, just when no immature credit that is still asked for has changed since
it was cached. -/
theorem markDirty_coherent_iff (w : CWallet) :
    (∀ wtx : CWalletTx, wtx.markDirty.Current w ↔ wtx.ImmatureCurrent w) ∧
    ((∀ hash wtx, w.markDirty.mapWallet hash = some wtx → wtx.Current w.markDirty) ↔
      ∀ hash wtx, w.mapWallet hash = some wtx → wtx.ImmatureCurrent w) ∧
    ∀ (w₀ : CWallet) (tx : CMerkleTx),
      (∀ calls, (CWalletTx.filled w₀ tx calls).markDirty.Current w) ↔
        (Immature.InChain w tx → Immature.InChain w₀ tx →
          ∀ n, w₀.Worth ISMINE_SPENDABLE tx.toCTransaction n →
            w.Worth ISMINE_SPENDABLE tx.toCTransaction n) := by
  refine ⟨current_markDirty_iff, ?_, fun w₀ tx => current_filled_iff w₀ w tx⟩
  constructor
  · intro h hash wtx hmem
    have hmarked : w.markDirty.mapWallet hash = some wtx.markDirty :=
      congrArg (Option.map CWalletTx.markDirty) hmem
    exact (immatureCurrent_markDirty wtx).mp ((current_markDirty_iff wtx).mp (h hash _ hmarked))
  · intro h hash wtx hmem
    obtain ⟨wtx, hfound, rfl⟩ := Option.map_eq_some_iff.mp hmem
    exact (current_markDirty_iff wtx).mpr ((immatureCurrent_markDirty wtx).mpr (h hash wtx hfound))

/-! ## A key that is imported -/

/-- The key of the coinbase below, and a wallet with one transaction, in the only block of the chain. -/
def soloKey : Bytes := 0x02 :: List.replicate 32 0

def soloWallet (keystore : KeyStore fun _ => (⟨List.replicate 20 0, length_zeros⟩ : UInt160)) (wtx : CWalletTx) :
    CWallet where
  hash _ := 0
  hash160 _ := ⟨List.replicate 20 0, length_zeros⟩
  options := ⟨true, 80⟩
  keystore := keystore
  depth := 1
  mapAddressBook := []
  mapWallet hash := if hash = 0 then some wtx else none
  mapTxSpends _ := []
  node _ := CBlockIndex.ofHeader 1 ⟨1, 0, 0, 0, 0, 0⟩
  mapBlockIndex hash := if hash = 1 then some 0 else none
  chainActive := ⟨[some 0]⟩
  mempool := []

def soloCoinbase : CMerkleTx where
  nVersion := 1
  vin := [⟨⟨0, 0xFFFFFFFF⟩, [], 0⟩]
  vout := [⟨50 * COIN, getScriptForPubKey soloKey⟩]
  nLockTime := 0
  hashBlock := 1
  vMerkleBranch := []
  nIndex := 0
  fMerkleVerified := false

/-- The coinbase, whose immature credit was asked for when the wallet had no key. -/
def soloFilled : CWalletTx :=
  .filled (soloWallet .empty (.ofMerkleTx soloCoinbase)) soloCoinbase [.immatureCredit]

/-- The wallet after the key has been imported. -/
def soloImported : CWallet := soloWallet (KeyStore.empty.addKeyPubKey soloKey rfl) soloFilled

/-- After the import and `CWallet::MarkDirty` the immature credit is still zero. -/
theorem markDirty_counterexample :
    answers [AmountCall.getter soloImported.markDirty soloCoinbase .immatureCredit]
        soloFilled.markDirty.cached = [.ok 0] ∧
      AmountCall.present soloImported.markDirty soloCoinbase .immatureCredit = .ok (50 * COIN) ∧
      soloImported.markDirty.mapWallet 0 = some soloFilled.markDirty ∧
      ¬ soloFilled.markDirty.Current soloImported.markDirty := by
  have hgives : answers [AmountCall.getter soloImported.markDirty soloCoinbase .immatureCredit]
      soloFilled.markDirty.cached = [.ok 0] := by decide +kernel
  have hpresent : AmountCall.present soloImported.markDirty soloCoinbase .immatureCredit =
      .ok (50 * COIN) := by decide +kernel
  refine ⟨hgives, hpresent, rfl, fun h => ?_⟩
  have hcall := (h [.immatureCredit]).symm.trans hgives
  rw [List.map_singleton] at hcall
  exact absurd (hpresent.symm.trans (List.head_eq_of_cons_eq hcall)) (by decide +kernel)

end GC
