import GameCredits.Model.CreateTransaction
import GameCredits.Proof.CoinSelection
import GameCredits.Proof.Miner
import GameCredits.Proof.Sign
import GameCredits.Proof.Wire

/-!
# Transactions that the wallet makes

* `payRecipients_ok`, `subtractFromFirst_ok`, `addChange_ok`: the outputs of a round are those for the
  recipients, who are charged the fee, and the change, and add up.
* `selectCoins_selected`: the inputs are different spendable coins, and enough.
* `signInputs_ok`: a signature is not for the scripts of the inputs, so that signing one input leaves
  those signed before verified.
* `createRound_ok`, `createRounds_ok`: a round leaves the transaction balanced or the fee larger.
* `createTransaction_balanced`, `createTransaction_accepted`: the loop ends, its transaction is balanced,
  and the pool takes it.
-/

namespace GC

open Framework (Bytes Map Prog)
open Framework.Subset

/-! ## Fees and dust -/

/-- The options under which fees make sense. -/
structure FeePolicy.Sane (fees : FeePolicy) : Prop where
  minRelay : 0 < fees.minRelayTxFee.nSatoshisPerK
  minRelay_le : fees.minRelayTxFee.nSatoshisPerK ≤ MAX_MONEY
  maxTxFee : 0 ≤ fees.maxTxFee
  maxTxFee_le : fees.maxTxFee ≤ MAX_MONEY

/-- A fee at a rate in the range of money is in the range of `int64_t` three times over, even where the
product with the size wraps around. -/
theorem CFeeRate.getFee_bounds {rate : CFeeRate} (hpos : 0 < rate.nSatoshisPerK)
    (hle : rate.nSatoshisPerK ≤ MAX_MONEY) (nSize : Nat) :
    0 < rate.getFee nSize ∧ rate.getFee nSize < 2 ^ 55 := by
  have hM := MAX_MONEY_eq
  obtain ⟨x, hx⟩ : ∃ x, x = uint64 rate.nSatoshisPerK * nSize := ⟨_, rfl⟩
  have hwrap : 0 ≤ uint64 x ∧ uint64 x < 2 ^ 64 := by
    rw [uint64]
    exact ⟨Int.emod_nonneg _ (by decide), Int.emod_lt_of_pos _ (by decide)⟩
  have hfee : int64 (uint64 x / 1000) = uint64 x / 1000 := int64_eq (by omega) (by omega)
  rw [getFee, ← hx, hfee]
  split_ifs with h
  · omega
  · rw [not_and, not_lt] at h
    omega

section

variable {fees : FeePolicy} {out : CTxOut}

theorem length_bytes_out (v v' : Int) (script : CScript) :
    (CTxOut.bytes ⟨v, script⟩).length = (CTxOut.bytes ⟨v', script⟩).length := by
  simp [CTxOut.bytes, int64Bytes]

/-- What is dust for a script. -/
def FeePolicy.dustThreshold (fees : FeePolicy) (script : CScript) : Int :=
  CTxOut.getDustThreshold ⟨0, script⟩ fees.minRelayTxFee

theorem getDustThreshold_eq (out : CTxOut) :
    out.getDustThreshold fees.minRelayTxFee = fees.dustThreshold out.scriptPubKey := by
  rw [FeePolicy.dustThreshold, CTxOut.getDustThreshold, CTxOut.getDustThreshold,
    length_bytes_out 0 out.nValue]

theorem FeePolicy.Sane.threshold (h : fees.Sane) (script : CScript) :
    0 < fees.dustThreshold script ∧ fees.dustThreshold script < 2 ^ 57 := by
  obtain ⟨hpos, hlt⟩ := CFeeRate.getFee_bounds h.minRelay h.minRelay_le
    ((CTxOut.bytes ⟨0, script⟩).length + 148)
  rw [FeePolicy.dustThreshold, CTxOut.getDustThreshold, int64_eq (by omega) (by omega)]
  omega

theorem isDust_iff : out.isDust fees.minRelayTxFee = true ↔
    out.nValue < fees.dustThreshold out.scriptPubKey := by
  rw [CTxOut.isDust, decide_eq_true_iff, getDustThreshold_eq]

theorem not_isDust_iff : ¬ out.isDust fees.minRelayTxFee = true ↔
    fees.dustThreshold out.scriptPubKey ≤ out.nValue := isDust_iff.not.trans not_lt

theorem capped_le (nFee nMax : Int) : (if nMax < nFee then nMax else nFee) ≤ nMax := by
  split_ifs <;> omega

theorem FeePolicy.getMinimumFee_le (fees : FeePolicy) (nTxBytes : Nat) (estimateFee : CFeeRate) :
    fees.getMinimumFee nTxBytes estimateFee ≤ fees.maxTxFee := capped_le _ _

end

/-! ## Recipients -/

/-- What the recipients pay: each of those who pay the fee an equal share, and the first of these the
remainder, and `nDust` for the change. -/
def charges (nFeeRet : Int) (nSubtract : Nat) (nDust : Int) : (fFirst : Bool) → List CRecipient → List Int
  | _, [] => []
  | fFirst, recipient :: vecSend =>
    (if recipient.fSubtractFeeFromAmount then
      nFeeRet / nSubtract + if fFirst then nFeeRet % nSubtract + nDust else 0
    else 0) :: charges nFeeRet nSubtract nDust (fFirst && !recipient.fSubtractFeeFromAmount) vecSend

/-- The output for a recipient who is charged. -/
def CRecipient.charged (recipient : CRecipient) (nCharge : Int) : CTxOut :=
  ⟨recipient.nAmount - nCharge, recipient.scriptPubKey⟩

/-- The outputs for the recipients, with a fee of `nFeeRet` and `nDust` for the change. -/
def recipientOutputs (vecSend : List CRecipient) (nFeeRet nDust : Int) : List CTxOut :=
  List.zipWith CRecipient.charged vecSend (charges nFeeRet (subtractCount vecSend) nDust true vecSend)

/-- The sum of the amounts. -/
abbrev totalAmount (vecSend : List CRecipient) : Int := (vecSend.map CRecipient.nAmount).sum

section

variable {nFeeRet nDust : Int} {n : Nat} {fFirst : Bool} {vecSend : List CRecipient}

theorem subtractCount_cons (recipient : CRecipient) (vecSend : List CRecipient) :
    subtractCount (recipient :: vecSend) =
      subtractCount vecSend + if recipient.fSubtractFeeFromAmount then 1 else 0 := List.countP_cons

theorem length_charges (fFirst : Bool) (vecSend : List CRecipient) :
    (charges nFeeRet n nDust fFirst vecSend).length = vecSend.length := by
  induction vecSend generalizing fFirst with
  | nil => rfl
  | cons recipient vecSend ih => simp [charges, ih]

/-- Before the first of those who pay the fee, the charges add up to shares, the remainder and `nDust`;
after it to shares. -/
theorem sum_charges (fFirst : Bool) (vecSend : List CRecipient) :
    (charges nFeeRet n nDust fFirst vecSend).sum = subtractCount vecSend * (nFeeRet / n) +
      if fFirst ∧ 0 < subtractCount vecSend then nFeeRet % n + nDust else 0 := by
  induction vecSend generalizing fFirst with
  | nil => simp [charges, subtractCount]
  | cons recipient vecSend ih =>
    rw [charges, List.sum_cons, ih, subtractCount_cons]
    cases recipient.fSubtractFeeFromAmount with
    | false => simp
    | true =>
      cases fFirst with
      | false => simp; ring
      | true => simp; ring

/-- All of the fee is paid when somebody pays it. -/
theorem sum_charges_all (nFeeRet nDust : Int) (vecSend : List CRecipient) :
    (charges nFeeRet (subtractCount vecSend) nDust true vecSend).sum =
      if subtractCount vecSend = 0 then 0 else nFeeRet + nDust := by
  rw [sum_charges]
  split_ifs with hpos hzero hzero
  · omega
  · have hdiv := Int.mul_ediv_add_emod nFeeRet (subtractCount vecSend)
    omega
  · simp [hzero]
  · exact absurd ⟨rfl, Nat.pos_of_ne_zero hzero⟩ hpos

/-- What is left of the amounts. -/
theorem sum_charged (vecSend : List CRecipient) (l : List Int) (h : l.length = vecSend.length) :
    ((List.zipWith CRecipient.charged vecSend l).map CTxOut.nValue).sum =
      totalAmount vecSend - l.sum := by
  induction vecSend generalizing l with
  | nil =>
    cases List.length_eq_zero_iff.mp h
    rfl
  | cons recipient vecSend ih =>
    cases l with
    | nil => cases h
    | cons charge l =>
      have hrest := ih l (Nat.succ.inj h)
      simp only [List.zipWith_cons_cons, List.map_cons, List.sum_cons, CRecipient.charged, totalAmount]
        at hrest ⊢
      omega

theorem charges_rest (nFeeRet nDust nDust' : Int) (n : Nat) (vecSend : List CRecipient) :
    charges nFeeRet n nDust false vecSend = charges nFeeRet n nDust' false vecSend := by
  induction vecSend with
  | nil => rfl
  | cons recipient vecSend ih => simp [charges, ih]

/-- Nobody is charged when nobody pays the fee. -/
theorem charges_none (h : subtractCount vecSend = 0) (nFeeRet nDust : Int) (n : Nat) (fFirst : Bool) :
    charges nFeeRet n nDust fFirst vecSend = List.replicate vecSend.length 0 := by
  induction vecSend generalizing fFirst with
  | nil => rfl
  | cons recipient vecSend ih =>
    rw [subtractCount_cons] at h
    have hnot : recipient.fSubtractFeeFromAmount = false := by
      cases hsub : recipient.fSubtractFeeFromAmount with
      | false => rfl
      | true => rw [hsub] at h; simp at h
    rw [hnot] at h
    rw [charges, ih (by simpa using h), hnot]
    rfl

theorem recipientOutputs_none (h : subtractCount vecSend = 0) (nFeeRet nFeeRet' nDust nDust' : Int) :
    recipientOutputs vecSend nFeeRet nDust = recipientOutputs vecSend nFeeRet' nDust' := by
  rw [recipientOutputs, recipientOutputs, charges_none h, charges_none h]

theorem length_recipientOutputs (vecSend : List CRecipient) (nFeeRet nDust : Int) :
    (recipientOutputs vecSend nFeeRet nDust).length = vecSend.length := by
  rw [recipientOutputs, List.length_zipWith, length_charges, Nat.min_self]

theorem sum_recipientOutputs (vecSend : List CRecipient) (nFeeRet nDust : Int) :
    ((recipientOutputs vecSend nFeeRet nDust).map CTxOut.nValue).sum =
      totalAmount vecSend - if subtractCount vecSend = 0 then 0 else nFeeRet + nDust := by
  rw [recipientOutputs, sum_charged _ _ (length_charges ..), sum_charges_all]

/-! ### Making the outputs -/

theorem share_bounds (h : 0 ≤ nFeeRet) (n : Nat) : 0 ≤ nFeeRet / n ∧ nFeeRet / n ≤ nFeeRet ∧
    0 ≤ nFeeRet % n ∧ nFeeRet % n ≤ nFeeRet := by
  have hn : (0 : Int) ≤ n := Int.natCast_nonneg n
  have hdiv := Int.ediv_nonneg h hn
  have hsum := Int.mul_ediv_add_emod nFeeRet n
  have hmul : 0 ≤ (n : Int) * (nFeeRet / n) := Int.mul_nonneg hn hdiv
  refine ⟨hdiv, Int.ediv_le_self _ h, ?_, by omega⟩
  rcases Nat.eq_zero_or_pos n with rfl | hpos
  · simpa using h
  · exact Int.emod_nonneg _ (by omega)

/-- An amount for which the arithmetic of `int64_t` is exact. -/
def CRecipient.Fits (recipient : CRecipient) : Prop :=
  0 ≤ recipient.nAmount ∧ recipient.nAmount ≤ MAX_MONEY

theorem payRecipient_eq {recipient : CRecipient} (hr : recipient.Fits) (h : 0 ≤ nFeeRet)
    (hlt : nFeeRet < 2 ^ 58) (n : Nat) (fFirst : Bool) :
    payRecipient nFeeRet n fFirst recipient = recipient.charged (if recipient.fSubtractFeeFromAmount then
      nFeeRet / n + if fFirst then nFeeRet % n + 0 else 0 else 0) := by
  have hM := MAX_MONEY_eq
  obtain ⟨h₀, h₁⟩ := hr
  obtain ⟨hd, hd', hm, hm'⟩ := share_bounds h n
  rw [payRecipient, CRecipient.charged, Int.tdiv_eq_ediv_of_nonneg h, Int.tmod_eq_emod_of_nonneg h]
  cases recipient.fSubtractFeeFromAmount with
  | false => simp
  | true =>
    have hone : int64 (recipient.nAmount - nFeeRet / n) = recipient.nAmount - nFeeRet / n :=
      int64_eq (by omega) (by omega)
    cases fFirst with
    | false => simp [hone]
    | true =>
      simp only [if_true, hone, add_zero]
      rw [int64_eq (by omega) (by omega), Int.sub_sub]

/-- The loop over the recipients charges them, and leaves no dust. -/
theorem payRecipients_ok {fees : FeePolicy} {vout : List CTxOut} (hr : ∀ r ∈ vecSend, r.Fits)
    (h : 0 ≤ nFeeRet) (hlt : nFeeRet < 2 ^ 58)
    (hok : payRecipients fees.minRelayTxFee nFeeRet n fFirst vecSend = .ok vout) :
    vout = List.zipWith CRecipient.charged vecSend (charges nFeeRet n 0 fFirst vecSend) ∧
      ∀ out ∈ vout, ¬ out.isDust fees.minRelayTxFee = true := by
  induction vecSend generalizing fFirst vout with
  | nil =>
    cases hok
    exact ⟨rfl, fun _ h => by cases h⟩
  | cons recipient vecSend ih =>
    rw [payRecipients] at hok
    split_ifs at hok with hdust
    obtain ⟨rest, hrest, hok⟩ := bind_ok hok
    cases hok
    obtain ⟨heq, hall⟩ := ih (fun r hmem => hr r (List.mem_cons_of_mem _ hmem)) hrest
    rw [payRecipient_eq (hr recipient List.mem_cons_self) h hlt] at hdust ⊢
    refine ⟨by rw [charges, List.zipWith_cons_cons, heq], fun out hout => ?_⟩
    rcases List.mem_cons.mp hout with rfl | hout
    · exact hdust
    · exact hall out hout

/-- The first of those who pay the fee is charged `nDust` too. -/
theorem subtractFromFirst_ok {fees : FeePolicy} {vout : List CTxOut} (hr : ∀ r ∈ vecSend, r.Fits)
    (h : 0 ≤ nFeeRet) (hlt : nFeeRet < 2 ^ 58) (hd : 0 ≤ nDust) (hd' : nDust < 2 ^ 58)
    (hdust : ∀ out ∈ List.zipWith CRecipient.charged vecSend (charges nFeeRet n 0 true vecSend),
      ¬ out.isDust fees.minRelayTxFee = true)
    (hok : subtractFromFirst fees.minRelayTxFee nDust vecSend
      (List.zipWith CRecipient.charged vecSend (charges nFeeRet n 0 true vecSend)) = .ok vout) :
    vout = List.zipWith CRecipient.charged vecSend (charges nFeeRet n nDust true vecSend) ∧
      ∀ out ∈ vout, ¬ out.isDust fees.minRelayTxFee = true := by
  have hM := MAX_MONEY_eq
  induction vecSend generalizing vout with
  | nil =>
    cases hok
    exact ⟨rfl, fun _ h => by cases h⟩
  | cons recipient vecSend ih =>
    obtain ⟨h₀, h₁⟩ := hr recipient List.mem_cons_self
    obtain ⟨hdiv, hdiv', hmod, hmod'⟩ := share_bounds h n
    rw [charges, List.zipWith_cons_cons, List.forall_mem_cons] at hdust
    rw [charges, List.zipWith_cons_cons, subtractFromFirst] at hok
    rw [charges, List.zipWith_cons_cons]
    cases hsub : recipient.fSubtractFeeFromAmount with
    | true =>
      rw [hsub] at hdust hok
      simp only [Bool.not_true, Bool.and_false, if_true, CRecipient.charged] at hdust hok ⊢
      have hvalue : int64 (recipient.nAmount - (nFeeRet / n + (nFeeRet % n + 0)) - nDust) =
          recipient.nAmount - (nFeeRet / n + (nFeeRet % n + nDust)) := by
        rw [int64_eq (by omega) (by omega)]
        omega
      rw [hvalue] at hok
      split_ifs at hok with hfirst
      cases hok
      rw [charges_rest nFeeRet 0 nDust] at hdust ⊢
      exact ⟨rfl, List.forall_mem_cons.mpr ⟨hfirst, hdust.2⟩⟩
    | false =>
      rw [hsub] at hdust hok
      rw [if_neg Bool.false_ne_true] at hok
      obtain ⟨rest, hrest, hok⟩ := bind_ok hok
      cases hok
      obtain ⟨heq, hall⟩ := ih (fun r hmem => hr r (List.mem_cons_of_mem _ hmem)) hdust.2 hrest
      exact ⟨congrArg _ heq, List.forall_mem_cons.mpr ⟨hdust.1, hall⟩⟩

end

/-! ## Coins -/

/-- The outpoint that an input for a coin spends. -/
def InputCoin.outpoint (coin : InputCoin) : COutPoint := ⟨coin.1.hash, coin.2⟩

/-- What is asked of the coins of a wallet: the outpoints are different, and the amounts in range. -/
structure AvailableCoins (vCoins : List COutput) : Prop where
  distinct : (vCoins.map COutput.outpoint).Nodup
  positive : ∀ output ∈ vCoins, 0 < output.nValue
  total : (vCoins.map COutput.nValue).sum ≤ MAX_MONEY

/-- What a selection for a target has. -/
structure Selected (vCoins : List COutput) (nTargetValue : Int) (ret : List InputCoin × Int) : Prop where
  nodup : ret.1.Nodup
  available : ∀ coin ∈ ret.1, ∃ output ∈ vCoins, output.fSpendable = true ∧ output.coin = coin
  sum : ret.2 = (ret.1.map InputCoin.nValue).sum
  enough : nTargetValue ≤ ret.2

section

variable {vCoins outputs : List COutput} {nTargetValue : Int} {ret : List InputCoin × Int}

theorem AvailableCoins.nodup (h : AvailableCoins vCoins) : (vCoins.map COutput.coin).Nodup := by
  refine List.Nodup.of_map InputCoin.outpoint ?_
  rw [List.map_map]
  exact h.distinct

theorem AvailableCoins.amounts (h : AvailableCoins vCoins) : Amounts (vCoins.map COutput.nValue) :=
  ⟨fun n hn => by
    obtain ⟨output, hmem, rfl⟩ := List.mem_map.mp hn
    exact (h.positive output hmem).le, h.total⟩

theorem AvailableCoins.sublist (h : AvailableCoins vCoins) (hsub : outputs.Sublist vCoins) :
    AvailableCoins outputs :=
  ⟨h.distinct.sublist (hsub.map _), fun output hmem => h.positive output (hsub.subset hmem),
    (h.amounts.sublist (hsub.map _)).total⟩

/-- Different coins are at different outpoints. -/
theorem Selected.outpoints (h : Selected vCoins nTargetValue ret) (hv : AvailableCoins vCoins) :
    (ret.1.map InputCoin.outpoint).Nodup := by
  refine h.nodup.map_on fun a ha b hb hab => ?_
  obtain ⟨x, hx, -, rfl⟩ := h.available a ha
  obtain ⟨y, hy, -, rfl⟩ := h.available b hb
  rw [List.inj_on_of_nodup_map hv.distinct hx hy hab]

/-- The amounts of different coins of the wallet are in range. -/
theorem AvailableCoins.amounts_of {coins : List InputCoin} (hv : AvailableCoins vCoins)
    (hnodup : coins.Nodup)
    (havailable : ∀ coin ∈ coins, ∃ output ∈ vCoins, output.fSpendable = true ∧ output.coin = coin) :
    Amounts (coins.map InputCoin.nValue) := by
  have hsub : coins ⊆ vCoins.map COutput.coin := fun coin hcoin => by
    obtain ⟨output, hmem, -, rfl⟩ := havailable coin hcoin
    exact List.mem_map_of_mem hmem
  obtain ⟨l, hperm, hl⟩ := List.subperm_of_subset hnodup hsub
  have hall : Amounts ((vCoins.map COutput.coin).map InputCoin.nValue) := by
    rw [List.map_map]
    exact hv.amounts
  exact (hall.sublist (hl.map _)).perm (hperm.map _).symm

theorem selectCoinsMinConf_selected (htarget : 0 < nTargetValue ∧ nTargetValue + CENT < 2 ^ 63)
    (hv : AvailableCoins vCoins) {draws : CoinDraws} {nConfMine nConfTheirs : Int}
    (h : selectCoinsMinConf nTargetValue draws nConfMine nConfTheirs vCoins = some ret) :
    Selected vCoins nTargetValue ret := by
  have hperm := shuffle_perm draws.shuffle vCoins
  have hfilter := hperm.filter (COutput.eligible nConfMine nConfTheirs)
  have hcoins := hv.sublist (List.filter_sublist (p := COutput.eligible nConfMine nConfTheirs))
  have hnodup := (hfilter.map COutput.coin).nodup_iff.mpr hcoins.nodup
  have hamounts := hcoins.amounts.perm (hfilter.map COutput.nValue)
  rw [selectCoinsMinConf] at h
  rcases selectInOrder_spec htarget rfl hnodup hamounts draws
    with ⟨-, coins, hselect, hof, hchosen⟩ | ⟨-, hselect⟩
  · obtain rfl : takeCoins coins = ret := Option.some.inj (hselect.symm.trans h)
    have htaken := hof.taken
    refine ⟨htaken.nodup, fun coin hcoin => ?_, htaken.sum, ?_⟩
    · obtain ⟨output, hmem, heq⟩ := htaken.available coin hcoin
      obtain ⟨hmem, helig⟩ := List.mem_filter.mp (hfilter.subset hmem)
      exact ⟨output, hmem, (Bool.and_eq_true_iff.mp helig).1, heq⟩
    · rw [takeCoins_eq hof]
      exact hchosen.enough
  · rw [hselect] at h
    cases h

variable {w : Spender} {input : RoundInput}

/-- `SelectCoins` gives different spendable coins of the wallet, and enough. -/
theorem selectCoins_selected (htarget : 0 < nTargetValue ∧ nTargetValue + CENT < 2 ^ 63)
    (hv : AvailableCoins input.vCoins) (h : w.selectCoins input nTargetValue = some ret) :
    Selected input.vCoins nTargetValue ret := by
  rw [Spender.selectCoins] at h
  split at h
  · rename_i coinControl _
    obtain ⟨vCoins, hvCoins⟩ : ∃ vCoins, vCoins = (input.vCoins.filter fun out =>
      coinControl.isSelected out.tx.hash out.i).filter COutput.fSpendable := ⟨_, rfl⟩
    have hsub : vCoins.Sublist input.vCoins :=
      hvCoins ▸ List.filter_sublist.trans List.filter_sublist
    have hcoins := hv.sublist hsub
    have hof := coinsOf_valued hcoins.nodup hcoins.amounts
    simp only [← hvCoins] at h
    split_ifs at h with henough
    cases h
    have htaken := hof.taken
    refine ⟨htaken.nodup, fun coin hcoin => ?_, htaken.sum, henough⟩
    obtain ⟨output, hmem, heq⟩ := htaken.available coin hcoin
    exact ⟨output, hsub.subset hmem, (List.mem_filter.mp (hvCoins ▸ hmem)).2, heq⟩
  · rcases (Option.orElse_eq_some ..).mp h with h | ⟨-, h⟩
    · exact selectCoinsMinConf_selected htarget hv h
    · rcases (Option.orElse_eq_some ..).mp h with h | ⟨-, h⟩
      · exact selectCoinsMinConf_selected htarget hv h
      · split_ifs at h
        exact selectCoinsMinConf_selected htarget hv h

end

/-! ## Signing -/

/-- A transaction without what its inputs are signed with. -/
def CTransaction.unsigned (tx : CTransaction) : CTransaction :=
  { tx with vin := tx.vin.map fun txin => { txin with scriptSig := [] } }

section

variable {tx tx' : CTransaction} {coins : List InputCoin}

theorem prevouts_unsigned (h : tx'.unsigned = tx.unsigned) : tx'.prevouts = tx.prevouts := by
  have hvin := congrArg (fun tx : CTransaction => tx.vin.map CTxIn.prevout) h
  simpa [CTransaction.unsigned, Function.comp_def] using hvin

theorem vout_unsigned (h : tx'.unsigned = tx.unsigned) : tx'.vout = tx.vout :=
  (congrArg CTransaction.vout h : tx'.unsigned.vout = tx.unsigned.vout)

theorem nLockTime_unsigned (h : tx'.unsigned = tx.unsigned) : tx'.nLockTime = tx.nLockTime :=
  (congrArg CTransaction.nLockTime h : tx'.unsigned.nLockTime = tx.unsigned.nLockTime)

theorem unsigned_set {i : Nat} {txin : CTxIn} (h : tx.vin[i]? = some txin) (script : CScript) :
    CTransaction.unsigned { tx with vin := tx.vin.set i { txin with scriptSig := script } } =
      tx.unsigned := by
  obtain ⟨hi, hget⟩ := List.getElem?_eq_some_iff.mp h
  let blank : CTxIn → CTxIn := fun txin => { txin with scriptSig := [] }
  have hvin : (tx.vin.set i { txin with scriptSig := script }).map blank = tx.vin.map blank := by
    rw [List.map_set, show blank { txin with scriptSig := script } = blank txin from rfl, ← List.map_set,
      ← hget, List.set_getElem_self]
  rw [CTransaction.unsigned, CTransaction.unsigned, hvin]

/-- No signature is for what the inputs are signed with. -/
theorem signatureHash_unsigned (scriptCode : CScript) (tx : CTransaction) (nIn nHashType : UInt32) :
    signatureHash scriptCode tx.unsigned nIn nHashType = signatureHash scriptCode tx nIn nHashType := by
  have hinput : (CTransactionSignatureSerializer.new tx.unsigned scriptCode nIn nHashType).serializeInput
      streamWrite =
      (CTransactionSignatureSerializer.new tx scriptCode nIn nHashType).serializeInput streamWrite := by
    funext s nInput
    simp only [CTransactionSignatureSerializer.serializeInput, CTransactionSignatureSerializer.new,
      CTransaction.unsigned, List.getElem?_map, Option.bind_eq_bind, Option.bind_map]
    rfl
  have hlen : tx.unsigned.vin.length = tx.vin.length := List.length_map ..
  rw [signatureHash, signatureHash, hlen]
  simp only [CTransactionSignatureSerializer.serialize, hinput]
  simp only [CTransactionSignatureSerializer.new, hlen]
  rfl

theorem Signing.checker_unsigned (signing : Signing) (h : tx'.unsigned = tx.unsigned) (nIn : UInt32) :
    signing.checker tx' nIn = signing.checker tx nIn := by
  have hsig : signing.checkSig tx' nIn = signing.checkSig tx nIn := by
    funext vchSig vchPubKey scriptCode
    unfold checkSig
    simp only [← signatureHash_unsigned scriptCode tx', h, signatureHash_unsigned scriptCode tx]
  rw [checker, checker, hsig]

/-- What `ProduceSignature` solves has been verified. -/
theorem produceSignature_verified {options : SolverOptions} {creator : SignatureCreator}
    {fromPubKey : CScript} (h : (produceSignature options creator fromPubKey).1 = true) :
    verifyScript creator.checker STANDARD_SCRIPT_VERIFY_FLAGS
      (produceSignature options creator fromPubKey).2 fromPubKey = .ok () := by
  have hverify : ∀ script, verifyStandard creator script fromPubKey = true →
      verifyScript creator.checker STANDARD_SCRIPT_VERIFY_FLAGS script fromPubKey = .ok () :=
    fun script hscript => by
      rw [verifyStandard] at hscript
      split at hscript
      · assumption
      · cases hscript
  refine hverify _ ?_
  unfold produceSignature at h ⊢
  split at h
  · cases h
  · simp only at h ⊢
    split_ifs at h ⊢
    exact h
  · exact h

/-- Input `i` spends the output of a coin, and its script is verified. -/
def Signing.Verifies (signing : Signing) (tx : CTransaction) (i : Nat) (coin : InputCoin) : Prop :=
  ∃ txin out, tx.vin[i]? = some txin ∧ coin.1.vout[coin.2.toNat]? = some out ∧
    verifyScript (signing.checker tx (UInt32.ofNat i)) STANDARD_SCRIPT_VERIFY_FLAGS txin.scriptSig
      out.scriptPubKey = .ok ()

theorem Signing.signSignature_ok {signing : Signing} {i : Nat} (hi : i < 2 ^ 32) {coin : InputCoin}
    (hcoin : tx.prevouts[i]? = some coin.outpoint)
    (h : signing.signSignature tx (UInt32.ofNat i) coin.1 = some (true, tx')) :
    tx'.unsigned = tx.unsigned ∧ (∀ j, j ≠ i → tx'.vin[j]? = tx.vin[j]?) ∧
      signing.Verifies tx' i coin := by
  have hi' : (UInt32.ofNat i).toNat = i := UInt32.toNat_ofNat_of_lt' hi
  rw [signSignature, hi'] at h
  rw [CTransaction.prevouts, List.getElem?_map] at hcoin
  obtain ⟨txin, htxin, hprevout⟩ := Option.map_eq_some_iff.mp hcoin
  have hplace : txin.prevout.n = coin.2 := congrArg COutPoint.n hprevout
  rw [htxin, Option.bind_eq_bind, Option.bind_some, hplace] at h
  obtain ⟨out, hout, h⟩ := Option.bind_eq_some_iff.mp h
  obtain ⟨hsolved, htx⟩ := Prod.ext_iff.mp (Option.some.inj h)
  have hscript := produceSignature_verified hsolved
  simp only at htx
  subst htx
  have hsame := unsigned_set htxin
  have hlen := (List.getElem?_eq_some_iff.mp htxin).1
  refine ⟨hsame _, fun j hj => List.getElem?_set_ne hj.symm, _, out, List.getElem?_set_self hlen, hout, ?_⟩
  rw [signing.checker_unsigned (hsame _)]
  exact hscript

theorem signInputs_unsigned {w : Spender} {i : Nat} (h : w.signInputs i coins tx = .ok tx') :
    tx'.unsigned = tx.unsigned := by
  induction coins generalizing i tx with
  | nil =>
    cases h
    rfl
  | cons coin coins ih =>
    rw [Spender.signInputs] at h
    split at h
    · cases h
    · cases h
    · rename_i tx₁ hsign
      obtain ⟨txin, htxin, hsign⟩ := Option.bind_eq_some_iff.mp hsign
      obtain ⟨out, -, hsign⟩ := Option.bind_eq_some_iff.mp hsign
      obtain rfl := (Prod.ext_iff.mp (Option.some.inj hsign)).2
      exact (ih h).trans (unsigned_set htxin _)

/-- The loop that signs fills in the scripts of the inputs, so that each one is verified in the end. -/
theorem signInputs_ok {w : Spender} {i : Nat} (hlen : i + coins.length ≤ 2 ^ 32)
    (hcoins : tx.prevouts.drop i = coins.map InputCoin.outpoint)
    (h : w.signInputs i coins tx = .ok tx') :
    tx'.unsigned = tx.unsigned ∧ (∀ j < i, tx'.vin[j]? = tx.vin[j]?) ∧
      ∀ k coin, coins[k]? = some coin → w.signing.Verifies tx' (i + k) coin := by
  induction coins generalizing i tx with
  | nil =>
    cases h
    exact ⟨rfl, fun _ _ => rfl, fun _ _ h => by cases h⟩
  | cons coin coins ih =>
    rw [List.length_cons] at hlen
    have hcoin : tx.prevouts[i]? = some coin.outpoint := by
      rw [← List.head?_drop, hcoins]
      rfl
    have hrest : tx.prevouts.drop (i + 1) = coins.map InputCoin.outpoint := by
      rw [← List.tail_drop, hcoins]
      rfl
    rw [Spender.signInputs] at h
    split at h
    · cases h
    · cases h
    · rename_i tx₁ hsign
      obtain ⟨hsame, hother, txin, out, htxin, hout, hverify⟩ :=
        Signing.signSignature_ok (by omega) hcoin hsign
      obtain ⟨hsame', hother', hall⟩ := ih (by omega) (by rw [prevouts_unsigned hsame, hrest]) h
      refine ⟨hsame'.trans hsame, fun j hj => ?_, fun k c hk => ?_⟩
      · rw [hother' j (by omega), hother j (by omega)]
      · cases k with
        | zero =>
          -- the later rounds leave this input alone, and what its signature is for
          cases hk
          refine ⟨txin, out, (hother' i (by omega)).trans htxin, hout, ?_⟩
          rw [w.signing.checker_unsigned hsame']
          exact hverify
        | succ k =>
          have hk := hall k c hk
          rwa [Nat.add_right_comm] at hk

end

/-! ## The change -/

/-- The outputs are those for the recipients, in their order, with the change at `nChangePosRet`; those
who pay the fee are charged all of it, and what raises change that would be dust. -/
structure Outputs.Fair (fees : FeePolicy) (vecSend : List CRecipient) (outputs : Outputs) : Prop where
  paid : ∃ nDust, 0 ≤ nDust ∧
    (outputs.nChangePosRet = -1 ∧ nDust = 0 ∧
        outputs.vout = recipientOutputs vecSend outputs.nFeeRet 0 ∨
      ∃ (position : Nat) (change : CTxOut), outputs.nChangePosRet = position ∧
        position ≤ vecSend.length ∧
        outputs.vout = (recipientOutputs vecSend outputs.nFeeRet nDust).insertIdx position change ∧
        (nDust = 0 ∨ change.nValue = fees.dustThreshold change.scriptPubKey))
  noDust : ∀ out ∈ outputs.vout, ¬ out.isDust fees.minRelayTxFee = true

section

variable {w : Spender} {input : RoundInput} {vecSend : List CRecipient} {nFeeRet nChange : Int}
variable {vout : List CTxOut} {outputs : Outputs}

theorem sum_insertIdx {i : Nat} (h : i ≤ vout.length) (out : CTxOut) :
    ((vout.insertIdx i out).map CTxOut.nValue).sum = (vout.map CTxOut.nValue).sum + out.nValue := by
  rw [((List.perm_insertIdx out vout h).map CTxOut.nValue).sum_eq, List.map_cons, List.sum_cons,
    Int.add_comm]

/-- Raised change is not dust, and the first of those who pay the fee has paid for it. -/
theorem raiseChange_ok (hs : w.fees.Sane) (hr : ∀ r ∈ vecSend, r.Fits) (hfee : 0 ≤ nFeeRet)
    (hfee' : nFeeRet ≤ MAX_MONEY) (hchange : 0 < nChange) (hchange' : nChange ≤ MAX_MONEY)
    (hdust : ∀ out ∈ recipientOutputs vecSend nFeeRet 0, ¬ out.isDust w.fees.minRelayTxFee = true)
    {script : CScript} {newTxOut : CTxOut}
    (hok : w.raiseChange vecSend (recipientOutputs vecSend nFeeRet 0) ⟨nChange, script⟩ =
      .ok (vout, newTxOut)) :
    ∃ nDust, 0 ≤ nDust ∧ vout = recipientOutputs vecSend nFeeRet nDust ∧
      newTxOut = ⟨nChange + nDust, script⟩ ∧ (∀ out ∈ vout, ¬ out.isDust w.fees.minRelayTxFee = true) ∧
      (nDust = 0 ∨ newTxOut.nValue = w.fees.dustThreshold script) ∧
      (subtractCount vecSend = 0 → nDust = 0) ∧
      (subtractCount vecSend ≠ 0 → ¬ newTxOut.isDust w.fees.minRelayTxFee = true) := by
  have hM := MAX_MONEY_eq
  obtain ⟨hpos, hlt⟩ := hs.threshold script
  rw [Spender.raiseChange] at hok
  split_ifs at hok with hraise
  · obtain ⟨hcount, hsmall⟩ := hraise
    rw [isDust_iff] at hsmall
    simp only at hsmall
    obtain ⟨raised, hraised, hok⟩ := bind_ok hok
    obtain ⟨rfl, rfl⟩ := Prod.ext_iff.mp (Except.ok.inj hok)
    have hthreshold : (⟨nChange, script⟩ : CTxOut).getDustThreshold w.fees.minRelayTxFee =
        w.fees.dustThreshold script := getDustThreshold_eq _
    have hnDust : int64 (w.fees.dustThreshold script - nChange) = w.fees.dustThreshold script - nChange :=
      int64_eq (by omega) (by omega)
    simp only [hthreshold, hnDust] at hraised ⊢
    obtain ⟨heq, hall⟩ := subtractFromFirst_ok hr hfee (by omega) (by omega) (by omega) hdust hraised
    rw [int64_eq (by omega) (by omega)]
    refine ⟨_, by omega, heq, rfl, hall, .inr (by omega), fun h0 => by omega, fun _ => ?_⟩
    rw [not_isDust_iff]
    simp only
    omega
  · obtain ⟨rfl, rfl⟩ := Prod.ext_iff.mp (Except.ok.inj hok)
    refine ⟨0, le_refl 0, rfl, by rw [add_zero], hdust, .inl rfl, fun _ => rfl, fun h0 hd => ?_⟩
    exact hraise ⟨Nat.pos_of_ne_zero h0, hd⟩

/-- What is done with the change is fair, and loses nothing. -/
theorem addChange_ok (hs : w.fees.Sane) (hr : ∀ r ∈ vecSend, r.Fits) (hfee : 0 ≤ nFeeRet)
    (hfee' : nFeeRet ≤ MAX_MONEY) (hchange : 0 ≤ nChange) (hchange' : nChange ≤ MAX_MONEY)
    (hdust : ∀ out ∈ recipientOutputs vecSend nFeeRet 0, ¬ out.isDust w.fees.minRelayTxFee = true)
    (hok : w.addChange input vecSend (recipientOutputs vecSend nFeeRet 0) nFeeRet nChange =
      .ok outputs) :
    outputs.Fair w.fees vecSend ∧
      (outputs.vout.map CTxOut.nValue).sum + outputs.nFeeRet =
        ((recipientOutputs vecSend nFeeRet 0).map CTxOut.nValue).sum + nFeeRet + nChange ∧
      (outputs.nFeeRet = nFeeRet ∨ nFeeRet < outputs.nFeeRet ∧ outputs.nChangePosRet = -1 ∧
        ∃ script, outputs.nFeeRet < nFeeRet + w.fees.dustThreshold script) := by
  have hM := MAX_MONEY_eq
  rw [Spender.addChange] at hok
  split_ifs at hok with hpos
  · obtain ⟨script, -, hok⟩ := bind_ok hok
    obtain ⟨⟨vout, newTxOut⟩, hraise, hok⟩ := bind_ok hok
    obtain ⟨nDust, hnDust, rfl, rfl, hall, hraised, hnone, hsome⟩ :=
      raiseChange_ok hs hr hfee hfee' hpos hchange' hdust hraise
    simp only at hok hsome hraised
    split_ifs at hok with hsmall
    · -- change that is dust is left to the miner: only when nobody else pays the fee
      have hcount : subtractCount vecSend = 0 := not_not.mp fun h => hsome h hsmall
      obtain rfl := hnone hcount
      rw [isDust_iff, add_zero] at hsmall
      simp only at hsmall
      cases hok
      simp only
      rw [int64_eq (by omega) (by omega)]
      have hsame := recipientOutputs_none hcount nFeeRet (nFeeRet + nChange) 0 0
      exact ⟨⟨⟨0, le_refl 0, .inl ⟨rfl, rfl, hsame⟩⟩, hall⟩, by omega, .inr ⟨by omega, trivial, script, by omega⟩⟩
    · cases hok
      have hposition : input.nRand % ((recipientOutputs vecSend nFeeRet nDust).length + 1) ≤
          (recipientOutputs vecSend nFeeRet nDust).length :=
        Nat.le_of_lt_succ (Nat.mod_lt _ (Nat.succ_pos _))
      refine ⟨⟨⟨nDust, hnDust, .inr ⟨_, _, rfl, ?_, rfl, hraised⟩⟩, fun out hout => ?_⟩, ?_, .inl rfl⟩
      · exact hposition.trans_eq (length_recipientOutputs ..)
      · rcases (List.mem_insertIdx hposition).mp hout with rfl | hout
        · exact hsmall
        · exact hall out hout
      · simp only
        rw [sum_insertIdx hposition, sum_recipientOutputs, sum_recipientOutputs]
        split_ifs with hcount
        · rw [hnone hcount]
          simp only
          omega
        · simp only
          omega
  · cases hok
    refine ⟨⟨⟨0, le_refl 0, .inl ⟨rfl, rfl, rfl⟩⟩, hdust⟩, ?_, .inl rfl⟩
    simp only
    omega

end

/-! ## A round -/

/-- The books of a transaction that has been made of coins of the wallet. -/
structure CreatedTx.Balanced (w : Spender) (vecSend : List CRecipient) (vCoins : List COutput)
    (coins : List InputCoin) (created : CreatedTx) : Prop where
  available : ∀ coin ∈ coins, ∃ output ∈ vCoins, output.fSpendable = true ∧ output.coin = coin
  inputs : created.tx.prevouts = coins.map InputCoin.outpoint
  distinct : created.tx.prevouts.Nodup
  outputs : Outputs.Fair w.fees vecSend ⟨created.tx.vout, created.nFeeRet, created.nChangePosRet⟩
  balance : (coins.map InputCoin.nValue).sum = (created.tx.vout.map CTxOut.nValue).sum + created.nFeeRet
  size : created.tx.getSerializeSize < MAX_STANDARD_TX_SIZE
  fee_nonneg : 0 ≤ created.nFeeRet
  fee_enough : w.fSendFreeTransactions = false →
    w.fees.minRelayTxFee.getFee created.tx.getSerializeSize ≤ created.nFeeRet
  fee_le : created.nFeeRet ≤ w.fees.maxTxFee ∨ created.nChangePosRet = -1 ∧
    ∃ script, created.nFeeRet < w.fees.maxTxFee + w.fees.dustThreshold script

section

variable {w : Spender} {input : RoundInput} {vecSend : List CRecipient} {nFeeRet nValue : Int}
variable {created : CreatedTx} {next : Option Int}

/-- The fee is enough, or there is a larger one for the next round. -/
theorem checkFee_ok {coins : List InputCoin} (h : w.checkFee input coins created = .ok next) :
    created.tx.getSerializeSize < MAX_STANDARD_TX_SIZE ∧
      (next = none → w.fSendFreeTransactions = false →
        w.fees.minRelayTxFee.getFee created.tx.getSerializeSize ≤ created.nFeeRet) ∧
      ∀ n, next = some n → created.nFeeRet < n ∧ n ≤ w.fees.maxTxFee := by
  have hmax := w.fees.getMinimumFee_le created.tx.getSerializeSize input.estimateFee
  unfold Spender.checkFee at h
  simp only at h
  split_ifs at h with hsize hfree hlow hdone
  · cases h
    refine ⟨not_le.mp hsize, fun _ hnot => ?_, fun _ h => by cases h⟩
    rw [Spender.sendsFree, hnot] at hfree
    cases hfree
  · cases h
    exact ⟨not_le.mp hsize, fun _ _ => by omega, fun _ h => by cases h⟩
  · cases h
    refine ⟨not_le.mp hsize, fun h => (by cases h), fun n hn => ?_⟩
    cases hn
    exact ⟨not_le.mp hdone, hmax⟩

/-- Outputs that are not dust are worth something. -/
theorem totalAmount_pos (hs : w.fees.Sane) (hne : vecSend ≠ []) (hfee : 0 ≤ nFeeRet)
    (hdust : ∀ out ∈ recipientOutputs vecSend nFeeRet 0, ¬ out.isDust w.fees.minRelayTxFee = true) :
    0 < totalAmount vecSend := by
  have hsum := sum_recipientOutputs vecSend nFeeRet 0
  have hpos : 0 < ((recipientOutputs vecSend nFeeRet 0).map CTxOut.nValue).sum := by
    refine List.sum_pos _ (fun n hn => ?_) fun hnil => hne ?_
    · obtain ⟨out, hout, rfl⟩ := List.mem_map.mp hn
      exact (hs.threshold _).1.trans_le (not_isDust_iff.mp (hdust out hout))
    · rw [List.map_eq_nil_iff, ← List.length_eq_zero_iff, length_recipientOutputs] at hnil
      exact List.length_eq_zero_iff.mp hnil
  split_ifs at hsum <;> omega

/-- A round of the loop: its transaction is balanced when there is no other round, and signed. -/
theorem createRound_ok {nLockTime : UInt32} (hs : w.fees.Sane) (hr : ∀ r ∈ vecSend, r.Fits)
    (htotal : totalAmount vecSend ≤ MAX_MONEY) (hne : vecSend ≠ []) (hv : AvailableCoins input.vCoins)
    (hfee : 0 ≤ nFeeRet) (hfee' : nFeeRet ≤ w.fees.maxTxFee)
    (hok : w.createRound input vecSend nLockTime (totalAmount vecSend) nFeeRet = .ok (created, next)) :
    (next = none → ∃ coins, created.Balanced w vecSend input.vCoins coins ∧
      created.tx.nLockTime = nLockTime ∧ (coins.length ≤ 2 ^ 32 →
        ∀ i coin, coins[i]? = some coin → w.signing.Verifies created.tx i coin)) ∧
      ∀ n, next = some n → nFeeRet < n ∧ n ≤ w.fees.maxTxFee := by
  have hM := MAX_MONEY_eq
  have hmax := hs.maxTxFee_le
  rw [Spender.createRound] at hok
  obtain ⟨vout, hpay, hok⟩ := bind_ok hok
  obtain ⟨rfl, hdust⟩ := payRecipients_ok hr hfee (by omega) hpay
  have hpos := totalAmount_pos hs hne hfee hdust
  obtain ⟨nTarget, hnTarget⟩ : ∃ nTarget, nTarget =
    totalAmount vecSend + if subtractCount vecSend = 0 then nFeeRet else 0 := ⟨_, rfl⟩
  have htarget : (if decide (subtractCount vecSend = 0) = true then int64 (totalAmount vecSend + nFeeRet)
      else totalAmount vecSend) = nTarget := by
    rw [hnTarget]
    simp only [decide_eq_true_iff]
    split_ifs
    · exact int64_eq (by omega) (by omega)
    · rw [add_zero]
  have hbounds : 0 < nTarget ∧ nTarget ≤ 2 * MAX_MONEY := by
    rw [hnTarget]
    split_ifs <;> omega
  simp only [htarget] at hok
  cases hselect : w.selectCoins input nTarget with
  | none =>
    rw [hselect] at hok
    cases hok
  | some ret =>
    obtain ⟨setCoins, nValueIn⟩ := ret
    have S := selectCoins_selected ⟨hbounds.1, by simp only [CENT]; omega⟩ hv hselect
    have hin : nValueIn = (setCoins.map InputCoin.nValue).sum := S.sum
    have hle : (setCoins.map InputCoin.nValue).sum ≤ MAX_MONEY := (hv.amounts_of S.nodup S.available).total
    have henough : nTarget ≤ nValueIn := S.enough
    have hless : int64 (nValueIn - totalAmount vecSend) = nValueIn - totalAmount vecSend :=
      int64_eq (by omega) (by omega)
    have hchange : (if decide (subtractCount vecSend = 0) = true then
        int64 (int64 (nValueIn - totalAmount vecSend) - nFeeRet)
        else int64 (nValueIn - totalAmount vecSend)) = nValueIn - nTarget := by
      rw [hnTarget, hless]
      simp only [decide_eq_true_iff]
      split_ifs
      · rw [int64_eq (by omega) (by omega)]
        omega
      · rw [add_zero]
    rw [hselect] at hok
    simp only [hchange] at hok
    obtain ⟨outputs, hadd, hok⟩ := bind_ok hok
    obtain ⟨txNew, hsign, hok⟩ := bind_ok hok
    obtain ⟨nFeeNeeded, hcheck, hok⟩ := bind_ok hok
    obtain ⟨hcreated, rfl⟩ := Prod.ext_iff.mp (Except.ok.inj hok)
    simp only at hcreated
    subst hcreated
    obtain ⟨hfair, hsum, hpaid⟩ :=
      addChange_ok hs hr hfee (by omega) (by omega) (by omega) hdust hadd
    obtain ⟨hsize, hdone, hnext⟩ := checkFee_ok hcheck
    have hsame := signInputs_unsigned hsign
    have hperm := List.mergeSort_perm setCoins w.coinLe
    have hprevouts : txNew.prevouts = (setCoins.mergeSort w.coinLe).map InputCoin.outpoint := by
      rw [prevouts_unsigned hsame, CTransaction.prevouts, List.map_map]
      rfl
    refine ⟨fun hnone => ⟨_, ⟨fun coin hcoin => S.available coin (hperm.mem_iff.mp hcoin), hprevouts, ?_,
      ?_, ?_, hsize, ?_, hdone hnone, ?_⟩, nLockTime_unsigned hsame, fun hlen => ?_⟩, fun n hn => ?_⟩
    · rw [hprevouts]
      exact ((hperm.map _).nodup_iff).mpr (S.outpoints hv)
    · rw [show txNew.vout = outputs.vout from vout_unsigned hsame]
      exact hfair
    · rw [(hperm.map _).sum_eq, ← hin, show txNew.vout = outputs.vout from vout_unsigned hsame, hsum,
        sum_recipientOutputs, hnTarget]
      split_ifs <;> omega
    · rcases hpaid with hpaid | ⟨hpaid, -⟩ <;> simp only <;> omega
    · rcases hpaid with hpaid | ⟨-, hnone, script, hpaid⟩
      · exact .inl (by simp only; omega)
      · exact .inr ⟨hnone, script, by simp only; omega⟩
    · have hall := (signInputs_ok (by rwa [Nat.zero_add]) ?_ hsign).2.2
      · exact fun i coin hi => by simpa using hall i coin hi
      · rw [← hprevouts, prevouts_unsigned hsame]
        rfl
    · obtain ⟨hlt, hle⟩ := hnext n hn
      simp only at hlt
      refine ⟨?_, hle⟩
      rcases hpaid with hpaid | ⟨hpaid, -⟩ <;> omega

end

/-! ## The loop -/

section

variable {w : Spender} {vecSend : List CRecipient} {rounds : Nat → RoundInput} {nFeeRet : Int}

/-- What has been made of coins of the wallet, and signed. -/
def CreatedTx.Made (w : Spender) (vecSend : List CRecipient) (rounds : Nat → RoundInput)
    (created : CreatedTx) : Prop :=
  ∃ n coins, created.Balanced w vecSend (rounds n).vCoins coins ∧ (coins.length ≤ 2 ^ 32 →
    ∀ i coin, coins[i]? = some coin → w.signing.Verifies created.tx i coin)

/-- The fee grows in every round and is at most `maxTxFee`, so that the rounds end. -/
theorem createRounds_ok (nLockTime : UInt32) (hs : w.fees.Sane) (hr : ∀ r ∈ vecSend, r.Fits)
    (htotal : totalAmount vecSend ≤ MAX_MONEY) (hne : vecSend ≠ [])
    (hv : ∀ n, AvailableCoins (rounds n).vCoins) (fuel n : Nat) (hfee : 0 ≤ nFeeRet)
    (hfee' : nFeeRet ≤ w.fees.maxTxFee) (hfuel : w.fees.maxTxFee < nFeeRet + fuel) :
    ∃ result, w.createRounds vecSend nLockTime rounds (totalAmount vecSend) fuel n nFeeRet = some result ∧
      ∀ created, result = .ok created →
        created.Made w vecSend rounds ∧ created.tx.nLockTime = nLockTime := by
  induction fuel generalizing n nFeeRet with
  | zero => omega
  | succ fuel ih =>
    rw [Spender.createRounds]
    cases hround : w.createRound (rounds n) vecSend nLockTime (totalAmount vecSend) nFeeRet with
    | error e => exact ⟨_, rfl, fun _ h => by cases h⟩
    | ok ret =>
      obtain ⟨created, next⟩ := ret
      obtain ⟨hdone, hnext⟩ := createRound_ok hs hr htotal hne (hv n) hfee hfee' hround
      cases next with
      | none =>
        obtain ⟨coins, hbalanced, htime, hsigned⟩ := hdone rfl
        refine ⟨_, rfl, fun created' h => ?_⟩
        cases h
        exact ⟨⟨n, coins, hbalanced, hsigned⟩, htime⟩
      | some nFeeNeeded =>
        obtain ⟨hlt, hle⟩ := hnext nFeeNeeded rfl
        exact ih (n + 1) (by omega) hle (by omega)

theorem sumAmounts_nonneg {nValue nSum : Int} (h : sumAmounts nValue vecSend = some nSum) :
    ∀ r ∈ vecSend, 0 ≤ r.nAmount := by
  induction vecSend generalizing nValue with
  | nil => exact fun _ h => by cases h
  | cons recipient vecSend ih =>
    rw [sumAmounts] at h
    split_ifs at h with hneg
    rw [not_or, not_lt, not_lt] at hneg
    exact List.forall_mem_cons.mpr ⟨hneg.2, ih h⟩

theorem sumAmounts_eq {nValue : Int} (hn : 0 ≤ nValue) (hnonneg : ∀ r ∈ vecSend, 0 ≤ r.nAmount)
    (hle : nValue + totalAmount vecSend ≤ MAX_MONEY) :
    sumAmounts nValue vecSend = some (nValue + totalAmount vecSend) := by
  have hM := MAX_MONEY_eq
  induction vecSend generalizing nValue with
  | nil => simp [sumAmounts, totalAmount]
  | cons recipient vecSend ih =>
    obtain ⟨h₀, hrest⟩ := List.forall_mem_cons.mp hnonneg
    have hsum : 0 ≤ totalAmount vecSend := List.sum_nonneg fun n hn => by
      obtain ⟨r, hr, rfl⟩ := List.mem_map.mp hn
      exact hrest r hr
    have hcons : totalAmount (recipient :: vecSend) = recipient.nAmount + totalAmount vecSend :=
      List.sum_cons
    rw [hcons] at hle ⊢
    rw [sumAmounts, if_neg (by omega), int64_eq (by omega) (by omega), ih (by omega) hrest (by omega),
      Int.add_assoc]

/-- What is asked of the amounts for the recipients. -/
def InRange (vecSend : List CRecipient) : Prop :=
  (∀ r ∈ vecSend, 0 ≤ r.nAmount) → totalAmount vecSend ≤ MAX_MONEY

theorem InRange.fits (h : InRange vecSend) (hnonneg : ∀ r ∈ vecSend, 0 ≤ r.nAmount) :
    ∀ r ∈ vecSend, r.Fits := fun r hr => by
  have hsub : [r].Sublist vecSend := List.singleton_sublist.mpr hr
  have hle := (hsub.map CRecipient.nAmount).sum_le_sum fun n hn => by
    obtain ⟨r, hr, rfl⟩ := List.mem_map.mp hn
    exact hnonneg r hr
  rw [List.map_singleton, List.sum_singleton] at hle
  exact ⟨hnonneg r hr, hle.trans (h hnonneg)⟩

/-- `nLockTime` is not after the tip. -/
theorem lockTime_bounds (w : Spender) (nRand nRandBack : Nat) : 0 ≤ w.lockTime nRand nRandBack ∧
    (w.lockTime nRand nRandBack = 0 ∨ w.lockTime nRand nRandBack ≤ w.nHeight - 10) := by
  unfold Spender.lockTime
  simp only
  split_ifs <;> omega

theorem createTransaction_ok {nRand nRandBack fuel : Nat} (hs : w.fees.Sane) (hsend : InRange vecSend)
    (hv : ∀ n, AvailableCoins (rounds n).vCoins) (hfuel : w.fees.maxTxFee < fuel) :
    ∃ result, w.createTransaction vecSend rounds nRand nRandBack fuel = some result ∧
      ∀ created, result = .ok created → vecSend ≠ [] ∧ created.Made w vecSend rounds ∧
        created.tx.nLockTime = UInt32.ofNat (w.lockTime nRand nRandBack).toNat ∧
        w.lockTime nRand nRandBack < LOCKTIME_THRESHOLD := by
  have hfail : ∀ e : CreateFailure, ∀ created, (.error e : Except CreateFailure CreatedTx) = .ok created →
      vecSend ≠ [] ∧ created.Made w vecSend rounds ∧
        created.tx.nLockTime = UInt32.ofNat (w.lockTime nRand nRandBack).toNat ∧
        w.lockTime nRand nRandBack < LOCKTIME_THRESHOLD := fun e created h => by cases h
  rw [Spender.createTransaction]
  cases hsum : sumAmounts 0 vecSend with
  | none => exact ⟨_, rfl, hfail _⟩
  | some nValue =>
    have hnonneg := sumAmounts_nonneg hsum
    have hle := hsend hnonneg
    rw [sumAmounts_eq (le_refl 0) hnonneg (by omega), Int.zero_add] at hsum
    obtain rfl := Option.some.inj hsum
    simp only
    split_ifs with hempty hlock
    · exact ⟨_, rfl, hfail _⟩
    · rw [not_or] at hempty
      have hne : vecSend ≠ [] := fun h => hempty.1 (by rw [h]; rfl)
      obtain ⟨result, hresult, hall⟩ := createRounds_ok
        (UInt32.ofNat (w.lockTime nRand nRandBack).toNat) hs (hsend.fits hnonneg) hle hne hv fuel 0
        (le_refl 0) hs.maxTxFee (by omega)
      exact ⟨result, hresult, fun created h => ⟨hne, (hall created h).1, (hall created h).2, hlock.2⟩⟩
    · exact ⟨_, rfl, hfail _⟩

end

/-- A wallet with one coin. -/
def sampleOutput : COutput := ⟨⟨5, [⟨10 * COIN, getScriptForPubKey sampleKey⟩], false⟩, 0, 6, true⟩

def sampleSpender : Spender where
  signing := ⟨sampleOptions, prefixChecker, sampleStore, fun _ _ => some sampleSig.dropLast, fun _ _ _ => true⟩
  fees := ⟨⟨0⟩, true, ⟨10000⟩, ⟨1000⟩, COIN / 10⟩
  bSpendZeroConfChange := true
  fSendFreeTransactions := false
  coinControl := none
  address h := h.val
  nHeight := 100

def sampleRound : RoundInput where
  vCoins := [sampleOutput]
  draws _ := ⟨fun _ => 0, fun _ => 0, fun _ _ _ => false⟩
  nDepth _ := 6
  reservedKey := some sampleKey
  nRand := 1
  estimatePriority := 0
  estimateFee := ⟨0⟩

/-- Three recipients, of whom two pay the fee. -/
def sampleSend : List CRecipient :=
  [⟨[OP_RETURN], 2 * COIN, false⟩, ⟨[OP_DUP], COIN, true⟩, ⟨[OP_EQUAL], COIN, true⟩]

theorem sampleSpender_sane : sampleSpender.fees.Sane := ⟨by decide, by decide, by decide, by decide⟩

theorem sampleRound_available : AvailableCoins sampleRound.vCoins := ⟨by decide, by decide, by decide⟩

/-- The fee is found in the second round, and the change is the second output. -/
theorem sampleSend_created : ∃ created, sampleSpender.createTransaction sampleSend (fun _ => sampleRound) 1 0
    10000001 = some (.ok created) ∧ created.nFeeRet = 1250 ∧ created.nChangePosRet = 1 ∧
      created.tx.bytes.length < 2 ^ 32 ∧ created.tx.getHash sampleEnv.hash ≠ 5 := by
  have hrun : (sampleSpender.createTransaction sampleSend (fun _ => sampleRound) 1 0 10000001).any
      (fun result => result.toOption.any fun created => decide (created.nFeeRet = 1250 ∧
        created.nChangePosRet = 1 ∧ created.tx.bytes.length < 2 ^ 32 ∧
          created.tx.getHash sampleEnv.hash ≠ 5)) = true := by decide +kernel
  cases hresult : sampleSpender.createTransaction sampleSend (fun _ => sampleRound) 1 0 10000001 with
  | none =>
    rw [hresult] at hrun
    cases hrun
  | some result =>
    rw [hresult] at hrun
    cases result with
    | error e => cases hrun
    | ok created => exact ⟨created, rfl, of_decide_eq_true hrun⟩

theorem sampleSend_inRange : InRange sampleSend := fun _ => by decide

section

variable {tx : CTransaction} {env : Env} {m : CoinsMap}

theorem checkTxOuts_run {n : Int} {vout : List CTxOut} (hn : 0 ≤ n) (hpos : ∀ out ∈ vout, 0 ≤ out.nValue)
    (hle : n + (vout.map CTxOut.nValue).sum ≤ MAX_MONEY) : checkTxOuts n vout = .ok () := by
  have hM := MAX_MONEY_eq
  induction vout generalizing n with
  | nil => rfl
  | cons out vout ih =>
    obtain ⟨h₀, hrest⟩ := List.forall_mem_cons.mp hpos
    have hsum : 0 ≤ (vout.map CTxOut.nValue).sum := List.sum_nonneg fun n hn => by
      obtain ⟨out, hout, rfl⟩ := List.mem_map.mp hn
      exact hrest out hout
    rw [List.map_cons, List.sum_cons] at hle
    rw [checkTxOuts, if_neg (by omega), if_neg (by omega), int64_eq (by omega) (by omega)]
    simp only
    rw [moneyRange_iff.mpr ⟨by omega, by omega⟩]
    exact ih (by omega) hrest (by omega)

theorem checkDuplicateInputs_run {seen : List COutPoint} {vin : List CTxIn}
    (hnodup : (vin.map CTxIn.prevout).Nodup) (hseen : ∀ txin ∈ vin, txin.prevout ∉ seen) :
    checkDuplicateInputs seen vin = .ok () := by
  induction vin generalizing seen with
  | nil => rfl
  | cons txin vin ih =>
    obtain ⟨hnot, hrest⟩ := List.forall_mem_cons.mp hseen
    rw [List.map_cons, List.nodup_cons] at hnodup
    rw [checkDuplicateInputs, if_neg hnot]
    refine ih hnodup.2 fun x hx hmem => ?_
    rcases List.mem_cons.mp hmem with heq | hmem
    · exact hnodup.1 (heq ▸ List.mem_map_of_mem hx)
    · exact hrest x hx hmem

/-- What `CheckTransaction` accepts, but for coinbase transactions. -/
theorem checkTransaction_run (h : CheckedTx tx) (hvout : tx.vout ≠ [])
    (hnull : ∀ o ∈ tx.prevouts, o.isNull = false) :
    checkTransaction tx = .ok () ∧ tx.isCoinBase = false := by
  have hcb : tx.isCoinBase = false := by
    rw [CTransaction.isCoinBase]
    split
    · rename_i txin hvin
      exact hnull _ (by rw [CTransaction.prevouts, hvin]; exact List.mem_singleton_self _)
    · rfl
  have hall : tx.vin.all (fun txin => !txin.prevout.isNull) = true := List.all_eq_true.mpr fun txin hx => by
    rw [hnull _ (List.mem_map_of_mem hx)]
    rfl
  have hempty : ∀ {α : Type} {l : List α}, l ≠ [] → (!l.isEmpty) = true := fun hl => by
    simpa using hl
  refine ⟨?_, hcb⟩
  unfold checkTransaction
  rw [hempty h.vin, hempty hvout, decide_eq_true h.size,
    checkTxOuts_run (le_refl 0) (fun out hout => (h.values out hout).1) (by rw [Int.zero_add]; exact h.total),
    checkDuplicateInputs_run h.inputs fun _ _ hmem => (by cases hmem), hcb, hall]
  rfl

/-- The checks of the scripts come last. -/
theorem checkInputs_scripts (env : Env) (tx : CTransaction) (pvChecks : Bool) :
    checkInputs env tx true pvChecks =
      (checkInputs env tx false pvChecks >>= fun _ => checkInputScripts env tx pvChecks 0 tx.vin) := by
  simp only [checkInputs, Prog.bind_assoc]
  rfl

theorem checkInputScripts_run {i : Nat} {vin : List CTxIn}
    (hall : ∀ k txin, vin[k]? = some txin → ∃ out, m.output? txin.prevout = some out ∧
      env.verifyScript txin.scriptSig out.scriptPubKey tx (i + k) = none) :
    (checkInputScripts env tx false i vin).run plain m = (.ok (List.replicate vin.length true), m) := by
  induction vin generalizing i with
  | nil => rfl
  | cons txin vin ih =>
    obtain ⟨out, hout, hverify⟩ := hall 0 txin rfl
    rw [Nat.add_zero] at hverify
    have hrest := ih (i := i + 1) fun k x hk => by
      obtain ⟨out, hout, hverify⟩ := hall (k + 1) x hk
      exact ⟨out, hout, by rw [Nat.add_right_comm]; exact hverify⟩
    rw [checkInputScripts, run_accessCoins, outputAt_rec?.mpr hout]
    show ((Prog.check (false || (env.verifyScript _ _ tx i).isNone) _ >>= _ :
      CoinsProg (List Bool))).run plain m = _
    rw [hverify]
    show ((checkInputScripts env tx false (i + 1) vin >>= _ : CoinsProg (List Bool))).run plain m = _
    rw [Prog.run_bind, hrest]
    rfl

/-- The coins of a wallet are in a store, and can be spent at a height. -/
def CoinsMap.Holds (m : CoinsMap) (nSpendHeight : Int) (vCoins : List COutput) : Prop :=
  ∀ output ∈ vCoins, output.outpoint.isNull = false ∧
    m.output? output.outpoint = output.tx.vout[output.i.toNat]? ∧ m.Mature nSpendHeight output.outpoint

variable {w : Spender} {vecSend : List CRecipient} {vCoins : List COutput} {coins : List InputCoin}
variable {created : CreatedTx}

theorem length_le_bytes (tx : CTransaction) : tx.vin.length ≤ tx.bytes.length := by
  have hin : tx.vin.length ≤ (tx.vin.flatMap CTxIn.bytes).length := by
    rw [List.length_flatMap]
    have hone : ∀ n ∈ tx.vin.map fun txin => txin.bytes.length, 1 ≤ n := fun n hn => by
      obtain ⟨txin, -, rfl⟩ := List.mem_map.mp hn
      simp only [CTxIn.bytes, uint32Bytes, List.length_append, Framework.length_leBytes]
      omega
    simpa using List.card_nsmul_le_sum _ 1 hone
  simp only [CTransaction.bytes, vectorBytes, List.length_append]
  omega

/-- The coins that a balanced transaction spends. -/
theorem CreatedTx.Balanced.coin (h : created.Balanced w vecSend vCoins coins) {i : Nat} {o : COutPoint}
    (ho : created.tx.prevouts[i]? = some o) : ∃ coin output, coins[i]? = some coin ∧
      coin.outpoint = o ∧ output ∈ vCoins ∧ output.coin = coin := by
  rw [h.inputs, List.getElem?_map] at ho
  obtain ⟨coin, hcoin, rfl⟩ := Option.map_eq_some_iff.mp ho
  obtain ⟨output, hmem, -, heq⟩ := h.available coin (List.mem_of_getElem? hcoin)
  exact ⟨coin, output, hcoin, rfl, hmem, heq⟩

theorem CreatedTx.Balanced.nodup (h : created.Balanced w vecSend vCoins coins) : coins.Nodup := by
  have hdistinct := h.distinct
  rw [h.inputs] at hdistinct
  exact hdistinct.of_map _

/-- A balanced transaction passes `CheckTransaction`. -/
theorem CreatedTx.Balanced.checked (h : created.Balanced w vecSend vCoins coins) (hs : w.fees.Sane)
    (hv : AvailableCoins vCoins) (hne : vecSend ≠ []) (hbytes : created.tx.bytes.length < 2 ^ 32) :
    CheckedTx created.tx ∧ created.tx.vout ≠ [] := by
  have hin := (hv.amounts_of h.nodup h.available).total
  have hfee := h.fee_nonneg
  have hbalance := h.balance
  have hpos : ∀ out ∈ created.tx.vout, 0 < out.nValue := fun out hout =>
    (hs.threshold _).1.trans_le (not_isDust_iff.mp (h.outputs.noDust out hout))
  have hvout : created.tx.vout ≠ [] := fun hnil => hne ?_
  · have hsum : 0 < (created.tx.vout.map CTxOut.nValue).sum := by
      refine List.sum_pos _ (fun n hn => ?_) (by simpa using hvout)
      obtain ⟨out, hout, rfl⟩ := List.mem_map.mp hn
      exact hpos out hout
    have hnonneg : ∀ n ∈ created.tx.vout.map CTxOut.nValue, 0 ≤ n := fun n hn => by
      obtain ⟨out, hout, rfl⟩ := List.mem_map.mp hn
      exact (hpos out hout).le
    refine ⟨⟨fun hvin => ?_, ?_, fun out hout => ⟨(hpos out hout).le, ?_⟩, by omega, h.distinct⟩, hvout⟩
    · have hcoins : coins = [] := by
        have hinputs := h.inputs
        rw [CTransaction.prevouts, hvin] at hinputs
        exact List.map_eq_nil_iff.mp hinputs.symm
      rw [hcoins] at hbalance
      simp only [List.map_nil, List.sum_nil] at hbalance
      omega
    · have hsize := h.size
      rw [CTransaction.getSerializeSize_eq, Nat.mod_eq_of_lt hbytes] at hsize
      exact hsize.le.trans (by decide)
    · have hle := List.single_le_sum hnonneg _ (List.mem_map_of_mem hout)
      omega
  · -- there is an output for every recipient
    obtain ⟨nDust, -, hpaid⟩ := h.outputs.paid
    have hlen : vecSend.length ≤ created.tx.vout.length := by
      rcases hpaid with ⟨-, -, hpaid⟩ | ⟨position, change, -, -, hpaid, -⟩
      · rw [show created.tx.vout = _ from hpaid, length_recipientOutputs]
      · rw [show created.tx.vout = _ from hpaid]
        exact (length_recipientOutputs ..).symm.le.trans List.length_le_length_insertIdx
    rw [hnil] at hlen
    exact List.length_eq_zero_iff.mp (Nat.le_zero.mp hlen)

/-- A balanced transaction can be paid for with the coins that it spends. -/
theorem CreatedTx.Balanced.payable (h : created.Balanced w vecSend vCoins coins)
    (hv : AvailableCoins vCoins) {nSpendHeight : Int} (hm : m.Holds nSpendHeight vCoins) :
    m.Payable created.tx := by
  have hout : ∀ coin ∈ coins, ∃ out, m.output? coin.outpoint = some out ∧ out.nValue = coin.nValue ∧
      0 < out.nValue := fun coin hcoin => by
    obtain ⟨output, hmem, -, rfl⟩ := h.available coin hcoin
    have hpos := hv.positive output hmem
    have hstore : m.output? output.coin.outpoint = output.tx.vout[output.i.toNat]? := (hm output hmem).2.1
    have hvalue : output.nValue = (output.tx.vout[output.i.toNat]?.getD .null).nValue := rfl
    cases hget : output.tx.vout[output.i.toNat]? with
    | none =>
      rw [hvalue, hget] at hpos
      exact absurd hpos (by decide)
    | some out =>
      rw [hget] at hstore hvalue
      exact ⟨out, hstore, hvalue.symm, hvalue ▸ hpos⟩
  have hsum : (created.tx.prevouts.map m.valueAt).sum = (coins.map InputCoin.nValue).sum := by
    rw [h.inputs, List.map_map]
    refine congrArg List.sum (List.map_congr_left fun coin hcoin => ?_)
    obtain ⟨out, hout, heq, -⟩ := hout coin hcoin
    rw [Function.comp_apply, valueAt_eq hout, heq]
  have hamounts := hv.amounts_of h.nodup h.available
  have hfee := h.fee_nonneg
  have hbalance := h.balance
  refine ⟨fun o ho => ?_, hsum ▸ hamounts.total, by omega⟩
  rw [h.inputs] at ho
  obtain ⟨coin, hcoin, rfl⟩ := List.mem_map.mp ho
  obtain ⟨out, hout, heq, hpos⟩ := hout coin hcoin
  have hle := List.single_le_sum hamounts.nonneg _ (List.mem_map_of_mem hcoin)
  exact ⟨out, hout, moneyRange_iff.mpr ⟨hpos.le, heq.trans_le (hle.trans hamounts.total)⟩⟩

/-! ### The pool -/

theorem haveCoins_run (txid : UInt256) : (haveCoins txid).run plain m =
    (.ok ((m.rec? txid).any fun coins => !coins.vout.isEmpty), m) := rfl

theorem haveParents_run {vin : List CTxIn} (h : m.HasInputs vin) :
    (haveParents vin).run plain m = (.ok true, m) := by
  induction vin with
  | nil => rfl
  | cons txin vin ih =>
    obtain ⟨out, hout⟩ := h txin List.mem_cons_self
    have hsome : (m.rec? txin.prevout.hash).any (fun coins => !coins.vout.isEmpty) = true := by
      rw [CoinsMap.output?, CoinsMap.coins, Map.record] at hout
      cases hrec : m.rec? txin.prevout.hash with
      | none =>
        rw [hrec] at hout
        cases hout
      | some coins =>
        rw [hrec] at hout
        cases hvout : coins.vout with
        | nil =>
          rw [Option.getD_some, CCoins.output?, hvout] at hout
          cases hout
        | cons _ _ => simp [hvout]
    rw [haveParents, Prog.run_bind, haveCoins_run, hsome, Prog.runNext_ok, if_pos rfl, Prog.run_bind,
      ih fun x hx => h x (List.mem_cons_of_mem _ hx)]
    rfl

/-- What `AcceptToMemoryPool` does with a transaction that can be paid for. -/
theorem acceptToMemoryPool_run {pool : CTxMemPool} {pcoinsTip : CoinsMap} (policy : Bool)
    (htx : CheckedTx tx)
    (hcheck : checkTransaction tx = .ok ()) (hcb : tx.isCoinBase = false)
    (hpay : CoinsMap.Payable (pool.view pcoinsTip) tx)
    (hmature : ∀ o ∈ tx.prevouts,
      CoinsMap.Mature (pool.view pcoinsTip) (env.heightOf pcoinsTip.tag + 1) o)
    (hnew : (pool.view pcoinsTip).rec? (tx.getHash env.hash) = none)
    (hfree : ∀ o ∈ tx.prevouts, pool.mapNextTx.lookup o = none) :
    acceptToMemoryPool env policy pool pcoinsTip tx =
      if policy then .ok (pool.addUnchecked (tx.getHash env.hash) ⟨tx, UInt64.ofNat tx.getSerializeSize⟩)
      else .error .error := by
  have hinputs : CoinsMap.HasInputs (pool.view pcoinsTip) tx.vin := fun txin hx => by
    obtain ⟨out, hout, -⟩ := hpay.inputs _ (List.mem_map_of_mem hx)
    exact ⟨out, hout⟩
  have hhas : pool.hasTx (tx.getHash env.hash) = false := by
    rw [CTxMemPool.hasTx]
    cases hlookup : pool.mapTx.lookup (tx.getHash env.hash) with
    | none => rfl
    | some entry =>
      rw [CTxMemPool.view] at hnew
      simp only [hlookup] at hnew
      cases hnew
  have hconflict : tx.vin.all (fun txin => (pool.mapNextTx.lookup txin.prevout).isNone) = true :=
    List.all_eq_true.mpr fun txin hx => by
      rw [hfree _ (List.mem_map_of_mem hx)]
      rfl
  have hall : tx.prevouts.all (fun o => (CoinsMap.output? (pool.view pcoinsTip) o).isSome) = true :=
    List.all_eq_true.mpr fun o ho => by
      obtain ⟨out, hout, -⟩ := hpay.inputs o ho
      rw [hout]
      rfl
  obtain ⟨nValueIn, hvalue⟩ := valueInFrom_run hinputs 0
  have hrun : (checkSpendable env tx).run plain (pool.view pcoinsTip) = (.ok (), pool.view pcoinsTip) := by
    rw [checkSpendable, Prog.run_bind, haveCoins_run, hnew, Prog.runNext_ok]
    show ((haveParents tx.vin >>= _ : CoinsProg Unit)).run plain _ = _
    rw [Prog.run_bind, haveParents_run hinputs, Prog.runNext_ok]
    show ((haveInputs tx >>= _ : CoinsProg Unit)).run plain _ = _
    rw [Prog.run_bind, haveInputs_run hcb, Prog.runNext_ok, hall]
    show ((getBestBlock >>= _ : CoinsProg Unit)).run plain _ = _
    rw [run_getBestBlock, Prog.run_bind, getValueIn, hcb, if_neg Bool.false_ne_true, hvalue,
      Prog.runNext_ok, valueOut, htx.getValueOut]
    show ((checkInputs env tx false false >>= _ : CoinsProg Unit)).run plain _ = _
    rw [Prog.run_bind, checkInputs_run htx hcb hpay hmature]
    rfl
  rw [acceptToMemoryPool, hcheck, hcb, hhas, hconflict]
  cases policy with
  | false => rfl
  | true =>
    show (((checkSpendable env tx).run plain (pool.view pcoinsTip)).1 >>= _ : Except Failure CTxMemPool) = _
    rw [hrun]
    rfl

theorem isFinalTx_lockTime {nRand nRandBack : Nat} (nBlockTime : Int)
    (htime : tx.nLockTime = UInt32.ofNat (w.lockTime nRand nRandBack).toNat)
    (hlt : w.lockTime nRand nRandBack < LOCKTIME_THRESHOLD) :
    isFinalTx tx (w.nHeight + 1).toNat nBlockTime = true := by
  obtain ⟨h₀, hle⟩ := lockTime_bounds w nRand nRandBack
  have hthreshold : LOCKTIME_THRESHOLD = 500000000 := rfl
  rcases hle with hzero | hle
  · rw [hzero] at htime
    rw [isFinalTx, htime]
    rfl
  · have hsize : (w.lockTime nRand nRandBack).toNat < 2 ^ 32 := by omega
    have hnat : (tx.nLockTime.toNat : Int) = w.lockTime nRand nRandBack := by
      rw [htime, UInt32.toNat_ofNat_of_lt' hsize]
      omega
    have hbefore : w.lockTime nRand nRandBack < w.nHeight + 1 := by omega
    simp [isFinalTx, hnat, hlt, hbefore]

/-- Committing a transaction that has been made fails for reasons of policy only: when the coins are there
and nothing else spends them the pool takes it exactly if the checks of policy do, all scripts are verified
under the standard flags, and it is final in the next block. -/
theorem createTransaction_accepted {rounds : Nat → RoundInput} {nRand nRandBack fuel : Nat}
    {pool : CTxMemPool} {pcoinsTip : CoinsMap} (policy : Bool) (hs : w.fees.Sane)
    (hsend : InRange vecSend) (hv : ∀ n, AvailableCoins (rounds n).vCoins)
    (hfuel : w.fees.maxTxFee < fuel)
    (h : w.createTransaction vecSend rounds nRand nRandBack fuel = some (.ok created))
    (hbytes : created.tx.bytes.length < 2 ^ 32)
    (henv : ∀ scriptSig scriptPubKey tx i, verifyScript (w.signing.checker tx (UInt32.ofNat i))
      STANDARD_SCRIPT_VERIFY_FLAGS scriptSig scriptPubKey = .ok () →
        env.verifyScript scriptSig scriptPubKey tx i = none)
    (hm : ∀ n, CoinsMap.Holds (pool.view pcoinsTip) (env.heightOf pcoinsTip.tag + 1) (rounds n).vCoins)
    (hfree : ∀ n, ∀ output ∈ (rounds n).vCoins, pool.mapNextTx.lookup output.outpoint = none)
    (hnew : (pool.view pcoinsTip).rec? (created.tx.getHash env.hash) = none) (nBlockTime : Int) :
    acceptToMemoryPool env policy pool pcoinsTip created.tx =
        (if policy then .ok (pool.addUnchecked (created.tx.getHash env.hash)
          ⟨created.tx, UInt64.ofNat created.tx.getSerializeSize⟩) else .error .error) ∧
      (checkInputs env created.tx true false).run plain (pool.view pcoinsTip) =
        (.ok (List.replicate created.tx.vin.length true), pool.view pcoinsTip) ∧
      isFinalTx created.tx (w.nHeight + 1).toNat nBlockTime = true := by
  obtain ⟨result, hresult, hall⟩ := createTransaction_ok hs hsend hv hfuel
  obtain ⟨hne, ⟨n, coins, B, hsigned⟩, htime, hlt⟩ := hall created (Option.some.inj (hresult.symm.trans h))
  obtain ⟨htx, hvout⟩ := B.checked hs (hv n) hne hbytes
  have hpay := B.payable (hv n) (hm n)
  have hcoin : ∀ o ∈ created.tx.prevouts, ∃ output ∈ (rounds n).vCoins, output.outpoint = o := fun o ho => by
    rw [B.inputs] at ho
    obtain ⟨coin, hmem, rfl⟩ := List.mem_map.mp ho
    obtain ⟨output, havailable, -, rfl⟩ := B.available coin hmem
    exact ⟨output, havailable, rfl⟩
  obtain ⟨hcheck, hcb⟩ := checkTransaction_run htx hvout fun o ho => by
    obtain ⟨output, hmem, rfl⟩ := hcoin o ho
    exact (hm n output hmem).1
  have hmature : ∀ o ∈ created.tx.prevouts,
      CoinsMap.Mature (pool.view pcoinsTip) (env.heightOf pcoinsTip.tag + 1) o := fun o ho => by
    obtain ⟨output, hmem, rfl⟩ := hcoin o ho
    exact (hm n output hmem).2.2
  refine ⟨acceptToMemoryPool_run policy htx hcheck hcb hpay hmature hnew fun o ho => ?_, ?_,
    isFinalTx_lockTime nBlockTime htime hlt⟩
  · obtain ⟨output, hmem, rfl⟩ := hcoin o ho
    exact hfree n output hmem
  · rw [checkInputs_scripts, Prog.run_bind, checkInputs_run htx hcb hpay hmature, Prog.runNext_ok]
    refine checkInputScripts_run fun i txin hi => ?_
    have hprevout : created.tx.prevouts[i]? = some txin.prevout := by
      rw [CTransaction.prevouts, List.getElem?_map, hi]
      rfl
    obtain ⟨coin, output, hcoin, ho, hmem, rfl⟩ := B.coin hprevout
    have hlen : coins.length ≤ 2 ^ 32 := by
      have hvin := length_le_bytes created.tx
      have heq := congrArg List.length B.inputs
      rw [CTransaction.prevouts, List.length_map, List.length_map] at heq
      omega
    obtain ⟨txin', out, hi', hout, hverify⟩ := hsigned hlen i _ hcoin
    obtain rfl := Option.some.inj (hi.symm.trans hi')
    refine ⟨out, ?_, ?_⟩
    · rw [← ho]
      exact ((hm n output hmem).2.1).trans hout
    · rw [Nat.zero_add]
      exact henv _ _ _ _ hverify

end

/-- The check of a script of a transaction under the standard flags. -/
def Signing.scriptCheck (signing : Signing) (scriptSig scriptPubKey : CScript) (tx : CTransaction)
    (i : Nat) : Option String :=
  match verifyScript (signing.checker tx (UInt32.ofNat i)) STANDARD_SCRIPT_VERIFY_FLAGS scriptSig
    scriptPubKey with
  | .ok () => none
  | .error _ => some "script"

/-- A chain that checks scripts as the wallet does. -/
def sampleVerifier : Env := { sampleEnv with verifyScript := sampleSpender.signing.scriptCheck }

/-- The coins with that of the wallet. -/
def sampleWalletCoins : CoinsMap :=
  ⟨fun txid => if txid = 5 then some (.fromTx ⟨1, [], sampleOutput.tx.vout, 0⟩ 3) else none, 0⟩

theorem sampleView_none {txid : UInt256} (h : txid ≠ 5) :
    (CTxMemPool.empty.view sampleWalletCoins).rec? txid = none := by
  simp [CTxMemPool.view, CTxMemPool.empty, sampleWalletCoins, h]

theorem sampleSend_accepted : ∃ created,
    sampleSpender.createTransaction sampleSend (fun _ => sampleRound) 1 0 10000001 = some (.ok created) ∧
      acceptToMemoryPool sampleVerifier true .empty sampleWalletCoins created.tx = .ok
        (CTxMemPool.empty.addUnchecked (created.tx.getHash sampleVerifier.hash)
          ⟨created.tx, UInt64.ofNat created.tx.getSerializeSize⟩) := by
  obtain ⟨created, hcreated, -, -, hbytes, hhash⟩ := sampleSend_created
  have hholds : CoinsMap.Holds (CTxMemPool.empty.view sampleWalletCoins) (sampleVerifier.heightOf 0 + 1)
      sampleRound.vCoins := fun output hmem => by
    obtain rfl := List.mem_singleton.mp hmem
    exact ⟨by decide, by decide, fun h => absurd h (by decide)⟩
  refine ⟨created, hcreated, (createTransaction_accepted true sampleSpender_sane sampleSend_inRange
    (fun _ => sampleRound_available) (by decide : _ < ((10000001 : Nat) : Int)) hcreated hbytes
    (fun scriptSig scriptPubKey tx i h => ?_) (fun _ => hholds) (fun _ _ _ => rfl)
    (sampleView_none hhash) 0).1⟩
  show sampleSpender.signing.scriptCheck scriptSig scriptPubKey tx i = none
  rw [Signing.scriptCheck, h]

end GC
