import GameCredits.Model.CoinSelection

/-!
# Selecting coins

What `SelectCoinsMinConf` does with coins whose amounts are in range.

* `approximateBestSubset_ok`: the search gives a subset that reaches the target.
* `scanCoins_spec`: the loop over the coins finds a coin of the exact amount, or sorts all coins.
* `selectCoinsMinConf_spec`: a selection is found just when there is enough, and leaves no change that
  is smaller than a cent when a coin is larger than that.
-/

namespace GC

open Framework.Subset

/-! ## Searching a subset -/

section

variable {nTargetValue : Int} {values : List Int} {search : SubsetSearch}

/-- The amounts of the coins are in range. -/
structure Amounts (values : List Int) : Prop where
  nonneg : ∀ nValue ∈ values, 0 ≤ nValue
  total : values.sum ≤ MAX_MONEY

theorem Amounts.sublist {values' : List Int} (h : Amounts values) (hsub : values'.Sublist values) :
    Amounts values' :=
  ⟨fun v hv => h.nonneg v (hsub.subset hv), (hsub.sum_le_sum h.nonneg).trans h.total⟩

theorem Amounts.perm {values' : List Int} (h : Amounts values) (hperm : values'.Perm values) :
    Amounts values' :=
  ⟨fun v hv => h.nonneg v (hperm.subset hv), hperm.sum_eq ▸ h.total⟩

/-- `nTotal` is the sum of what is included. -/
structure SubsetSearch.Totals (values : List Int) (search : SubsetSearch) : Prop where
  sum : search.nTotal = (pick values search.vfIncluded).sum
  length : search.vfIncluded.length = values.length

/-- `nBest` is the sum of the best subset, and reaches the target. -/
structure SubsetSearch.Best (nTargetValue : Int) (values : List Int) (search : SubsetSearch) : Prop where
  sum : search.nBest = (pick values search.vfBest).sum
  le : nTargetValue ≤ search.nBest

theorem SubsetSearch.includeCoin_ok (hv : Amounts values) (ht : search.Totals values)
    (hb : search.Best nTargetValue values) {i : Nat} {nValue : Int} (hi : values[i]? = some nValue)
    (hflag : search.vfIncluded[i]? = some false) :
    (search.includeCoin nTargetValue i nValue).Totals values ∧
      (search.includeCoin nTargetValue i nValue).Best nTargetValue values ∧
      ∀ j, j ≠ i → (search.includeCoin nTargetValue i nValue).vfIncluded[j]? =
        search.vfIncluded[j]? := by
  have hM := MAX_MONEY_eq
  have hsum := sum_pick_set hi hflag
  have hle := sum_pick_le hv.nonneg (search.vfIncluded.set i true)
  have h0 : 0 ≤ (pick values search.vfIncluded).sum :=
    List.sum_nonneg fun v hmem => hv.nonneg v ((pick_sublist ..).subset hmem)
  have hn := hv.nonneg nValue (List.mem_of_getElem? hi)
  have htotal := hv.total
  rw [← ht.sum] at hsum h0
  have hint : int64 (search.nTotal + nValue) = search.nTotal + nValue := int64_eq (by omega) (by omega)
  have hne : ∀ j, j ≠ i → (search.vfIncluded.set i true)[j]? = search.vfIncluded[j]? := fun j hj =>
    List.getElem?_set_ne (Ne.symm hj)
  have hback : (search.vfIncluded.set i true).set i false = search.vfIncluded := by
    rw [List.set_set]
    obtain ⟨hlt, hget⟩ := List.getElem?_eq_some_iff.mp hflag
    rw [← hget, List.set_getElem_self]
  unfold SubsetSearch.includeCoin
  simp only [hint]
  by_cases hreach : nTargetValue ≤ search.nTotal + nValue
  · rw [if_pos hreach, hback, int64_eq (by omega) (by omega), add_sub_cancel_right]
    refine ⟨⟨ht.sum, ht.length⟩, ?_, fun _ _ => rfl⟩
    cases hbetter : decide (search.nTotal + nValue < search.nBest) with
    | true => exact ⟨hsum.symm, hreach⟩
    | false => exact ⟨hb.sum, hb.le⟩
  · rw [if_neg hreach]
    exact ⟨⟨hsum.symm, by rw [List.length_set, ht.length]⟩, ⟨hb.sum, hb.le⟩, hne⟩

/-- A pass keeps both, when only coins that are not included are tried. -/
theorem SubsetSearch.passFrom_ok (hv : Amounts values) (fChosen : Nat → Bool → Bool) {i : Nat}
    {rest : List Int} (hrest : values.drop i = rest) (ht : search.Totals values)
    (hb : search.Best nTargetValue values)
    (hfresh : (∀ j flag, fChosen j flag = true → flag = false) ∨
      ∀ j, i ≤ j → j < values.length → search.vfIncluded[j]? = some false) :
    (passFrom nTargetValue fChosen i rest search).Totals values ∧
      (passFrom nTargetValue fChosen i rest search).Best nTargetValue values := by
  induction rest generalizing i search with
  | nil => exact ⟨ht, hb⟩
  | cons nValue rest ih =>
    have hi : values[i]? = some nValue := by
      rw [← List.head?_drop, hrest]
      rfl
    have hlt : i < values.length := (List.getElem?_eq_some_iff.mp hi).1
    have hdrop : values.drop (i + 1) = rest := by
      rw [← List.tail_drop, hrest]
      rfl
    obtain ⟨flag, hflag⟩ : ∃ flag, search.vfIncluded[i]? = some flag :=
      ⟨_, List.getElem?_eq_getElem (ht.length ▸ hlt)⟩
    rw [passFrom, List.getD_eq_getElem?_getD, hflag, Option.getD_some]
    cases hchosen : fChosen i flag with
    | false => exact ih hdrop ht hb (hfresh.imp id fun h j hj => h j (by omega))
    | true =>
      have hnot : flag = false := hfresh.elim (fun h => h i flag hchosen) fun h => by
        rw [h i (le_refl i) hlt] at hflag
        exact (Option.some.inj hflag).symm
      obtain ⟨ht', hb', hother⟩ := includeCoin_ok hv ht hb hi (hnot ▸ hflag)
      rw [if_pos rfl]
      exact ih hdrop ht' hb' (hfresh.imp id fun h j hj hj' => by
        rw [hother j (by omega)]
        exact h j (by omega) hj')

theorem SubsetSearch.repetition_ok (hv : Amounts values) (hb : search.Best nTargetValue values)
    (flips : Nat → Bool) : (search.repetition nTargetValue values flips).Best nTargetValue values := by
  have hstart : Totals values { search with
      nTotal := 0, vfIncluded := .replicate values.length false, fReachedTarget := false } :=
    ⟨by rw [pick_none]; rfl, List.length_replicate⟩
  have hfirst := passFrom_ok (i := 0) hv (fun i _ => flips i) rfl hstart ⟨hb.sum, hb.le⟩
    (.inr fun j _ hj => by rw [List.getElem?_replicate, if_pos hj])
  unfold repetition
  simp only
  split_ifs
  · exact hfirst.2
  · exact (passFrom_ok (i := 0) hv (fun _ fIncluded => !fIncluded) rfl hfirst.1 hfirst.2
      (.inl fun _ flag h => by simpa using h)).2

theorem SubsetSearch.repetitions_ok (hv : Amounts values) (flips : Nat → Nat → Bool)
    (iterations nRep : Nat) (hb : search.Best nTargetValue values) :
    (repetitions nTargetValue values flips iterations nRep search).Best nTargetValue values := by
  induction iterations generalizing nRep search with
  | zero => exact hb
  | succ iterations ih =>
    rw [repetitions]
    split_ifs
    · exact hb
    · exact ih _ (repetition_ok hv hb _)

/-- The search gives a subset that reaches the target. -/
theorem approximateBestSubset_ok (hv : Amounts values) (hle : nTargetValue ≤ values.sum)
    (flips : Nat → Nat → Bool) :
    (approximateBestSubset nTargetValue values values.sum flips).2 =
        (pick values (approximateBestSubset nTargetValue values values.sum flips).1).sum ∧
      nTargetValue ≤ (approximateBestSubset nTargetValue values values.sum flips).2 := by
  have hstart : SubsetSearch.Best nTargetValue values
      ⟨0, [], false, .replicate values.length true, values.sum⟩ :=
    ⟨congrArg List.sum (pick_all values).symm, hle⟩
  have hbest := SubsetSearch.repetitions_ok hv flips 1000 0 hstart
  exact ⟨hbest.sum, hbest.le⟩

end

/-! ## Coins -/

namespace COutput

/-- `pcoin->vout[i].nValue`. -/
def nValue (output : COutput) : Int := output.coin.nValue

/-- The amount of an available coin, and the coin. -/
def valued (output : COutput) : Int × InputCoin := (output.nValue, output.coin)

/-- The outpoint of a coin. -/
def outpoint (output : COutput) : COutPoint := ⟨output.tx.hash, output.i⟩

/-- Whether a coin is spendable, and deep enough. -/
def eligible (nConfMine nConfTheirs : Int) (output : COutput) : Bool :=
  output.fSpendable &&
    decide ((if output.tx.fIsFromMe then nConfMine else nConfTheirs) ≤ output.nDepth)

end COutput

/-- Different coins of the list `outputs`, with their amounts. -/
structure CoinsOf (outputs : List COutput) (coins : List (Int × InputCoin)) : Prop where
  value : ∀ c ∈ coins, c.1 = c.2.nValue
  available : ∀ c ∈ coins, ∃ output ∈ outputs, output.coin = c.2
  nodup : (coins.map Prod.snd).Nodup
  amounts : Amounts (coins.map Prod.fst)

section

variable {outputs : List COutput} {coins coins' : List (Int × InputCoin)}

theorem CoinsOf.sublist (h : CoinsOf outputs coins) (hsub : coins'.Sublist coins) :
    CoinsOf outputs coins' :=
  ⟨fun c hc => h.value c (hsub.subset hc), fun c hc => h.available c (hsub.subset hc),
    h.nodup.sublist (hsub.map _), h.amounts.sublist (hsub.map _)⟩

theorem CoinsOf.perm (h : CoinsOf outputs coins) (hperm : coins'.Perm coins) :
    CoinsOf outputs coins' :=
  ⟨fun c hc => h.value c (hperm.subset hc), fun c hc => h.available c (hperm.subset hc),
    (hperm.map _).nodup_iff.mpr h.nodup, h.amounts.perm (hperm.map _)⟩

/-- The coins themselves. -/
theorem coinsOf_valued (hnodup : (outputs.map COutput.coin).Nodup)
    (hv : Amounts (outputs.map COutput.nValue)) : CoinsOf outputs (outputs.map COutput.valued) where
  value c hc := by
    obtain ⟨output, -, rfl⟩ := List.mem_map.mp hc
    rfl
  available c hc := by
    obtain ⟨output, hmem, rfl⟩ := List.mem_map.mp hc
    exact ⟨output, hmem, rfl⟩
  nodup := by
    rw [List.map_map]
    exact hnodup
  amounts := by
    rw [List.map_map]
    exact hv

/-- Taking different coins takes each of them. -/
theorem takeCoins_eq (h : CoinsOf outputs coins) :
    takeCoins coins = ((coins.map Prod.snd).reverse, (coins.map Prod.fst).sum) := by
  have hM := MAX_MONEY_eq
  induction coins using List.reverseRecOn with
  | nil => rfl
  | append_singleton coins c ih =>
    have hsum := h.amounts.total
    have h0 : 0 ≤ ((coins ++ [c]).map Prod.fst).sum := List.sum_nonneg h.amounts.nonneg
    have hnew : c.2 ∉ (coins.map Prod.snd).reverse := by
      have hnodup := h.nodup
      rw [List.map_append, List.nodup_append] at hnodup
      exact fun hmem => hnodup.2.2 _ (List.mem_reverse.mp hmem) _ (List.mem_singleton_self _) rfl
    rw [takeCoins, List.foldl_append, ← takeCoins, ih (h.sublist (List.sublist_append_left ..))]
    rw [List.map_append, List.map_append, List.sum_append] at *
    simp only [List.foldl_cons, List.foldl_nil, List.map_cons, List.map_nil, List.sum_cons,
      List.sum_nil, add_zero] at hsum h0 ⊢
    rw [List.insert_of_not_mem hnew, int64_eq (by omega) (by omega), List.reverse_append]
    rfl

end

/-- Coins of the list `outputs` that have been taken, and their sum. -/
structure Taken (outputs : List COutput) (ret : List InputCoin × Int) : Prop where
  available : ∀ coin ∈ ret.1, ∃ output ∈ outputs, output.coin = coin
  nodup : ret.1.Nodup
  sum : ret.2 = (ret.1.map InputCoin.nValue).sum

theorem CoinsOf.taken {outputs : List COutput} {coins : List (Int × InputCoin)}
    (h : CoinsOf outputs coins) : Taken outputs (takeCoins coins) := by
  have hvalues : (coins.map Prod.snd).map InputCoin.nValue = coins.map Prod.fst := by
    rw [List.map_map]
    exact List.map_congr_left fun c hc => (h.value c hc).symm
  rw [takeCoins_eq h]
  refine ⟨fun coin hcoin => ?_, List.nodup_reverse.mpr h.nodup, ?_⟩
  · obtain ⟨c, hc, rfl⟩ := List.mem_map.mp (List.mem_reverse.mp hcoin)
    exact h.available c hc
  · show _ = ((coins.map Prod.snd).reverse.map InputCoin.nValue).sum
    rw [List.map_reverse, List.sum_reverse, hvalues]

/-! ## The loop over the coins -/

section

variable {nTargetValue nConfMine nConfTheirs : Int}

/-- What the loop over the coins has sorted, after the eligible coins `seen`. -/
structure CoinScan.Sorted (nTargetValue : Int) (seen : List COutput) (scan : CoinScan) : Prop where
  lower : scan.vValue =
    (seen.filter fun output => output.nValue < nTargetValue + CENT).map COutput.valued
  total : scan.nTotalLower = (scan.vValue.map Prod.fst).sum
  lowest : ∀ output ∈ seen, nTargetValue + CENT ≤ output.nValue →
    scan.coinLowestLarger.1 ≤ output.nValue
  noLarger : scan.coinLowestLarger.2 = none → scan.coinLowestLarger.1 = 2 ^ 63 - 1
  larger : ∀ coin, scan.coinLowestLarger.2 = some coin → ∃ output ∈ seen,
    output.valued = (scan.coinLowestLarger.1, coin) ∧ nTargetValue + CENT ≤ output.nValue

theorem CoinScan.sorted_nil : CoinScan.Sorted nTargetValue [] ⟨[], 0, 2 ^ 63 - 1, none⟩ :=
  ⟨rfl, rfl, nofun, fun _ => rfl, nofun⟩

variable {seen : List COutput} {scan : CoinScan} {output : COutput}

/-- A coin that is less than the target and a cent. -/
theorem CoinScan.Sorted.lower_step (h : scan.Sorted nTargetValue seen)
    (hv : Amounts ((seen ++ [output]).map COutput.nValue))
    (hlower : output.nValue < nTargetValue + CENT) :
    CoinScan.Sorted nTargetValue (seen ++ [output]) { scan with
      vValue := scan.vValue ++ [output.valued]
      nTotalLower := int64 (scan.nTotalLower + output.nValue) } := by
  have hM := MAX_MONEY_eq
  have hfilter : (seen ++ [output]).filter (fun output => output.nValue < nTargetValue + CENT) =
      seen.filter (fun output => output.nValue < nTargetValue + CENT) ++ [output] := by
    rw [List.filter_append, List.filter_cons_of_pos (by simpa using hlower), List.filter_nil]
  have hvalues : scan.vValue ++ [output.valued] = ((seen ++ [output]).filter
      (fun output => output.nValue < nTargetValue + CENT)).map COutput.valued := by
    rw [hfilter, List.map_append, h.lower]
    rfl
  refine ⟨hvalues, ?_, fun o ho hle => ?_, h.noLarger, fun coin hcoin => ?_⟩
  · have hsub := hv.sublist ((List.filter_sublist (p := fun output =>
      decide (output.nValue < nTargetValue + CENT))).map COutput.nValue)
    have hmap : (scan.vValue ++ [output.valued]).map Prod.fst = ((seen ++ [output]).filter
        (fun output => output.nValue < nTargetValue + CENT)).map COutput.nValue := by
      rw [hvalues, List.map_map]
      rfl
    rw [← hmap] at hsub
    have hle := hsub.total
    have h0 := List.sum_nonneg hsub.nonneg
    show int64 (scan.nTotalLower + output.nValue) = _
    rw [List.map_append, List.sum_append, ← h.total] at hle h0 ⊢
    simp only [COutput.valued, List.map_cons, List.map_nil, List.sum_cons, List.sum_nil,
      add_zero] at hle h0 ⊢
    exact int64_eq (by omega) (by omega)
  · rcases List.mem_append.mp ho with ho | ho
    · exact h.lowest o ho hle
    · rw [List.mem_singleton.mp ho] at hle
      omega
  · obtain ⟨o, ho, hvalued⟩ := h.larger coin hcoin
    exact ⟨o, List.mem_append_left _ ho, hvalued⟩

/-- A larger coin. -/
theorem CoinScan.Sorted.larger_step (h : scan.Sorted nTargetValue seen)
    (hlarger : nTargetValue + CENT ≤ output.nValue) :
    CoinScan.Sorted nTargetValue (seen ++ [output])
      (if output.nValue < scan.coinLowestLarger.1 then
        { scan with coinLowestLarger := (output.nValue, some output.coin) }
      else scan) := by
  have hfilter : (seen ++ [output]).filter (fun output => output.nValue < nTargetValue + CENT) =
      seen.filter fun output => output.nValue < nTargetValue + CENT := by
    rw [List.filter_append, List.filter_cons_of_neg (by simpa using hlarger), List.filter_nil,
      List.append_nil]
  have hseen : ∀ {o}, o ∈ seen ++ [output] → o ∈ seen ∨ o = output := fun ho =>
    (List.mem_append.mp ho).imp id List.mem_singleton.mp
  split_ifs with hless
  · refine ⟨h.lower.trans (by rw [hfilter]), h.total, fun o ho hle => ?_, nofun, fun coin hcoin => ?_⟩
    · rcases hseen ho with ho | rfl
      · exact hless.le.trans (h.lowest o ho hle)
      · exact le_refl _
    · cases hcoin
      exact ⟨output, by simp, rfl, hlarger⟩
  · refine ⟨h.lower.trans (by rw [hfilter]), h.total, fun o ho hle => ?_, h.noLarger, fun coin hcoin => ?_⟩
    · rcases hseen ho with ho | rfl
      · exact h.lowest o ho hle
      · exact not_lt.mp hless
    · obtain ⟨o, ho, hvalued⟩ := h.larger coin hcoin
      exact ⟨o, List.mem_append_left _ ho, hvalued⟩

/-- The loop over the coins finds an eligible coin of the exact amount, or sorts the eligible coins. -/
theorem scanCoins_spec (htarget : 0 < nTargetValue ∧ nTargetValue + CENT < 2 ^ 63) (rest : List COutput)
    (h : scan.Sorted nTargetValue seen)
    (hv : Amounts ((seen ++ rest.filter (COutput.eligible nConfMine nConfTheirs)).map COutput.nValue)) :
    (∃ output ∈ rest.filter (COutput.eligible nConfMine nConfTheirs), output.nValue = nTargetValue ∧
        scanCoins nTargetValue nConfMine nConfTheirs rest scan = .inl output.coin) ∨
      ∃ scan', scanCoins nTargetValue nConfMine nConfTheirs rest scan = .inr scan' ∧
        scan'.Sorted nTargetValue (seen ++ rest.filter (COutput.eligible nConfMine nConfTheirs)) := by
  have hcent : int64 (nTargetValue + CENT) = nTargetValue + CENT :=
    int64_eq (by simp only [CENT]; omega) htarget.2
  induction rest generalizing seen scan with
  | nil => exact .inr ⟨scan, rfl, by rwa [List.filter_nil, List.append_nil]⟩
  | cons output rest ih =>
    rw [scanCoins, hcent]
    cases helig : output.eligible nConfMine nConfTheirs with
    | false =>
      have hskip : (!output.fSpendable || decide (output.nDepth <
          if output.tx.fIsFromMe then nConfMine else nConfTheirs)) = true := by
        rw [COutput.eligible, Bool.and_eq_false_iff] at helig
        simpa using helig
      rw [List.filter_cons_of_neg (by simp [helig])] at hv ⊢
      rw [if_pos hskip]
      exact ih h hv
    | true =>
      have hkeep : ¬ (!output.fSpendable || decide (output.nDepth <
          if output.tx.fIsFromMe then nConfMine else nConfTheirs)) = true := by
        rw [COutput.eligible, Bool.and_eq_true_iff] at helig
        simpa using helig
      rw [List.filter_cons_of_pos helig] at hv ⊢
      rw [if_neg hkeep]
      by_cases hexact : output.coin.nValue = nTargetValue
      · exact .inl ⟨output, List.mem_cons_self, hexact, if_pos hexact⟩
      · have happ : seen ++ output :: rest.filter (COutput.eligible nConfMine nConfTheirs) =
            (seen ++ [output]) ++ rest.filter (COutput.eligible nConfMine nConfTheirs) := by simp
        rw [happ] at hv ⊢
        have hnext : CoinScan.Sorted nTargetValue (seen ++ [output])
            (if output.nValue < nTargetValue + CENT then
              { scan with
                vValue := scan.vValue ++ [output.valued]
                nTotalLower := int64 (scan.nTotalLower + output.nValue) }
            else if output.nValue < scan.coinLowestLarger.1 then
              { scan with coinLowestLarger := (output.nValue, some output.coin) }
            else scan) := by
          split_ifs with hlower hless
          · exact h.lower_step (hv.sublist ((List.sublist_append_left ..).map _)) hlower
          · have hstep := h.larger_step (not_lt.mp hlower)
            rwa [if_pos hless] at hstep
          · have hstep := h.larger_step (not_lt.mp hlower)
            rwa [if_neg hless] at hstep
        simp only [if_neg hexact]
        refine (ih hnext hv).imp (fun ⟨o, ho, hvalue, hscan⟩ => ?_) id
        exact ⟨o, List.mem_cons_of_mem _ ho, hvalue, hscan⟩

end

/-! ## Choosing -/

section

variable {nTargetValue nConfMine nConfTheirs : Int} {outputs : List COutput} {scan : CoinScan}

/-- The subset reaches the target; it misses a target and a cent only when all of the coins do. -/
theorem bestSubset_spec (htarget : 0 < nTargetValue ∧ nTargetValue + CENT < 2 ^ 63) {values : List Int}
    (hv : Amounts values) (hle : nTargetValue ≤ values.sum) (draws : CoinDraws) {best : List Bool × Int}
    (hbest : bestSubset nTargetValue draws values values.sum = best) :
    best.2 = (pick values best.1).sum ∧ nTargetValue ≤ best.2 ∧
      (best.2 = nTargetValue ∨ nTargetValue + CENT ≤ best.2 ∨ values.sum < nTargetValue + CENT) := by
  have hcent : int64 (nTargetValue + CENT) = nTargetValue + CENT :=
    int64_eq (by simp only [CENT]; omega) htarget.2
  subst hbest
  unfold bestSubset
  simp only [hcent]
  split_ifs with hsecond
  · obtain ⟨hsum, hreach⟩ := approximateBestSubset_ok hv hsecond.2 (draws.flips true)
    refine ⟨hsum, ?_, .inr (.inl hreach)⟩
    simp only [CENT] at hreach ⊢
    omega
  · obtain ⟨hsum, hreach⟩ := approximateBestSubset_ok hv hle (draws.flips false)
    refine ⟨hsum, hreach, ?_⟩
    by_cases hexact : (approximateBestSubset nTargetValue values values.sum (draws.flips false)).2 =
        nTargetValue
    · exact .inl hexact
    · exact .inr (.inr (not_le.mp fun h => hsecond ⟨hexact, h⟩))

/-- The sum `nValueRet` reaches the target, and beside a coin that is larger than the target by a cent
it hits the target or leaves a cent, and is not more than that coin. -/
structure Chosen (nTargetValue : Int) (outputs : List COutput) (nValueRet : Int) : Prop where
  enough : nTargetValue ≤ nValueRet
  change : ∀ output ∈ outputs, nTargetValue + CENT ≤ output.nValue →
    (nValueRet = nTargetValue ∨ nTargetValue + CENT ≤ nValueRet) ∧ nValueRet ≤ output.nValue

theorem Chosen.exact : Chosen nTargetValue outputs nTargetValue :=
  ⟨le_refl _, fun _ _ hle => ⟨.inl rfl, by simp only [CENT] at hle; omega⟩⟩

variable (hnodup : (outputs.map COutput.coin).Nodup) (hv : Amounts (outputs.map COutput.nValue))

include hnodup hv

theorem CoinScan.Sorted.coinsOf (h : scan.Sorted nTargetValue outputs) : CoinsOf outputs scan.vValue := by
  rw [h.lower]
  exact (coinsOf_valued hnodup hv).sublist (List.filter_sublist.map _)

/-- The smallest of the larger coins. -/
theorem CoinScan.Sorted.larger_chosen (h : scan.Sorted nTargetValue outputs) {coin : InputCoin}
    (hcoin : scan.coinLowestLarger.2 = some coin) :
    CoinsOf outputs [(scan.coinLowestLarger.1, coin)] ∧
      Chosen nTargetValue outputs scan.coinLowestLarger.1 := by
  obtain ⟨output, hmem, hvalued, hle⟩ := h.larger coin hcoin
  have hvalue : output.nValue = scan.coinLowestLarger.1 := congrArg Prod.fst hvalued
  rw [hvalue] at hle
  refine ⟨?_, ?_, fun o ho hlarger => ⟨.inr hle, h.lowest o ho hlarger⟩⟩
  · rw [← hvalued]
    exact (coinsOf_valued hnodup hv).sublist (List.singleton_sublist.mpr (List.mem_map_of_mem hmem))
  · simp only [CENT] at hle
    omega

omit hnodup in
/-- Without a larger coin, all coins are smaller. -/
theorem CoinScan.Sorted.no_larger (h : scan.Sorted nTargetValue outputs)
    (hnone : scan.coinLowestLarger.2 = none) :
    ∀ output ∈ outputs, ¬ nTargetValue + CENT ≤ output.nValue := by
  have hM := MAX_MONEY_eq
  intro output hmem hle
  have hlowest := h.lowest output hmem hle
  rw [h.noLarger hnone] at hlowest
  have hsingle := (hv.sublist (List.singleton_sublist.mpr (List.mem_map_of_mem hmem))).total
  rw [List.sum_singleton] at hsingle
  omega

/-- What is chosen when the smaller coins exceed the target. -/
theorem selectSubset_spec (htarget : 0 < nTargetValue ∧ nTargetValue + CENT < 2 ^ 63)
    (h : scan.Sorted nTargetValue outputs) (hle : nTargetValue ≤ scan.nTotalLower) (draws : CoinDraws) :
    CoinsOf outputs (selectSubset nTargetValue draws scan) ∧
      Chosen nTargetValue outputs ((selectSubset nTargetValue draws scan).map Prod.fst).sum := by
  have hcent : int64 (nTargetValue + CENT) = nTargetValue + CENT :=
    int64_eq (by simp only [CENT]; omega) htarget.2
  have hperm := (List.mergeSort_perm (shuffle draws.ties scan.vValue) fun a b =>
    decide (b.1 ≤ a.1)).trans (shuffle_perm draws.ties scan.vValue)
  have hcoins := (h.coinsOf hnodup hv).perm hperm
  have htotal := h.total.trans (hperm.map Prod.fst).sum_eq.symm
  unfold selectSubset
  generalize ((shuffle draws.ties scan.vValue).mergeSort fun a b => decide (b.1 ≤ a.1)) = vValue
    at hcoins htotal ⊢
  rw [htotal] at hle
  simp only [htotal, hcent]
  generalize hbest : bestSubset nTargetValue draws (vValue.map Prod.fst) (vValue.map Prod.fst).sum = best
  obtain ⟨hsum, hreach, hmiss⟩ := bestSubset_spec htarget hcoins.amounts hle draws hbest
  have hpick : CoinsOf outputs (pick vValue best.1) := hcoins.sublist (pick_sublist ..)
  have hpicksum : ((pick vValue best.1).map Prod.fst).sum = best.2 := by rw [map_pick, hsum]
  rcases hlarger : scan.coinLowestLarger with ⟨n, _ | coin⟩
  · refine ⟨hpick, ?_⟩
    rw [hpicksum]
    have hnone := h.no_larger hv (by rw [hlarger])
    exact ⟨hreach, fun o ho hle => absurd hle (hnone o ho)⟩
  · have hcoin : scan.coinLowestLarger.2 = some coin := by rw [hlarger]
    have hone := h.larger_chosen hnodup hv hcoin
    rw [hlarger] at hone
    simp only
    split_ifs with hbigger
    · rw [List.map_singleton, List.sum_singleton]
      exact hone
    · refine ⟨hpick, ?_⟩
      rw [not_or, not_and, not_lt, not_le] at hbigger
      rw [hpicksum]
      refine ⟨hreach, fun o ho hlarge => ⟨?_, hbigger.2.le.trans (hone.2.change o ho hlarge).2⟩⟩
      exact Decidable.or_iff_not_imp_left.mpr hbigger.1

end

section

variable {nTargetValue nConfMine nConfTheirs : Int} {outputs order : List COutput}

theorem nValue_le_total (hv : Amounts (outputs.map COutput.nValue)) {output : COutput}
    (hmem : output ∈ outputs) : output.nValue ≤ (outputs.map COutput.nValue).sum := by
  have hsub : [output.nValue].Sublist (outputs.map COutput.nValue) :=
    List.singleton_sublist.mpr (List.mem_map_of_mem hmem)
  exact (List.sum_singleton).symm.trans_le (hsub.sum_le_sum hv.nonneg)

/-- The sum of the smaller coins is at most that of all, and is that of all when none is larger. -/
theorem CoinScan.Sorted.total_le {scan : CoinScan} (h : scan.Sorted nTargetValue outputs)
    (hv : Amounts (outputs.map COutput.nValue)) :
    scan.nTotalLower ≤ (outputs.map COutput.nValue).sum ∧
      ((∀ output ∈ outputs, ¬ nTargetValue + CENT ≤ output.nValue) →
        scan.nTotalLower = (outputs.map COutput.nValue).sum) := by
  have htotal : scan.nTotalLower =
      ((outputs.filter fun output => output.nValue < nTargetValue + CENT).map COutput.nValue).sum := by
    rw [h.total, h.lower, List.map_map]
    rfl
  rw [htotal]
  refine ⟨(List.filter_sublist.map _).sum_le_sum hv.nonneg, fun hall => ?_⟩
  rw [List.filter_eq_self.mpr fun output hmem => decide_eq_true (not_le.mp (hall output hmem))]

/-- The selection from the coins in an order: there is one just when the eligible coins are enough. -/
theorem selectInOrder_spec (htarget : 0 < nTargetValue ∧ nTargetValue + CENT < 2 ^ 63)
    (houtputs : order.filter (COutput.eligible nConfMine nConfTheirs) = outputs)
    (hnodup : (outputs.map COutput.coin).Nodup) (hv : Amounts (outputs.map COutput.nValue))
    (draws : CoinDraws) :
    (nTargetValue ≤ (outputs.map COutput.nValue).sum ∧
      ∃ coins, selectInOrder nTargetValue draws nConfMine nConfTheirs order = some (takeCoins coins) ∧
        CoinsOf outputs coins ∧ Chosen nTargetValue outputs (coins.map Prod.fst).sum) ∨
    ((outputs.map COutput.nValue).sum < nTargetValue ∧
      selectInOrder nTargetValue draws nConfMine nConfTheirs order = none) := by
  unfold selectInOrder
  have hall : Amounts (([] ++ order.filter (COutput.eligible nConfMine nConfTheirs)).map
      COutput.nValue) := by rwa [List.nil_append, houtputs]
  rcases scanCoins_spec htarget order CoinScan.sorted_nil hall
    with ⟨output, hmem, hexact, hscan⟩ | ⟨scan, hscan, hsorted⟩
  · rw [houtputs] at hmem
    rw [hscan]
    refine .inl ⟨hexact ▸ nValue_le_total hv hmem, [output.valued], rfl, ?_, ?_⟩
    · exact (coinsOf_valued hnodup hv).sublist
        (List.singleton_sublist.mpr (List.mem_map_of_mem hmem))
    · rw [List.map_singleton, List.sum_singleton]
      exact hexact ▸ Chosen.exact
  · rw [List.nil_append, houtputs] at hsorted
    obtain ⟨hlower, hall⟩ := hsorted.total_le hv
    rw [hscan]
    simp only
    split_ifs with hequal hless
    · refine .inl ⟨hequal ▸ hlower, scan.vValue, rfl, hsorted.coinsOf hnodup hv, ?_⟩
      rw [← hsorted.total, hequal]
      exact Chosen.exact
    · cases hlarger : scan.coinLowestLarger.2 with
      | none =>
        rw [hall (hsorted.no_larger hv hlarger)] at hless
        exact .inr ⟨hless, rfl⟩
      | some coin =>
        obtain ⟨hcoins, hchosen⟩ := hsorted.larger_chosen hnodup hv hlarger
        obtain ⟨o, hmem, hvalued, hle⟩ := hsorted.larger coin hlarger
        have htotal := nValue_le_total hv hmem
        refine .inl ⟨?_, _, rfl, hcoins, ?_⟩
        · simp only [CENT] at hle
          omega
        · rw [List.map_singleton, List.sum_singleton]
          exact hchosen
    · have hle := not_lt.mp hless
      exact .inl ⟨hle.trans hlower, _, rfl, selectSubset_spec hnodup hv htarget hsorted hle draws⟩

end

/-- A selection is found just when the eligible coins are enough. It has eligible coins, each once, that
reach the target; and beside an eligible coin that is larger than the target by a cent, it leaves no
change or a cent at least, and is not more than the smallest such coin. -/
theorem selectCoinsMinConf_spec {nTargetValue : Int}
    (htarget : 0 < nTargetValue ∧ nTargetValue + CENT < 2 ^ 63) {vCoins : List COutput}
    (hdistinct : (vCoins.map COutput.outpoint).Nodup) (hpositive : ∀ output ∈ vCoins, 0 < output.nValue)
    (hsum : moneyRange (vCoins.map COutput.nValue).sum = true) (draws : CoinDraws)
    (nConfMine nConfTheirs : Int) :
    ((selectCoinsMinConf nTargetValue draws nConfMine nConfTheirs vCoins).isSome = true ↔
        nTargetValue ≤
          ((vCoins.filter (COutput.eligible nConfMine nConfTheirs)).map COutput.nValue).sum) ∧
      ∀ setCoinsRet nValueRet,
        selectCoinsMinConf nTargetValue draws nConfMine nConfTheirs vCoins =
          some (setCoinsRet, nValueRet) →
        setCoinsRet.Nodup ∧
        (∀ coin ∈ setCoinsRet, ∃ output ∈ vCoins,
          output.eligible nConfMine nConfTheirs = true ∧ output.coin = coin) ∧
        nValueRet = (setCoinsRet.map InputCoin.nValue).sum ∧ nTargetValue ≤ nValueRet ∧
        ∀ output ∈ vCoins, output.eligible nConfMine nConfTheirs = true →
          nTargetValue + CENT ≤ output.nValue →
          (nValueRet = nTargetValue ∨ nTargetValue + CENT ≤ nValueRet) ∧ nValueRet ≤ output.nValue := by
  have hperm := shuffle_perm draws.shuffle vCoins
  have hfilter := hperm.filter (COutput.eligible nConfMine nConfTheirs)
  have hsub : (vCoins.filter (COutput.eligible nConfMine nConfTheirs)).Sublist vCoins :=
    List.filter_sublist
  have hcoins : (vCoins.map COutput.coin).Nodup := by
    refine List.Nodup.of_map (fun coin : InputCoin => (⟨coin.1.hash, coin.2⟩ : COutPoint)) ?_
    rw [List.map_map]
    exact hdistinct
  have hamounts : Amounts (vCoins.map COutput.nValue) :=
    ⟨fun n hn => by
      obtain ⟨output, hmem, rfl⟩ := List.mem_map.mp hn
      exact (hpositive output hmem).le, (moneyRange_iff.mp hsum).2⟩
  have hnodup := ((hfilter.map COutput.coin).nodup_iff).mpr (hcoins.sublist (hsub.map _))
  have hv := (hamounts.sublist (hsub.map _)).perm (hfilter.map COutput.nValue)
  rw [← (hfilter.map COutput.nValue).sum_eq]
  rcases selectInOrder_spec htarget rfl hnodup hv draws
    with ⟨hle, coins, hselect, hcoins, hchosen⟩ | ⟨hless, hselect⟩
  · have htaken := hcoins.taken
    refine ⟨iff_of_true (Option.isSome_iff_exists.mpr ⟨_, hselect⟩) hle, fun ret nValueRet hret => ?_⟩
    have heq : takeCoins coins = (ret, nValueRet) := Option.some.inj (hselect.symm.trans hret)
    have hvalue : nValueRet = (coins.map Prod.fst).sum :=
      congrArg Prod.snd (heq.symm.trans (takeCoins_eq hcoins))
    rw [heq] at htaken
    rw [← hvalue] at hchosen
    refine ⟨htaken.nodup, fun coin hcoin => ?_, htaken.sum, hchosen.enough, fun output hmem helig => ?_⟩
    · obtain ⟨output, hmem, rfl⟩ := htaken.available coin hcoin
      obtain ⟨hmem, helig⟩ := List.mem_filter.mp (hfilter.subset hmem)
      exact ⟨output, hmem, helig, rfl⟩
    · exact hchosen.change output (hfilter.symm.subset (List.mem_filter.mpr ⟨hmem, helig⟩))
  · refine ⟨iff_of_false ?_ (not_le.mpr hless), fun ret nValueRet hret => ?_⟩
    · rw [selectCoinsMinConf, hselect]
      exact Bool.false_ne_true
    · rw [selectCoinsMinConf, hselect] at hret
      cases hret

/-- Two coins of other people, of two and of five cents. -/
def twoCoins : List COutput :=
  [⟨⟨1, [⟨2 * CENT, []⟩], false⟩, 0, 6, true⟩, ⟨⟨2, [⟨5 * CENT, []⟩], false⟩, 0, 6, true⟩]

theorem selectCoinsMinConf_twoCoins : ∃ setCoinsRet nValueRet,
    selectCoinsMinConf (3 * CENT) ⟨fun _ => 0, fun _ => 0, fun _ _ _ => false⟩ 1 6 twoCoins =
        some (setCoinsRet, nValueRet) ∧
      setCoinsRet.Nodup ∧ nValueRet = (setCoinsRet.map InputCoin.nValue).sum ∧
      3 * CENT ≤ nValueRet ∧ nValueRet ≤ 5 * CENT := by
  have htarget : 0 < 3 * CENT ∧ 3 * CENT + CENT < 2 ^ 63 := by decide
  have hdistinct : (twoCoins.map COutput.outpoint).Nodup := by decide
  obtain ⟨hfound, hspec⟩ := selectCoinsMinConf_spec htarget hdistinct (by decide) (by decide)
    ⟨fun _ => 0, fun _ => 0, fun _ _ _ => false⟩ 1 6
  obtain ⟨⟨setCoinsRet, nValueRet⟩, hselect⟩ := Option.isSome_iff_exists.mp (hfound.mpr (by decide))
  obtain ⟨hnodup, -, hsum, htarget, hchange⟩ := hspec setCoinsRet nValueRet hselect
  -- the larger coin bounds the change
  exact ⟨setCoinsRet, nValueRet, hselect, hnodup, hsum, htarget,
    (hchange _ (List.mem_cons_of_mem _ List.mem_cons_self) rfl (by decide)).2⟩

end GC
