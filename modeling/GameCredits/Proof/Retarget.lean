import GameCredits.Proof.Compact

/-!
# Retargets on the main network

What the two retarget functions compute when read over unbounded integers, and when the 256 bits of
their intermediate product are enough. `GetNextWorkRequired_V3` always has enough
(`getNextWorkRequiredV3_exact`). `GetNextWorkRequired_OLD` has enough as long as the target times the
actual timespan is below `2 ^ 256`, which a slow period at an easy target breaks
(`getNextWorkRequiredOld_exact_iff`).
-/

namespace GC

open Framework

namespace PowParams

theorem powLimit_main : mainParams.powLimit = 2 ^ 236 - 1 := rfl

theorem mulUint32_eq {n : Nat} {b : Int} (h₀ : 0 ≤ b) (h : b < 2 ^ 32) :
    mulUint32 n b = n * b.toNat % 2 ^ 256 := by
  rw [mulUint32, Int.emod_eq_of_lt h₀ h]

/-- The compact form of the limit keeps its leading 20 bits. -/
theorem le_setCompact_powLimit :
    (2 ^ 20 - 1) * 2 ^ 216 ≤ setCompact (getCompact mainParams.powLimit) := by
  have hsize : mainParams.powLimit.size = 236 :=
    size_eq_succ (k := 235) (by rw [powLimit_main]; decide) (by rw [powLimit_main]; decide)
  rw [setCompact_getCompact (by rw [powLimit_main]; decide)]
  refine le_leading ?_ (by rw [powLimit_main]; decide)
  rw [hsize, compactUnit]
  exact Dvd.intro_left _ rfl

/-- An entry with the target of the limit, at a number of seconds after the one before it. -/
def pacedBlock (spacing nHeight : Nat) : CBlockIndex :=
  { CBlockIndex.ofHeader ⟨0, uint256_pos⟩
      ⟨2, ⟨0, uint256_pos⟩, ⟨0, uint256_pos⟩, UInt32.ofNat (1400000000 + spacing * nHeight), 0x1e0fffff, 0⟩ with
    nHeight := nHeight }

/-! ## GetNextWorkRequired_V3 -/

/-- The spacing of two blocks, clamped to a sixteenth and sixteen times of 90 seconds. -/
def clampedSpacing (pindexLast pindexFirst : CBlockIndex) : Nat :=
  (max 5 (min 1440 (pindexLast.getBlockTime - pindexFirst.getBlockTime))).toNat

theorem clampedSpacing_le (pindexLast pindexFirst : CBlockIndex) :
    clampedSpacing pindexLast pindexFirst ≤ 1440 := by
  unfold clampedSpacing
  omega

/-- The target after a block, over unbounded integers. -/
def nextTargetV3 (T s : Nat) : Nat := min mainParams.powLimit (T * (19 * 90 + 2 * s) / (21 * 90))

theorem nextTargetV3_le (T s : Nat) : nextTargetV3 T s ≤ mainParams.powLimit := Nat.min_le_left _ _

theorem nextTargetV3_mono (T : Nat) {s s' : Nat} (h : s ≤ s') : nextTargetV3 T s ≤ nextTargetV3 T s' :=
  min_le_min_left _ (Nat.div_le_div_right (Nat.mul_le_mul_left T (by omega)))

theorem product_v3_lt {T s : Nat} (hT : T ≤ mainParams.powLimit) (hs : s ≤ 1440) :
    T * (19 * 90 + 2 * s) < 2 ^ 256 := by
  rw [powLimit_main] at hT
  calc T * (19 * 90 + 2 * s) ≤ (2 ^ 236 - 1) * 4590 := Nat.mul_le_mul hT (by omega)
    _ < 2 ^ 256 := by decide

theorem getNextWorkRequiredV3_eq {pindexLast pindexFirst : CBlockIndex} (rest : List CBlockIndex)
    (hT : setCompact pindexLast.nBits ≤ mainParams.powLimit) :
    mainParams.getNextWorkRequiredV3 (pindexLast :: pindexFirst :: rest) =
      some (getCompact (nextTargetV3 (setCompact pindexLast.nBits)
        (clampedSpacing pindexLast pindexFirst))) := by
  have hprod := product_v3_lt hT (clampedSpacing_le pindexLast pindexFirst)
  have hclamp : min (max (pindexLast.getBlockTime - pindexFirst.getBlockTime) (90 / 16)) (90 * 16) =
      (clampedSpacing pindexLast pindexFirst : Int) := by
    unfold clampedSpacing
    omega
  have hmult : ((30 * 60 / 90 - 1) * 90 + 2 * (clampedSpacing pindexLast pindexFirst : Int) : Int).toNat =
      19 * 90 + 2 * clampedSpacing pindexLast pindexFirst := by omega
  have hle := clampedSpacing_le pindexLast pindexFirst
  simp only [getNextWorkRequiredV3, mainParams]
  rw [hclamp, mulUint32_eq (by omega) (by omega), hmult, Nat.mod_eq_of_lt hprod, Nat.min_comm]
  rfl

/-- The retarget of every block is exact: no product wraps, the compact form has no flag and is
within the limit, and more time between two blocks does not make the target smaller. -/
theorem getNextWorkRequiredV3_exact (pindexLast pindexFirst : CBlockIndex) (rest : List CBlockIndex)
    (hT : setCompact pindexLast.nBits ≤ mainParams.powLimit) :
    let T := setCompact pindexLast.nBits
    let s := clampedSpacing pindexLast pindexFirst
    let nBits := getCompact (min mainParams.powLimit (T * (19 * 90 + 2 * s) / (21 * 90)))
    mainParams.getNextWorkRequiredV3 (pindexLast :: pindexFirst :: rest) = some nBits ∧
    19 * 90 + 2 * s < 2 ^ 32 ∧ T * (19 * 90 + 2 * s) < 2 ^ 256 ∧
    setCompactNegative nBits = false ∧ setCompactOverflow nBits = false ∧
    setCompact nBits ≤ mainParams.powLimit ∧
    ∀ (pindexLast' pindexFirst' : CBlockIndex) (rest' : List CBlockIndex) (nBits' : UInt32),
      setCompact pindexLast'.nBits = T →
      pindexLast.getBlockTime - pindexFirst.getBlockTime ≤
        pindexLast'.getBlockTime - pindexFirst'.getBlockTime →
      mainParams.getNextWorkRequiredV3 (pindexLast' :: pindexFirst' :: rest') = some nBits' →
      nBits ≤ nBits' ∧ setCompact nBits ≤ setCompact nBits' := by
  intro T s nBits
  have hs : s ≤ 1440 := clampedSpacing_le pindexLast pindexFirst
  have hlimit : mainParams.powLimit < 2 ^ 256 := by rw [powLimit_main]; decide
  have hnext : nextTargetV3 T s < 2 ^ 256 := (nextTargetV3_le T s).trans_lt hlimit
  obtain ⟨hneg, hover⟩ := getCompact_flags hnext
  refine ⟨getNextWorkRequiredV3_eq rest hT, by omega, product_v3_lt hT hs, hneg, hover,
    (setCompact_getCompact_le hnext).trans (nextTargetV3_le T s), ?_⟩
  intro pindexLast' pindexFirst' rest' nBits' hT' htime hrun
  rw [getNextWorkRequiredV3_eq rest' (hT' ▸ hT), hT'] at hrun
  obtain rfl := Option.some.inj hrun
  have hss : s ≤ clampedSpacing pindexLast' pindexFirst' := by
    show clampedSpacing _ _ ≤ clampedSpacing _ _
    unfold clampedSpacing
    omega
  have hmono := nextTargetV3_mono T hss
  have hlt := (nextTargetV3_le T (clampedSpacing pindexLast' pindexFirst')).trans_lt hlimit
  exact ⟨getCompact_mono hmono hlt, setCompact_getCompact_mono hmono hlt⟩

theorem getNextWorkRequiredV3_limit :
    ∃ nBits, mainParams.getNextWorkRequiredV3 [pacedBlock 90 1, pacedBlock 90 0] = some nBits ∧
      setCompactOverflow nBits = false :=
  have h := getNextWorkRequiredV3_exact (pacedBlock 90 1) (pacedBlock 90 0) [] (by decide)
  ⟨_, h.1, h.2.2.2.2.1⟩

/-! ## GetNextWorkRequired_OLD -/

/-- The number of blocks that the old retarget looks back. -/
def lookBack (nHeight : Nat) : Nat := if nHeight + 1 = 2016 then 2015 else 2016

/-- A retarget height: `T` is the target of the last block, and `t` the actual timespan clamped to a
quarter and four times of the timespan. -/
def RetargetOld (chain : List CBlockIndex) (T t : Nat) : Prop :=
  ∃ pindexLast pindexFirst rest, chain = pindexLast :: rest ∧ (pindexLast.nHeight + 1) % 2016 = 0 ∧
    chain[lookBack pindexLast.nHeight]? = some pindexFirst ∧ T = setCompact pindexLast.nBits ∧
    t = (max (302400 / 4)
      (min (302400 * 4) (pindexLast.getBlockTime - pindexFirst.getBlockTime))).toNat

/-- The target of the next period, over unbounded integers. -/
def nextTargetOld (T t : Nat) : Nat := min mainParams.powLimit (T * t / 302400)

theorem nextTargetOld_le (T t : Nat) : nextTargetOld T t ≤ mainParams.powLimit := Nat.min_le_left _ _

theorem nextTargetOld_mono (T : Nat) {t t' : Nat} (h : t ≤ t') : nextTargetOld T t ≤ nextTargetOld T t' :=
  min_le_min_left _ (Nat.div_le_div_right (Nat.mul_le_mul_left T h))

variable {chain : List CBlockIndex} {T t : Nat}

theorem RetargetOld.timespan_le (h : RetargetOld chain T t) : t ≤ 1209600 := by
  obtain ⟨_, _, _, -, -, -, -, rfl⟩ := h
  omega

/-- What the code computes: the product in 256 bits. -/
theorem RetargetOld.eq (h : RetargetOld chain T t) :
    mainParams.getNextWorkRequiredOld chain =
      some (getCompact (min mainParams.powLimit (T * t % 2 ^ 256 / 302400))) := by
  obtain ⟨pindexLast, pindexFirst, rest, rfl, hheight, hfirst, rfl, ht⟩ := h
  have hclamp : min (max (pindexLast.getBlockTime - pindexFirst.getBlockTime) (302400 / 4)) (302400 * 4) =
      (t : Int) := by omega
  have hback : (if pindexLast.nHeight + 1 ≠ 2016 then 2016 else 2016 - 1) = lookBack pindexLast.nHeight := by
    unfold lookBack
    split_ifs <;> omega
  have hinterval : ((302400 : Int) / 150).toNat = 2016 := rfl
  simp only [getNextWorkRequiredOld, mainParams, hinterval]
  rw [if_neg (by omega), hback, hfirst, Option.map_some, hclamp, mulUint32_eq (by omega) (by omega),
    Nat.min_comm]
  rfl

/-- Without a wrap the run is exact. -/
theorem RetargetOld.exact (h : RetargetOld chain T t) (hlt : T * t < 2 ^ 256) :
    mainParams.getNextWorkRequiredOld chain = some (getCompact (nextTargetOld T t)) := by
  rw [h.eq, Nat.mod_eq_of_lt hlt]
  rfl

/-- The entries up to the first retarget, at a number of seconds each. -/
def firstPeriod (spacing : Nat) : List CBlockIndex :=
  (List.range 2016).map fun i => pacedBlock spacing (2015 - i)

theorem firstPeriod_retarget (spacing : Nat) (h₁ : 75600 ≤ 2015 * spacing)
    (h₂ : 2015 * spacing ≤ 1209600) :
    RetargetOld (firstPeriod spacing) ((2 ^ 20 - 1) * 2 ^ 216) (2015 * spacing) := by
  have hcons : firstPeriod spacing =
      pacedBlock spacing 2015 :: (List.range 2015).map fun i => pacedBlock spacing (2015 - (i + 1)) := by
    rw [firstPeriod, List.range_succ_eq_map, List.map_cons, List.map_map]
    rfl
  have hfirst : (firstPeriod spacing)[2015]? = some (pacedBlock spacing 0) := by
    rw [firstPeriod, List.getElem?_map, List.getElem?_range (by decide)]
    rfl
  have htime : ∀ n, spacing * n ≤ 1209600 →
      (pacedBlock spacing n).getBlockTime = 1400000000 + (spacing * n : Nat) := by
    intro n hn
    show ((UInt32.ofNat (1400000000 + spacing * n)).toNat : Int) = _
    rw [UInt32.toNat_ofNat', Nat.mod_eq_of_lt (by omega)]
    rfl
  refine ⟨pacedBlock spacing 2015, pacedBlock spacing 0, _, hcons, Nat.mod_self 2016, hfirst, ?_, ?_⟩
  · show _ = setCompact 0x1e0fffff
    decide
  · rw [htime 2015 (by omega), htime 0 (by omega)]
    omega

/-- A product that wraps leaves less than three quarters of the limit, where the exact target is the
limit. -/
theorem RetargetOld.wraps (h : RetargetOld chain T t) (hT : T ≤ mainParams.powLimit)
    (hge : 2 ^ 256 ≤ T * t) :
    nextTargetOld T t = mainParams.powLimit ∧
      ∃ n, n < 3 * 2 ^ 234 ∧ mainParams.getNextWorkRequiredOld chain = some (getCompact n) := by
  have hprod : T * t ≤ (2 ^ 236 - 1) * 1209600 := Nat.mul_le_mul hT h.timespan_le
  refine ⟨?_, _, ?_, h.eq⟩
  · rw [nextTargetOld, powLimit_main]
    generalize T * t = P at hge hprod ⊢
    omega
  · rw [powLimit_main]
    generalize T * t = P at hge hprod ⊢
    omega

/-- A compact form of less than three quarters of the limit is not that of the limit. -/
theorem setCompact_lt_powLimit {n : Nat} (hn : n < 3 * 2 ^ 234) :
    setCompact (getCompact n) < setCompact (getCompact mainParams.powLimit) :=
  calc setCompact (getCompact n) ≤ n := setCompact_getCompact_le (by omega)
    _ < (2 ^ 20 - 1) * 2 ^ 216 := by omega
    _ ≤ setCompact (getCompact mainParams.powLimit) := le_setCompact_powLimit

/-- The old retarget is exact, and a slower period does not give a smaller target than a faster one,
if and only if the product of the target and the timespan fits 256 bits. -/
theorem getNextWorkRequiredOld_exact_iff (h : RetargetOld chain T t)
    (hT : T ≤ mainParams.powLimit) :
    (mainParams.getNextWorkRequiredOld chain =
        some (getCompact (min mainParams.powLimit (T * t / 302400))) ∧
      ∀ (fast : List CBlockIndex) (t' : Nat) (nBits nBits' : UInt32),
        RetargetOld fast T t' → t' ≤ t →
        mainParams.getNextWorkRequiredOld chain = some nBits →
        mainParams.getNextWorkRequiredOld fast = some nBits' →
        nBits' ≤ nBits ∧ setCompact nBits' ≤ setCompact nBits) ↔ T * t < 2 ^ 256 := by
  constructor
  · rintro ⟨hexact, -⟩
    by_contra hge
    obtain ⟨hlimit, n, hn, hrun⟩ := h.wraps hT (Nat.not_lt.mp hge)
    have heq : getCompact n = getCompact mainParams.powLimit :=
      Option.some.inj (hrun.symm.trans (hexact.trans (congrArg (some ∘ getCompact) hlimit)))
    exact absurd (congrArg setCompact heq) (setCompact_lt_powLimit hn).ne
  · intro hlt
    refine ⟨h.exact hlt, fun fast t' nBits nBits' hfast htime hrun hrun' => ?_⟩
    have hlt' : T * t' < 2 ^ 256 := (Nat.mul_le_mul_left T htime).trans_lt hlt
    obtain rfl := Option.some.inj ((h.exact hlt).symm.trans hrun)
    obtain rfl := Option.some.inj ((hfast.exact hlt').symm.trans hrun')
    have hmono := nextTargetOld_mono T htime
    have hmax : nextTargetOld T t < 2 ^ 256 :=
      (nextTargetOld_le T t).trans_lt (by rw [powLimit_main]; decide)
    exact ⟨getCompact_mono hmono hmax, setCompact_getCompact_mono hmono hmax⟩

theorem firstPeriod_exact :
    mainParams.getNextWorkRequiredOld (firstPeriod 150) =
      some (getCompact (min mainParams.powLimit ((2 ^ 20 - 1) * 2 ^ 216 * 302250 / 302400))) :=
  ((getNextWorkRequiredOld_exact_iff (firstPeriod_retarget 150 (by decide) (by decide)) (by decide)).mpr
    (by decide)).1

/-- A period at a quarter of the speed, at the limit: the target becomes smaller instead of staying at
the limit. -/
theorem firstPeriod_wraps :
    RetargetOld (firstPeriod 600) ((2 ^ 20 - 1) * 2 ^ 216) 1209000 ∧
    (2 ^ 20 - 1) * 2 ^ 216 ≤ mainParams.powLimit ∧
    ∃ nBits, mainParams.getNextWorkRequiredOld (firstPeriod 600) = some nBits ∧
      nBits ≠ getCompact (min mainParams.powLimit ((2 ^ 20 - 1) * 2 ^ 216 * 1209000 / 302400)) ∧
      setCompact nBits < (2 ^ 20 - 1) * 2 ^ 216 := by
  have hT : (2 ^ 20 - 1) * 2 ^ 216 ≤ mainParams.powLimit := by rw [powLimit_main]; decide
  have hretarget := firstPeriod_retarget 600 (by decide) (by decide)
  obtain ⟨hlimit, n, hn, hrun⟩ := hretarget.wraps hT (by decide)
  refine ⟨hretarget, hT, _, hrun, fun heq => ?_, ?_⟩
  · exact absurd (congrArg setCompact (heq.trans (congrArg getCompact hlimit)))
      (setCompact_lt_powLimit hn).ne
  · calc setCompact (getCompact n) ≤ n := setCompact_getCompact_le (by omega)
      _ < (2 ^ 20 - 1) * 2 ^ 216 := by omega

end PowParams

end GC
