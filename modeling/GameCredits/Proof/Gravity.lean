import GameCredits.Proof.Compact

/-!
# The average of the gravity well

`KimotoGravityWell` keeps a running average of the targets it has read. The loop is a sequence of
rounds, cut short by the event horizon (`gravityLoop_eq_rounds`); each round moves the average by a
part of a difference of 256 bits without sign. As long as no target is below the average before it, the
average is the running mean and stays between the least and the greatest target
(`gravityRounds_average`). The first target below it wraps the difference around, and the average leaves
the range of the targets (`kimotoGravityWell_average_iff`).
-/

namespace GC

/-! ## Rounds -/

/-- A round of the loop of `KimotoGravityWell`: all but the tests that end the loop. -/
def gravityRound (TargetBlocksSpacingSeconds : Int) (i : Nat) (BlockReading : CBlockIndex)
    (g : GravityWell) : GravityWell :=
  let PastBlocksMass := g.PastBlocksMass + 1
  let target := setCompact BlockReading.nBits
  let PastDifficultyAverage :=
    if 1 < i then
      ((target + (2 ^ 256 - g.PastDifficultyAveragePrev)) % 2 ^ 256 / i +
        g.PastDifficultyAveragePrev) % 2 ^ 256
    else target
  let LatestBlockTime :=
    if g.LatestBlockTime < BlockReading.getBlockTime ∧ 100000 < BlockReading.nHeight then
      BlockReading.getBlockTime
    else g.LatestBlockTime
  let least : Int := if 100000 < BlockReading.nHeight then 1 else 0
  ⟨PastBlocksMass, max least (LatestBlockTime - BlockReading.getBlockTime),
    TargetBlocksSpacingSeconds * PastBlocksMass, PastDifficultyAverage, PastDifficultyAverage,
    LatestBlockTime⟩

/-- The loop, where nothing ends it. -/
def gravityRounds (TargetBlocksSpacingSeconds : Int) :
    (i : Nat) → List CBlockIndex → GravityWell → GravityWell
  | _, [], g => g
  | i, BlockReading :: rest, g =>
    gravityRounds TargetBlocksSpacingSeconds (i + 1) rest
      (gravityRound TargetBlocksSpacingSeconds i BlockReading g)

/-- Whether the first `n` blocks can be read by the loop from round `i`. -/
def CanRead (PastBlocksMax i : Nat) (chain : List CBlockIndex) (n : Nat) : Prop :=
  n ≤ chain.length ∧ (∀ e ∈ chain.take n, e.nHeight ≠ 0) ∧
    (0 < PastBlocksMax → n = 0 ∨ i + n ≤ PastBlocksMax + 1)

section

variable {spacing : Int} {PastBlocksMin PastBlocksMax : Nat}

theorem gravityLoop_cons (i : Nat) (BlockReading : CBlockIndex) (rest : List CBlockIndex)
    (g : GravityWell) :
    gravityLoop spacing PastBlocksMin PastBlocksMax i (BlockReading :: rest) g =
      if BlockReading.nHeight = 0 ∨ (0 < PastBlocksMax ∧ PastBlocksMax < i) then g
      else
        let g' := gravityRound spacing i BlockReading g
        if PastBlocksMin ≤ g'.PastBlocksMass ∧
            outsideHorizon g'.PastBlocksMass g'.PastRateActualSeconds g'.PastRateTargetSeconds then g'
        else gravityLoop spacing PastBlocksMin PastBlocksMax (i + 1) rest g' :=
  rfl

/-- A run of the loop is a number of rounds on blocks that can be read. -/
theorem gravityLoop_eq_rounds (i : Nat) (chain : List CBlockIndex) (g : GravityWell) :
    ∃ n, CanRead PastBlocksMax i chain n ∧
      gravityLoop spacing PastBlocksMin PastBlocksMax i chain g =
        gravityRounds spacing i (chain.take n) g := by
  induction chain generalizing i g with
  | nil => exact ⟨0, ⟨Nat.le_refl _, by simp, fun _ => .inl rfl⟩, rfl⟩
  | cons e rest ih =>
    rw [gravityLoop_cons]
    split_ifs with hend
    · exact ⟨0, ⟨Nat.zero_le _, by simp, fun _ => .inl rfl⟩, rfl⟩
    rw [not_or, not_and] at hend
    obtain ⟨hheight, hmax⟩ := hend
    dsimp only
    split_ifs with hstop
    · refine ⟨1, ⟨Nat.succ_le_succ (Nat.zero_le _), ?_, fun h => .inr ?_⟩, rfl⟩
      · simpa using hheight
      · have := hmax h
        omega
    · obtain ⟨n, ⟨hlen, hheights, hn⟩, heq⟩ := ih (i + 1) (gravityRound spacing i e g)
      refine ⟨n + 1, ⟨Nat.succ_le_succ hlen, ?_, fun h => .inr ?_⟩, ?_⟩
      · rw [List.take_succ_cons]
        exact List.forall_mem_cons.mpr ⟨hheight, hheights⟩
      · have := hmax h
        rcases hn h with rfl | hn <;> omega
      · rw [heq, List.take_succ_cons, gravityRounds]

end

/-! ## The average -/

/-- The average after a round, as the code computes it. -/
def averageStep (i target PastDifficultyAveragePrev : Nat) : Nat :=
  if 1 < i then
    ((target + (2 ^ 256 - PastDifficultyAveragePrev)) % 2 ^ 256 / i + PastDifficultyAveragePrev) % 2 ^ 256
  else target

/-- The averages of the code, from round `i` on. -/
def averageFrom : (i a : Nat) → List Nat → Nat
  | _, a, [] => a
  | i, a, target :: targets => averageFrom (i + 1) (averageStep i target a) targets

/-- The running mean over unbounded integers, from round `i` on: `a` and a part of what the next
target has over it. -/
def meanFrom : (i a : Nat) → List Nat → Nat
  | _, a, [] => a
  | i, a, target :: targets => meanFrom (i + 1) (a + (target - a) / i) targets

/-- The running mean of targets: the first one, then `a + (target - a) / i` for the `i`-th. -/
def runningMean (targets : List Nat) : Nat := meanFrom 1 0 targets

theorem meanFrom_snoc (i a target : Nat) (targets : List Nat) :
    meanFrom i a (targets ++ [target]) =
      meanFrom i a targets + (target - meanFrom i a targets) / (i + targets.length) := by
  induction targets generalizing i a with
  | nil => rfl
  | cons t ts ih => rw [List.cons_append, meanFrom, ih, meanFrom, List.length_cons, Nat.add_right_comm,
      Nat.add_assoc i]

theorem averageFrom_snoc (i a target : Nat) (targets : List Nat) :
    averageFrom i a (targets ++ [target]) =
      averageStep (i + targets.length) target (averageFrom i a targets) := by
  induction targets generalizing i a with
  | nil => rfl
  | cons t ts ih => rw [List.cons_append, averageFrom, ih, averageFrom, List.length_cons,
      Nat.add_right_comm, Nat.add_assoc i]

/-- The targets of blocks. -/
def targets (chain : List CBlockIndex) : List Nat := chain.map fun e => setCompact e.nBits

theorem gravityRounds_prev (spacing : Int) (i : Nat) (chain : List CBlockIndex) (g : GravityWell) :
    (gravityRounds spacing i chain g).PastDifficultyAveragePrev =
      averageFrom i g.PastDifficultyAveragePrev (targets chain) := by
  induction chain generalizing i g with
  | nil => rfl
  | cons e rest ih => exact ih (i + 1) (gravityRound spacing i e g)

/-- Between rounds the two variables agree. -/
theorem gravityRounds_agree (spacing : Int) (i : Nat) (chain : List CBlockIndex) (g : GravityWell)
    (h : g.PastDifficultyAverage = g.PastDifficultyAveragePrev) :
    (gravityRounds spacing i chain g).PastDifficultyAverage =
      (gravityRounds spacing i chain g).PastDifficultyAveragePrev := by
  induction chain generalizing i g with
  | nil => exact h
  | cons e rest ih => exact ih (i + 1) (gravityRound spacing i e g) rfl

/-- A target that is not below the average: the difference is exact. -/
theorem averageStep_eq {i target a : Nat} (hi : 1 < i ∨ i = 1 ∧ a = 0) (ha : a ≤ target)
    (ht : target < 2 ^ 256) : averageStep i target a = a + (target - a) / i := by
  rcases hi with hi | ⟨rfl, rfl⟩
  · have hdiff : (target + (2 ^ 256 - a)) % 2 ^ 256 = target - a := by omega
    have hle : (target - a) / i ≤ target - a := Nat.div_le_self _ _
    rw [averageStep, if_pos hi, hdiff, Nat.add_comm, Nat.mod_eq_of_lt (by omega)]
  · rw [averageStep, if_neg (Nat.lt_irrefl 1), Nat.div_one]
    omega

/-- A target below the average: the difference wraps around, and the average leaves the limit. -/
theorem averageStep_wraps {i target a limit : Nat} (hi : 1 < i) (ha : target < a) (hlim : a ≤ limit)
    (hwidth : i * (limit + 1) ≤ 2 ^ 256) : limit < averageStep i target a := by
  have hlim' : 2 * (limit + 1) ≤ 2 ^ 256 := (Nat.mul_le_mul_right _ hi).trans hwidth
  have hdiff : (target + (2 ^ 256 - a)) % 2 ^ 256 = 2 ^ 256 - (a - target) := by omega
  have hlow : limit + 1 - (a - target) ≤ (2 ^ 256 - (a - target)) / i := by
    rw [Nat.le_div_iff_mul_le (by omega), Nat.sub_mul]
    have hsub : a - target ≤ (a - target) * i := Nat.le_mul_of_pos_right _ (by omega)
    rw [Nat.mul_comm i] at hwidth
    omega
  have hhigh : (2 ^ 256 - (a - target)) / i ≤ (2 ^ 256 - (a - target)) / 2 :=
    Nat.div_le_div_left hi (by decide)
  rw [averageStep, if_pos hi, hdiff, Nat.mod_eq_of_lt (by omega)]
  omega

/-- Each of the first `N` targets from the second on is at least the running mean of those before. -/
def NeverBelowMean (chain : List CBlockIndex) (N : Nat) : Prop :=
  ∀ n e, 0 < n → n < N → chain[n]? = some e → runningMean (targets (chain.take n)) ≤ setCompact e.nBits

/-- A value lies between the least and the greatest target of blocks. -/
def BetweenTargets (chain : List CBlockIndex) (a : Nat) : Prop :=
  (∃ e ∈ chain, setCompact e.nBits ≤ a) ∧ ∃ e ∈ chain, a ≤ setCompact e.nBits

/-- The state of the loop before the first round. -/
def gravityStart (LatestBlockTime : Int) : GravityWell := ⟨0, 0, 0, 0, 0, LatestBlockTime⟩

/-- The average after the first `n` rounds. -/
def averageAfter (spacing : Int) (chain : List CBlockIndex) (LatestBlockTime : Int) (n : Nat) : Nat :=
  (gravityRounds spacing 1 (chain.take n) (gravityStart LatestBlockTime)).PastDifficultyAverage

theorem averageAfter_eq (spacing : Int) (chain : List CBlockIndex) (LatestBlockTime : Int) (n : Nat) :
    averageAfter spacing chain LatestBlockTime n = averageFrom 1 0 (targets (chain.take n)) := by
  rw [averageAfter, gravityRounds_agree _ _ _ _ rfl, gravityRounds_prev]
  rfl

section

variable {spacing LatestBlockTime : Int} {chain : List CBlockIndex} {N n : Nat} {e : CBlockIndex}

theorem targets_take_succ (he : chain[n]? = some e) :
    targets (chain.take (n + 1)) = targets (chain.take n) ++ [setCompact e.nBits] := by
  rw [List.take_add_one, he, targets, List.map_append]
  rfl

theorem targets_take_length (h : n ≤ chain.length) : (targets (chain.take n)).length = n := by
  rw [targets, List.length_map, List.length_take, Nat.min_eq_left h]

theorem averageAfter_succ (he : chain[n]? = some e) :
    averageAfter spacing chain LatestBlockTime (n + 1) =
      averageStep (1 + n) (setCompact e.nBits) (averageAfter spacing chain LatestBlockTime n) := by
  have hn : n ≤ chain.length := (List.getElem?_eq_some_iff.mp he).1.le
  rw [averageAfter_eq, targets_take_succ he, averageFrom_snoc, targets_take_length hn, averageAfter_eq]

theorem runningMean_succ (he : chain[n]? = some e) :
    runningMean (targets (chain.take (n + 1))) = runningMean (targets (chain.take n)) +
      (setCompact e.nBits - runningMean (targets (chain.take n))) / (1 + n) := by
  have hn : n ≤ chain.length := (List.getElem?_eq_some_iff.mp he).1.le
  rw [targets_take_succ he, runningMean, meanFrom_snoc, targets_take_length hn, runningMean]

/-- The running mean stays between the targets, if no target is below it. -/
theorem runningMean_between (h : NeverBelowMean chain N) (hpos : 0 < n) (hn : n ≤ N)
    (hlen : n ≤ chain.length) :
    BetweenTargets (chain.take n) (runningMean (targets (chain.take n))) := by
  induction n with
  | zero => exact absurd hpos (Nat.lt_irrefl 0)
  | succ n ih =>
    obtain ⟨e, he⟩ : ∃ e, chain[n]? = some e := ⟨_, List.getElem?_eq_getElem hlen⟩
    have htake : chain.take (n + 1) = chain.take n ++ [e] := by
      rw [List.take_add_one, he]
      rfl
    have hmem : e ∈ chain.take (n + 1) := by
      rw [htake]
      exact List.mem_append_right _ List.mem_cons_self
    rw [runningMean_succ he]
    rcases Nat.eq_zero_or_pos n with rfl | hpos'
    · -- the first target is its own mean
      have hone : runningMean (targets (chain.take 0)) +
          (setCompact e.nBits - runningMean (targets (chain.take 0))) / (1 + 0) = setCompact e.nBits := by
        simp [targets, runningMean, meanFrom]
      rw [hone]
      exact ⟨⟨e, hmem, Nat.le_refl _⟩, e, hmem, Nat.le_refl _⟩
    · obtain ⟨⟨low, hlow, hle⟩, -⟩ := ih hpos' (by omega) (by omega)
      have hge := h n e hpos' hn he
      have hdiv : (setCompact e.nBits - runningMean (targets (chain.take n))) / (1 + n) ≤
          setCompact e.nBits - runningMean (targets (chain.take n)) := Nat.div_le_self _ _
      refine ⟨⟨low, ?_, hle.trans (Nat.le_add_right _ _)⟩, e, hmem, by omega⟩
      rw [htake]
      exact List.mem_append_left _ hlow

/-- As long as no target is below the running mean, the average of the code is the running mean. -/
theorem averageAfter_eq_runningMean (hT : ∀ e ∈ chain, setCompact e.nBits < 2 ^ 256)
    (h : NeverBelowMean chain N) (hn : n ≤ N) (hlen : n ≤ chain.length) :
    averageAfter spacing chain LatestBlockTime n = runningMean (targets (chain.take n)) := by
  induction n with
  | zero => rw [averageAfter_eq]; rfl
  | succ n ih =>
    obtain ⟨e, he⟩ : ∃ e, chain[n]? = some e := ⟨_, List.getElem?_eq_getElem hlen⟩
    have hlt := hT e (List.mem_of_getElem? he)
    rw [averageAfter_succ he, ih (by omega) (by omega), runningMean_succ he]
    rcases Nat.eq_zero_or_pos n with rfl | hpos
    · exact averageStep_eq (.inr ⟨rfl, rfl⟩) (Nat.zero_le _) hlt
    · exact averageStep_eq (.inl (by omega)) (h n e hpos hn he) hlt

/-- The averages of the first `N` rounds are averages. -/
def AveragesBetween (spacing : Int) (chain : List CBlockIndex) (LatestBlockTime : Int) (N : Nat) :
    Prop :=
  ∀ n, 0 < n → n ≤ N → BetweenTargets (chain.take n) (averageAfter spacing chain LatestBlockTime n)

theorem gravityRounds_average (hT : ∀ e ∈ chain, setCompact e.nBits < 2 ^ 256)
    (hN : N ≤ chain.length) (h : NeverBelowMean chain N) :
    AveragesBetween spacing chain LatestBlockTime N := by
  intro n hpos hn
  rw [averageAfter_eq_runningMean hT h hn (by omega)]
  exact runningMean_between h hpos hn (by omega)

/-- The first target below the running mean takes the average above the limit of all targets. -/
theorem neverBelowMean_of_average {limit : Nat} (hT : ∀ e ∈ chain, setCompact e.nBits ≤ limit)
    (hN : N ≤ chain.length) (hwidth : N * (limit + 1) ≤ 2 ^ 256)
    (h : AveragesBetween spacing chain LatestBlockTime N) : NeverBelowMean chain N := by
  suffices hall : ∀ M, M ≤ N → NeverBelowMean chain M from hall N (Nat.le_refl N)
  intro M hM
  induction M with
  | zero => exact fun n e _ hn => absurd hn (Nat.not_lt_zero n)
  | succ M ih =>
    have hM' := ih (by omega)
    intro n e hpos hn he
    rcases Nat.lt_or_ge n M with hlt | hge
    · exact hM' n e hpos hlt he
    obtain rfl : n = M := by omega
    by_contra hbelow
    have hlimit : limit < 2 ^ 256 := by
      have := Nat.le_mul_of_pos_left (limit + 1) (by omega : 0 < N)
      omega
    have hmean : averageAfter spacing chain LatestBlockTime n = runningMean (targets (chain.take n)) :=
      averageAfter_eq_runningMean (fun e he => (hT e he).trans_lt hlimit) hM' (Nat.le_refl n) (by omega)
    obtain ⟨-, e₁, he₁, hle₁⟩ := h n hpos (by omega)
    obtain ⟨-, e₂, he₂, hle₂⟩ := h (n + 1) (Nat.succ_pos n) hM
    have hwraps : limit < averageStep (1 + n) (setCompact e.nBits) (runningMean (targets (chain.take n))) :=
      averageStep_wraps (by omega) (Nat.not_le.mp hbelow)
        ((hmean ▸ hle₁).trans (hT e₁ (List.mem_of_mem_take he₁)))
        ((Nat.mul_le_mul_right _ (by omega)).trans hwidth)
    rw [averageAfter_succ he, hmean] at hle₂
    have hle := hT e₂ (List.mem_of_mem_take he₂)
    omega

end

/-- A run of the loop is a number of rounds, and the average after each of the first `N` rounds lies
between the least and the greatest target read if no target is below the running mean of those before.
For up to `2 ^ 20` rounds, which no caller exceeds, it does so only then. -/
theorem kimotoGravityWell_average_iff (chain : List CBlockIndex)
    (hT : ∀ e ∈ chain, 0 < setCompact e.nBits ∧ setCompact e.nBits ≤ mainParams.powLimit)
    (spacing : Int) (PastBlocksMin PastBlocksMax : Nat) (LatestBlockTime : Int) :
    (∃ N, CanRead PastBlocksMax 1 chain N ∧
      gravityLoop spacing PastBlocksMin PastBlocksMax 1 chain (gravityStart LatestBlockTime) =
        gravityRounds spacing 1 (chain.take N) (gravityStart LatestBlockTime)) ∧
    ∀ N, N ≤ chain.length →
      (NeverBelowMean chain N → AveragesBetween spacing chain LatestBlockTime N) ∧
      (N ≤ 2 ^ 20 → AveragesBetween spacing chain LatestBlockTime N → NeverBelowMean chain N) := by
  have hlimit : mainParams.powLimit = 2 ^ 236 - 1 := rfl
  refine ⟨gravityLoop_eq_rounds 1 chain (gravityStart LatestBlockTime), fun N hN => ⟨?_, ?_⟩⟩
  · exact gravityRounds_average (fun e he => (hT e he).2.trans_lt (by rw [hlimit]; decide)) hN
  · intro hmax
    refine neverBelowMean_of_average (fun e he => (hT e he).2) hN ?_
    calc N * (mainParams.powLimit + 1) ≤ 2 ^ 20 * 2 ^ 236 := Nat.mul_le_mul_right _ hmax
      _ = 2 ^ 256 := rfl

/-- A block at a height where the gravity well is in use. -/
def wellBlock (nHeight : Nat) (nBits : UInt32) : CBlockIndex :=
  { CBlockIndex.ofHeader ⟨0, uint256_pos⟩ ⟨2, ⟨0, uint256_pos⟩, ⟨0, uint256_pos⟩, 1400000000, nBits, 0⟩ with
    nHeight := nHeight }

theorem kimotoGravityWell_average_rising :
    AveragesBetween 30 [wellBlock 20000 0x1d00ffff, wellBlock 19999 0x1e0fffff] 1400000000 2 :=
  ((kimotoGravityWell_average_iff [wellBlock 20000 0x1d00ffff, wellBlock 19999 0x1e0fffff]
    (by decide) 30 28 403 1400000000).2 2 (by decide)).1 (by
      intro n e hpos hn he
      obtain rfl : n = 1 := by omega
      cases he
      decide)

/-- An easy block after a hard one: after two rounds the average is above both targets. -/
theorem kimotoGravityWell_average_wraps :
    let chain := [wellBlock 20000 0x1e0fffff, wellBlock 19999 0x1d00ffff]
    (∀ e ∈ chain, 0 < setCompact e.nBits ∧ setCompact e.nBits ≤ mainParams.powLimit) ∧
    CanRead 403 1 chain 2 ∧ ¬ BetweenTargets (chain.take 2) (averageAfter 30 chain 1400000000 2) := by
  refine ⟨by decide, ⟨by decide, by decide, fun _ => .inr (by decide)⟩, ?_⟩
  rintro ⟨-, e, he, hle⟩
  have hmax : ∀ e ∈ [wellBlock 20000 0x1e0fffff, wellBlock 19999 0x1d00ffff], setCompact e.nBits <
      averageAfter 30 [wellBlock 20000 0x1e0fffff, wellBlock 19999 0x1d00ffff] 1400000000 2 := by decide
  exact absurd hle (Nat.not_le.mpr (hmax e he))

end GC
