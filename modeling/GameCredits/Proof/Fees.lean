import GameCredits.Model.Fees
import Mathlib.Algebra.BigOperators.Group.Finset.Piecewise
import Mathlib.Tactic.Ring

/-!
# Counters of unconfirmed transactions

The counters of a `TxConfirmStats` are those of the transactions that are recorded with it (`Counted`):
in the slot of the entry height until the object has that many blocks more, and with the old ones from
then on. A block that is higher than every recorded transaction, and next to the best one seen, moves
exactly the right slot (`Counted.clear`), and a transaction that is not above the best block seen is
taken out of the counter where it is (`Counted.remove`). A stale estimates file, or a reorganisation
before the first block is processed, breaks these conditions (`Orderly`).

* `estimator_exact`: the counters in a run where they are met.
-/

namespace GC

open Framework

/-! ## One object -/

/-- Whether a transaction that entered at height `e` is counted with the old ones. -/
abbrev Aged (best size e : Nat) : Prop := best ≠ 0 ∧ e + size ≤ best

/-- One for each transaction recorded with an object and a bucket whose height satisfies `p`. -/
def recorded (kind : StatsKind) (j : Nat) (p : Nat → Prop) [DecidablePred p] (_ : UInt256)
    (info : TxStatsInfo) : ℤ :=
  if info.stats = some kind ∧ info.bucketIndex = j ∧ p info.blockHeight then 1 else 0

section

variable {kind : StatsKind} {j : Nat} {p p' : Nat → Prop} [DecidablePred p] [DecidablePred p']
  {hash : UInt256} {info : TxStatsInfo}

theorem recorded_nonneg (hash : UInt256) (info : TxStatsInfo) : 0 ≤ recorded kind j p hash info := by
  unfold recorded
  split_ifs <;> decide

theorem recorded_other (h : info.stats ≠ some kind) : recorded kind j p hash info = 0 :=
  if_neg fun hinfo => h hinfo.1

end

/-- The counters are those of the transactions that are recorded with the object. -/
structure Counted (best : Nat) (txs : Assoc.Map UInt256 TxStatsInfo) (kind : StatsKind)
    (stats : TxConfirmStats) : Prop where
  slots : ∀ i < stats.maxConfirms, ∀ j < stats.nBuckets, stats.unconfTxs i j =
    Assoc.total (recorded kind j fun e => e % stats.maxConfirms = i ∧ ¬ Aged best stats.maxConfirms e) txs
  old : ∀ j < stats.nBuckets, stats.oldUnconfTxs j =
    Assoc.total (recorded kind j fun e => Aged best stats.maxConfirms e) txs

section

variable {best : Nat} {txs : Assoc.Map UInt256 TxStatsInfo} {kind : StatsKind} {stats : TxConfirmStats}
  {hash : UInt256} {info : TxStatsInfo}

/-- All counters of a bucket together. -/
theorem Counted.sum (h : Counted best txs kind stats) {j : Nat} (hj : j < stats.nBuckets) :
    stats.oldUnconfTxs j + ∑ i ∈ Finset.range stats.maxConfirms, stats.unconfTxs i j =
      Assoc.total (recorded kind j fun _ => True) txs := by
  rw [h.old j hj, Finset.sum_congr rfl fun i hi => h.slots i (Finset.mem_range.mp hi) j hj,
    ← Assoc.total_sum, ← Assoc.total_add]
  refine Assoc.total_congr fun _ info _ => ?_
  unfold recorded
  by_cases hinfo : info.stats = some kind ∧ info.bucketIndex = j
  · obtain ⟨hstats, hbucket⟩ := hinfo
    simp only [hstats, hbucket, true_and]
    by_cases haged : Aged best stats.maxConfirms info.blockHeight
    · rw [if_pos haged, Finset.sum_eq_zero fun i _ => if_neg fun h => h.2 haged, add_zero]
      rfl
    · have hmod : info.blockHeight % stats.maxConfirms ∈ Finset.range stats.maxConfirms :=
        Finset.mem_range.mpr (Nat.mod_lt _ stats.pos)
      simp only [haged, not_false_eq_true, and_true, if_true, if_false, zero_add]
      rw [Finset.sum_ite_eq, if_pos hmod]
  · have hnot : ∀ q : Prop, ¬ (info.stats = some kind ∧ info.bucketIndex = j ∧ q) := fun q h =>
      hinfo ⟨h.1, h.2.1⟩
    simp only [hnot, if_false, Finset.sum_const_zero, add_zero]

/-- An entry that is not recorded with the object makes no difference. -/
theorem Counted.insert_other (h : Counted best txs kind stats)
    (hold : ∀ u, txs.lookup hash = some u → u.stats ≠ some kind) (hinfo : info.stats ≠ some kind) :
    Counted best (txs.insert hash info) kind stats := by
  have htotal : ∀ (j : Nat) (p : Nat → Prop) [DecidablePred p],
      Assoc.total (recorded kind j p) (txs.insert hash info) = Assoc.total (recorded kind j p) txs :=
    fun j p _ => by
      rw [Assoc.total_insert_zero fun u hu => recorded_other (hold u hu), recorded_other hinfo, zero_add]
  exact ⟨fun i hi j hj => by rw [htotal, h.slots i hi j hj], fun j hj => by rw [htotal, h.old j hj]⟩

theorem Counted.erase_other (h : Counted best txs kind stats) (hlookup : txs.lookup hash = some info)
    (hinfo : info.stats ≠ some kind) : Counted best (txs.erase hash) kind stats := by
  have htotal : ∀ (j : Nat) (p : Nat → Prop) [DecidablePred p],
      Assoc.total (recorded kind j p) (txs.erase hash) = Assoc.total (recorded kind j p) txs :=
    fun j p _ => by rw [Assoc.total_erase hlookup, recorded_other hinfo, zero_add]
  exact ⟨fun i hi j hj => by rw [htotal, h.slots i hi j hj], fun j hj => by rw [htotal, h.old j hj]⟩

/-- `NewTx` counts a transaction that is not old. -/
theorem Counted.newTx {e b : Nat} (h : Counted best txs kind stats)
    (hold : ∀ u, txs.lookup hash = some u → u.stats ≠ some kind)
    (haged : ¬ Aged best stats.maxConfirms e) :
    Counted best (txs.insert hash ⟨some kind, e, b⟩) kind (stats.newTx e b) := by
  constructor
  · intro i hi j hj
    rw [Assoc.total_insert_zero fun u hu => recorded_other (hold u hu)]
    show (if i = e % stats.maxConfirms ∧ j = b then stats.unconfTxs i j + 1 else stats.unconfTxs i j) =
      _ + Assoc.total (recorded kind j fun e => e % stats.maxConfirms = i ∧
        ¬ Aged best stats.maxConfirms e) txs
    rw [← h.slots i hi j hj]
    unfold recorded
    by_cases hslot : i = e % stats.maxConfirms ∧ j = b
    · obtain ⟨rfl, rfl⟩ := hslot
      rw [if_pos ⟨rfl, rfl⟩, if_pos ⟨rfl, rfl, rfl, haged⟩, add_comm]
    · rw [if_neg hslot, if_neg fun h => hslot ⟨h.2.2.1.symm, h.2.1.symm⟩, zero_add]
  · intro j hj
    rw [Assoc.total_insert_zero fun u hu => recorded_other (hold u hu)]
    show stats.oldUnconfTxs j =
      _ + Assoc.total (recorded kind j fun e => Aged best stats.maxConfirms e) txs
    rw [← h.old j hj]
    unfold recorded
    rw [if_neg fun h => haged h.2.2, zero_add]

theorem blocksAgo_eq {e : Nat} (he : e ≤ best) (hbest : best < 2 ^ 31) :
    ((best : Int) - e).bmod (2 ^ 32) = best - e := by
  refine Int.bmod_eq_of_le ?_ ?_ <;> omega

/-- The counter where a transaction is counted, and the others, without it. -/
theorem Counted.erase (h : Counted best txs kind stats) (hlookup : txs.lookup hash = some info)
    {stats' : TxConfirmStats}
    (hmax : stats'.maxConfirms = stats.maxConfirms) (hn : stats'.nBuckets = stats.nBuckets)
    (hslots : ∀ i j, stats'.unconfTxs i j = stats.unconfTxs i j -
      recorded kind j (fun e => e % stats.maxConfirms = i ∧ ¬ Aged best stats.maxConfirms e) hash info)
    (hold : ∀ j, stats'.oldUnconfTxs j = stats.oldUnconfTxs j -
      recorded kind j (fun e => Aged best stats.maxConfirms e) hash info) :
    Counted best (txs.erase hash) kind stats' := by
  constructor
  · intro i hi j hj
    rw [hmax] at hi ⊢
    rw [hn] at hj
    rw [hslots, h.slots i hi j hj, Assoc.total_erase hlookup, add_sub_cancel_left]
  · intro j hj
    rw [hn] at hj
    rw [hmax, hold, h.old j hj, Assoc.total_erase hlookup, add_sub_cancel_left]

/-- The height of an entry that is not above the best block seen says where it is counted. -/
theorem Counted.remove (h : Counted best txs kind stats)
    (hlookup : txs.lookup hash = some info) (hkind : info.stats = some kind)
    (hbucket : info.bucketIndex < stats.nBuckets) (hheight : best = 0 ∨ info.blockHeight ≤ best)
    (hbest : best < 2 ^ 31) : ∃ stats',
      stats.removeTx info.blockHeight best info.bucketIndex = some stats' ∧
      Counted best (txs.erase hash) kind stats' ∧ stats'.maxConfirms = stats.maxConfirms ∧
      stats'.nBuckets = stats.nBuckets := by
  have hpos := stats.pos
  obtain ⟨blocksAgo, hblocks, hnonneg, haged⟩ : ∃ blocksAgo : Int,
      (if best = 0 then 0 else ((best : Int) - info.blockHeight).bmod (2 ^ 32)) = blocksAgo ∧
        ¬ blocksAgo < 0 ∧
        ((stats.maxConfirms : Int) ≤ blocksAgo ↔ Aged best stats.maxConfirms info.blockHeight) := by
    by_cases hzero : best = 0
    · exact ⟨0, if_pos hzero, by decide, by omega⟩
    · have hle := hheight.resolve_left hzero
      refine ⟨best - info.blockHeight, ?_, by omega, by omega⟩
      rw [if_neg hzero, blocksAgo_eq hle hbest]
  unfold TxConfirmStats.removeTx
  simp only [hblocks, if_neg hnonneg, haged]
  by_cases hold : Aged best stats.maxConfirms info.blockHeight
  · have hone : recorded kind info.bucketIndex (fun e => Aged best stats.maxConfirms e) hash info = 1 :=
      if_pos ⟨hkind, rfl, hold⟩
    have hcount : 0 < stats.oldUnconfTxs info.bucketIndex := by
      have hle := Assoc.le_total recorded_nonneg hlookup (w := recorded kind info.bucketIndex
        fun e => Aged best stats.maxConfirms e)
      rw [h.old _ hbucket]
      omega
    rw [if_pos hold, if_pos hcount]
    refine ⟨_, rfl, h.erase hlookup rfl rfl (fun i j => ?_) (fun j => ?_), rfl, rfl⟩
    · rw [recorded, if_neg fun h => h.2.2.2 hold, sub_zero]
    · show Function.update _ _ _ _ = _
      by_cases hj : j = info.bucketIndex
      · subst hj
        rw [Function.update_self, hone]
      · rw [Function.update_of_ne hj, recorded, if_neg fun h => hj h.2.1.symm, sub_zero]
  · have hone : recorded kind info.bucketIndex (fun e => e % stats.maxConfirms =
        info.blockHeight % stats.maxConfirms ∧ ¬ Aged best stats.maxConfirms e) hash info = 1 :=
      if_pos ⟨hkind, rfl, rfl, hold⟩
    have hcount : 0 < stats.unconfTxs (info.blockHeight % stats.maxConfirms) info.bucketIndex := by
      have hle := Assoc.le_total recorded_nonneg hlookup (w := recorded kind info.bucketIndex
        fun e => e % stats.maxConfirms = info.blockHeight % stats.maxConfirms ∧
          ¬ Aged best stats.maxConfirms e)
      rw [h.slots _ (Nat.mod_lt _ hpos) _ hbucket]
      omega
    rw [if_neg hold, if_pos hcount]
    refine ⟨_, rfl, h.erase hlookup rfl rfl (fun i j => ?_) (fun j => ?_), rfl, rfl⟩
    · show (if i = info.blockHeight % stats.maxConfirms ∧ j = info.bucketIndex then
        stats.unconfTxs i j + -1 else stats.unconfTxs i j) = _
      by_cases hslot : i = info.blockHeight % stats.maxConfirms ∧ j = info.bucketIndex
      · obtain ⟨rfl, rfl⟩ := hslot
        rw [if_pos ⟨rfl, rfl⟩, hone]
        rfl
      · rw [if_neg hslot, recorded, if_neg fun h => hslot ⟨h.2.2.1.symm, h.2.1.symm⟩, sub_zero]
    · rw [recorded, if_neg fun h => hold h.2.2, sub_zero]
      rfl

/-- The slot of a new block is the one of the transactions that become old. -/
theorem Counted.clear {nBlockHeight : Nat} (h : Counted best txs kind stats)
    (hbest : best < nBlockHeight)
    (hheight : ∀ hash info, txs.lookup hash = some info → info.stats = some kind →
      info.blockHeight < nBlockHeight ∧
        (best + 1 = nBlockHeight ∨ nBlockHeight ≤ info.blockHeight + 1)) :
    Counted nBlockHeight txs kind (stats.clearCurrent nBlockHeight) := by
  have haged : ∀ hash info, txs.lookup hash = some info → info.stats = some kind →
      (Aged nBlockHeight stats.maxConfirms info.blockHeight ↔
        Aged best stats.maxConfirms info.blockHeight ∨
          (info.blockHeight % stats.maxConfirms = nBlockHeight % stats.maxConfirms ∧
            ¬ Aged best stats.maxConfirms info.blockHeight)) := fun hash info hlookup hkind => by
    obtain ⟨hlt, hnext⟩ := hheight hash info hlookup hkind
    have hpos := stats.pos
    constructor
    · rintro ⟨-, hle⟩
      by_cases hbefore : Aged best stats.maxConfirms info.blockHeight
      · exact .inl hbefore
      · have heq : nBlockHeight = info.blockHeight + stats.maxConfirms := by omega
        rw [heq, Nat.add_mod_right]
        exact .inr ⟨rfl, hbefore⟩
    · rintro (⟨-, hle⟩ | ⟨hmod, -⟩)
      · exact ⟨by omega, by omega⟩
      · have hdvd := Nat.dvd_of_mod_eq_zero (Nat.sub_mod_eq_zero_of_mod_eq hmod.symm)
        have hle := Nat.le_of_dvd (by omega) hdvd
        exact ⟨by omega, by omega⟩
  constructor
  · intro i hi j hj
    have hj : j < stats.nBuckets := hj
    show (if j < stats.nBuckets ∧ i = nBlockHeight % stats.maxConfirms then 0
      else stats.unconfTxs i j) = Assoc.total (recorded kind j fun e =>
        e % stats.maxConfirms = i ∧ ¬ Aged nBlockHeight stats.maxConfirms e) txs
    by_cases hslot : i = nBlockHeight % stats.maxConfirms
    · subst hslot
      rw [if_pos ⟨hj, rfl⟩, ← Assoc.total_zero txs]
      refine Assoc.total_congr fun hash info hlookup => (if_neg ?_).symm
      rintro ⟨hkind, -, hmod, hnot⟩
      refine hnot ((haged hash info hlookup hkind).mpr ?_)
      by_cases hbefore : Aged best stats.maxConfirms info.blockHeight
      · exact .inl hbefore
      · exact .inr ⟨hmod, hbefore⟩
    · rw [if_neg fun h => hslot h.2, h.slots i hi j hj]
      refine Assoc.total_congr fun hash info hlookup => ?_
      unfold recorded
      refine if_congr (and_congr_right fun hkind => and_congr_right fun _ =>
        and_congr_right fun hmod => not_congr ?_) rfl rfl
      rw [haged hash info hlookup hkind, hmod]
      exact ⟨.inl, fun h => h.elim id fun h => absurd h.1 hslot⟩
  · intro j hj
    have hj : j < stats.nBuckets := hj
    show (if j < stats.nBuckets then stats.oldUnconfTxs j +
      stats.unconfTxs (nBlockHeight % stats.maxConfirms) j else stats.oldUnconfTxs j) =
        Assoc.total (recorded kind j fun e => Aged nBlockHeight stats.maxConfirms e) txs
    rw [if_pos hj, h.old j hj, h.slots _ (Nat.mod_lt _ stats.pos) j hj, ← Assoc.total_add]
    refine Assoc.total_congr fun hash info hlookup => ?_
    unfold recorded
    by_cases hinfo : info.stats = some kind ∧ info.bucketIndex = j
    · have hiff := haged hash info hlookup hinfo.1
      simp only [hinfo, true_and]
      by_cases hbefore : Aged best stats.maxConfirms info.blockHeight
      · rw [if_pos hbefore, if_neg fun h => h.2 hbefore, if_pos (hiff.mpr (.inl hbefore)), add_zero]
      · by_cases hmod : info.blockHeight % stats.maxConfirms = nBlockHeight % stats.maxConfirms
        · rw [if_neg hbefore, if_pos ⟨hmod, hbefore⟩, if_pos (hiff.mpr (.inr ⟨hmod, hbefore⟩)), zero_add]
        · rw [if_neg hbefore, if_neg fun h => hmod h.1, if_neg fun h => (hiff.mp h).elim hbefore
            fun h => hmod h.1, add_zero]
    · have hnot : ∀ q : Prop, ¬ (info.stats = some kind ∧ info.bucketIndex = j ∧ q) := fun q h =>
        hinfo ⟨h.1, h.2.1⟩
      simp only [hnot, if_false, add_zero]

/-- The counters of unconfirmed transactions and the sizes are the same. -/
structure SameUnconf (stats stats' : TxConfirmStats) : Prop where
  maxConfirms : stats'.maxConfirms = stats.maxConfirms
  nBuckets : stats'.nBuckets = stats.nBuckets
  unconfTxs : stats'.unconfTxs = stats.unconfTxs
  oldUnconfTxs : stats'.oldUnconfTxs = stats.oldUnconfTxs

theorem Counted.same {stats' : TxConfirmStats} (h : Counted best txs kind stats)
    (hsame : SameUnconf stats stats') : Counted best txs kind stats' := by
  obtain ⟨hmax, hn, hunconf, hold⟩ := hsame
  constructor
  · rw [hmax, hn, hunconf]
    exact h.slots
  · rw [hmax, hn, hold]
    exact h.old

theorem record_same (blocksToConfirm : Int) (bucketindex : Nat) :
    SameUnconf stats (stats.record blocksToConfirm bucketindex) := by
  unfold TxConfirmStats.record
  split_ifs <;> exact ⟨rfl, rfl, rfl, rfl⟩

/-- Where nothing is recorded with the object the best block makes no difference. -/
theorem Counted.at_any_best (h : Counted best txs kind stats) (best' : Nat)
    (hnone : ∀ hash info, txs.lookup hash = some info → info.stats ≠ some kind) :
    Counted best' txs kind stats := by
  have htotal : ∀ (j : Nat) (p p' : Nat → Prop) [DecidablePred p] [DecidablePred p'],
      Assoc.total (recorded kind j p) txs = Assoc.total (recorded kind j p') txs := fun j p p' _ _ =>
    Assoc.total_congr fun hash info hlookup => by
      rw [recorded_other (hnone hash info hlookup), recorded_other (hnone hash info hlookup)]
  exact ⟨fun i hi j hj => (h.slots i hi j hj).trans (htotal ..),
    fun j hj => (h.old j hj).trans (htotal ..)⟩

end

/-! ## The estimator -/

namespace CBlockPolicyEstimator

variable {est : CBlockPolicyEstimator} {hash : UInt256} {info : TxStatsInfo} {kind kind' : StatsKind}

@[simp] theorem stats_setStats (stats : TxConfirmStats) : (est.setStats stats kind).stats kind' =
    if kind' = kind then stats else est.stats kind' := by
  cases kind <;> cases kind' <;> rfl

@[simp] theorem mapMemPoolTxs_setStats (stats : TxConfirmStats) :
    (est.setStats stats kind).mapMemPoolTxs = est.mapMemPoolTxs := by cases kind <;> rfl

@[simp] theorem nBestSeenHeight_setStats (stats : TxConfirmStats) :
    (est.setStats stats kind).nBestSeenHeight = est.nBestSeenHeight := by cases kind <;> rfl

/-- The estimator with another map. -/
def withTxs (est : CBlockPolicyEstimator) (txs : Assoc.Map UInt256 TxStatsInfo) :
    CBlockPolicyEstimator :=
  { est with mapMemPoolTxs := txs }

@[simp] theorem stats_withTxs (txs : Assoc.Map UInt256 TxStatsInfo) :
    (est.withTxs txs).stats kind = est.stats kind := by cases kind <;> rfl

/-- An entry that is recorded with an object. -/
def Records (est : CBlockPolicyEstimator) (hash : UInt256) (info : TxStatsInfo) (kind : StatsKind) :
    Prop :=
  est.mapMemPoolTxs.lookup hash = some info ∧ info.stats = some kind

/-- The counters of both objects are those of the entries, which have buckets of their objects. -/
structure Exact (est : CBlockPolicyEstimator) : Prop where
  counted : ∀ kind, Counted est.nBestSeenHeight est.mapMemPoolTxs kind (est.stats kind)
  bucket : ∀ hash info kind, est.Records hash info kind → info.bucketIndex < (est.stats kind).nBuckets

theorem Exact.init (nFeeBuckets nPriBuckets : Nat) :
    Exact (.init nFeeBuckets nPriBuckets) := by
  refine ⟨fun kind => ?_, fun _ _ _ h => by cases h.1⟩
  cases kind <;> exact ⟨fun _ _ _ _ => rfl, fun _ _ => rfl⟩

/-- A file changes the sizes only. -/
theorem Exact.read (nFeeBuckets nPriBuckets : Nat) (file : EstimatesFile) :
    Exact ((CBlockPolicyEstimator.init nFeeBuckets nPriBuckets).read file) := by
  refine ⟨fun kind => ?_, fun _ _ _ h => by cases h.1⟩
  cases kind <;>
  · refine ⟨fun _ _ _ _ => ?_, fun _ _ => ?_⟩
    · exact ite_self _
    · exact ite_self _

/-- What `removeTx` does to an entry that is recorded. -/
theorem Exact.removeTx (h : Exact est) (hrecords : est.Records hash info kind)
    (hheight : est.nBestSeenHeight = 0 ∨ info.blockHeight ≤ est.nBestSeenHeight)
    (hbest : est.nBestSeenHeight < 2 ^ 31) : ∃ stats',
      (est.stats kind).removeTx info.blockHeight est.nBestSeenHeight info.bucketIndex = some stats' ∧
      est.removeTx hash = (est.setStats stats' kind).withTxs (est.mapMemPoolTxs.erase hash) ∧
      Exact (est.removeTx hash) := by
  obtain ⟨hlookup, hkind⟩ := hrecords
  obtain ⟨stats', hremove, hcounted, hmax, hn⟩ :=
    (h.counted kind).remove hlookup hkind (h.bucket _ _ _ ⟨hlookup, hkind⟩) hheight hbest
  have heq : est.removeTx hash = (est.setStats stats' kind).withTxs (est.mapMemPoolTxs.erase hash) := by
    rw [CBlockPolicyEstimator.removeTx, hlookup]
    simp only [hkind, hremove]
    rfl
  refine ⟨stats', hremove, heq, ?_⟩
  rw [heq]
  constructor
  · intro kind'
    rw [stats_withTxs, stats_setStats]
    show Counted (est.setStats stats' kind).nBestSeenHeight _ _ _
    rw [nBestSeenHeight_setStats]
    split_ifs with hsame
    · exact hsame ▸ hcounted
    · exact (h.counted kind').erase_other hlookup fun h => hsame (Option.some.inj (hkind ▸ h)).symm
  · intro hash' info' kind' hrecords
    obtain ⟨hlookup', hkind'⟩ := hrecords
    have hbefore := h.bucket hash' info' kind' ⟨(Assoc.lookup_erase_iff.mp hlookup').2, hkind'⟩
    rw [stats_withTxs, stats_setStats]
    split_ifs with hsame
    · subst hsame
      rwa [hn]
    · exact hbefore

/-- What `processTransaction` does: nothing, a change of an entry that is not recorded, or a new
transaction that is counted. -/
inductive Processed (est : CBlockPolicyEstimator) (hash : UInt256) (txHeight : Nat)
    (dataPoint : DataPoint) (fCurrentEstimate : Bool) : CBlockPolicyEstimator → Prop
  | same : Processed est hash txHeight dataPoint fCurrentEstimate est
  | put {info : TxStatsInfo} (hinfo : info.stats = none) :
      Processed est hash txHeight dataPoint fCurrentEstimate
        (est.withTxs (est.mapMemPoolTxs.insert hash info))
  | new {kind : StatsKind} {bucketindex : Nat} (hpoint : dataPoint = some (kind, bucketindex))
      (hheight : est.nBestSeenHeight ≤ txHeight) (hcurrent : fCurrentEstimate = true) :
      Processed est hash txHeight dataPoint fCurrentEstimate
        ((est.withTxs (est.mapMemPoolTxs.insert hash ⟨some kind, txHeight, bucketindex⟩)).setStats
          ((est.stats kind).newTx txHeight bucketindex) kind)

theorem processTransaction_cases (est : CBlockPolicyEstimator) (hash : UInt256) (txHeight : Nat)
    (fWasClearAtEntry fCurrentEstimate : Bool) (dataPoint : DataPoint) :
    (∃ info kind, est.Records hash info kind) ∧
      est.processTransaction hash txHeight fWasClearAtEntry dataPoint fCurrentEstimate = est ∨
    (∀ info, est.mapMemPoolTxs.lookup hash = some info → info.stats = none) ∧
      Processed est hash txHeight dataPoint fCurrentEstimate
        (est.processTransaction hash txHeight fWasClearAtEntry dataPoint fCurrentEstimate) := by
  obtain ⟨info, hinfo⟩ : ∃ info, (est.mapMemPoolTxs.lookup hash).getD .default = info := ⟨_, rfl⟩
  unfold processTransaction
  simp only [hinfo]
  cases hstats : info.stats with
  | some kind =>
    refine .inl ⟨⟨info, kind, ?_, hstats⟩, rfl⟩
    cases hlookup : est.mapMemPoolTxs.lookup hash with
    | none =>
      rw [hlookup] at hinfo
      subst hinfo
      cases hstats
    | some u =>
      rw [hlookup] at hinfo
      rw [← hinfo]
      rfl
  | none =>
    refine .inr ⟨fun u hu => ?_, ?_⟩
    · rw [hu] at hinfo
      exact (congrArg TxStatsInfo.stats hinfo).trans hstats
    · simp only [Option.isSome_none, Bool.false_eq_true, if_false]
      split_ifs with hignored
      · exact .put hstats
      · simp only [Bool.or_eq_true, decide_eq_true_eq, Bool.not_eq_true', not_or, Nat.not_lt,
          Bool.not_eq_false] at hignored
        cases dataPoint with
        | none => exact .put rfl
        | some point => exact .new rfl hignored.1.1 hignored.1.2

/-- An entry that is not recorded makes no difference. -/
theorem records_put (hinfo : info.stats = none) {hash' : UInt256} {info' : TxStatsInfo} :
    (est.withTxs (est.mapMemPoolTxs.insert hash info)).Records hash' info' kind →
      est.Records hash' info' kind := by
  rintro ⟨hlookup, hkind⟩
  rcases Assoc.lookup_insert_iff.mp hlookup with ⟨-, rfl⟩ | ⟨-, hlookup⟩
  · rw [hinfo] at hkind
    cases hkind
  · exact ⟨hlookup, hkind⟩

theorem Exact.put (h : Exact est)
    (hnone : ∀ u, est.mapMemPoolTxs.lookup hash = some u → u.stats = none) (hinfo : info.stats = none) :
    Exact (est.withTxs (est.mapMemPoolTxs.insert hash info)) := by
  constructor
  · intro kind
    rw [stats_withTxs]
    refine (h.counted kind).insert_other (fun u hu => ?_) ?_
    · rw [hnone u hu]
      exact nofun
    · rw [hinfo]
      exact nofun
  · intro hash' info' kind hrecords
    rw [stats_withTxs]
    exact h.bucket _ _ _ (records_put hinfo hrecords)

theorem Exact.erase (h : Exact est) (hlookup : est.mapMemPoolTxs.lookup hash = some info)
    (hinfo : info.stats = none) : Exact (est.withTxs (est.mapMemPoolTxs.erase hash)) := by
  constructor
  · intro kind
    rw [stats_withTxs]
    refine (h.counted kind).erase_other hlookup ?_
    rw [hinfo]
    exact nofun
  · rintro hash' info' kind ⟨hlookup', hkind⟩
    rw [stats_withTxs]
    exact h.bucket hash' info' kind ⟨(Assoc.lookup_erase_iff.mp hlookup').2, hkind⟩

theorem Exact.new (h : Exact est)
    (hnone : ∀ u, est.mapMemPoolTxs.lookup hash = some u → u.stats = none) {txHeight bucketindex : Nat}
    (hheight : est.nBestSeenHeight ≤ txHeight) (hbucket : bucketindex < (est.stats kind).nBuckets) :
    Exact ((est.withTxs (est.mapMemPoolTxs.insert hash ⟨some kind, txHeight, bucketindex⟩)).setStats
      ((est.stats kind).newTx txHeight bucketindex) kind) := by
  have hother : ∀ kind' u, est.mapMemPoolTxs.lookup hash = some u → u.stats ≠ some kind' :=
    fun kind' u hu h => by
      rw [hnone u hu] at h
      cases h
  have hpos := (est.stats kind).pos
  constructor
  · intro kind'
    rw [stats_setStats, stats_withTxs, mapMemPoolTxs_setStats, nBestSeenHeight_setStats]
    split_ifs with hsame
    · subst hsame
      exact (h.counted kind').newTx (hother kind') fun haged => by
        have := haged.2
        omega
    · exact (h.counted kind').insert_other (hother kind') fun h => hsame (Option.some.inj h).symm
  · rintro hash' info' kind' ⟨hlookup, hkind⟩
    rw [mapMemPoolTxs_setStats] at hlookup
    rw [stats_setStats, stats_withTxs]
    have hsize : ((est.stats kind).newTx txHeight bucketindex).nBuckets = (est.stats kind).nBuckets := rfl
    rcases Assoc.lookup_insert_iff.mp hlookup with ⟨-, rfl⟩ | ⟨-, hlookup⟩
    · rw [if_pos (Option.some.inj hkind).symm, hsize]
      exact hbucket
    · have hbefore := h.bucket hash' info' kind' ⟨hlookup, hkind⟩
      split_ifs with hsame
      · subst hsame
        rwa [hsize]
      · exact hbefore

/-! ### Blocks -/

theorem processBlockTx_frame (est : CBlockPolicyEstimator) (nBlockHeight : Nat) (entry : ConfirmedEntry) :
    (est.processBlockTx nBlockHeight entry).nBestSeenHeight = est.nBestSeenHeight ∧
      (est.processBlockTx nBlockHeight entry).mapMemPoolTxs = est.mapMemPoolTxs ∧
      ∀ kind, SameUnconf (est.stats kind) ((est.processBlockTx nBlockHeight entry).stats kind) := by
  unfold processBlockTx
  simp only
  split_ifs
  · exact ⟨rfl, rfl, fun _ => ⟨rfl, rfl, rfl, rfl⟩⟩
  · split
    · exact ⟨rfl, rfl, fun _ => ⟨rfl, rfl, rfl, rfl⟩⟩
    · refine ⟨nBestSeenHeight_setStats _, mapMemPoolTxs_setStats _, fun kind => ?_⟩
      rw [stats_setStats]
      split_ifs with hsame
      · exact hsame ▸ record_same _ _
      · exact ⟨rfl, rfl, rfl, rfl⟩

theorem Exact.processBlockTx (h : Exact est) (nBlockHeight : Nat) (entry : ConfirmedEntry) :
    Exact (est.processBlockTx nBlockHeight entry) := by
  obtain ⟨hbest, htxs, hsame⟩ := est.processBlockTx_frame nBlockHeight entry
  refine ⟨fun kind => ?_, fun hash info kind hrecords => ?_⟩
  · rw [hbest, htxs]
    exact (h.counted kind).same (hsame kind)
  · rw [Records, htxs] at hrecords
    rw [(hsame kind).nBuckets]
    exact h.bucket _ _ _ hrecords

theorem Exact.processBlockTxs (h : Exact est) (nBlockHeight : Nat) (entries : List ConfirmedEntry) :
    Exact (entries.foldl (fun est entry => est.processBlockTx nBlockHeight entry) est) ∧
      (entries.foldl (fun est entry => est.processBlockTx nBlockHeight entry) est).nBestSeenHeight =
        est.nBestSeenHeight ∧
      (entries.foldl (fun est entry => est.processBlockTx nBlockHeight entry) est).mapMemPoolTxs =
        est.mapMemPoolTxs := by
  induction entries generalizing est with
  | nil => exact ⟨h, rfl, rfl⟩
  | cons entry entries ih =>
    obtain ⟨hbest, htxs, -⟩ := est.processBlockTx_frame nBlockHeight entry
    obtain ⟨hexact, hbest', htxs'⟩ := ih (h.processBlockTx nBlockHeight entry)
    exact ⟨hexact, hbest'.trans hbest, htxs'.trans htxs⟩

/-- A block that is the next one, and higher than every recorded transaction. -/
theorem Exact.processBlock (h : Exact est) {nBlockHeight : Nat} (entries : List ConfirmedEntry)
    (fCurrentEstimate : Bool) (hbest : est.nBestSeenHeight < nBlockHeight)
    (hheight : ∀ hash info kind, est.Records hash info kind → info.blockHeight < nBlockHeight ∧
      (est.nBestSeenHeight + 1 = nBlockHeight ∨ nBlockHeight ≤ info.blockHeight + 1))
    (hcurrent : ∀ hash info kind, est.Records hash info kind → fCurrentEstimate = true) :
    Exact (est.processBlock nBlockHeight entries fCurrentEstimate) ∧
      (est.processBlock nBlockHeight entries fCurrentEstimate).nBestSeenHeight = nBlockHeight ∧
      (est.processBlock nBlockHeight entries fCurrentEstimate).mapMemPoolTxs = est.mapMemPoolTxs := by
  unfold CBlockPolicyEstimator.processBlock
  rw [if_neg (Nat.not_le.mpr hbest)]
  cases fCurrentEstimate with
  | false =>
    refine ⟨⟨fun kind => ?_, h.bucket⟩, rfl, rfl⟩
    exact (h.counted kind).at_any_best _ fun hash info hlookup hkind =>
      absurd (hcurrent hash info kind ⟨hlookup, hkind⟩) Bool.false_ne_true
  | true =>
    have hclear : Exact { est with
        nBestSeenHeight := nBlockHeight
        feeStats := est.feeStats.clearCurrent nBlockHeight
        priStats := est.priStats.clearCurrent nBlockHeight } := by
      refine ⟨fun kind => ?_, fun hash info kind hrecords => ?_⟩
      · have hcounted := (h.counted kind).clear hbest fun hash info hlookup hkind =>
          hheight hash info kind ⟨hlookup, hkind⟩
        cases kind <;> exact hcounted
      · have hbucket := h.bucket hash info kind hrecords
        cases kind <;> exact hbucket
    exact hclear.processBlockTxs nBlockHeight entries

end CBlockPolicyEstimator

/-! ## Runs -/

namespace EstimatorSystem

variable {s s' : EstimatorSystem}

/-- A transaction that leaves is not above the best block seen, and a block is higher than every
transaction recorded. -/
def orderly (s : EstimatorSystem) : EstimatorOp → Bool
  | .removeTx hash =>
    (s.est.mapMemPoolTxs.lookup hash).all fun info =>
      info.stats.isNone || s.est.nBestSeenHeight == 0 ||
        decide (info.blockHeight ≤ s.est.nBestSeenHeight)
  | .connectTip _ =>
    decide (s.tip + 1 ≤ s.est.nBestSeenHeight) ||
      s.est.mapMemPoolTxs.entries.all fun entry =>
        entry.2.stats.isNone || decide (entry.2.blockHeight ≤ s.tip)
  | _ => true

structure Sound (s : EstimatorSystem) : Prop where
  exact : s.est.Exact
  height : ∀ hash info kind, s.est.Records hash info kind →
    info.blockHeight < 2 ^ 31 ∧ s.est.nBestSeenHeight < 2 ^ 31
  synced : ∀ hash info kind, s.est.Records hash info kind → s.fCurrentEstimate = true
  phase : s.tip ≤ s.est.nBestSeenHeight ∨
    ∀ hash info kind, s.est.Records hash info kind → s.tip ≤ info.blockHeight
  tip : s.tip < 2 ^ 31

theorem Sound.init (h : Starts s) : Sound s := by
  obtain ⟨htip, nFeeBuckets, nPriBuckets, hest⟩ := h
  have hnone : ∀ hash info kind, ¬ s.est.Records hash info kind := fun hash info kind hrecords => by
    rcases hest with hest | ⟨file, hest⟩ <;>
    · rw [hest] at hrecords
      cases hrecords.1
  refine ⟨?_, fun _ _ _ h => absurd h (hnone _ _ _), fun _ _ _ h => absurd h (hnone _ _ _),
    .inr fun _ _ _ h => absurd h (hnone _ _ _), htip⟩
  rcases hest with hest | ⟨file, hest⟩
  · exact hest ▸ .init nFeeBuckets nPriBuckets
  · exact hest ▸ .read nFeeBuckets nPriBuckets file

/-- A step that keeps the tip and the best block seen, and records nothing new. -/
theorem Sound.fewer {est : CBlockPolicyEstimator} (h : Sound s) (hexact : est.Exact)
    (hbest : est.nBestSeenHeight = s.est.nBestSeenHeight)
    (hrecords : ∀ hash info kind, est.Records hash info kind → s.est.Records hash info kind) :
    Sound { s with est } := by
  refine ⟨hexact, fun _ _ _ hr => ?_, fun _ _ _ hr => h.synced _ _ _ (hrecords _ _ _ hr),
    h.phase.imp (fun hle => ?_) (fun hle _ _ _ hr => hle _ _ _ (hrecords _ _ _ hr)), h.tip⟩
  · show _ ∧ est.nBestSeenHeight < 2 ^ 31
    rw [hbest]
    exact h.height _ _ _ (hrecords _ _ _ hr)
  · show s.tip ≤ est.nBestSeenHeight
    rwa [hbest]

theorem Sound.processed {hash : UInt256} {dataPoint : DataPoint} {est : CBlockPolicyEstimator}
    (h : Sound s) (hnone : ∀ info, s.est.mapMemPoolTxs.lookup hash = some info → info.stats = none)
    (hvalid : validPoint s.est dataPoint = true)
    (hprocessed : s.est.Processed hash s.tip dataPoint s.fCurrentEstimate est) :
    Sound { s with est } := by
  cases hprocessed with
  | same => exact h
  | put hinfo =>
    exact h.fewer (h.exact.put hnone hinfo) rfl fun _ _ _ => CBlockPolicyEstimator.records_put hinfo
  | @new kind bucketindex hpoint hheight hcurrent =>
    subst hpoint
    have hexact := h.exact.new hnone hheight (of_decide_eq_true hvalid)
    obtain ⟨est, hest⟩ : ∃ est, (s.est.withTxs (s.est.mapMemPoolTxs.insert hash
      ⟨some kind, s.tip, bucketindex⟩)).setStats ((s.est.stats kind).newTx s.tip bucketindex) kind =
        est := ⟨_, rfl⟩
    have hbest : est.nBestSeenHeight = s.est.nBestSeenHeight := by
      rw [← hest]
      exact CBlockPolicyEstimator.nBestSeenHeight_setStats _
    have hrecords : ∀ hash' info' kind', est.Records hash' info' kind' →
        info'.blockHeight = s.tip ∨ s.est.Records hash' info' kind' := by
      rintro hash' info' kind' ⟨hlookup, hkind⟩
      rw [← hest, CBlockPolicyEstimator.mapMemPoolTxs_setStats] at hlookup
      rcases Assoc.lookup_insert_iff.mp hlookup with ⟨-, rfl⟩ | ⟨-, hlookup⟩
      · exact .inl rfl
      · exact .inr ⟨hlookup, hkind⟩
    rw [hest] at hexact ⊢
    have htip := h.tip
    refine ⟨hexact, fun _ _ _ hr => ?_, fun _ _ _ _ => hcurrent, h.phase.imp (fun hle => ?_)
      (fun hle _ _ _ hr => ?_), htip⟩
    · show _ ∧ est.nBestSeenHeight < 2 ^ 31
      rw [hbest]
      rcases hrecords _ _ _ hr with heq | hr
      · exact ⟨by omega, by omega⟩
      · exact h.height _ _ _ hr
    · show s.tip ≤ est.nBestSeenHeight
      rwa [hbest]
    · rcases hrecords _ _ _ hr with heq | hr
      · exact heq.ge
      · exact hle _ _ _ hr

theorem Sound.processTransaction {hash : UInt256} {fWasClearAtEntry : Bool} {dataPoint : DataPoint}
    (h : Sound s) (hstep : s.step (.processTransaction hash fWasClearAtEntry dataPoint) = some s') :
    Sound s' := by
  simp only [EstimatorSystem.step] at hstep
  split_ifs at hstep with hvalid
  cases hstep
  rcases s.est.processTransaction_cases hash s.tip fWasClearAtEntry s.fCurrentEstimate dataPoint with
    ⟨-, hsame⟩ | ⟨hnone, hprocessed⟩
  · rw [hsame]
    exact h
  · exact h.processed hnone hvalid hprocessed

theorem Sound.removeTx {hash : UInt256} (h : Sound s) (horderly : s.orderly (.removeTx hash) = true) :
    Sound { s with est := s.est.removeTx hash } := by
  cases hlookup : s.est.mapMemPoolTxs.lookup hash with
  | none =>
    rw [CBlockPolicyEstimator.removeTx, hlookup]
    exact h
  | some info =>
    cases hstats : info.stats with
    | none =>
      have heq : s.est.removeTx hash = s.est.withTxs (s.est.mapMemPoolTxs.erase hash) := by
        rw [CBlockPolicyEstimator.removeTx, hlookup]
        simp only [hstats]
        rfl
      rw [heq]
      refine h.fewer (h.exact.erase hlookup hstats) rfl fun _ _ _ hr => ?_
      exact ⟨(Assoc.lookup_erase_iff.mp hr.1).2, hr.2⟩
    | some kind =>
      have hrecords : s.est.Records hash info kind := ⟨hlookup, hstats⟩
      have hheight : s.est.nBestSeenHeight = 0 ∨ info.blockHeight ≤ s.est.nBestSeenHeight := by
        simpa [orderly, hlookup, hstats] using horderly
      obtain ⟨stats', -, heq, hexact⟩ :=
        h.exact.removeTx hrecords hheight (h.height _ _ _ hrecords).2
      refine h.fewer hexact ?_ fun _ _ _ hr => ?_
      · rw [heq]
        exact CBlockPolicyEstimator.nBestSeenHeight_setStats _
      · rw [heq] at hr
        exact ⟨(Assoc.lookup_erase_iff.mp hr.1).2, hr.2⟩

theorem Sound.connectTip {entries : List ConfirmedEntry} (h : Sound s)
    (horderly : s.orderly (.connectTip entries) = true)
    (hstep : s.step (.connectTip entries) = some s') : Sound s' := by
  simp only [EstimatorSystem.step] at hstep
  split_ifs at hstep with htip
  cases hstep
  by_cases hseen : s.tip + 1 ≤ s.est.nBestSeenHeight
  · have hsame : s.est.processBlock (s.tip + 1) entries s.fCurrentEstimate = s.est := if_pos hseen
    rw [hsame]
    exact ⟨h.exact, h.height, h.synced, .inl hseen, htip⟩
  · have hheight : ∀ hash info kind, s.est.Records hash info kind → info.blockHeight ≤ s.tip := by
      intro hash info kind ⟨hlookup, hkind⟩
      simp only [orderly, hseen, decide_false, Bool.false_or, List.all_eq_true] at horderly
      simpa [hkind] using horderly _ (Assoc.mem_entries.mpr hlookup)
    obtain ⟨hexact, hbest, htxs⟩ := h.exact.processBlock entries s.fCurrentEstimate
      (Nat.not_le.mp hseen) (fun hash info kind hr => by
        have hle := hheight hash info kind hr
        refine ⟨by omega, ?_⟩
        rcases h.phase with hphase | hphase
        · exact .inl (by omega)
        · exact .inr (by have := hphase hash info kind hr; omega)) h.synced
    have hrecords : ∀ hash info kind,
        (s.est.processBlock (s.tip + 1) entries s.fCurrentEstimate).Records hash info kind →
          s.est.Records hash info kind := fun hash info kind hr => by
      rw [CBlockPolicyEstimator.Records, htxs] at hr
      exact hr
    refine ⟨hexact, fun _ _ _ hr => ?_, fun _ _ _ hr => h.synced _ _ _ (hrecords _ _ _ hr), ?_, htip⟩
    · show _ ∧ (s.est.processBlock _ _ _).nBestSeenHeight < 2 ^ 31
      rw [hbest]
      exact ⟨(h.height _ _ _ (hrecords _ _ _ hr)).1, htip⟩
    · refine .inl ?_
      show s.tip + 1 ≤ (s.est.processBlock _ _ _).nBestSeenHeight
      rw [hbest]

theorem Sound.step {op : EstimatorOp} (h : Sound s) (horderly : s.orderly op = true)
    (hstep : s.step op = some s') : Sound s' := by
  cases op with
  | processTransaction hash fWasClearAtEntry dataPoint => exact h.processTransaction hstep
  | removeTx hash =>
    cases hstep
    exact h.removeTx horderly
  | connectTip entries => exact h.connectTip horderly hstep
  | disconnectTip =>
    simp only [EstimatorSystem.step] at hstep
    split_ifs at hstep
    cases hstep
    have htip := h.tip
    refine ⟨h.exact, h.height, h.synced, h.phase.imp (fun hle => ?_) (fun hle _ _ _ hrecords => ?_), ?_⟩
    · show s.tip - 1 ≤ s.est.nBestSeenHeight
      omega
    · have := hle _ _ _ hrecords
      show s.tip - 1 ≤ _
      omega
    · show s.tip - 1 < 2 ^ 31
      omega
  | synced =>
    cases hstep
    exact ⟨h.exact, h.height, fun _ _ _ _ => rfl, h.phase, h.tip⟩

/-- The states reached from a start by steps that satisfy `ok`. -/
def Reached (ok : EstimatorOp → EstimatorSystem → Prop) : EstimatorSystem → Prop :=
  Reachable Starts (fun op s => s.step op) ok

/-- **Fee estimates.** In every run in which a transaction that leaves is not above the best block seen
and a block is higher than every transaction recorded, the counters of a bucket add up to the
transactions recorded there, and whoever leaves decrements a counter that is positive. -/
theorem estimator_exact (h : Reached (fun op s => s.orderly op = true) s) :
    (∀ kind, ∀ j < (s.est.stats kind).nBuckets,
      (s.est.stats kind).oldUnconfTxs j +
        ∑ i ∈ Finset.range (s.est.stats kind).maxConfirms, (s.est.stats kind).unconfTxs i j =
      Assoc.total (recorded kind j fun _ => True) s.est.mapMemPoolTxs) ∧
    ∀ hash info kind, s.est.Records hash info kind → s.orderly (.removeTx hash) = true →
      ∃ stats', (s.est.stats kind).removeTx info.blockHeight s.est.nBestSeenHeight info.bucketIndex =
        some stats' := by
  have hsound : Sound s :=
    Reachable.invariant (fun _ => Sound.init) (fun _ _ _ hs horderly hstep => hs.step horderly hstep) h
  refine ⟨fun kind j hj => (hsound.exact.counted kind).sum hj, fun hash info kind hr horderly => ?_⟩
  have hheight : s.est.nBestSeenHeight = 0 ∨ info.blockHeight ≤ s.est.nBestSeenHeight := by
    simpa [orderly, hr.1, hr.2] using horderly
  obtain ⟨stats', hremove, -⟩ := hsound.exact.removeTx hr hheight (hsound.height _ _ _ hr).2
  exact ⟨stats', hremove⟩

/-- A file that was written at height 90, which is read at height 100. -/
def staleFile : EstimatesFile where
  nFileBestSeenHeight := 90
  feeStats := ⟨2, 25, by decide, by decide⟩
  priStats := ⟨2, 25, by decide, by decide⟩

/-- A transaction enters before the first block, above the best one that the file has. -/
def staleRun : List EstimatorOp := [.synced, .processTransaction 7 true (some (.feeStats, 0))]

theorem estimator_counterexample : ∃ s s', Reached (fun _ _ => True) s ∧
    s.step (.removeTx 7) = some s' ∧
    s.est.feeStats.removeTx 100 s.est.nBestSeenHeight 0 = none ∧
    s.est.mapMemPoolTxs.lookup 7 = some ⟨some .feeStats, 100, 0⟩ ∧
    s'.est.mapMemPoolTxs.entries = [] ∧ s'.est.feeStats.unconfTxs 0 0 = 1 := by
  obtain ⟨s, hrun, hremove, hlookup, hafter⟩ : ∃ s, run (fun op s => EstimatorSystem.step s op) staleRun
      ⟨(CBlockPolicyEstimator.init 2 2).read staleFile, 100, false⟩ = some s ∧
      s.est.feeStats.removeTx 100 s.est.nBestSeenHeight 0 = none ∧
      s.est.mapMemPoolTxs.lookup 7 = some ⟨some .feeStats, 100, 0⟩ ∧
      (s.est.removeTx 7).mapMemPoolTxs.entries = [] ∧ (s.est.removeTx 7).feeStats.unconfTxs 0 0 = 1 :=
    ⟨_, rfl, rfl, rfl, rfl, rfl⟩
  have hstart : Starts ⟨(CBlockPolicyEstimator.init 2 2).read staleFile, 100, false⟩ :=
    ⟨by decide, 2, 2, .inr ⟨staleFile, rfl⟩⟩
  exact ⟨s, _, Reachable.run (.init hstart) (fun _ _ _ _ _ _ => trivial) hrun, rfl, hremove, hlookup,
    hafter⟩

/-- A transaction that waits for a block. -/
def waitingRun : List EstimatorOp :=
  [.synced, .processTransaction 7 true (some (.feeStats, 0)), .connectTip []]

theorem estimator_exact_waiting : ∃ s : EstimatorSystem,
    s.est.mapMemPoolTxs.lookup 7 = some ⟨some .feeStats, 100, 0⟩ ∧
    s.est.nBestSeenHeight = 101 ∧
    (∀ kind, ∀ j < (s.est.stats kind).nBuckets,
      (s.est.stats kind).oldUnconfTxs j +
        ∑ i ∈ Finset.range (s.est.stats kind).maxConfirms, (s.est.stats kind).unconfTxs i j =
      Assoc.total (recorded kind j fun _ => True) s.est.mapMemPoolTxs) ∧
    ∀ hash info kind, s.est.Records hash info kind → s.orderly (.removeTx hash) = true →
      ∃ stats', (s.est.stats kind).removeTx info.blockHeight s.est.nBestSeenHeight info.bucketIndex =
        some stats' := by
  obtain ⟨s, hrun, hlookup, hbest⟩ : ∃ s, run (guarded (fun op s => EstimatorSystem.step s op)
      fun op s => s.orderly op = true) waitingRun ⟨.init 2 2, 100, false⟩ = some s ∧
      s.est.mapMemPoolTxs.lookup 7 = some ⟨some .feeStats, 100, 0⟩ ∧ s.est.nBestSeenHeight = 101 :=
    ⟨_, rfl, rfl, rfl⟩
  have hstart : Starts ⟨.init 2 2, 100, false⟩ := ⟨by decide, 2, 2, .inl rfl⟩
  exact ⟨s, hlookup, hbest, estimator_exact (Reachable.guarded (.init hstart) hrun)⟩

end EstimatorSystem

end GC
