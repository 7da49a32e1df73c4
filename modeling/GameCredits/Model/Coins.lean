import GameCredits.Model.Script
import Mathlib.Data.List.DropRight

/-!
# Coin records (coins.h, coins.cpp)

`CCoins`, what remains unspent of one transaction. A null output of `vout` (a spent one) is `none`
here, and `Cleanup` drops the null outputs at the end. `output?` is the meaning of a record: which
outputs are available, and what they are.

* `output?_cleanup`, `output?_spend`: `Cleanup` keeps the available outputs, `Spend` removes one.
* `vout_eq_of_output?`: a trimmed `vout` is determined by the available outputs.
-/

namespace GC

structure CCoins where
  fCoinBase : Bool
  vout : List (Option CTxOut)
  nHeight : Nat
  nVersion : Int
  deriving DecidableEq, Repr

/-- An output as an element of `CCoins::vout`. -/
def CTxOut.unlessNull (txout : CTxOut) : Option CTxOut := if txout.isNull then none else some txout

namespace CCoins

/-- What the default constructor and `Clear` leave. -/
def empty : CCoins := ⟨false, [], 0, 0⟩

/-- `CCoins::Cleanup`: drops spent outputs at the end of `vout`. -/
def cleanup (coins : CCoins) : CCoins := { coins with vout := coins.vout.rdropWhile Option.isNone }

/-- `CCoins::ClearUnspendable`. -/
def clearUnspendable (coins : CCoins) : CCoins :=
  cleanup { coins with
    vout := coins.vout.map (Option.filter fun txout => !isUnspendable txout.scriptPubKey) }

/-- `CCoins::FromTx`, which is also the constructor from a transaction. -/
def fromTx (tx : CTransaction) (nHeightIn : Nat) : CCoins :=
  clearUnspendable ⟨tx.isCoinBase, tx.vout.map CTxOut.unlessNull, nHeightIn, tx.nVersion⟩

/-- The output at a position, when it is available. -/
def output? (coins : CCoins) (nPos : Nat) : Option CTxOut := coins.vout[nPos]?.join

/-- `CCoins::IsAvailable`. -/
def isAvailable (coins : CCoins) (nPos : Nat) : Bool := (coins.output? nPos).isSome

/-- `CCoins::IsPruned`. -/
def isPruned (coins : CCoins) : Bool := coins.vout.all Option.isNone

/-- `CCoins::Spend`; leaves the record when the output is not available. -/
def spend (coins : CCoins) (nPos : Nat) : CCoins :=
  if coins.isAvailable nPos then cleanup { coins with vout := coins.vout.set nPos none } else coins

/-- `operator==`: pruned records are equal. -/
def beq (a b : CCoins) : Bool :=
  (a.isPruned && b.isPruned) ||
    (a.fCoinBase == b.fCoinBase && a.nHeight == b.nHeight && a.nVersion == b.nVersion &&
      a.vout == b.vout)

/-- `vout.resize(nSize)` where it lengthens the vector. -/
def grow (coins : CCoins) (nSize : Nat) : CCoins :=
  { coins with vout := coins.vout ++ List.replicate (nSize - coins.vout.length) none }

/-! ## Available outputs -/

theorem output?_eq_some {c : CCoins} {n : Nat} {out : CTxOut} :
    c.output? n = some out ↔ c.vout[n]? = some (some out) := by
  rw [output?, Option.join_eq_some_iff]

theorem lt_of_output? {c : CCoins} {n : Nat} {out : CTxOut} (h : c.output? n = some out) :
    n < c.vout.length :=
  (List.getElem?_eq_some_iff.mp (output?_eq_some.mp h)).1

theorem output?_of_le {c : CCoins} {n : Nat} (h : c.vout.length ≤ n) : c.output? n = none := by
  rw [output?, List.getElem?_eq_none h]; rfl

@[simp] theorem output?_empty (n : Nat) : empty.output? n = none := rfl

theorem isPruned_iff {c : CCoins} : c.isPruned = true ↔ ∀ n, c.output? n = none := by
  simp only [isPruned, List.all_eq_true, Option.isNone_iff_eq_none]
  constructor
  · intro h n
    rcases Nat.lt_or_ge n c.vout.length with hn | hn
    · rw [output?, List.getElem?_eq_getElem hn, h _ (List.getElem_mem hn)]; rfl
    · exact output?_of_le hn
  · intro h out hout
    obtain ⟨n, hn⟩ := List.mem_iff_getElem?.mp hout
    have := h n
    rwa [output?, hn, Option.join_some] at this

theorem isPruned_congr {a b : CCoins} (h : ∀ n, a.output? n = b.output? n) :
    a.isPruned = b.isPruned := by
  rw [Bool.eq_iff_iff, isPruned_iff, isPruned_iff]
  simp only [h]

theorem not_isPruned {c : CCoins} {n : Nat} {out : CTxOut} (h : c.output? n = some out) :
    c.isPruned = false := by
  rw [← Bool.not_eq_true, isPruned_iff]
  intro hall
  rw [hall n] at h
  cases h

@[simp] theorem isPruned_empty : empty.isPruned = true := rfl

/-! ## Trimming -/

/-- Trimming a vector drops nothing but nulls at the end. -/
theorem rdropWhile_join (vout : List (Option CTxOut)) (n : Nat) :
    (vout.rdropWhile Option.isNone)[n]?.join = vout[n]?.join := by
  induction vout using List.reverseRecOn with
  | nil => rfl
  | append_singleton vout out ih =>
    rw [List.rdropWhile_concat]
    split_ifs with h
    · rw [ih, Option.isNone_iff_eq_none.mp h]
      rcases Nat.lt_trichotomy n vout.length with hn | rfl | hn
      · rw [List.getElem?_append_left hn]
      · simp
      · rw [List.getElem?_eq_none (by omega), List.getElem?_eq_none (by simp; omega)]
    · rfl

@[simp] theorem output?_cleanup (c : CCoins) (n : Nat) : c.cleanup.output? n = c.output? n :=
  rdropWhile_join c.vout n

@[simp] theorem cleanup_fCoinBase (c : CCoins) : c.cleanup.fCoinBase = c.fCoinBase := rfl

@[simp] theorem cleanup_nHeight (c : CCoins) : c.cleanup.nHeight = c.nHeight := rfl

@[simp] theorem cleanup_nVersion (c : CCoins) : c.cleanup.nVersion = c.nVersion := rfl

@[simp] theorem isPruned_cleanup (c : CCoins) : c.cleanup.isPruned = c.isPruned :=
  isPruned_congr fun n => output?_cleanup c n

/-- A record whose last output, if any, is not null. -/
def Trimmed (coins : CCoins) : Prop := coins.vout.rdropWhile Option.isNone = coins.vout

theorem trimmed_cleanup (c : CCoins) : c.cleanup.Trimmed := List.rdropWhile_idempotent _ _

theorem Trimmed.vout_eq_nil {c : CCoins} (h : c.Trimmed) : c.vout = [] ↔ c.isPruned = true := by
  constructor
  · intro hv
    rw [isPruned, hv]; rfl
  · intro hp
    rw [← h, List.rdropWhile_eq_nil_iff]
    exact fun out hout => (List.all_eq_true.mp hp) out hout

/-- The last output of a trimmed record is available. -/
theorem Trimmed.last_available {c : CCoins} (h : c.Trimmed) {n : Nat} (hn : c.vout.length = n + 1) :
    c.output? n ≠ none := by
  have hne : c.vout ≠ [] := fun h0 => by rw [h0] at hn; cases hn
  have hlast := (List.rdropWhile_eq_self_iff.mp h) hne
  have hget : c.vout[n]? = some (c.vout.getLast hne) := by
    rw [List.getLast_eq_getElem, List.getElem?_eq_getElem (by omega)]
    simp [hn]
  intro h0
  rw [output?, hget, Option.join_some] at h0
  exact hlast (Option.isNone_iff_eq_none.mpr h0)

theorem Trimmed.length_le {a b : CCoins} (ha : a.Trimmed) (h : ∀ n, a.output? n = b.output? n) :
    a.vout.length ≤ b.vout.length := by
  rcases hlen : a.vout.length with _ | n
  · exact Nat.zero_le _
  · obtain ⟨out, hout⟩ := Option.ne_none_iff_exists'.mp (ha.last_available hlen)
    exact lt_of_output? ((h n).symm.trans hout)

/-- A trimmed `vout` is determined by the available outputs. -/
theorem vout_eq_of_output? {a b : CCoins} (ha : a.Trimmed) (hb : b.Trimmed)
    (h : ∀ n, a.output? n = b.output? n) : a.vout = b.vout := by
  have hlen : a.vout.length = b.vout.length :=
    Nat.le_antisymm (ha.length_le h) (hb.length_le fun n => (h n).symm)
  refine List.ext_getElem hlen fun n hna hnb => ?_
  have hn := h n
  rw [output?, output?, List.getElem?_eq_getElem hna, List.getElem?_eq_getElem hnb,
    Option.join_some, Option.join_some] at hn
  exact hn

/-! ## Spending and adding outputs -/

theorem output?_set (c : CCoins) {n : Nat} (hn : n < c.vout.length) (out : Option CTxOut) (m : Nat) :
    ({ c with vout := c.vout.set n out } : CCoins).output? m =
      if m = n then out else c.output? m := by
  unfold output?
  split_ifs with hmn
  · subst hmn
    rw [List.getElem?_set_self hn, Option.join_some]
  · rw [List.getElem?_set_ne (fun h => hmn h.symm)]

theorem output?_spend {c : CCoins} {n : Nat} (h : c.isAvailable n = true) (m : Nat) :
    (c.spend n).output? m = if m = n then none else c.output? m := by
  obtain ⟨out, hout⟩ := Option.isSome_iff_exists.mp h
  rw [spend, if_pos h, output?_cleanup, output?_set c (lt_of_output? hout)]

theorem trimmed_spend {c : CCoins} {n : Nat} (h : c.isAvailable n = true) : (c.spend n).Trimmed := by
  rw [spend, if_pos h]; exact trimmed_cleanup _

@[simp] theorem spend_fCoinBase (c : CCoins) (n : Nat) : (c.spend n).fCoinBase = c.fCoinBase := by
  unfold spend; split_ifs <;> rfl

@[simp] theorem spend_nHeight (c : CCoins) (n : Nat) : (c.spend n).nHeight = c.nHeight := by
  unfold spend; split_ifs <;> rfl

@[simp] theorem spend_nVersion (c : CCoins) (n : Nat) : (c.spend n).nVersion = c.nVersion := by
  unfold spend; split_ifs <;> rfl

@[simp] theorem output?_grow (c : CCoins) (k n : Nat) : (c.grow k).output? n = c.output? n := by
  unfold output? grow
  rcases Nat.lt_or_ge n c.vout.length with hn | hn
  · rw [List.getElem?_append_left hn]
  · rw [List.getElem?_append_right hn, List.getElem?_eq_none hn, List.getElem?_replicate]
    split_ifs <;> rfl

theorem lt_length_grow (c : CCoins) (n : Nat) : n < (c.grow (n + 1)).vout.length := by
  simp [grow]; omega

theorem output?_clearUnspendable (c : CCoins) (n : Nat) :
    c.clearUnspendable.output? n =
      (c.output? n).filter fun out => !isUnspendable out.scriptPubKey := by
  rw [clearUnspendable, output?_cleanup, output?, output?, List.getElem?_map]
  rcases c.vout[n]? with _ | out <;> rfl

theorem trimmed_clearUnspendable (c : CCoins) : c.clearUnspendable.Trimmed := trimmed_cleanup _

/-- The outputs of a new record: those of the transaction, but for null and unspendable ones. -/
theorem output?_fromTx (tx : CTransaction) (h n : Nat) :
    (fromTx tx h).output? n =
      (tx.vout[n]?.bind CTxOut.unlessNull).filter fun out => !isUnspendable out.scriptPubKey := by
  rw [fromTx, output?_clearUnspendable, output?, List.getElem?_map]
  rcases tx.vout[n]? with _ | out <;> rfl

theorem trimmed_fromTx (tx : CTransaction) (h : Nat) : (fromTx tx h).Trimmed :=
  trimmed_clearUnspendable _

@[simp] theorem fromTx_fCoinBase (tx : CTransaction) (h : Nat) :
    (fromTx tx h).fCoinBase = tx.isCoinBase := rfl

@[simp] theorem fromTx_nHeight (tx : CTransaction) (h : Nat) : (fromTx tx h).nHeight = h := rfl

@[simp] theorem fromTx_nVersion (tx : CTransaction) (h : Nat) :
    (fromTx tx h).nVersion = tx.nVersion := rfl

/-- A new record has no unspendable output. -/
theorem fromTx_unspendable {tx : CTransaction} {h n : Nat} {out : CTxOut}
    (hout : (fromTx tx h).output? n = some out) : isUnspendable out.scriptPubKey = false := by
  rw [output?_fromTx, Option.filter_eq_some_iff] at hout
  simpa using hout.2

end CCoins

end GC
