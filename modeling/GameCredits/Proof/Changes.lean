import GameCredits.Framework.Journal
import GameCredits.Proof.Agrees

/-!
# The changes of a block, one by one

On a plain store, connecting a block is a list of changes: each spends one output or adds the
outputs of one transaction. They form a `Journal`: `Change.redo` is the change, and `Change.undo`
what `DisconnectBlock` does about it.

* `changes_invert`: undoing a valid change is clean and leads back to agreeing records.
-/

namespace GC

open Framework (Map Journal)

/-- The store of records on which changes work. -/
abbrev CoinsMap := Map UInt256 CCoins UInt256

/-- The record of a transaction in a plain store. -/
abbrev CoinsMap.coins (m : CoinsMap) (txid : UInt256) : CCoins := Map.record .empty m txid

theorem coins_put (m : CoinsMap) (txid : UInt256) (c : CCoins) (i : UInt256) :
    CoinsMap.coins (m.put txid c) i = if i = txid then c else m.coins i :=
  Map.record_put txid i c

/-- The output at an outpoint, when it is available. -/
def CoinsMap.output? (m : CoinsMap) (o : COutPoint) : Option CTxOut :=
  (m.coins o.hash).output? o.n.toNat

/-- A change of the coins, with the undo data of a spend. -/
inductive Change where
  | spend (out : COutPoint) (undo : CTxInUndo)
  | create (tx : CTransaction)

section

variable (env : Env) (nHeight : Nat)

/-- The changes of the coins at height `nHeight`. -/
def changes : Journal CoinsMap Change where
  redo
    | .spend out _, m => m.put out.hash ((m.coins out.hash).spend out.n.toNat).cleanup
    | .create tx, m => m.put (tx.getHash env.hash) (CCoins.fromTx tx nHeight).cleanup
  undo
    | .spend out undo, m =>
      (undoSpendClean undo out.n (m.coins out.hash),
        m.put out.hash (undoSpend undo out.n (m.coins out.hash)).cleanup)
    | .create tx, m =>
      (outsMatch tx nHeight (m.coins (tx.getHash env.hash)),
        m.put (tx.getHash env.hash) CCoins.empty.cleanup)

/-- Undo data that describes the spend of output `n` of a record: the output and, when it is the
last one, the metadata, which must have a height. -/
structure CTxInUndo.Describes (undo : CTxInUndo) (coins : CCoins) (n : Nat) : Prop where
  txout : coins.output? n = some undo.txout
  value : undo.txout.isNull = false
  last : (coins.spend n).isPruned = true → 0 < undo.nHeight ∧ undo.nHeight = coins.nHeight ∧
    undo.fCoinBase = coins.fCoinBase ∧ VersionKept undo.nVersion coins.nVersion
  notLast : (coins.spend n).isPruned = false → undo.nHeight = 0

/-- A change that `DisconnectBlock` can undo: the undo data of a spend describes it, and outputs are
added to no record that has any. -/
def Change.Valid (m : CoinsMap) : Change → Prop
  | .spend out undo => undo.Describes (m.coins out.hash) out.n.toNat
  | .create tx => (m.coins (tx.getHash env.hash)).isPruned = true

end

/-- Stores whose records agree, up to negative versions. -/
def CoinsMap.Agrees (a b : CoinsMap) : Prop := ∀ txid, (a.coins txid).Agrees VersionKept (b.coins txid)

/-! ## Undoing one change -/

/-- Undoing a spend on a record that agrees with the spent one: clean, and back to the record. -/
theorem undoSpend_spend {undo : CTxInUndo} {a c : CCoins} {n : UInt32}
    (hd : undo.Describes c n.toNat) (ha : a.Agrees VersionKept (c.spend n.toNat)) :
    undoSpendClean undo n a = true ∧ (undoSpend undo n a).Agrees VersionKept c := by
  have hav : c.isAvailable n.toNat = true := by rw [CCoins.isAvailable, hd.txout]; rfl
  have hnone : a.output? n.toNat = none := by
    rw [ha.output, CCoins.output?_spend hav, if_pos rfl]
  have hout : ∀ m, (undoSpend undo n a).output? m = c.output? m := by
    intro m
    rw [output?_undoSpend]
    split_ifs with hm h0
    · rw [hm, hd.txout, CTxOut.unlessNull, hd.value]; rfl
    · -- the record was emptied, so that it had no other output
      cases hp : (c.spend n.toNat).isPruned with
      | false => exact absurd (hd.notLast hp) h0
      | true =>
        have := CCoins.isPruned_iff.mp hp m
        rw [CCoins.output?_spend hav, if_neg hm] at this
        exact this.symm
    · rw [ha.output, CCoins.output?_spend hav, if_neg hm]
  cases hp : (c.spend n.toNat).isPruned with
  | true =>
    obtain ⟨hpos, hh, hc, hv⟩ := hd.last hp
    have h0 : undo.nHeight ≠ 0 := by omega
    refine ⟨?_, hout, fun _ => ?_, fun _ => ?_, fun _ => ?_⟩
    · rw [undoSpendClean, if_pos h0, ha.isPruned, hp]
    · rw [undoSpend_fCoinBase, if_pos h0, hc]
    · rw [undoSpend_nHeight, if_pos h0, hh]
    · rw [undoSpend_nVersion, if_pos h0]; exact hv
  | false =>
    have h0 : ¬ undo.nHeight ≠ 0 := not_not.mpr (hd.notLast hp)
    refine ⟨?_, hout, fun _ => ?_, fun _ => ?_, fun _ => ?_⟩
    · rw [undoSpendClean, if_neg h0, ha.isPruned, hp, CCoins.isAvailable, hnone]; rfl
    · rw [undoSpend_fCoinBase, if_neg h0, ha.fCoinBase hp, CCoins.spend_fCoinBase]
    · rw [undoSpend_nHeight, if_neg h0, ha.nHeight hp, CCoins.spend_nHeight]
    · rw [undoSpend_nVersion, if_neg h0]
      have := ha.nVersion hp
      rwa [CCoins.spend_nVersion] at this

/-- A record that agrees with the one a transaction made passes the check. -/
theorem outsMatch_fromTx {tx : CTransaction} {nHeight : Nat} {outs : CCoins}
    (h : outs.Agrees VersionKept (CCoins.fromTx tx nHeight)) : outsMatch tx nHeight outs = true := by
  refine outsMatch_iff.mpr ⟨fun n => ?_, fun hp => ⟨h.fCoinBase hp, h.nHeight hp, h.nVersion hp⟩⟩
  rw [CCoins.output?_clearUnspendable, h.output]
  cases hout : (CCoins.fromTx tx nHeight).output? n with
  | none => rfl
  | some out => rw [Option.filter_some, CCoins.fromTx_unspendable hout]; rfl

theorem agrees_cleanup {a c : CCoins} (h : a.Agrees VersionKept c.cleanup) : a.Agrees VersionKept c := by
  refine ⟨fun n => by rw [h.output, CCoins.output?_cleanup], fun hp => ?_, fun hp => ?_, fun hp => ?_⟩
  · exact h.fCoinBase (by rwa [CCoins.isPruned_cleanup])
  · exact h.nHeight (by rwa [CCoins.isPruned_cleanup])
  · exact h.nVersion (by rwa [CCoins.isPruned_cleanup])

theorem cleanup_agrees {a c : CCoins} (h : a.Agrees VersionKept c) : a.cleanup.Agrees VersionKept c :=
  ⟨fun n => by rw [CCoins.output?_cleanup, h.output], h.fCoinBase, h.nHeight, h.nVersion⟩

variable {env : Env} {nHeight : Nat}

/-- Undoing a valid change is clean and leads back. -/
theorem changes_invert :
    (changes env nHeight).Inverts (Change.Valid env) CoinsMap.Agrees := by
  rintro m (⟨out, undo⟩ | tx) t hv ht
  · have hrec := ht out.hash
    have hback : ∀ i, i ≠ out.hash → (t.coins i).Agrees VersionKept (m.coins i) := fun i hi => by
      have := ht i
      rwa [show CoinsMap.coins ((changes env nHeight).redo (.spend out undo) m) i = m.coins i from
        Map.record_put_ne hi _] at this
    rw [show CoinsMap.coins ((changes env nHeight).redo (.spend out undo) m) out.hash = _ from
      Map.record_put_self _ _] at hrec
    obtain ⟨hclean, hagree⟩ := undoSpend_spend hv (agrees_cleanup hrec)
    refine ⟨hclean, fun i => ?_⟩
    show CCoins.Agrees _ (CoinsMap.coins (Map.put _ _ _) i) _
    rw [coins_put]
    split_ifs with hi
    · subst hi; exact cleanup_agrees hagree
    · exact hback i hi
  · have hrec := ht (tx.getHash env.hash)
    have hback : ∀ i, i ≠ tx.getHash env.hash → (t.coins i).Agrees VersionKept (m.coins i) :=
      fun i hi => by
        have := ht i
        rwa [show CoinsMap.coins ((changes env nHeight).redo (.create tx) m) i = m.coins i from
          Map.record_put_ne hi _] at this
    rw [show CoinsMap.coins ((changes env nHeight).redo (.create tx) m) (tx.getHash env.hash) = _ from
      Map.record_put_self _ _] at hrec
    refine ⟨outsMatch_fromTx (agrees_cleanup hrec), fun i => ?_⟩
    show CCoins.Agrees _ (CoinsMap.coins (Map.put _ _ _) i) _
    rw [coins_put]
    split_ifs with hi
    · subst hi; exact .of_pruned rfl hv
    · exact hback i hi

end GC
