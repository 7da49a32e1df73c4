import GameCredits.Framework.Worklist
import GameCredits.Proof.Mempool

/-!
# What a recursive removal takes out

The loop of `remove` is a worklist over the transactions that spend outputs of each other: it takes
out the transaction and all its `Descendant`s, each once, and leaves the rest as it is
(`remove_closure`). No transaction that is left conflicts with one whose conflicts have been removed
(`removeConflicts_spentBy`).
-/

namespace GC

open Framework

namespace CTxMemPool

variable {env : Env} {pool pool' : CTxMemPool} {hash : UInt256} {entry : CTxMemPoolEntry}

/-! ## Descendants -/

/-- The transaction `h` of the pool spends an output of `tx`, whose hash is `hash`. -/
def SpendsOutput (pool : CTxMemPool) (hash : UInt256) (tx : CTransaction) (h : UInt256) : Prop :=
  ∃ e o, pool.mapTx.lookup h = some e ∧ o ∈ e.tx.prevouts ∧ o.hash = hash ∧
    o.n.toNat < tx.vout.length

/-- The transactions of the pool that spend an output of `tx` directly or transitively. -/
inductive Descendant (env : Env) (pool : CTxMemPool) (tx : CTransaction) : UInt256 → Prop
  | child {h : UInt256} (hs : pool.SpendsOutput (tx.getHash env.hash) tx h) : Descendant env pool tx h
  | step {h h' : UInt256} {e : CTxMemPoolEntry} (hd : Descendant env pool tx h)
      (he : pool.mapTx.lookup h = some e) (hs : pool.SpendsOutput h e.tx h') :
      Descendant env pool tx h'

/-- What the spenders of a transaction are. -/
theorem Books.mem_spenders_iff (h : Books env pool) {tx : CTransaction} {x : UInt256} :
    x ∈ pool.spenders env hash tx ↔ pool.SpendsOutput hash tx x := by
  refine ⟨fun hx => ?_, fun ⟨e, o, he, ho, hhash, hn⟩ => hhash ▸ h.mem_spenders he ho hn⟩
  obtain ⟨i, hi, hx⟩ := List.mem_filterMap.mp hx
  obtain ⟨t, hderef, rfl⟩ := Option.map_eq_some_iff.mp hx
  obtain ⟨inPoint, hnext, hderef⟩ := Option.bind_eq_some_iff.mp hderef
  obtain ⟨e, he, hderef', hkey, ho⟩ := h.deref hnext
  rw [hderef] at hderef'
  cases hderef'
  refine ⟨e, _, hkey ▸ he, ho, rfl, ?_⟩
  show (UInt32.ofNat i).toNat < _
  rw [UInt32.toNat_ofNat']
  exact (Nat.mod_le _ _).trans_lt (List.mem_range.mp hi)

/-- One transaction spends an output of the other. -/
def Edge (pool : CTxMemPool) (h h' : UInt256) : Prop :=
  ∃ e, pool.mapTx.lookup h = some e ∧ pool.SpendsOutput h e.tx h'

/-! ## The loop -/

/-- With `queue` still to do, the transactions `done` have been taken out of `pool₀`, which has left
`pool`, and appended to `removed₀`, which has given `removed`. -/
structure Removing (env : Env) (pool₀ : CTxMemPool) (removed₀ : List CTransaction)
    (start queue : List UInt256) (pool : CTxMemPool) (removed : List CTransaction)
    (done : List UInt256) : Prop where
  worklist : Worklist (fun h => pool₀.hasTx h = true) pool₀.Edge start queue done
  books : Books env pool
  left : ∀ {h e}, pool.mapTx.lookup h = some e ↔ pool₀.mapTx.lookup h = some e ∧ h ∉ done
  listed : ∃ new, removed = removed₀ ++ new ∧ new.map (CTransaction.getHash env.hash) = done ∧
    ∀ tx ∈ new, ∃ e, pool₀.mapTx.lookup (tx.getHash env.hash) = some e ∧ e.tx = tx

namespace Removing

variable {pool₀ : CTxMemPool} {removed₀ removed : List CTransaction}
  {start queue done : List UInt256}

/-- Spending in what is left. -/
theorem spendsOutput_iff (h : Removing env pool₀ removed₀ start queue pool removed done)
    {tx : CTransaction} {x : UInt256} :
    pool.SpendsOutput hash tx x ↔ pool₀.SpendsOutput hash tx x ∧ x ∉ done := by
  constructor
  · rintro ⟨e, o, he, hrest⟩
    obtain ⟨he, hx⟩ := h.left.mp he
    exact ⟨⟨e, o, he, hrest⟩, hx⟩
  · rintro ⟨⟨e, o, he, hrest⟩, hx⟩
    exact ⟨e, o, h.left.mpr ⟨he, hx⟩, hrest⟩

theorem pass (h : Removing env pool₀ removed₀ start (hash :: queue) pool removed done)
    (hnone : pool.mapTx.lookup hash = none) :
    Removing env pool₀ removed₀ start queue pool removed done := by
  refine ⟨h.worklist.pass fun hpresent => ?_, h.books, h.left, h.listed⟩
  obtain ⟨e, he⟩ := hasTx_iff.mp hpresent
  by_contra hnew
  rw [h.left.mpr ⟨he, hnew⟩] at hnone
  cases hnone

theorem take (h : Removing env pool₀ removed₀ start (hash :: queue) pool removed done)
    (he : pool.mapTx.lookup hash = some entry) :
    Removing env pool₀ removed₀ start (queue ++ pool.spenders env hash entry.tx)
      (pool.eraseEntry hash entry) (removed ++ [entry.tx]) (done ++ [hash]) := by
  obtain ⟨he₀, hnew⟩ := h.left.mp he
  have hkey := h.books.key he
  refine ⟨h.worklist.take (hasTx_of_lookup he₀) hnew (fun x hx => ?_) (fun x hx hpresent => ?_),
    h.books.eraseEntry he, fun {h' e} => ?_, ?_⟩
  · exact ⟨entry, he₀, (h.spendsOutput_iff.mp (h.books.mem_spenders_iff.mp hx)).1⟩
  · obtain ⟨e, he', hspends⟩ := hx
    obtain rfl : e = entry := Option.some.inj (he'.symm.trans he₀)
    by_cases hdone : x ∈ done
    · exact .inl hdone
    · exact .inr (.inr (h.books.mem_spenders_iff.mpr (h.spendsOutput_iff.mpr ⟨hspends, hdone⟩)))
  · refine Assoc.lookup_erase_iff.trans ?_
    rw [h.left, List.mem_append, List.mem_singleton]
    tauto
  · obtain ⟨new, rfl, hdone, hin⟩ := h.listed
    refine ⟨new ++ [entry.tx], List.append_assoc .., ?_, fun tx htx => ?_⟩
    · rw [List.map_append, hdone, List.map_singleton, hkey]
    · rcases List.mem_append.mp htx with htx | htx
      · exact hin tx htx
      · rw [List.mem_singleton.mp htx, hkey]
        exact ⟨entry, he₀, rfl⟩

/-- The whole loop. -/
theorem run (h : Removing env pool₀ removed₀ start queue pool removed done) :
    ∃ done', Removing env pool₀ removed₀ start [] (removeFrom env true queue pool removed).1
      (removeFrom env true queue pool removed).2 done' := by
  generalize hrec : true = fRecursive
  fun_induction removeFrom env fRecursive queue pool removed generalizing done with
  | case1 pool removed => exact ⟨done, h⟩
  | case2 pool removed hash rest hnone ih => exact ih (h.pass hnone)
  | case3 pool removed hash rest entry he ih =>
    subst hrec
    exact ih (h.take he)

end Removing

/-! ## Recursive removal -/

/-- What the pool has under the hash of `tx`, or else `tx`. -/
def origin (env : Env) (pool : CTxMemPool) (tx : CTransaction) : CTransaction :=
  ((pool.mapTx.lookup (tx.getHash env.hash)).map CTxMemPoolEntry.tx).getD tx

/-- The transactions that a recursive removal of `tx` takes out. -/
def Doomed (env : Env) (pool : CTxMemPool) (tx : CTransaction) (h : UInt256) : Prop :=
  (h = tx.getHash env.hash ∧ pool.hasTx h = true) ∨ Descendant env pool (pool.origin env tx) h

theorem SpendsOutput.hasTx {tx : CTransaction} {x : UInt256} (h : pool.SpendsOutput hash tx x) :
    pool.hasTx x = true := by
  obtain ⟨e, -, he, -⟩ := h
  exact hasTx_of_lookup he

/-- The queue that `remove` starts with. -/
def removeStart (env : Env) (pool : CTxMemPool) (tx : CTransaction) : List UInt256 :=
  tx.getHash env.hash ::
    if true && !pool.hasTx (tx.getHash env.hash) then
      pool.spenders env (tx.getHash env.hash) tx
    else []

theorem Books.reached_iff (h : Books env pool) (tx : CTransaction) {x : UInt256} :
    Reached (fun h => pool.hasTx h = true) pool.Edge (pool.removeStart env tx) x ↔
      Doomed env pool tx x := by
  constructor
  · intro hx
    induction hx with
    | start hx hpresent =>
      rcases List.mem_cons.mp hx with rfl | hx
      · exact .inl ⟨rfl, hpresent⟩
      · split_ifs at hx with habsent
        · rw [Bool.true_and, Bool.not_eq_true', hasTx_eq_false] at habsent
          have horigin : pool.origin env tx = tx := by rw [origin, habsent]; rfl
          refine .inr (.child ?_)
          rw [horigin]
          exact h.mem_spenders_iff.mp hx
        · cases hx
    | next hx hxy hpresent ih =>
      obtain ⟨e, he, hspends⟩ := hxy
      rcases ih with ⟨rfl, -⟩ | hd
      · have horigin : pool.origin env tx = e.tx := by rw [origin, he]; rfl
        refine .inr (.child ?_)
        rw [horigin, h.key he]
        exact hspends
      · exact .inr (hd.step he hspends)
  · rintro (⟨rfl, hpresent⟩ | hd)
    · exact .start List.mem_cons_self hpresent
    · induction hd with
      | child hs =>
        cases hin : pool.mapTx.lookup (tx.getHash env.hash) with
        | none =>
          have horigin : pool.origin env tx = tx := by rw [origin, hin]; rfl
          rw [horigin] at hs
          refine .start (List.mem_cons_of_mem _ ?_) hs.hasTx
          rw [hasTx_eq_false.mpr hin]
          exact h.mem_spenders_iff.mpr hs
        | some e =>
          have horigin : pool.origin env tx = e.tx := by rw [origin, hin]; rfl
          rw [horigin, h.key hin] at hs
          exact .next (.start List.mem_cons_self (hasTx_of_lookup hin)) ⟨e, hin, hs⟩ hs.hasTx
      | step _ he hs ih => exact .next ih ⟨_, he, hs⟩ hs.hasTx

/-- What `remove` leaves and lists. -/
theorem Books.removing (h : Books env pool) (tx : CTransaction) (removed : List CTransaction) :
    ∃ done, Removing env pool removed (pool.removeStart env tx) []
        (pool.remove env tx removed true).1 (pool.remove env tx removed true).2 done ∧
      ∀ {x}, x ∈ done ↔ Doomed env pool tx x := by
  have hinit : Removing env pool removed (pool.removeStart env tx) (pool.removeStart env tx) pool
      removed [] := by
    refine ⟨.init, h, fun {h' e} => ?_, [], (List.append_nil _).symm, rfl, fun _ hx => by cases hx⟩
    exact ⟨fun he => ⟨he, List.not_mem_nil⟩, And.left⟩
  obtain ⟨done, hdone⟩ := hinit.run
  exact ⟨done, hdone, hdone.worklist.done_iff.trans (h.reached_iff tx)⟩

/-- The exact effect of a recursive removal. -/
structure RemovedExactly (env : Env) (pool : CTxMemPool) (tx : CTransaction)
    (removed : List CTransaction) (pool' : CTxMemPool) (removed' : List CTransaction) : Prop where
  books : Books env pool'
  mapTx : ∀ h e, pool'.mapTx.lookup h = some e ↔
    pool.mapTx.lookup h = some e ∧ ¬ Doomed env pool tx h
  mapNextTx : ∀ o inPoint, pool'.mapNextTx.lookup o = some inPoint ↔
    pool.mapNextTx.lookup o = some inPoint ∧ ¬ Doomed env pool tx inPoint.ptx
  listed : ∃ new, removed' = removed ++ new ∧ (new.map (CTransaction.getHash env.hash)).Nodup ∧
    ∀ t, t ∈ new ↔ ∃ h e, pool.mapTx.lookup h = some e ∧ e.tx = t ∧ Doomed env pool tx h

theorem Books.removedExactly (h : Books env pool) (tx : CTransaction) (removed : List CTransaction) :
    RemovedExactly env pool tx removed (pool.remove env tx removed true).1
      (pool.remove env tx removed true).2 := by
  obtain ⟨done, hdone, hiff⟩ := h.removing tx removed
  have hleft : ∀ {h' e}, (pool.remove env tx removed true).1.mapTx.lookup h' = some e ↔
      pool.mapTx.lookup h' = some e ∧ ¬ Doomed env pool tx h' := fun {h' e} =>
    hdone.left.trans (and_congr_right fun _ => not_congr hiff)
  refine ⟨hdone.books, fun _ _ => hleft, fun o inPoint => ?_, ?_⟩
  · rw [hdone.books.next, h.next, Spends, Spends]
    constructor
    · rintro ⟨e, he, ho⟩
      exact ⟨⟨e, (hleft.mp he).1, ho⟩, (hleft.mp he).2⟩
    · rintro ⟨⟨e, he, ho⟩, hnot⟩
      exact ⟨e, hleft.mpr ⟨he, hnot⟩, ho⟩
  · obtain ⟨new, hnew, hmap, hin⟩ := hdone.listed
    refine ⟨new, hnew, hmap ▸ hdone.worklist.nodup, fun t => ⟨fun ht => ?_, ?_⟩⟩
    · obtain ⟨e, he, rfl⟩ := hin t ht
      exact ⟨_, e, he, rfl, hiff.mp (hmap ▸ List.mem_map_of_mem ht)⟩
    · rintro ⟨h', e, he, rfl, hdoomed⟩
      have hmem : h' ∈ new.map (CTransaction.getHash env.hash) := hmap ▸ hiff.mpr hdoomed
      obtain ⟨t, ht, rfl⟩ := List.mem_map.mp hmem
      obtain ⟨e', he', rfl⟩ := hin t ht
      rw [he] at he'
      cases he'
      exact ht

/-! ## Conflicts -/

/-- Only `tx` itself spends the outpoint. -/
def SpentBy (env : Env) (pool : CTxMemPool) (tx : CTransaction) (o : COutPoint) : Prop :=
  ∀ h e, pool.mapTx.lookup h = some e → o ∈ e.tx.prevouts → h = tx.getHash env.hash

theorem removeConflict_spentBy (h : Books env pool) (tx : CTransaction) (txin : CTxIn) :
    Books env (pool.removeConflict env tx txin) ∧
      (∀ h e, (pool.removeConflict env tx txin).mapTx.lookup h = some e →
        pool.mapTx.lookup h = some e) ∧
      (pool.removeConflict env tx txin).SpentBy env tx txin.prevout := by
  cases hnext : pool.mapNextTx.lookup txin.prevout with
  | none =>
    have heq : pool.removeConflict env tx txin = pool := by rw [removeConflict, hnext]; rfl
    rw [heq]
    refine ⟨h, fun _ _ => id, fun h' e he hmem => ?_⟩
    obtain ⟨n, hn⟩ := h.lookup_next he hmem
    rw [hnext] at hn
    cases hn
  | some inPoint =>
    obtain ⟨conflict, he, hderef, hhash, -⟩ := h.deref hnext
    have heq : pool.removeConflict env tx txin =
        if conflict.tx.getHash env.hash ≠ tx.getHash env.hash then (pool.remove env conflict.tx [] true).1
        else pool := by rw [removeConflict, hnext, Option.bind_some, hderef]
    -- whatever has the outpoint among its inputs is the transaction that the entry points at
    have hspender : ∀ {h' e}, pool.mapTx.lookup h' = some e → txin.prevout ∈ e.tx.prevouts →
        h' = inPoint.ptx := fun he' hmem => by
      obtain ⟨n, hn⟩ := h.lookup_next he' hmem
      rw [hnext] at hn
      cases hn
      rfl
    rw [heq]
    split_ifs with hne
    · have hremoved := h.removedExactly conflict.tx []
      refine ⟨hremoved.books, fun h' e he' => ((hremoved.mapTx h' e).mp he').1, fun h' e he' hmem => ?_⟩
      obtain ⟨hin, hnot⟩ := (hremoved.mapTx h' e).mp he'
      exact absurd (.inl ⟨(hspender hin hmem).trans hhash.symm, hasTx_of_lookup hin⟩) hnot
    · rw [not_not] at hne
      refine ⟨h, fun _ _ => id, fun h' e he' hmem => ?_⟩
      rw [hspender he' hmem, ← hhash, hne]

theorem removeConflicts_spentBy (h : Books env pool) (tx : CTransaction) {vin : List CTxIn} :
    (∀ h' e, (vin.foldl (fun pool txin => pool.removeConflict env tx txin) pool).mapTx.lookup h' =
        some e → pool.mapTx.lookup h' = some e) ∧
      ∀ txin ∈ vin, (vin.foldl (fun pool txin => pool.removeConflict env tx txin) pool).SpentBy env tx
        txin.prevout := by
  induction vin generalizing pool with
  | nil => exact ⟨fun _ _ => id, fun _ hmem => by cases hmem⟩
  | cons txin vin ih =>
    obtain ⟨hb, hsub, hspent⟩ := removeConflict_spentBy h tx txin
    obtain ⟨hsub', hspent'⟩ := ih hb
    refine ⟨fun h' e he => hsub h' e (hsub' h' e he), fun txin' hmem => ?_⟩
    rcases List.mem_cons.mp hmem with rfl | hmem
    · exact fun h' e he => hspent h' e (hsub' h' e he)
    · exact hspent' txin' hmem

/-- A recursive removal takes out the transaction and its descendants, each once, and leaves the
rest as it is; after the removal of conflicts no other transaction spends what `tx` spends. -/
theorem remove_closure (h : Books env pool) (tx : CTransaction) (removed : List CTransaction) :
    RemovedExactly env pool tx removed (pool.remove env tx removed true).1
      (pool.remove env tx removed true).2 ∧
    ∀ h e o, (pool.removeConflicts env tx).mapTx.lookup h = some e → o ∈ e.tx.prevouts →
      o ∈ tx.prevouts → h = tx.getHash env.hash := by
  refine ⟨h.removedExactly tx removed, ?_⟩
  intro h' e o he ho hmem
  obtain ⟨txin, htxin, rfl⟩ := List.mem_map.mp hmem
  exact (removeConflicts_spentBy h tx).2 txin htxin h' e he ho

/-- A transaction with two outputs, and one that spends the second of them. -/
def sampleParent : CTransaction := ⟨1, [⟨⟨7, 0⟩, [], 0⟩], [⟨6, []⟩, ⟨5, []⟩], 0⟩

def sampleChild : CTransaction := ⟨1, [⟨⟨sampleParent.getHash sampleEnv.hash, 1⟩, [], 0⟩], [⟨4, []⟩], 0⟩

def samplePool : CTxMemPool :=
  (empty.addUnchecked (sampleParent.getHash sampleEnv.hash) ⟨sampleParent, 70⟩).addUnchecked
    (sampleChild.getHash sampleEnv.hash) ⟨sampleChild, 60⟩

theorem samplePool_books : Books sampleEnv samplePool := by
  have hparent : Books sampleEnv
      (empty.addUnchecked (sampleParent.getHash sampleEnv.hash) ⟨sampleParent, 70⟩) :=
    Books.empty.addUnchecked rfl rfl (by decide) (by decide)
  exact hparent.addUnchecked rfl (by decide +kernel) (by decide) (by decide +kernel)

theorem samplePool_parent : samplePool.origin sampleEnv sampleParent = sampleParent := by
  have hne : sampleParent.getHash sampleEnv.hash ≠ sampleChild.getHash sampleEnv.hash := by
    decide +kernel
  rw [origin, samplePool, addUnchecked, AList.lookup_insert_ne hne, addUnchecked, AList.lookup_insert]
  rfl

/-- The child goes with its parent. -/
theorem remove_closure_sample :
    RemovedExactly sampleEnv samplePool sampleParent []
        (samplePool.remove sampleEnv sampleParent [] true).1
        (samplePool.remove sampleEnv sampleParent [] true).2 ∧
      Doomed sampleEnv samplePool sampleParent (sampleChild.getHash sampleEnv.hash) := by
  refine ⟨(remove_closure samplePool_books sampleParent []).1, .inr (.child ?_)⟩
  rw [samplePool_parent]
  exact ⟨⟨sampleChild, 60⟩, _, AList.lookup_insert _, List.mem_singleton_self _, rfl, by decide⟩

end CTxMemPool

end GC
