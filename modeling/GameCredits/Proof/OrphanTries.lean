import GameCredits.Model.OrphanTries
import GameCredits.Proof.Orphans

/-!
# Orphans are tried again

`Handled` is what the handler of "tx" keeps: what it queues is what was accepted, once each, and what
it will erase was offered. An orphan that spends from a queued transaction is `Settled` once the loop has
come to that one: it will be erased, its peer was found misbehaving, or inputs were missing after the
transaction was accepted; later calls leave it so.

* `processTx_resolves`: which orphans are left when the loop is done, which it is.
-/

namespace GC

open Framework (Bytes)

/-- What is relied on of `AcceptToMemoryPool`: no transaction is accepted twice, and inputs are reported
missing only where an output that is spent is not available. -/
structure Accepting {σ : Type} (hash : Bytes → UInt256) (accept : Accept σ)
    (inPool : σ → UInt256 → Prop) (available : σ → COutPoint → Prop) : Prop where
  once : ∀ {pool tx pool'}, accept pool tx = (pool', .accepted) →
    ¬ inPool pool (tx.getHash hash) ∧ inPool pool' (tx.getHash hash)
  kept : ∀ {pool tx h}, inPool pool h → inPool (accept pool tx).1 h
  missing : ∀ {pool tx}, (accept pool tx).2 = .missingInputs →
    ∃ txin ∈ tx.vin, ¬ available pool txin.prevout

/-- The transactions that were accepted. -/
def acceptedHashes {σ : Type} (offers : List (Offer σ)) : List UInt256 :=
  (offers.filter fun offer => offer.result == .accepted).map Offer.hash

section

variable {σ : Type} {offers : List (Offer σ)}

theorem acceptedHashes_append (offers' : List (Offer σ)) :
    acceptedHashes (offers ++ offers') = acceptedHashes offers ++ acceptedHashes offers' := by
  rw [acceptedHashes, List.filter_append, List.map_append]
  rfl

end

namespace OrphanTxs

variable {σ : Type} {hash : Bytes → UInt256} {accept : Accept σ} {s : OrphanTxs}
  {inPool : σ → UInt256 → Prop} {available : σ → COutPoint → Prop} {st st' st'' : TxHandling σ}

/-! ## One orphan -/

/-- What a call of `AcceptToMemoryPool` adds to `vWorkQueue`, to `vEraseQueue` and to
`setMisbehaving`. -/
def queues (h : UInt256) : AcceptResult → List UInt256
  | .accepted => [h]
  | _ => []

def erases (h : UInt256) : AcceptResult → List UInt256
  | .missingInputs => []
  | _ => [h]

def punishes (peer : Int) : AcceptResult → List Int
  | .rejected nDoS => if 0 < nDoS then [peer] else []
  | _ => []

/-- An orphan that is tried is passed over, or offered to the pool. -/
inductive Tried (accept : Accept σ) (h : UInt256) (orphan : COrphanTx) (st : TxHandling σ) :
    TxHandling σ → Prop
  | skipped (hpeer : orphan.fromPeer ∈ st.setMisbehaving) : Tried accept h orphan st st
  | offered {pool : σ} {result : AcceptResult} (haccept : accept st.pool orphan.tx = (pool, result)) :
    Tried accept h orphan st
      { pool
        vWorkQueue := st.vWorkQueue ++ queues h result
        vEraseQueue := st.vEraseQueue ++ erases h result
        setMisbehaving := st.setMisbehaving ++ punishes orphan.fromPeer result
        offers := st.offers ++ [⟨h, st.pool, result⟩] }

theorem tryOrphan_tried {h : UInt256} {orphan : COrphanTx}
    (hlookup : s.mapOrphanTransactions.lookup h = some orphan) :
    Tried accept h orphan st (s.tryOrphan accept h st) := by
  rw [tryOrphan, hlookup]
  dsimp only
  split_ifs with hpeer
  · exact .skipped hpeer
  · obtain ⟨⟨pool, result⟩, haccept⟩ : ∃ r, accept st.pool orphan.tx = r := ⟨_, rfl⟩
    have htried := Tried.offered (h := h) haccept
    rw [haccept]
    cases result with
    | accepted => simpa only [queues, erases, punishes, List.append_nil] using htried
    | missingInputs => simpa only [queues, erases, punishes, List.append_nil] using htried
    | rejected nDoS =>
      have hpunished : (if 0 < nDoS then st.setMisbehaving ++ [orphan.fromPeer] else st.setMisbehaving) =
          st.setMisbehaving ++ punishes orphan.fromPeer (.rejected nDoS) := by
        rw [punishes]
        split_ifs
        · rfl
        · rw [List.append_nil]
      simp only [hpunished]
      simpa only [queues, erases, List.append_nil] using htried

/-- The lists of the handler only grow. -/
structure Extends (st st' : TxHandling σ) : Prop where
  work : st.vWorkQueue <+: st'.vWorkQueue
  erase : st.vEraseQueue <+: st'.vEraseQueue
  misbehaving : st.setMisbehaving <+: st'.setMisbehaving
  offers : st.offers <+: st'.offers

theorem Extends.refl (st : TxHandling σ) : Extends st st :=
  ⟨List.prefix_refl _, List.prefix_refl _, List.prefix_refl _, List.prefix_refl _⟩

theorem Extends.trans (h : Extends st st') (h' : Extends st' st'') : Extends st st'' :=
  ⟨h.work.trans h'.work, h.erase.trans h'.erase, h.misbehaving.trans h'.misbehaving,
    h.offers.trans h'.offers⟩

theorem Tried.extends {h : UInt256} {orphan : COrphanTx} (htried : Tried accept h orphan st st') :
    Extends st st' := by
  cases htried with
  | skipped _ => exact .refl st
  | offered _ =>
    exact ⟨List.prefix_append _ _, List.prefix_append _ _, List.prefix_append _ _,
      List.prefix_append _ _⟩

/-- The handler with the message's transaction, which is queued first and offered first. -/
structure Handled (hash : Bytes → UInt256) (inPool : σ → UInt256 → Prop)
    (available : σ → COutPoint → Prop) (s : OrphanTxs) (first : Offer σ) (st : TxHandling σ) : Prop where
  known : ∀ h ∈ st.vWorkQueue, inPool st.pool h
  nodup : st.vWorkQueue.Nodup
  work : st.vWorkQueue = acceptedHashes st.offers
  orphans : ∀ h ∈ st.vWorkQueue, h = first.hash ∨ h ∈ s.keys
  offers : ∃ tries, st.offers = first :: tries ∧
    (∀ offer ∈ tries, offer.result = .missingInputs ∨ offer.hash ∈ st.vEraseQueue) ∧
    (∀ offer ∈ tries, offer.result = .missingInputs → ∀ orphan,
      s.mapOrphanTransactions.lookup offer.hash = some orphan →
        ∃ txin ∈ orphan.tx.vin, ¬ available offer.pool txin.prevout) ∧
    ∀ peer ∈ st.setMisbehaving, ∃ offer ∈ tries, ∃ nDoS orphan, offer.result = .rejected nDoS ∧
      0 < nDoS ∧ s.mapOrphanTransactions.lookup offer.hash = some orphan ∧ orphan.fromPeer = peer

section

variable {first : Offer σ} {h : UInt256} {orphan : COrphanTx}

theorem Handled.tried (hpool : Accepting hash accept inPool available)
    (H : Handled hash inPool available s first st)
    (hlookup : s.mapOrphanTransactions.lookup h = some orphan) (hkeyed : orphan.tx.getHash hash = h)
    (htried : Tried accept h orphan st st') : Handled hash inPool available s first st' := by
  cases htried with
  | skipped _ => exact H
  | @offered pool result haccept =>
    obtain ⟨tries, hoffers, herased, hmissing, hmisbehaving⟩ := H.offers
    have hqueued : ∀ k ∈ queues h result, k = h ∧ result = .accepted := fun k hk => by
      cases result with
      | accepted => exact ⟨List.mem_singleton.mp hk, rfl⟩
      | missingInputs => cases hk
      | rejected nDoS => cases hk
    refine ⟨fun k hk => ?_, ?_, ?_, fun k hk => ?_, tries ++ [⟨h, st.pool, result⟩], ?_,
      fun offer hoffer => ?_, fun offer hoffer hresult => ?_, fun peer hpeer => ?_⟩
    · rcases List.mem_append.mp hk with hk | hk
      · have hkept : inPool (accept st.pool orphan.tx).1 k := hpool.kept (H.known k hk)
        rwa [haccept] at hkept
      · obtain ⟨rfl, rfl⟩ := hqueued k hk
        exact hkeyed ▸ (hpool.once haccept).2
    · refine List.nodup_append.mpr ⟨H.nodup, ?_, fun a ha b hb => ?_⟩
      · cases result <;> first | exact List.nodup_singleton h | exact List.nodup_nil
      · obtain ⟨rfl, rfl⟩ := hqueued b hb
        rintro rfl
        exact (hkeyed ▸ (hpool.once haccept).1) (H.known a ha)
    · rw [acceptedHashes_append, H.work]
      cases result <;> rfl
    · rcases List.mem_append.mp hk with hk | hk
      · exact H.orphans k hk
      · exact .inr ((hqueued k hk).1 ▸ mem_keys_of_lookup hlookup)
    · rw [hoffers, List.cons_append]
    · rcases List.mem_append.mp hoffer with hoffer | hoffer
      · exact (herased offer hoffer).imp_right (List.mem_append_left _)
      · obtain rfl := List.mem_singleton.mp hoffer
        cases result with
        | missingInputs => exact .inl rfl
        | accepted => exact .inr (List.mem_append_right _ List.mem_cons_self)
        | rejected nDoS => exact .inr (List.mem_append_right _ List.mem_cons_self)
    · rcases List.mem_append.mp hoffer with hoffer | hoffer
      · exact hmissing offer hoffer hresult
      · obtain rfl := List.mem_singleton.mp hoffer
        intro orphan' hlookup'
        obtain rfl := Option.some.inj (hlookup.symm.trans hlookup')
        obtain rfl : result = .missingInputs := hresult
        exact hpool.missing (congrArg Prod.snd haccept)
    · rcases List.mem_append.mp hpeer with hpeer | hpeer
      · obtain ⟨offer, hoffer, hrest⟩ := hmisbehaving peer hpeer
        exact ⟨offer, List.mem_append_left _ hoffer, hrest⟩
      · cases result with
        | missingInputs => cases hpeer
        | accepted => cases hpeer
        | rejected nDoS =>
          rw [punishes] at hpeer
          split_ifs at hpeer with hpos
          · exact ⟨_, List.mem_append_right _ List.mem_cons_self, nDoS, orphan, rfl, hpos, hlookup,
              (List.mem_singleton.mp hpeer).symm⟩
          · cases hpeer

/-! ## Settled orphans -/

/-- An orphan for which the loop has come to index `j` of `vWorkQueue`. -/
def Settled (st : TxHandling σ) (j : Nat) (h : UInt256) (orphan : COrphanTx) : Prop :=
  h ∈ st.vEraseQueue ∨ orphan.fromPeer ∈ st.setMisbehaving ∨
    ∃ before pool after, st.offers = before ++ ⟨h, pool, .missingInputs⟩ :: after ∧
      ∀ p ∈ st.vWorkQueue.take (j + 1), p ∈ acceptedHashes before

theorem Settled.extends {j : Nat} (hsettled : Settled st j h orphan) (hext : Extends st st')
    (hj : j < st.vWorkQueue.length) : Settled st' j h orphan := by
  rcases hsettled with herase | hpeer | ⟨before, pool, after, hoffers, htake⟩
  · exact .inl (hext.erase.subset herase)
  · exact .inr (.inl (hext.misbehaving.subset hpeer))
  · obtain ⟨work, hwork⟩ := hext.work
    obtain ⟨offers, hmore⟩ := hext.offers
    refine .inr (.inr ⟨before, pool, after ++ offers, ?_, fun p hp => htake p ?_⟩)
    · rw [← hmore, hoffers, List.append_assoc, List.cons_append]
    · rwa [← hwork, List.take_append_of_le_length hj] at hp

/-- An orphan that is tried now. -/
theorem Handled.settled (H : Handled hash inPool available s first st) (j : Nat)
    (htried : Tried accept h orphan st st') : Settled st' j h orphan := by
  cases htried with
  | skipped hpeer => exact .inr (.inl hpeer)
  | @offered pool result haccept =>
    cases result with
    | accepted => exact .inl (List.mem_append_right _ List.mem_cons_self)
    | rejected nDoS => exact .inl (List.mem_append_right _ List.mem_cons_self)
    | missingInputs =>
      refine .inr (.inr ⟨st.offers, st.pool, [], rfl, fun p hp => ?_⟩)
      rw [← H.work]
      have hmem : p ∈ st.vWorkQueue ++ [] := List.mem_of_mem_take hp
      rwa [List.append_nil] at hmem

theorem Handled.tryOrphans (hpool : Accepting hash accept inPool available) (I : Exact hash s) {j : Nat}
    {hs : List UInt256} (H : Handled hash inPool available s first st)
    (hhs : ∀ k ∈ hs, ∃ orphan, s.mapOrphanTransactions.lookup k = some orphan)
    (hj : j < st.vWorkQueue.length) :
    Handled hash inPool available s first (s.tryOrphans accept hs st) ∧
      Extends st (s.tryOrphans accept hs st) ∧
      ∀ k ∈ hs, ∀ orphan, s.mapOrphanTransactions.lookup k = some orphan →
        Settled (s.tryOrphans accept hs st) j k orphan := by
  induction hs generalizing st with
  | nil => exact ⟨H, .refl st, nofun⟩
  | cons k hs ih =>
    obtain ⟨orphan, hlookup⟩ := hhs k List.mem_cons_self
    have htried : Tried accept k orphan st (s.tryOrphan accept k st) := tryOrphan_tried hlookup
    have hext := htried.extends
    have hlt := hj.trans_le hext.work.length_le
    obtain ⟨H', hext', hsettled⟩ := ih (H.tried hpool hlookup (I.keyed k orphan hlookup) htried)
      (fun k' hk' => hhs k' (List.mem_cons_of_mem _ hk')) hlt
    refine ⟨H', hext.trans hext', fun k' hk' orphan' hlookup' => ?_⟩
    rcases List.mem_cons.mp hk' with rfl | hk'
    · obtain rfl := Option.some.inj (hlookup.symm.trans hlookup')
      exact (H.settled j htried).extends hext' hlt
    · exact hsettled k' hk' orphan' hlookup'

end

/-! ## The loop -/

/-- The orphans of a set, where the index is exact. -/
theorem orphansByPrev_spec (I : Exact hash s) (prev : UInt256) : ∃ hs,
    s.orphansByPrev prev = some hs ∧ ∀ h, h ∈ hs ↔
      ∃ orphan, s.mapOrphanTransactions.lookup h = some orphan ∧ prev ∈ orphan.tx.prevHashes := by
  have hindex := I.index prev
  rw [orphansByPrev]
  cases hlookup : s.mapOrphanTransactionsByPrev.lookup prev with
  | none =>
    refine ⟨[], rfl, fun h => iff_of_false List.not_mem_nil fun horphan => ?_⟩
    obtain ⟨set, hset, -⟩ := (hindex h).mpr horphan
    rw [hlookup] at hset
    cases hset
  | some set =>
    have hmem : ∀ h, h ∈ set ↔ ∃ orphan, s.mapOrphanTransactions.lookup h = some orphan ∧
        prev ∈ orphan.tx.prevHashes := fun h => by
      rw [← hindex h, Framework.Inverted.Holds]
      constructor
      · exact fun hset => ⟨set, hlookup, hset⟩
      · rintro ⟨set', hset', hmem⟩
        rwa [Option.some.inj (hlookup.symm.trans hset')]
    have hall : ∀ h ∈ set, (s.mapOrphanTransactions.lookup h).isSome = true := fun h hset => by
      obtain ⟨orphan, horphan, -⟩ := (hmem h).mp hset
      rw [horphan]
      rfl
    refine ⟨_, if_pos hall, fun h => ?_⟩
    rw [List.mem_filter, decide_eq_true_eq, ← hmem h]
    refine and_iff_right_of_imp fun hset => ?_
    obtain ⟨orphan, horphan, -⟩ := (hmem h).mp hset
    exact mem_keys_of_lookup horphan

section

variable {first : Offer σ}

/-- The orphans that spend from the transactions of `vWorkQueue` before index `i`. -/
def SettledBefore (s : OrphanTxs) (st : TxHandling σ) (i : Nat) : Prop :=
  ∀ j < i, ∀ h orphan, s.mapOrphanTransactions.lookup h = some orphan →
    (∀ p ∈ st.vWorkQueue[j]?, p ∈ orphan.tx.prevHashes) → Settled st j h orphan

theorem Handled.length_le (H : Handled hash inPool available s first st) :
    st.vWorkQueue.length ≤ s.size + 1 := by
  have hkeys : s.keys.length = s.size := by
    rw [keys, List.length_mergeSort, List.length_map, size]
  have hsub : st.vWorkQueue ⊆ first.hash :: s.keys := fun h hh =>
    List.mem_cons.mpr (H.orphans h hh)
  have hle := (H.nodup.subperm hsub).length_le
  rwa [List.length_cons, hkeys] at hle

theorem Handled.workOrphans (hpool : Accepting hash accept inPool available) (I : Exact hash s)
    {fuel i : Nat} (H : Handled hash inPool available s first st) (hi : i ≤ st.vWorkQueue.length)
    (hsettled : SettledBefore s st i) (hfuel : s.size + 2 ≤ fuel + i) :
    ∃ st', s.workOrphans accept fuel i st = some st' ∧ Handled hash inPool available s first st' ∧
      SettledBefore s st' st'.vWorkQueue.length := by
  induction fuel generalizing i st with
  | zero =>
    have := H.length_le
    omega
  | succ fuel ih =>
    unfold OrphanTxs.workOrphans
    cases hprev : st.vWorkQueue[i]? with
    | none =>
      have hlen := List.getElem?_eq_none_iff.mp hprev
      exact ⟨st, rfl, H, (Nat.le_antisymm hi hlen) ▸ hsettled⟩
    | some prev =>
      have hlt := (List.getElem?_eq_some_iff.mp hprev).1
      obtain ⟨hs, hbyPrev, hmem⟩ := orphansByPrev_spec I prev
      obtain ⟨H', hext, htried⟩ := H.tryOrphans hpool I (fun k hk => by
        obtain ⟨orphan, horphan, -⟩ := (hmem k).mp hk
        exact ⟨orphan, horphan⟩) hlt
      have hget : ∀ {j}, j < st.vWorkQueue.length →
          (s.tryOrphans accept hs st).vWorkQueue[j]? = st.vWorkQueue[j]? := fun {j} hj => by
        obtain ⟨more, hmore⟩ := hext.work
        rw [← hmore, List.getElem?_append_left hj]
      have hnext : SettledBefore s (s.tryOrphans accept hs st) (i + 1) := by
        intro j hj h orphan horphan hspends
        rcases Nat.lt_succ_iff_lt_or_eq.mp hj with hj | rfl
        · rw [hget (hj.trans hlt)] at hspends
          exact (hsettled j hj h orphan horphan hspends).extends hext (hj.trans hlt)
        · rw [hget hlt, hprev] at hspends
          exact htried h ((hmem h).mpr ⟨orphan, horphan, hspends prev rfl⟩) orphan horphan
      obtain ⟨st', hrun, hrest⟩ := ih H' (hlt.trans_le hext.work.length_le) hnext (by omega)
      refine ⟨st', ?_, hrest⟩
      simp only [hbyPrev, Option.bind_eq_bind, Option.bind_some]
      exact hrun

end

theorem workOrphans_mono {fuel i : Nat} (h : s.workOrphans accept fuel i st = some st') {fuel' : Nat}
    (hle : fuel ≤ fuel') : s.workOrphans accept fuel' i st = some st' := by
  induction fuel generalizing i st fuel' with
  | zero => cases h
  | succ fuel ih =>
    obtain ⟨fuel', rfl⟩ : ∃ n, fuel' = n + 1 := ⟨fuel' - 1, by omega⟩
    unfold workOrphans at h ⊢
    cases hprev : st.vWorkQueue[i]? with
    | none =>
      rw [hprev] at h
      exact h
    | some prev =>
      rw [hprev] at h
      obtain ⟨hs, hbyPrev, hrest⟩ := Option.bind_eq_some_iff.mp h
      simp only [hbyPrev, Option.bind_eq_bind, Option.bind_some]
      exact ih hrest (by omega)

/-! ## The handler -/

theorem eraseAll_spec (I : Exact hash s) (hs : List UInt256) :
    Exact hash (hs.foldl eraseOrphanTx s) ∧ ∀ h orphan,
      (hs.foldl eraseOrphanTx s).mapOrphanTransactions.lookup h = some orphan ↔
        h ∉ hs ∧ s.mapOrphanTransactions.lookup h = some orphan := by
  induction hs generalizing s with
  | nil => exact ⟨I, fun h orphan => (and_iff_right List.not_mem_nil).symm⟩
  | cons k hs ih =>
    obtain ⟨I', hlookup⟩ := ih (exact_eraseOrphanTx I k)
    refine ⟨I', fun h orphan => ?_⟩
    rw [List.foldl_cons, hlookup, lookup_eraseOrphanTx, List.mem_cons, not_or]
    tauto

/-- The last element of a list with a property. -/
theorem last_index {α : Type} {l : List α} {P : α → Prop} (h : ∃ a ∈ l, P a) :
    ∃ j < l.length, (∀ a ∈ l[j]?, P a) ∧ ∀ k a, l[k]? = some a → P a → k ≤ j := by
  induction l with
  | nil =>
    obtain ⟨a, ha, -⟩ := h
    cases ha
  | cons b l ih =>
    by_cases hlater : ∃ a ∈ l, P a
    · obtain ⟨j, hj, hP, hlast⟩ := ih hlater
      refine ⟨j + 1, Nat.succ_lt_succ hj, hP, fun k a hk ha => ?_⟩
      cases k with
      | zero => exact Nat.zero_le _
      | succ k => exact Nat.succ_le_succ (hlast k a hk ha)
    · obtain ⟨a, ha, hPa⟩ := h
      obtain rfl : a = b := (List.mem_cons.mp ha).resolve_right fun ha => hlater ⟨a, ha, hPa⟩
      refine ⟨0, Nat.zero_lt_succ _, fun c hc => ?_, fun k c hk hc => ?_⟩
      · rwa [← Option.some.inj hc]
      · cases k with
        | zero => exact Nat.le_refl _
        | succ k => exact absurd ⟨c, List.mem_of_getElem? hk, hc⟩ hlater

/-- An orphan that is left was not settled by its last accepted parent. -/
theorem settled_last {h : UInt256} {orphan : COrphanTx}
    (hlookup : s.mapOrphanTransactions.lookup h = some orphan)
    (hsettled : SettledBefore s st st.vWorkQueue.length)
    (hparent : ∃ p ∈ st.vWorkQueue, p ∈ orphan.tx.prevHashes) :
    h ∈ st.vEraseQueue ∨ orphan.fromPeer ∈ st.setMisbehaving ∨
      ∃ before pool after, st.offers = before ++ ⟨h, pool, .missingInputs⟩ :: after ∧
        ∀ p ∈ st.vWorkQueue, p ∈ orphan.tx.prevHashes → p ∈ acceptedHashes before := by
  obtain ⟨j, hj, hspends, hlast⟩ := last_index hparent
  rcases hsettled j hj h orphan hlookup hspends with
    herase | hpeer | ⟨before, pool, after, hoffers, htake⟩
  · exact .inl herase
  · exact .inr (.inl hpeer)
  · refine .inr (.inr ⟨before, pool, after, hoffers, fun p hp hspends => htake p ?_⟩)
    obtain ⟨k, hk⟩ := List.mem_iff_getElem?.mp hp
    have hkj := hlast k p hk hspends
    exact List.mem_iff_getElem?.mpr ⟨k, by rw [List.getElem?_take_of_lt (by omega)]; exact hk⟩

/-- **Orphans are tried again.** Where the index is exact, the handling of an accepted transaction comes
to an end; no transaction is accepted twice, every orphan that was offered is erased unless inputs were
missing, and an orphan that is left, and spends from an accepted transaction, was missing inputs after
all those were accepted, or its peer was found misbehaving. -/
theorem processTx_resolves (hpool : Accepting hash accept inPool available) (I : Exact hash s)
    {pool pool' : σ} {tx : CTransaction} (haccept : accept pool tx = (pool', .accepted))
    (nMaxOrphanTx : Nat) (getRandHash : Nat → UInt256) (peer : Int) :
    ∃ s' st tries, (∀ fuel, s.size + 2 ≤ fuel →
        s.processTx hash accept fuel nMaxOrphanTx getRandHash peer pool tx = some (s', st)) ∧
      st.offers = ⟨tx.getHash hash, pool, .accepted⟩ :: tries ∧ (acceptedHashes st.offers).Nodup ∧
      (∀ offer ∈ tries, offer.result ≠ .missingInputs →
        s'.mapOrphanTransactions.lookup offer.hash = none) ∧
      ∀ h orphan, s'.mapOrphanTransactions.lookup h = some orphan →
        s.mapOrphanTransactions.lookup h = some orphan ∧
        ((∃ p ∈ acceptedHashes st.offers, p ∈ orphan.tx.prevHashes) →
          (∃ offer ∈ tries, ∃ nDoS other, offer.result = .rejected nDoS ∧ 0 < nDoS ∧
            s.mapOrphanTransactions.lookup offer.hash = some other ∧
            other.fromPeer = orphan.fromPeer) ∨
          ∃ before pool after, st.offers = before ++ ⟨h, pool, .missingInputs⟩ :: after ∧
            (∀ p ∈ acceptedHashes st.offers, p ∈ orphan.tx.prevHashes → p ∈ acceptedHashes before) ∧
            ∃ txin ∈ orphan.tx.vin, ¬ available pool txin.prevout) := by
  obtain ⟨first, hfirst⟩ : ∃ first : Offer σ, first = ⟨tx.getHash hash, pool, .accepted⟩ := ⟨_, rfl⟩
  have hstart : Handled hash inPool available s first
      ⟨pool', [tx.getHash hash], [], [], [first]⟩ := by
    refine ⟨fun h hh => ?_, List.nodup_singleton _, ?_, fun h hh => ?_, [], rfl, nofun, nofun, nofun⟩
    · rw [List.mem_singleton.mp hh]
      exact (hpool.once haccept).2
    · rw [hfirst]
      rfl
    · rw [List.mem_singleton.mp hh, hfirst]
      exact .inl rfl
  obtain ⟨st, hrun, H, hsettled⟩ := hstart.workOrphans hpool I (Nat.zero_le _)
    (fun j hj => absurd hj (Nat.not_lt_zero j)) (Nat.le_add_right (s.size + 2) 0)
  obtain ⟨tries, hoffers, herased, hmissing, hmisbehaving⟩ := H.offers
  obtain ⟨-, hleft⟩ := eraseAll_spec I st.vEraseQueue
  refine ⟨st.vEraseQueue.foldl eraseOrphanTx s, st, tries, fun fuel hfuel => ?_, hfirst ▸ hoffers,
    H.work ▸ H.nodup, fun offer hoffer hresult => ?_, fun h orphan hlookup => ?_⟩
  · rw [processTx, haccept]
    dsimp only
    rw [← hfirst, workOrphans_mono hrun hfuel]
    rfl
  · refine Option.eq_none_iff_forall_ne_some.mpr fun orphan hlookup => ?_
    exact ((hleft _ _).mp hlookup).1 ((herased offer hoffer).resolve_left hresult)
  · obtain ⟨hnot, hbefore⟩ := (hleft h orphan).mp hlookup
    refine ⟨hbefore, fun hparent => ?_⟩
    rw [← H.work] at hparent ⊢
    rcases settled_last hbefore hsettled hparent with herase | hpeer | ⟨before, pool, after, hsplit, hall⟩
    · exact absurd herase hnot
    · obtain ⟨offer, hoffer, hrest⟩ := hmisbehaving _ hpeer
      exact .inl ⟨offer, hoffer, hrest⟩
    · refine .inr ⟨before, pool, after, hsplit, hall, ?_⟩
      have htry : ⟨h, pool, .missingInputs⟩ ∈ tries := by
        rw [hoffers, hfirst] at hsplit
        cases before with
        | nil => cases (List.cons.inj hsplit).1
        | cons _ before =>
          rw [(List.cons.inj hsplit).2]
          exact List.mem_append_right _ List.mem_cons_self
      exact hmissing _ htry rfl orphan hbefore

/-! ## Offered twice -/

/-- A hash function that knows a transaction by its lock time. -/
def lockTimeHash (bytes : Bytes) : UInt256 :=
  Fin.ofNat _ (Framework.leNat (bytes.drop (bytes.length - 4)))

/-- A pool of transactions that spend from one another. -/
def acceptChained : Accept (List UInt256) := fun pool tx =>
  if tx.getHash lockTimeHash ∈ pool then (pool, .rejected 0)
  else if ∀ p ∈ tx.prevHashes, p ∈ pool then (pool ++ [tx.getHash lockTimeHash], .accepted)
  else (pool, .missingInputs)

theorem accepting_acceptChained : Accepting lockTimeHash acceptChained (fun pool h => h ∈ pool)
    (fun pool prevout => prevout.hash ∈ pool) where
  once {pool tx pool'} h := by
    rw [acceptChained] at h
    split_ifs at h with hknown hall
    · cases h
    · cases h
      exact ⟨hknown, List.mem_append_right _ List.mem_cons_self⟩
    · cases h
  kept {pool tx h} hh := by
    rw [acceptChained]
    split_ifs
    · exact hh
    · exact List.mem_append_left _ hh
    · exact hh
  missing {pool tx} h := by
    rw [acceptChained] at h
    split_ifs at h with hknown hall
    simpa [CTransaction.prevHashes] using hall

/-- A transaction with a lock time that spends from others. -/
def chainTx (nLockTime : UInt32) (prevs : List UInt256) : CTransaction :=
  ⟨1, prevs.map fun prev => ⟨⟨prev, 0⟩, [], 0⟩, [], nLockTime⟩

/-- An orphan with one parent missing, and one that spends from it as well. -/
def twoOrphans : OrphanTxs :=
  ((empty.addOrphanTx lockTimeHash (chainTx 3 [1, 2]) 0).2.addOrphanTx lockTimeHash (chainTx 2 [1]) 0).2


theorem prevHashes_chainTx (nLockTime : UInt32) (prevs : List UInt256) :
    (chainTx nLockTime prevs).prevHashes = prevs := by
  rw [chainTx, CTransaction.prevHashes, List.map_map]
  exact List.map_id prevs

/-- Their hashes. -/
theorem getHash_chainTx : (chainTx 1 []).getHash lockTimeHash = 1 ∧
    (chainTx 2 [1]).getHash lockTimeHash = 2 ∧ (chainTx 3 [1, 2]).getHash lockTimeHash = 3 := by
  decide +kernel

theorem keys_twoOrphans : twoOrphans.keys = [2, 3] := by
  have hkeys : twoOrphans.mapOrphanTransactions.entries.map Sigma.fst = [2, 3] := by decide +kernel
  rw [keys, hkeys]
  exact List.mergeSort_of_pairwise (by decide +kernel)

theorem orphansByPrev_twoOrphans :
    twoOrphans.orphansByPrev 1 = some [2, 3] ∧ twoOrphans.orphansByPrev 2 = some [3] ∧
      twoOrphans.orphansByPrev 3 = some [] := by
  have h2 : (twoOrphans.mapOrphanTransactions.lookup 2).isSome := by decide +kernel
  have h3 : (twoOrphans.mapOrphanTransactions.lookup 3).isSome := by decide +kernel
  have hprev1 : twoOrphans.mapOrphanTransactionsByPrev.lookup 1 = some {2, 3} := by decide +kernel
  have hprev2 : twoOrphans.mapOrphanTransactionsByPrev.lookup 2 = some {3} := by decide +kernel
  have hprev3 : twoOrphans.mapOrphanTransactionsByPrev.lookup 3 = none := by decide +kernel
  have h23 : (2 : UInt256) ≠ 3 := by decide
  simp [orphansByPrev, keys_twoOrphans, hprev1, hprev2, hprev3, h2, h3, h23]

theorem lookup_twoOrphans :
    twoOrphans.mapOrphanTransactions.lookup 2 = some ⟨chainTx 2 [1], 0⟩ ∧
      twoOrphans.mapOrphanTransactions.lookup 3 = some ⟨chainTx 3 [1, 2], 0⟩ := by
  obtain ⟨-, h2, h3⟩ := getHash_chainTx
  have hsize2 : ¬ 5000 < (chainTx 2 [1]).getSerializeSize := by decide +kernel
  have hsize3 : ¬ 5000 < (chainTx 3 [1, 2]).getSerializeSize := by decide +kernel
  have hne : (2 : UInt256) ≠ 3 := by decide
  have hnone : AList.lookup (2 : UInt256)
      (AList.singleton (β := fun _ => COrphanTx) 3 ⟨chainTx 3 [1, 2], 0⟩) = none :=
    AList.lookup_eq_none.mpr fun hmem => hne (List.mem_singleton.mp hmem)
  have hfirst : (empty.addOrphanTx lockTimeHash (chainTx 3 [1, 2]) 0).2.mapOrphanTransactions =
      AList.singleton 3 ⟨chainTx 3 [1, 2], 0⟩ := by
    simp [addOrphanTx, h3, hsize3, empty]
  have hsecond : twoOrphans.mapOrphanTransactions =
      (AList.singleton (β := fun _ => COrphanTx) 3 ⟨chainTx 3 [1, 2], 0⟩).insert 2 ⟨chainTx 2 [1], 0⟩ := by
    rw [twoOrphans, addOrphanTx, hfirst, h2, hnone]
    simp [hsize2]
  rw [hsecond]
  refine ⟨AList.lookup_insert _, ?_⟩
  rw [AList.lookup_insert_ne hne.symm]
  rfl

theorem acceptChained_runs : acceptChained [] (chainTx 1 []) = ([1], .accepted) ∧
    acceptChained [1] (chainTx 2 [1]) = ([1, 2], .accepted) ∧
    acceptChained [1, 2] (chainTx 3 [1, 2]) = ([1, 2, 3], .accepted) ∧
    acceptChained [1, 2, 3] (chainTx 3 [1, 2]) = ([1, 2, 3], .rejected 0) := by
  obtain ⟨h1, h2, h3⟩ := getHash_chainTx
  have h12 : (2 : UInt256) ≠ 1 := by decide
  have h13 : (3 : UInt256) ≠ 1 := by decide
  have h23 : (3 : UInt256) ≠ 2 := by decide
  simp [acceptChained, prevHashes_chainTx, h1, h2, h3, h12, h13, h23]

/-- An orphan that spends from the message's transaction and from an orphan that is tried before it is
tried again after it was accepted. -/
theorem processTx_again {pool₀ pool₁ pool₂ pool₃ : σ} {tx : CTransaction} {a b c : UInt256}
    {orphan orphan' : COrphanTx} (ha : tx.getHash hash = a)
    (haccept : accept pool₀ tx = (pool₁, .accepted))
    (hprev : s.orphansByPrev a = some [b, c]) (hprev' : s.orphansByPrev b = some [c])
    (hprev'' : s.orphansByPrev c = some []) (hlookup : s.mapOrphanTransactions.lookup b = some orphan)
    (hlookup' : s.mapOrphanTransactions.lookup c = some orphan')
    (haccept' : accept pool₁ orphan.tx = (pool₂, .accepted))
    (haccept'' : accept pool₂ orphan'.tx = (pool₃, .accepted))
    (hagain : accept pool₃ orphan'.tx = (pool₃, .rejected 0)) (nMaxOrphanTx : Nat)
    (getRandHash : Nat → UInt256) (peer : Int) :
    (s.processTx hash accept 4 nMaxOrphanTx getRandHash peer pool₀ tx).map (fun r => r.2.offers) =
      some [⟨a, pool₀, .accepted⟩, ⟨b, pool₁, .accepted⟩, ⟨c, pool₂, .accepted⟩,
        ⟨c, pool₃, .rejected 0⟩] := by
  simp [processTx, workOrphans, tryOrphans, tryOrphan, ha, haccept, hprev, hprev', hprev'', hlookup,
    hlookup', haccept', haccept'', hagain]

/-- The message's transaction stays an orphan if it was one. -/
theorem processTx_own {pool₀ pool₁ pool₂ : σ} {tx : CTransaction} {b c : UInt256}
    {orphan orphan' : COrphanTx} (hb : tx.getHash hash = b) (hne : c ≠ b)
    (haccept : accept pool₀ tx = (pool₁, .accepted)) (hprev : s.orphansByPrev b = some [c])
    (hprev' : s.orphansByPrev c = some []) (hlookup : s.mapOrphanTransactions.lookup b = some orphan)
    (hlookup' : s.mapOrphanTransactions.lookup c = some orphan')
    (haccept' : accept pool₁ orphan'.tx = (pool₂, .accepted)) (nMaxOrphanTx : Nat)
    (getRandHash : Nat → UInt256) (peer : Int) :
    (s.processTx hash accept 3 nMaxOrphanTx getRandHash peer pool₀ tx).map
      (fun r => (r.2.offers, r.1.mapOrphanTransactions.lookup b)) =
      some ([⟨b, pool₀, .accepted⟩, ⟨c, pool₁, .accepted⟩], some orphan) := by
  have hstays : (s.eraseOrphanTx c).mapOrphanTransactions.lookup b = some orphan :=
    lookup_eraseOrphanTx.mpr ⟨hne.symm, hlookup⟩
  simp [processTx, workOrphans, tryOrphans, tryOrphan, hb, haccept, hprev, hprev', hlookup',
    haccept', hstays]

theorem exact_twoOrphans : Exact lockTimeHash twoOrphans :=
  exact_addOrphanTx (exact_addOrphanTx (exact_empty _) (chainTx 3 [1, 2]) 0) (chainTx 2 [1]) 0

theorem processTx_resolves_twoOrphans : ∃ s' st, ∀ fuel, 4 ≤ fuel →
    twoOrphans.processTx lockTimeHash acceptChained fuel 100 (fun _ => 0) 0 [] (chainTx 1 []) =
      some (s', st) := by
  obtain ⟨s', st, -, hrun, -⟩ := processTx_resolves accepting_acceptChained exact_twoOrphans
    acceptChained_runs.1 100 (fun _ => 0) 0
  exact ⟨s', st, hrun⟩

theorem processTx_counterexample :
    Accepting lockTimeHash acceptChained (fun pool h => h ∈ pool)
      (fun pool prevout => prevout.hash ∈ pool) ∧ Exact lockTimeHash twoOrphans ∧
    (twoOrphans.processTx lockTimeHash acceptChained 4 100 (fun _ => 0) 0 [] (chainTx 1 [])).map
      (fun r => r.2.offers) =
      some [⟨1, [], .accepted⟩, ⟨2, [1], .accepted⟩, ⟨3, [1, 2], .accepted⟩,
        ⟨3, [1, 2, 3], .rejected 0⟩] ∧
    (twoOrphans.processTx lockTimeHash acceptChained 3 100 (fun _ => 0) 0 [1] (chainTx 2 [1])).map
      (fun r => (r.2.offers, r.1.mapOrphanTransactions.lookup 2)) =
      some ([⟨2, [1], .accepted⟩, ⟨3, [1, 2], .accepted⟩], some ⟨chainTx 2 [1], 0⟩) := by
  obtain ⟨hprev1, hprev2, hprev3⟩ := orphansByPrev_twoOrphans
  obtain ⟨hlookup2, hlookup3⟩ := lookup_twoOrphans
  obtain ⟨haccept1, haccept2, haccept3, hagain⟩ := acceptChained_runs
  obtain ⟨h1, h2, -⟩ := getHash_chainTx
  refine ⟨accepting_acceptChained, exact_twoOrphans, ?_, ?_⟩
  · exact processTx_again h1 haccept1 hprev1 hprev2 hprev3 hlookup2 hlookup3 haccept2 haccept3 hagain
      100 (fun _ => 0) 0
  · exact processTx_own h2 (by decide) haccept2 hprev2 hprev3 hlookup2 hlookup3 haccept3 100
      (fun _ => 0) 0

end OrphanTxs

end GC
