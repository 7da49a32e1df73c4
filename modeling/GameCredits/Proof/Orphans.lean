import GameCredits.Model.Orphans

/-!
# The orphan index is exact

An orphan is under its own hash, and the index by previous transactions holds just the orphans with an
input from there (`OrphanTxs.Exact`); each function keeps this (`exact_addOrphanTx`,
`exact_eraseOrphanTx`) and so does every sequence of calls, none of which meets a dead iterator
(`orphans_exact`).
-/

namespace GC

open Framework (Bytes)
open Framework.Assoc (lookup_insert_iff lookup_erase_iff mem_entries entries_perm)
open Framework.Inverted

namespace OrphanTxs

variable {hash : Bytes → UInt256} {s s' : OrphanTxs} {h key prev : UInt256} {orphan : COrphanTx}

/-- What holds between calls. -/
structure Exact (hash : Bytes → UInt256) (s : OrphanTxs) : Prop where
  keyed : ∀ h orphan, s.mapOrphanTransactions.lookup h = some orphan → orphan.tx.getHash hash = h
  index : ∀ prev h, Holds s.mapOrphanTransactionsByPrev prev h ↔
    ∃ orphan, s.mapOrphanTransactions.lookup h = some orphan ∧ prev ∈ orphan.tx.prevHashes
  noEmpty : NoEmpty s.mapOrphanTransactionsByPrev

theorem exact_empty (hash : Bytes → UInt256) : Exact hash empty where
  keyed h orphan hl := by cases hl
  index prev h := by
    constructor
    · rintro ⟨_, hl, -⟩
      cases hl
    · rintro ⟨_, hl, -⟩
      cases hl
  noEmpty prev set hl := by cases hl

theorem exact_addOrphanTx (I : Exact hash s) (tx : CTransaction) (peer : Int) :
    Exact hash (s.addOrphanTx hash tx peer).2 := by
  rw [addOrphanTx]
  split_ifs with hdup hbig
  · exact I
  · exact I
  have hnone : s.mapOrphanTransactions.lookup (tx.getHash hash) = none := by
    rwa [Bool.not_eq_true, Option.isSome_eq_false_iff, Option.isNone_iff_eq_none] at hdup
  refine ⟨fun h orphan hl => ?_, fun prev h => ?_, noEmpty_insertAll I.noEmpty⟩
  · rcases lookup_insert_iff.mp hl with ⟨rfl, rfl⟩ | ⟨-, hl⟩
    · rfl
    · exact I.keyed h orphan hl
  · rw [holds_insertAll, I.index]
    simp only [lookup_insert_iff]
    constructor
    · rintro (⟨orphan, hl, hp⟩ | ⟨hp, rfl⟩)
      · refine ⟨orphan, .inr ⟨fun he => ?_, hl⟩, hp⟩
        rw [he, hnone] at hl
        cases hl
      · exact ⟨⟨tx, peer⟩, .inl ⟨rfl, rfl⟩, hp⟩
    · rintro ⟨orphan, ⟨rfl, rfl⟩ | ⟨-, hl⟩, hp⟩
      · exact .inr ⟨hp, rfl⟩
      · exact .inl ⟨orphan, hl, hp⟩

/-- What is left after an orphan is erased. -/
theorem lookup_eraseOrphanTx : (s.eraseOrphanTx key).mapOrphanTransactions.lookup h = some orphan ↔
    h ≠ key ∧ s.mapOrphanTransactions.lookup h = some orphan := by
  rw [eraseOrphanTx]
  cases hl : s.mapOrphanTransactions.lookup key with
  | none =>
    constructor
    · exact fun ho => ⟨fun he => (by rw [he, hl] at ho; cases ho), ho⟩
    · exact And.right
  | some _ => exact lookup_erase_iff

theorem exact_eraseOrphanTx (I : Exact hash s) (key : UInt256) : Exact hash (s.eraseOrphanTx key) := by
  refine ⟨fun h orphan hl => I.keyed h orphan (lookup_eraseOrphanTx.mp hl).2, fun prev h => ?_, ?_⟩
  · simp only [lookup_eraseOrphanTx]
    rw [eraseOrphanTx]
    cases hl : s.mapOrphanTransactions.lookup key with
    | none =>
      rw [I.index]
      constructor
      · rintro ⟨orphan, ho, hp⟩
        exact ⟨orphan, ⟨fun he => (by rw [he, hl] at ho; cases ho), ho⟩, hp⟩
      · rintro ⟨orphan, ⟨-, ho⟩, hp⟩
        exact ⟨orphan, ho, hp⟩
    | some orphan =>
      -- the erased orphan leaves all the sets it is in, which are those of its inputs
      rw [holds_eraseAll, I.index]
      constructor
      · rintro ⟨⟨other, ho, hp⟩, hnot⟩
        refine ⟨other, ⟨fun he => hnot ⟨?_, he⟩, ho⟩, hp⟩
        rw [he, hl] at ho
        rwa [Option.some.inj ho]
      · rintro ⟨other, ⟨hne, ho⟩, hp⟩
        exact ⟨⟨other, ho, hp⟩, fun he => hne he.2⟩
  · rw [eraseOrphanTx]
    split
    · exact I.noEmpty
    · exact noEmpty_eraseAll I.noEmpty

/-! ## EraseOrphansFor -/

/-- The loop erases the peer's orphans under the keys; the iterator never meets an erased entry, since
an orphan is under its own hash. -/
theorem eraseOrphansForLoop_spec (peer : Int) {keys : List UInt256} (I : Exact hash s)
    (hnodup : keys.Nodup)
    (hkeys : ∀ key ∈ keys, ∃ orphan, s.mapOrphanTransactions.lookup key = some orphan) :
    ∃ s', eraseOrphansForLoop hash peer keys s = some s' ∧ Exact hash s' ∧
      ∀ h orphan, s'.mapOrphanTransactions.lookup h = some orphan ↔
        s.mapOrphanTransactions.lookup h = some orphan ∧ (h ∈ keys → orphan.fromPeer ≠ peer) := by
  induction keys generalizing s with
  | nil => exact ⟨s, rfl, I, fun h orphan => ⟨fun hl => ⟨hl, fun hm => by cases hm⟩, And.left⟩⟩
  | cons key keys ih =>
    obtain ⟨hnot, hnodup⟩ := List.nodup_cons.mp hnodup
    obtain ⟨found, hfound⟩ := hkeys key List.mem_cons_self
    rw [eraseOrphansForLoop, hfound]
    dsimp only
    rw [I.keyed key found hfound]
    split_ifs with hpeer
    · have hkeys' : ∀ k ∈ keys,
          ∃ orphan, (s.eraseOrphanTx key).mapOrphanTransactions.lookup k = some orphan := fun k hk => by
        obtain ⟨orphan, ho⟩ := hkeys k (List.mem_cons_of_mem _ hk)
        exact ⟨orphan, lookup_eraseOrphanTx.mpr ⟨fun he => hnot (he ▸ hk), ho⟩⟩
      obtain ⟨s', hrun, I', hs'⟩ := ih (exact_eraseOrphanTx I key) hnodup hkeys'
      refine ⟨s', hrun, I', fun h orphan => ?_⟩
      rw [hs', lookup_eraseOrphanTx, List.mem_cons]
      constructor
      · rintro ⟨⟨hne, ho⟩, hp⟩
        exact ⟨ho, fun hm => hp (hm.resolve_left hne)⟩
      · rintro ⟨ho, hp⟩
        refine ⟨⟨fun he => ?_, ho⟩, fun hm => hp (.inr hm)⟩
        rw [he, hfound] at ho
        exact hp (.inl he) (Option.some.inj ho ▸ hpeer)
    · obtain ⟨s', hrun, I', hs'⟩ := ih I hnodup fun k hk => hkeys k (List.mem_cons_of_mem _ hk)
      refine ⟨s', hrun, I', fun h orphan => ?_⟩
      rw [hs', List.mem_cons]
      refine and_congr_right fun ho => ⟨fun hp hm => ?_, fun hp hm => hp (.inr hm)⟩
      rcases hm with rfl | hm
      · rw [hfound] at ho
        exact Option.some.inj ho ▸ hpeer
      · exact hp hm

theorem nodup_keys (s : OrphanTxs) : s.keys.Nodup :=
  (List.mergeSort_perm _ _).nodup_iff.mpr s.mapOrphanTransactions.nodupKeys

theorem mem_keys_of_lookup (hl : s.mapOrphanTransactions.lookup h = some orphan) : h ∈ s.keys := by
  rw [keys, List.mem_mergeSort]
  exact List.mem_map.mpr ⟨⟨h, orphan⟩, mem_entries.mpr hl, rfl⟩

theorem eraseOrphansFor_spec (I : Exact hash s) (peer : Int) :
    ∃ s', s.eraseOrphansFor hash peer = some s' ∧ Exact hash s' ∧
      ∀ h orphan, s'.mapOrphanTransactions.lookup h = some orphan ↔
        s.mapOrphanTransactions.lookup h = some orphan ∧ orphan.fromPeer ≠ peer := by
  obtain ⟨s', hrun, I', hs'⟩ := eraseOrphansForLoop_spec peer I s.nodup_keys fun _ => mem_keys
  refine ⟨s', hrun, I', fun h orphan => ?_⟩
  rw [hs']
  exact and_congr_right fun ho => ⟨fun hp => hp (mem_keys_of_lookup ho), fun hp _ => hp⟩

/-! ## LimitOrphanTxSize -/

theorem victim_isSome (hpos : 0 < s.size) (randomhash : UInt256) :
    ∃ key, s.victim randomhash = some key := by
  have hlen : s.keys.length = s.size := by
    rw [keys, List.length_mergeSort, List.length_map, size]
  rw [victim]
  cases s.keys.find? fun key => !memcmpLess key randomhash with
  | some key => exact ⟨key, rfl⟩
  | none =>
    cases hk : s.keys with
    | nil => rw [hk, List.length_nil] at hlen; omega
    | cons key keys => exact ⟨key, rfl⟩

theorem limitOrphanTxSize_spec (nMaxOrphans : Nat) (getRandHash : Nat → UInt256) (nEvicted : Nat)
    (I : Exact hash s) :
    ∃ n s', s.limitOrphanTxSize nMaxOrphans getRandHash nEvicted = some (n, s') ∧ Exact hash s' ∧
      s'.size ≤ nMaxOrphans ∧ ∀ h orphan, s'.mapOrphanTransactions.lookup h = some orphan →
        s.mapOrphanTransactions.lookup h = some orphan := by
  induction hn : s.size using Nat.strong_induction_on generalizing s nEvicted with
  | _ n ih =>
    rw [limitOrphanTxSize]
    split_ifs with hmax
    · obtain ⟨key, hkey⟩ := victim_isSome (by omega : 0 < s.size) (getRandHash nEvicted)
      have hlt := size_eraseOrphanTx (victim_mem hkey)
      split
      · rename_i hnone
        rw [hkey] at hnone
        cases hnone
      · rename_i key' hkey'
        obtain rfl := Option.some.inj (hkey.symm.trans hkey')
        obtain ⟨m, s', hrun, I', hsize, hsub⟩ :=
          ih _ (hn ▸ hlt) (nEvicted + 1) (exact_eraseOrphanTx I key) rfl
        exact ⟨m, s', hrun, I', hsize, fun h orphan hl => (lookup_eraseOrphanTx.mp (hsub h orphan hl)).2⟩
    · exact ⟨nEvicted, s, rfl, I, by omega, fun _ _ hl => hl⟩

/-! ## Calls -/

theorem exact_step (I : Exact hash s) (call : Call) :
    ∃ s', step hash call s = some s' ∧ Exact hash s' := by
  cases call with
  | addOrphanTx tx peer => exact ⟨_, rfl, exact_addOrphanTx I tx peer⟩
  | eraseOrphanTx key => exact ⟨_, rfl, exact_eraseOrphanTx I key⟩
  | eraseOrphansFor peer =>
    obtain ⟨s', hrun, I', -⟩ := eraseOrphansFor_spec I peer
    exact ⟨s', hrun, I'⟩
  | limitOrphanTxSize nMaxOrphans getRandHash =>
    obtain ⟨n, s', hrun, I', -, -⟩ := limitOrphanTxSize_spec nMaxOrphans getRandHash 0 I
    exact ⟨s', by rw [step, hrun]; rfl, I'⟩

theorem exact_run (I : Exact hash s) (calls : List Call) :
    ∃ s', Framework.run (step hash) calls s = some s' ∧ Exact hash s' := by
  induction calls generalizing s with
  | nil => exact ⟨s, rfl, I⟩
  | cons call calls ih =>
    obtain ⟨s₁, hs₁, I₁⟩ := exact_step I call
    obtain ⟨s', hrun, I'⟩ := ih I₁
    exact ⟨s', by rw [Framework.run, hs₁]; exact hrun, I'⟩

/-- After any calls the index enters an orphan under the previous transactions of its inputs and no
others, without empty sets; `LimitOrphanTxSize` then leaves no more orphans than it should, whatever it
draws, and `EraseOrphansFor` takes away the orphans of the peer and no others. -/
theorem orphans_exact (hash : Bytes → UInt256) (calls : List Call) :
    ∃ s, Framework.run (step hash) calls empty = some s ∧
      (∀ prev h, (∃ set, s.mapOrphanTransactionsByPrev.lookup prev = some set ∧ h ∈ set) ↔
        ∃ orphan, s.mapOrphanTransactions.lookup h = some orphan ∧
          ∃ txin ∈ orphan.tx.vin, txin.prevout.hash = prev) ∧
      (∀ prev set, s.mapOrphanTransactionsByPrev.lookup prev = some set → set.Nonempty) ∧
      (∀ nMaxOrphans getRandHash, ∃ nEvicted s',
        s.limitOrphanTxSize nMaxOrphans getRandHash 0 = some (nEvicted, s') ∧ s'.size ≤ nMaxOrphans) ∧
      ∀ peer, ∃ s', s.eraseOrphansFor hash peer = some s' ∧
        ∀ h orphan, s'.mapOrphanTransactions.lookup h = some orphan ↔
          s.mapOrphanTransactions.lookup h = some orphan ∧ orphan.fromPeer ≠ peer := by
  obtain ⟨s, hrun, I⟩ := exact_run (exact_empty hash) calls
  refine ⟨s, hrun, fun prev h => ?_, I.noEmpty, fun nMaxOrphans getRandHash => ?_, fun peer => ?_⟩
  · rw [← Holds, I.index]
    simp only [CTransaction.prevHashes, List.mem_map]
  · obtain ⟨n, s', hlim, -, hsize, -⟩ := limitOrphanTxSize_spec nMaxOrphans getRandHash 0 I
    exact ⟨n, s', hlim, hsize⟩
  · obtain ⟨s', herase, -, hs'⟩ := eraseOrphansFor_spec I peer
    exact ⟨s', herase, hs'⟩

end OrphanTxs

end GC
