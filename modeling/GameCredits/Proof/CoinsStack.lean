import GameCredits.Model.CoinsStack
import GameCredits.Proof.Views

/-!
# Stacks of caches are transparent

`LayerOk` says of a cache what its entries and flags mean over the records under it, and `Stacked`
that every cache of a stack satisfies it, for one plain map of records for each.

* `fetchFrom_spec`, `modifyCoins_repr`, `flush_repr`: each operation keeps `Stacked`.
* `stack_transparent`: a stack of caches on any view that keeps what it is told behaves as a plain
  map with the same edits.
* `mapView_lawful`, `db_lawful`: a plain map and the coin database are such views.
* `stack_reads_spent`: edits that look into a fully spent record behave as on no plain map.
-/

namespace GC

open Framework (run run_sim)

/-! ## Unspent records -/

@[simp] theorem unspent_none : unspent none = none := rfl

theorem unspent_eq_some {r : Option CCoins} {coins : CCoins} :
    unspent r = some coins ↔ r = some coins ∧ coins.isPruned = false := by
  rw [unspent, Option.filter_eq_some_iff, Bool.not_eq_true']

theorem unspent_some_eq_none {coins : CCoins} : unspent (some coins) = none ↔ coins.isPruned = true := by
  rw [unspent, Option.filter_eq_none_iff]
  simp

/-- A record of a plain map is the record that it comes from. -/
theorem eq_of_unspent {coins : CCoins} {r : Option CCoins} (h : unspent (some coins) = r)
    (hr : r ≠ none) : coins = r.getD .empty := by
  obtain ⟨c, rfl⟩ := Option.ne_none_iff_exists'.mp hr
  exact Option.some.inj (unspent_eq_some.mp h).1

/-- A trimmed record has outputs when it is not fully spent. -/
theorem isEmpty_of_unspent {coins : CCoins} (h : coins.Trimmed) :
    (!coins.vout.isEmpty) = (unspent (some coins)).isSome := by
  have hp : coins.vout.isEmpty = coins.isPruned := by
    rw [Bool.eq_iff_iff, List.isEmpty_iff, h.vout_eq_nil]
  rw [hp, unspent, Option.filter_some]
  cases coins.isPruned <;> rfl

/-! ## Edits and bases -/

/-- An edit that gives a record which the base can store, and the same one for every fully spent
record. -/
structure EditOk (storable : CCoins → Prop) (f : CCoins → CCoins) : Prop where
  spent : ∀ coins, coins.vout = [] →
    unspent (some (f coins).cleanup) = unspent (some (f .empty).cleanup)
  stored : ∀ coins c, coins = .empty ∨ storable coins → unspent (some (f coins).cleanup) = some c →
    storable c

/-- The edits of an operation are such edits. -/
def StackOp.Ok (storable : CCoins → Prop) : StackOp → Prop
  | .modifyCoins _ f => EditOk storable f
  | _ => True

/-- A batch of entries for a plain map: trimmed records that the base can store, with those that are
not dirty as they are in the map. -/
structure Writable (storable : CCoins → Prop) (m : Records) (entry : CCoinsCacheEntry)
    (txid : UInt256) : Prop where
  trimmed : entry.coins.Trimmed
  stored : ∀ c, unspent (some entry.coins) = some c → storable c
  clean : entry.dirty = false → unspent (some entry.coins) = m txid

/-- A view keeps what it is told: `holds` says of its state which unspent records it has. -/
structure CCoinsView.Lawful {β : Type} (V : CCoinsView β) (storable : CCoins → Prop)
    (holds : β → Records → Prop) : Prop where
  read : ∀ {b m}, holds b m → ∀ txid, unspent (V.getCoins b txid).1 = m txid
  trimmed : ∀ {b m}, holds b m → ∀ txid coins, (V.getCoins b txid).1 = some coins → coins.Trimmed
  keeps : ∀ {b m}, holds b m → ∀ txid, holds (V.getCoins b txid).2 m
  stored : ∀ {b m}, holds b m → ∀ txid c, m txid = some c → storable c
  write : ∀ {b m}, holds b m → ∀ mapCoins hashBlock,
    (∀ txid entry, mapCoins txid = some entry → Writable storable m entry txid) →
    holds (V.batchWrite mapCoins hashBlock b) (m.write mapCoins)

/-! ## What the entries mean -/

/-- Whether the topmost cache, if there is one, has an entry for a transaction. -/
def HasEntry : List CCoinsViewCache → UInt256 → Prop
  | [], _ => True
  | view :: _, txid => (view.cacheCoins txid).isSome = true

/-- The entry of a cache with records `p` over caches with records `q`: it holds the record, the
record under a fresh entry is absent, the one under a clean entry is the same, and one that is not
fresh was read through the cache below. -/
structure EntryOk (views : List CCoinsViewCache) (p q : Records) (txid : UInt256)
    (entry : CCoinsCacheEntry) : Prop where
  trimmed : entry.coins.Trimmed
  record : unspent (some entry.coins) = p txid
  fresh : entry.fresh = true → q txid = none
  clean : entry.dirty = false → p txid = q txid
  read : entry.fresh = false → HasEntry views txid

/-- What a cache has for a transaction, an entry or none: without one the record is that under it. -/
structure OkAt (views : List CCoinsViewCache) (p q : Records) (txid : UInt256)
    (entry : Option CCoinsCacheEntry) : Prop where
  absent : entry = none → p txid = q txid
  entry : ∀ e, entry = some e → EntryOk views p q txid e

/-- A cache stands for the records `p` over caches with records `q`. -/
def LayerOk (views : List CCoinsViewCache) (p q : Records) (view : CCoinsViewCache) : Prop :=
  ∀ txid, OkAt views p q txid (view.cacheCoins txid)

/-- A stack stands for plain maps: that of the topmost cache, and those under it. -/
inductive Stacked {β : Type} (holds : β → Records → Prop) :
    List CCoinsViewCache → β → Records → List Records → Prop
  | base {b m} (h : holds b m) : Stacked holds [] b m []
  | layer {view views b p q ms} (hl : LayerOk views p q view) (h : Stacked holds views b q ms) :
    Stacked holds (view :: views) b p (q :: ms)

section

variable {views views' : List CCoinsViewCache} {view us : CCoinsViewCache} {p p' q r : Records}
  {txid : UInt256}

theorem okAt_none (h : p txid = q txid) : OkAt views p q txid none :=
  ⟨fun _ => h, fun _ h => nomatch h⟩

theorem okAt_some {entry : CCoinsCacheEntry} (h : EntryOk views p q txid entry) :
    OkAt views p q txid (some entry) :=
  ⟨fun h => (nomatch h), fun _ he => by cases he; exact h⟩

theorem OkAt.mono {entry : Option CCoinsCacheEntry}
    (hv : HasEntry views txid → HasEntry views' txid) (h : OkAt views p q txid entry) :
    OkAt views' p q txid entry where
  absent := h.absent
  entry e he :=
    let hok := h.entry e he
    { hok with read := fun hf => hv (hok.read hf) }

theorem LayerOk.mono (hv : ∀ i, HasEntry views i → HasEntry views' i) (h : LayerOk views p q view) :
    LayerOk views' p q view := fun i => (h i).mono (hv i)

theorem layerOk_new : LayerOk views p p .new := fun _ => okAt_none rfl

/-- The records above may change at the other transactions. -/
theorem OkAt.congr {entry : Option CCoinsCacheEntry} (hp : p' txid = p txid)
    (h : OkAt views p q txid entry) : OkAt views p' q txid entry := by
  refine ⟨fun hn => hp.trans (h.absent hn), fun e he => ?_⟩
  have hok := h.entry e he
  exact ⟨hok.trimmed, hok.record.trans hp.symm, hok.fresh, fun hd => hp.trans (hok.clean hd),
    hok.read⟩

/-- An entry is set, and the records change at its transaction only. -/
theorem LayerOk.setEntry (h : LayerOk views p q view) {e : Option CCoinsCacheEntry}
    (hp : ∀ i, i ≠ txid → p' i = p i) (he : OkAt views p' q txid e) :
    LayerOk views p' q (view.setEntry txid e) := by
  intro i
  by_cases hi : i = txid
  · subst hi
    rw [setEntry_self]
    exact he
  · rw [setEntry_ne hi]
    exact (h i).congr (hp i hi)

/-- The entry for a record that was read from below. -/
theorem entryOk_fetched {coins : CCoins} (hc : coins.Trimmed) (hp : unspent (some coins) = p txid)
    (hq : p txid = q txid) (hv : HasEntry views txid) :
    EntryOk views p q txid (CCoinsViewCache.fetched coins) where
  trimmed := hc
  record := hp
  fresh hf := by rw [← hq, ← hp]; exact unspent_some_eq_none.mpr hf
  clean _ := hq
  read _ := hv

/-! ## Flushing one cache into another -/

/-- A dirty entry over a cache without one is fresh. -/
theorem LayerOk.fresh_of_absent (h : LayerOk (us :: views) p q view) {entry : CCoinsCacheEntry}
    (he : view.cacheCoins txid = some entry) (hus : us.cacheCoins txid = none) :
    entry.fresh = true := by
  by_contra hf
  have hread := ((h txid).entry entry he).read (Bool.eq_false_iff.mpr hf)
  rw [HasEntry, hus] at hread
  cases hread

/-- The assertion of `BatchWrite` holds. -/
theorem LayerOk.assert (h : LayerOk (us :: views) p q view) (txid : UInt256) :
    batchAssert (view.cacheCoins txid) (us.cacheCoins txid) :=
  fun _ he _ hus _ => h.fresh_of_absent he hus

/-- What `BatchWrite` makes of an entry of the cache below. -/
theorem LayerOk.batchEntry_ok (h : LayerOk (us :: views) p q view) (h' : LayerOk views q r us) :
    OkAt views p r txid (batchEntry (view.cacheCoins txid) (us.cacheCoins txid)) := by
  cases he : view.cacheCoins txid with
  | none => exact (h' txid).congr ((h txid).absent he)
  | some entry =>
    have hok := (h txid).entry entry he
    have hpruned : entry.coins.isPruned = true → p txid = none := fun hp => by
      rw [← hok.record]
      exact unspent_some_eq_none.mpr hp
    cases hd : entry.dirty with
    | false =>
      rw [batchEntry_clean hd]
      exact (h' txid).congr (hok.clean hd)
    | true =>
      cases hus : us.cacheCoins txid with
      | none =>
        have hr : r txid = none := by
          rw [← (h' txid).absent hus]
          exact hok.fresh (h.fresh_of_absent he hus)
        rw [batchEntry_absent hd]
        split_ifs with hp
        · exact okAt_none ((hpruned hp).trans hr.symm)
        · exact okAt_some ⟨hok.trimmed, hok.record, fun _ => hr, fun h => (nomatch h),
            fun h => (nomatch h)⟩
      | some us₀ =>
        have hus₀ := (h' txid).entry us₀ hus
        rw [batchEntry_present hd]
        split_ifs with hp
        · rw [Bool.and_eq_true] at hp
          exact okAt_none ((hpruned hp.2).trans (hus₀.fresh hp.1).symm)
        · exact okAt_some ⟨hok.trimmed, hok.record, hus₀.fresh, fun h => (nomatch h),
            hus₀.read⟩

/-- After a flush the cache below stands for the records of the one above. -/
theorem LayerOk.flush (h : LayerOk (us :: views) p q view) (h' : LayerOk views q r us)
    (hashBlock : UInt256) :
    LayerOk views p r
      ⟨fun txid => batchEntry (view.cacheCoins txid) (us.cacheCoins txid), hashBlock⟩ :=
  fun _ => h.batchEntry_ok h'

/-- What a flush writes into the view at the bottom. -/
theorem LayerOk.write (h : LayerOk [] p q view) : q.write view.cacheCoins = p := by
  funext i
  show batchUnspent (view.cacheCoins i) (q i) = p i
  unfold batchUnspent
  cases he : view.cacheCoins i with
  | none => exact ((h i).absent he).symm
  | some entry =>
    have hok := (h i).entry entry he
    simp only
    split_ifs with hd
    · exact hok.record
    · exact (hok.clean (Bool.eq_false_iff.mpr hd)).symm

end

/-! ## The operations -/

section

variable {β : Type} {V : CCoinsView β} {storable : CCoins → Prop} {holds : β → Records → Prop}
  {views : List CCoinsViewCache} {view : CCoinsViewCache} {b : β} {p q m : Records}
  {ms ms' : List Records} {s : CoinsStack β}

/-- A stack that stands for plain maps, as a state of the machine. -/
def CoinsStack.Repr (holds : β → Records → Prop) (s : CoinsStack β) : List Records → Prop
  | [] => False
  | m :: ms => Stacked holds s.layers s.base m ms

/-- What reading a stack gives, and leaves. -/
structure Fetched (holds : β → Records → Prop) (views : List CCoinsViewCache) (p : Records)
    (ms : List Records) (txid : UInt256) (r : Option CCoins × List CCoinsViewCache × β) : Prop where
  value : unspent r.1 = p txid
  trimmed : ∀ coins, r.1 = some coins → coins.Trimmed
  found : ∀ coins, r.1 = some coins → HasEntry r.2.1 txid
  grows : ∀ i, HasEntry views i → HasEntry r.2.1 i
  repr : Stacked holds r.2.1 r.2.2 p ms

/-- Reading returns the record, fills the caches and keeps what they stand for. -/
theorem fetchFrom_spec (hV : V.Lawful storable holds) (h : Stacked holds views b p ms) (txid : UInt256) :
    Fetched holds views p ms txid (CoinsStack.fetchFrom V views b txid) := by
  induction h with
  | base h =>
    exact ⟨hV.read h txid, hV.trimmed h txid, fun _ _ => trivial, fun _ _ => trivial,
      .base (hV.keeps h txid)⟩
  | @layer view views b p q ms hl h ih =>
    unfold CoinsStack.fetchFrom
    cases hentry : view.cacheCoins txid with
    | some entry =>
      have hok := (hl txid).entry entry hentry
      refine ⟨hok.record, fun _ he => ?_, fun _ _ => ?_, fun _ hi => hi, .layer hl h⟩
      · cases he
        exact hok.trimmed
      · rw [HasEntry, hentry]
        rfl
    | none =>
      have hpq := (hl txid).absent hentry
      generalize CoinsStack.fetchFrom V views b txid = r at ih
      obtain ⟨r, views', b'⟩ := r
      have hl' := hl.mono ih.grows
      cases r with
      | none =>
        exact ⟨ih.value.trans hpq.symm, fun _ h0 => (nomatch h0), fun _ h0 => (nomatch h0),
          fun _ hi => hi, .layer hl' ih.repr⟩
      | some coins =>
        have hvalue : unspent (some coins) = p txid := ih.value.trans hpq.symm
        have hfound : HasEntry
            (view.setEntry txid (some (CCoinsViewCache.fetched coins)) :: views') txid := by
          rw [HasEntry, setEntry_self]
          rfl
        refine ⟨hvalue, ih.trimmed, fun _ _ => hfound, fun i hi => ?_, .layer ?_ ih.repr⟩
        · by_cases hit : i = txid
          · subst hit
            exact hfound
          · rw [HasEntry, setEntry_ne hit]
            exact hi
        · exact hl'.setEntry (fun _ _ => rfl) (okAt_some
            (entryOk_fetched (ih.trimmed coins rfl) hvalue hpq (ih.found coins rfl)))

/-- Reading keeps what a stack stands for. -/
theorem fetchCoins_repr (hV : V.Lawful storable holds) (h : s.Repr holds (p :: ms)) (txid : UInt256) :
    (s.fetchCoins V txid).2.Repr holds (p :: ms) := (fetchFrom_spec hV h txid).repr

/-- The records of the topmost cache are what a read returns. -/
theorem accessCoins_eq (hV : V.Lawful storable holds) (h : s.Repr holds (p :: ms)) (txid : UInt256) :
    unspent (s.accessCoins V txid).1 = p txid := (fetchFrom_spec hV h txid).value

theorem haveCoins_eq (hV : V.Lawful storable holds) (h : s.Repr holds (p :: ms)) (txid : UInt256) :
    (s.haveCoins V txid).1 = (p txid).isSome := by
  have hf := fetchFrom_spec hV h txid
  rw [← hf.value]
  show Option.any _ (CoinsStack.fetchFrom V s.layers s.base txid).1 = _
  cases hr : (CoinsStack.fetchFrom V s.layers s.base txid).1 with
  | none => rfl
  | some coins => exact isEmpty_of_unspent (hf.trimmed coins hr)

/-! ## Modifying -/

theorem Records.modify_self (m : Records) (txid : UInt256) (f : CCoins → CCoins) :
    m.modify txid f txid = unspent (some (f ((m txid).getD .empty)).cleanup) := if_pos rfl

theorem Records.modify_ne {i txid : UInt256} (h : i ≠ txid) (m : Records) (f : CCoins → CCoins) :
    m.modify txid f i = m i := if_neg h

/-- What a modification starts from. -/
theorem entryFor_spec (hV : V.Lawful storable holds) (hl : LayerOk views p q view)
    (h : Stacked holds views b q ms) (txid : UInt256) :
    EntryOk (CoinsStack.entryFor V view views b txid).2.1 p q txid
        (CoinsStack.entryFor V view views b txid).1 ∧
      (∀ i, HasEntry views i → HasEntry (CoinsStack.entryFor V view views b txid).2.1 i) ∧
      Stacked holds (CoinsStack.entryFor V view views b txid).2.1
        (CoinsStack.entryFor V view views b txid).2.2 q ms := by
  unfold CoinsStack.entryFor
  cases hentry : view.cacheCoins txid with
  | some entry => exact ⟨(hl txid).entry entry hentry, fun _ hi => hi, h⟩
  | none =>
    have hpq := (hl txid).absent hentry
    have hf := fetchFrom_spec hV h txid
    generalize CoinsStack.fetchFrom V views b txid = r at hf
    obtain ⟨r, views', b'⟩ := r
    cases r with
    | none =>
      have hq : q txid = none := hf.value.symm
      exact ⟨⟨rfl, (hpq.trans hq).symm, fun _ => hq, fun _ => hpq, fun h0 => (nomatch h0)⟩,
        hf.grows, hf.repr⟩
    | some coins =>
      have hok := entryOk_fetched (hf.trimmed coins rfl) (hf.value.trans hpq.symm) hpq
        (hf.found coins rfl)
      exact ⟨hok, hf.grows, hf.repr⟩

/-- An edit does to the entry what it does to the record of the plain map. -/
theorem unspent_modified {f : CCoins → CCoins} (hf : EditOk storable f) {txid : UInt256}
    {entry : CCoinsCacheEntry} (h : EntryOk views p q txid entry) :
    unspent (some (f entry.coins).cleanup) = p.modify txid f txid := by
  rw [Records.modify_self]
  by_cases hp : p txid = none
  · have hpruned := unspent_some_eq_none.mp (h.record.trans hp)
    rw [hp, hf.spent entry.coins (h.trimmed.vout_eq_nil.mpr hpruned)]
    rfl
  · rw [eq_of_unspent h.record hp]

/-- The entry after a modification. -/
theorem okAt_modified {f : CCoins → CCoins} (hf : EditOk storable f) {txid : UInt256}
    {entry : CCoinsCacheEntry} (h : EntryOk views p q txid entry) :
    OkAt views (p.modify txid f) q txid (CoinsStack.modified entry f) := by
  have hrecord := unspent_modified hf h
  unfold CoinsStack.modified
  split_ifs with hdrop
  · rw [Bool.and_eq_true] at hdrop
    refine okAt_none ?_
    rw [← hrecord, h.fresh hdrop.1]
    exact unspent_some_eq_none.mpr hdrop.2
  · exact okAt_some ⟨CCoins.trimmed_cleanup _, hrecord, h.fresh, fun h0 => (nomatch h0), h.read⟩

theorem modifyCoins_repr (hV : V.Lawful storable holds) {f : CCoins → CCoins} (hf : EditOk storable f)
    (txid : UInt256) (h : s.Repr holds (p :: q :: ms)) :
    ∃ s', s.modifyCoins V txid f = some s' ∧ s'.Repr holds (p.modify txid f :: q :: ms) := by
  obtain ⟨layers, base⟩ := s
  cases h with
  | @layer view views _ _ _ _ hl h =>
    refine ⟨_, rfl, ?_⟩
    obtain ⟨hok, hgrows, hrepr⟩ := entryFor_spec hV hl h txid
    refine .layer ?_ hrepr
    exact (hl.mono hgrows).setEntry (fun i hi => Records.modify_ne hi p f) (okAt_modified hf hok)

/-! ## Flushing -/

/-- Every record of the plain maps can be stored. -/
def Stored (storable : CCoins → Prop) (ms : List Records) : Prop :=
  ∀ m ∈ ms, ∀ txid c, m txid = some c → storable c

theorem Stored.modify {f : CCoins → CCoins} (hf : EditOk storable f) (txid : UInt256)
    (h : Stored storable (p :: ms)) : Stored storable (p.modify txid f :: ms) := by
  intro m hm i c hc
  rcases List.mem_cons.mp hm with rfl | hm
  · by_cases hi : i = txid
    · subst hi
      rw [Records.modify_self] at hc
      refine hf.stored _ c ?_ hc
      cases hp : p i with
      | none => exact .inl rfl
      | some c' => exact .inr (h p (List.mem_cons_self ..) i c' hp)
    · rw [Records.modify_ne hi] at hc
      exact h p (List.mem_cons_self ..) i c hc
  · exact h m (List.mem_cons_of_mem _ hm) i c hc

/-- The steps on plain maps keep their records storable. -/
theorem plainStep_stored {op : StackOp} (hop : op.Ok storable) (h : Stored storable ms)
    (hs : plainStep op ms = some ms') : Stored storable ms' := by
  have hcons : ∀ {m m' : Records} {ms : List Records}, Stored storable (m :: m' :: ms) →
      Stored storable (m :: m :: ms) ∧ Stored storable (m' :: ms) := by
    intro m m' ms h
    refine ⟨fun n hn => ?_, fun n hn => h n (List.mem_cons_of_mem _ hn)⟩
    rcases List.mem_cons.mp hn with rfl | hn
    · exact h n (List.mem_cons_self ..)
    rcases List.mem_cons.mp hn with rfl | hn
    · exact h n (List.mem_cons_self ..)
    · exact h n (List.mem_cons_of_mem _ (List.mem_cons_of_mem _ hn))
  match op, ms, hs with
  | .push, m :: ms, hs =>
    cases hs
    intro n hn
    rcases List.mem_cons.mp hn with rfl | hn
    · exact h n (List.mem_cons_self ..)
    · exact h n hn
  | .discard, _ :: m :: ms, hs => cases hs; exact (hcons h).2
  | .flush, m :: m' :: ms, hs => cases hs; exact (hcons h).1
  | .modifyCoins txid f, m :: m' :: ms, hs => cases hs; exact h.modify hop txid
  | .accessCoins _, m :: m' :: ms, hs => cases hs; exact h
  | .getCoins _, m :: m' :: ms, hs => cases hs; exact h
  | .haveCoins _, m :: m' :: ms, hs => cases hs; exact h
  | .setBestBlock _, m :: m' :: ms, hs => cases hs; exact h

theorem flushAssert_of_repr (h : s.Repr holds (p :: ms)) : s.FlushAssert := by
  obtain ⟨layers, base⟩ := s
  cases h with
  | base h => trivial
  | layer hl h =>
    cases h with
    | base h => trivial
    | layer hl' h => exact hl.assert

theorem flush_repr (hV : V.Lawful storable holds) (hst : Stored storable (p :: q :: ms))
    (h : s.Repr holds (p :: q :: ms)) :
    ∃ s', s.flush V = some s' ∧ s'.Repr holds (p :: p :: ms) := by
  obtain ⟨layers, base⟩ := s
  cases h with
  | @layer view views _ _ _ _ hl h =>
    cases h with
    | base h =>
      refine ⟨_, rfl, .layer (fun _ => okAt_none rfl) (.base ?_)⟩
      have hw := hV.write h view.cacheCoins view.hashBlock fun txid entry he => ?_
      · rwa [hl.write] at hw
      · have hok := (hl txid).entry entry he
        refine ⟨hok.trimmed, fun c hc => ?_, fun hd => hok.record.trans (hok.clean hd)⟩
        exact hst p (List.mem_cons_self ..) txid c (hok.record.symm.trans hc)
    | layer hl' h => exact ⟨_, rfl, .layer (fun _ => okAt_none rfl) (.layer (hl.flush hl' _) h)⟩

/-! ## Transparency -/

/-- A stack that stands for more than the map of its bottom has a cache. -/
theorem CoinsStack.Repr.layers (h : s.Repr holds (p :: q :: ms)) :
    ∃ view views b, s = ⟨view :: views, b⟩ := by
  obtain ⟨layers, base⟩ := s
  cases h with
  | layer hl h => exact ⟨_, _, _, rfl⟩

/-- Each operation does to a stack what it does to the plain maps. -/
theorem step_repr (hV : V.Lawful storable holds) {op : StackOp} (hop : op.Ok storable)
    (hst : Stored storable ms) (h : s.Repr holds ms) (hs : plainStep op ms = some ms') :
    ∃ s', s.step V op = some s' ∧ s'.Repr holds ms' := by
  match op, ms, hs with
  | .push, m :: ms, hs =>
    cases hs
    exact ⟨s.push, rfl, .layer layerOk_new h⟩
  | .discard, _ :: m :: ms, hs =>
    cases hs
    obtain ⟨view, views, b, rfl⟩ := h.layers
    cases h with
    | layer hl h => exact ⟨_, rfl, h⟩
  | .flush, m :: m' :: ms, hs =>
    cases hs
    obtain ⟨view, views, b, rfl⟩ := h.layers
    exact flush_repr hV hst h
  | .modifyCoins txid f, m :: m' :: ms, hs =>
    cases hs
    obtain ⟨view, views, b, rfl⟩ := h.layers
    exact modifyCoins_repr hV hop txid h
  | .accessCoins txid, m :: m' :: ms, hs =>
    cases hs
    obtain ⟨view, views, b, rfl⟩ := h.layers
    exact ⟨_, rfl, fetchCoins_repr hV h txid⟩
  | .getCoins txid, m :: m' :: ms, hs =>
    cases hs
    obtain ⟨view, views, b, rfl⟩ := h.layers
    exact ⟨_, rfl, fetchCoins_repr hV h txid⟩
  | .haveCoins txid, m :: m' :: ms, hs =>
    cases hs
    obtain ⟨view, views, b, rfl⟩ := h.layers
    exact ⟨_, rfl, fetchCoins_repr hV h txid⟩
  | .setBestBlock hashBlock, m :: m' :: ms, hs =>
    cases hs
    obtain ⟨view, views, b, rfl⟩ := h.layers
    cases h with
    | layer hl h => exact ⟨_, rfl, .layer hl h⟩

/-- Runs of a stack follow the runs on plain maps. -/
theorem run_repr (hV : V.Lawful storable holds) {ops : List StackOp} (hops : ∀ op ∈ ops, op.Ok storable)
    (hst : Stored storable ms) (h : s.Repr holds ms) (hrun : run plainStep ops ms = some ms') :
    ∃ s', run (CoinsStack.step V) ops s = some s' ∧ s'.Repr holds ms' ∧ Stored storable ms' := by
  refine run_sim (R := fun (s : CoinsStack β) ms => s.Repr holds ms ∧ Stored storable ms)
    (fun op hop s ms ms' hR hs => ?_) ⟨h, hst⟩ hrun
  obtain ⟨s', hs', hrepr⟩ := step_repr hV (hops op hop) hR.2 hR.1 hs
  exact ⟨s', hs', hrepr, plainStep_stored (hops op hop) hR.2 hs⟩

theorem plain_flushAll (p : Records) (ms : List Records) :
    run plainStep (CoinsStack.flushAll ms.length) (p :: ms) = some [p] := by
  induction ms with
  | nil => rfl
  | cons q ms ih => exact ih

theorem flushAll_ok (storable : CCoins → Prop) (n : Nat) :
    ∀ op ∈ CoinsStack.flushAll n, op.Ok storable := by
  intro op hop
  obtain ⟨l, hl, hop⟩ := List.mem_flatten.mp hop
  rw [List.eq_of_mem_replicate hl] at hop
  rcases List.mem_cons.mp hop with rfl | hop
  · trivial
  · rw [List.mem_singleton.mp hop]
    trivial

theorem Stacked.length (h : Stacked holds views b p ms) : views.length = ms.length := by
  induction h with
  | base h => rfl
  | layer hl h ih => exact congrArg (· + 1) ih

/-- Flushing and discarding every cache leaves the records of the topmost one in the view at the
bottom. -/
theorem flushAll_repr (hV : V.Lawful storable holds) (hst : Stored storable (p :: ms))
    (h : s.Repr holds (p :: ms)) :
    ∃ b', run (CoinsStack.step V) (CoinsStack.flushAll s.layers.length) s = some ⟨[], b'⟩ ∧
      holds b' p := by
  have hlen : s.layers.length = ms.length := Stacked.length h
  rw [hlen]
  obtain ⟨⟨layers, b'⟩, hrun, hrepr, -⟩ :=
    run_repr hV (flushAll_ok storable _) hst h (plain_flushAll p ms)
  cases hrepr with
  | base hb => exact ⟨b', hrun, hb⟩

/-- A stack of caches on any view that keeps what it is told behaves as a plain map with the same
edits, if these do not look into fully spent records: in every state that it reaches, each lookup
gives the record of the plain map, the assertion of a flush holds, and flushing all caches leaves
exactly the unspent records of the plain map in the view at the bottom. -/
theorem stack_transparent (hV : V.Lawful storable holds) (hb : holds b m) {ops : List StackOp}
    (hops : ∀ op ∈ ops, op.Ok storable) (hrun : run plainStep ops [m] = some (p :: ms)) :
    ∃ s, run (CoinsStack.step V) ops ⟨[], b⟩ = some s ∧ s.FlushAssert ∧
      (∀ txid, unspent (s.accessCoins V txid).1 = p txid ∧ unspent (s.getCoins V txid).1 = p txid ∧
        (s.haveCoins V txid).1 = (p txid).isSome) ∧
      ∃ b', run (CoinsStack.step V) (CoinsStack.flushAll s.layers.length) s = some ⟨[], b'⟩ ∧
        ∀ txid, unspent (V.getCoins b' txid).1 = p txid := by
  have hst : Stored storable [m] := fun n hn => by
    rw [List.mem_singleton.mp hn]
    exact hV.stored hb
  obtain ⟨s, hs, hrepr, hst'⟩ := run_repr (s := ⟨[], b⟩) hV hops hst (.base hb) hrun
  obtain ⟨b', hall, hb'⟩ := flushAll_repr hV hst' hrepr
  refine ⟨s, hs, flushAssert_of_repr hrepr, fun txid => ?_, b', hall, hV.read hb'⟩
  exact ⟨accessCoins_eq hV hrepr txid, accessCoins_eq hV hrepr txid, haveCoins_eq hV hrepr txid⟩

end

/-! ## Bases -/

theorem unspent_of_not_pruned {coins : CCoins} (h : coins.isPruned = false) :
    unspent (some coins) = some coins := unspent_eq_some.mpr ⟨rfl, h⟩

/-- A batch keeps a record or sets it. -/
theorem batchUnspent_cases {P : Option CCoins → Prop} {entry : Option CCoinsCacheEntry}
    {coins : Option CCoins} (hkeep : P coins)
    (hset : ∀ e, entry = some e → P (unspent (some e.coins))) : P (batchUnspent entry coins) := by
  unfold batchUnspent
  cases entry with
  | none => exact hkeep
  | some e =>
    simp only
    split_ifs
    · exact hset e rfl
    · exact hkeep

theorem unspent_batchUnspent (entry : Option CCoinsCacheEntry) (coins : Option CCoins) :
    unspent (batchUnspent entry coins) = batchUnspent entry (unspent coins) := by
  unfold batchUnspent
  cases entry with
  | none => rfl
  | some e =>
    simp only
    split_ifs
    · cases hp : e.coins.isPruned with
      | false => rw [unspent_of_not_pruned hp, unspent_of_not_pruned hp]
      | true => rw [unspent_some_eq_none.mpr hp, unspent_none]
    · rfl

/-- A plain map keeps what it is told. -/
theorem mapView_lawful : mapView.Lawful CCoins.Trimmed fun m' m =>
    m' = m ∧ ∀ txid c, m txid = some c → c.Trimmed ∧ c.isPruned = false where
  read := by
    rintro m' m ⟨rfl, h⟩ txid
    show unspent (m' txid) = m' txid
    cases hc : m' txid with
    | none => rfl
    | some c => exact unspent_of_not_pruned (h txid c hc).2
  trimmed := by
    rintro m' m ⟨rfl, h⟩ txid c hc
    exact (h txid c hc).1
  keeps h _ := h
  stored h txid c hc := (h.2 txid c hc).1
  write := by
    rintro m' m ⟨rfl, h⟩ mapCoins hashBlock hw
    refine ⟨rfl, fun txid => ?_⟩
    refine batchUnspent_cases (P := fun r => ∀ c, r = some c → c.Trimmed ∧ c.isPruned = false)
      (h txid) fun entry he c hc => ?_
    exact ⟨(hw txid entry he).stored c hc, (unspent_eq_some.mp hc).2⟩

/-- A record that the encoding of the coin database keeps. -/
def Storable (ops : PubKeyOps) (coins : CCoins) : Prop :=
  ((readCoins ops).run (coins.write ops)).map Prod.fst = some coins

/-- What the coin database has, as `m`. -/
structure CCoinsViewDB.Holds (ops : PubKeyOps) (view : CCoinsViewDB) (m : Records) : Prop where
  read : ∀ txid, unspent (view.getCoins ops txid) = m txid
  trimmed : ∀ txid c, view.getCoins ops txid = some c → c.Trimmed
  stored : ∀ txid c, m txid = some c → Storable ops c

/-- What the coin database reads after a batch. -/
theorem db_batchWrite {ops : PubKeyOps} {m : Records}
    {mapCoins : UInt256 → Option CCoinsCacheEntry}
    (hw : ∀ txid entry, mapCoins txid = some entry → Writable (Storable ops) m entry txid)
    (hashBlock : UInt256) (view : CCoinsViewDB) (txid : UInt256) :
    ((CCoinsViewDB.view ops).batchWrite mapCoins hashBlock view).getCoins ops txid =
      batchUnspent (mapCoins txid) (view.getCoins ops txid) := by
  show (batchRecord ops (mapCoins txid) (view.records txid)).bind _ = _
  cases he : mapCoins txid with
  | none => rfl
  | some entry =>
    cases hd : entry.dirty with
    | false =>
      simp only [batchRecord, batchUnspent, hd, Bool.not_false, if_true, Bool.false_eq_true, if_false]
      rfl
    | true =>
      simp only [batchRecord, batchUnspent, hd, Bool.not_true, Bool.false_eq_true, if_false, if_true]
      cases hp : entry.coins.isPruned with
      | true => exact (unspent_some_eq_none.mpr hp).symm
      | false =>
        have hc := unspent_of_not_pruned hp
        rw [hc]
        exact (hw txid entry he).stored _ hc

/-- The coin database keeps records that its encoding keeps. -/
theorem db_lawful (ops : PubKeyOps) :
    (CCoinsViewDB.view ops).Lawful (Storable ops) (CCoinsViewDB.Holds ops) where
  read h := h.read
  trimmed h := h.trimmed
  keeps h _ := h
  stored h := h.stored
  write := by
    intro view m h mapCoins hashBlock hw
    have hget := db_batchWrite hw hashBlock view
    refine ⟨fun txid => ?_, fun txid => ?_, fun txid => ?_⟩
    · rw [hget, unspent_batchUnspent, h.read]
      rfl
    · rw [hget]
      refine batchUnspent_cases (P := fun r => ∀ c, r = some c → c.Trimmed) (h.trimmed txid)
        fun entry he c hc => ?_
      cases (unspent_eq_some.mp hc).1
      exact (hw txid entry he).trimmed
    · exact batchUnspent_cases (P := fun r => ∀ c, r = some c → Storable ops c) (h.stored txid)
        fun entry he => (hw txid entry he).stored

/-! ## A run on the coin database -/

/-- No public key takes part in the run. -/
def noKeys : PubKeyOps := ⟨fun _ => false, fun _ => none⟩

def emptyDB : CCoinsViewDB := ⟨fun _ => none, 0⟩

def layerCoins : CCoins := ⟨true, [none, some ⟨5, [0x51]⟩], 7, 1⟩

theorem layerCoins_storable : Storable noKeys layerCoins := by
  unfold Storable
  decide +kernel

/-- Sets a record, whatever it was. -/
theorem editOk_const {storable : CCoins → Prop} {c : CCoins} (hc : storable c.cleanup) :
    EditOk storable fun _ => c :=
  ⟨fun _ _ => rfl, fun _ _ _ h => by cases (unspent_eq_some.mp h).1; exact hc⟩

/-- Clears a record. -/
theorem editOk_clear (storable : CCoins → Prop) : EditOk storable fun _ => .empty :=
  ⟨fun _ _ => rfl, fun _ _ _ h => by cases h⟩

/-- Records are set in one cache and cleared in the one above it, which is flushed once. -/
def layerOps : List StackOp :=
  [.push, .modifyCoins 7 fun _ => layerCoins, .modifyCoins 9 fun _ => layerCoins, .push,
    .haveCoins 7, .modifyCoins 7 fun _ => .empty, .flush, .modifyCoins 9 fun _ => .empty, .discard]

/-- The plain map after these operations. -/
def layerPlain : Records :=
  Records.modify (Records.modify (Records.modify (fun _ => none) 7 fun _ => layerCoins) 9
    fun _ => layerCoins) 7 fun _ => .empty

theorem layerOps_ok : ∀ op ∈ layerOps, op.Ok (Storable noKeys) := by
  have hset : EditOk (Storable noKeys) fun _ => layerCoins := editOk_const layerCoins_storable
  have hclear := editOk_clear (Storable noKeys)
  simp only [layerOps, List.forall_mem_cons]
  exact ⟨trivial, hset, hset, trivial, trivial, hclear, trivial, hclear, trivial,
    fun _ h => nomatch h⟩

theorem emptyDB_holds : emptyDB.Holds noKeys fun _ => none :=
  ⟨fun _ => rfl, fun _ _ h => (nomatch h), fun _ _ h => nomatch h⟩

theorem layerOps_transparent :
    ∃ s, run (CoinsStack.step (CCoinsViewDB.view noKeys)) layerOps ⟨[], emptyDB⟩ = some s ∧
      s.FlushAssert ∧
      (∀ txid, unspent (s.accessCoins (CCoinsViewDB.view noKeys) txid).1 = layerPlain txid ∧
        unspent (s.getCoins (CCoinsViewDB.view noKeys) txid).1 = layerPlain txid ∧
        (s.haveCoins (CCoinsViewDB.view noKeys) txid).1 = (layerPlain txid).isSome) ∧
      ∃ view, run (CoinsStack.step (CCoinsViewDB.view noKeys))
          (CoinsStack.flushAll s.layers.length) s = some ⟨[], view⟩ ∧
        ∀ txid, unspent (view.getCoins noKeys txid) = layerPlain txid :=
  stack_transparent (db_lawful noKeys) emptyDB_holds layerOps_ok rfl

/-! ## Edits that look into a fully spent record -/

/-- The edits of a list of operations, which is what a plain map sees of it. -/
def edits (ops : List StackOp) : List (UInt256 × (CCoins → CCoins)) :=
  ops.filterMap fun op =>
    match op with
    | .modifyCoins txid f => some (txid, f)
    | _ => none

/-- A record is set, its outputs are spent, and one is added, with `between` in between. -/
def spentOps (between : List StackOp) : List StackOp :=
  [.push, .push, .modifyCoins 7 fun _ => layerCoins] ++ between ++
    [.modifyCoins 7 fun coins => { coins with vout := [] },
      .modifyCoins 7 fun coins => { coins with vout := [some ⟨5, [0x51]⟩] }]

/-- The record that a stack of caches on an empty map has after some operations. -/
def recordAfter (ops : List StackOp) (txid : UInt256) : Option (Option CCoins) :=
  (run (CoinsStack.step mapView) ops ⟨[], fun _ => none⟩).map fun s =>
    unspent (s.accessCoins mapView txid).1

/-- No plain map follows a stack of caches for all edits: an output that is added to a fully spent
record finds the height of that record or not, depending on a flush in between. -/
theorem stack_reads_spent :
    ¬ ∃ plain : List (UInt256 × (CCoins → CCoins)) → Records,
      ∀ ops ∈ [spentOps [.flush], spentOps []], recordAfter ops 7 = some (plain (edits ops) 7) := by
  have hkept : recordAfter (spentOps [.flush]) 7 = some (some ⟨true, [some ⟨5, [0x51]⟩], 7, 1⟩) := by
    decide +kernel
  have hdropped : recordAfter (spentOps []) 7 = some (some ⟨false, [some ⟨5, [0x51]⟩], 0, 0⟩) := by
    decide +kernel
  rintro ⟨plain, h⟩
  have hflush := h (spentOps [.flush]) (by simp)
  have hplain := h (spentOps []) (by simp)
  have hedits : edits (spentOps [.flush]) = edits (spentOps []) := rfl
  rw [hedits, ← hplain, hkept, hdropped] at hflush
  revert hflush
  decide

end GC
