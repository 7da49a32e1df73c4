import GameCredits.Model.Views
import GameCredits.Proof.Agrees

/-!
# Caches are transparent

The meaning of a stack of caches is its contents, `coins?`: the entry of the topmost cache that has
one, else the record of the database. `Wf` says that the flags of every entry are right.

* `getCoins_spec`: reading returns the contents, and changes nothing but caches.
* `viewImpl_sim`: a cache on a stack behaves as the plain store with its contents.
* `run_base`: running a program on a cache leaves the contents under it alone, and the flags right.
-/

namespace GC

open Framework (Prog Impl Map)

variable (ops : PubKeyOps)

/-! ## Contents -/

/-- The record that a view has for a transaction. -/
def CoinsView.coins? : CoinsView → UInt256 → Option CCoins
  | .db view, txid => view.getCoins ops txid
  | .cache view base, txid =>
    ((view.cacheCoins txid).map CCoinsCacheEntry.coins).or (base.coins? txid)

/-- The record that a view has for a transaction, empty when it has none. -/
def CoinsView.record (view : CoinsView) (txid : UInt256) : CCoins := (view.coins? ops txid).getD .empty

/-- The best block of a view. -/
def CoinsView.best : CoinsView → UInt256
  | .db view => view.hashBestBlock
  | .cache view base => if view.hashBlock = 0 then base.best else view.hashBlock

/-- The best block of a view is its own: not one that it would take over from its base. -/
def CoinsView.Tagged : CoinsView → Prop
  | .db _ => True
  | .cache view base => view.hashBlock = (CoinsView.cache view base).best

/-- Whether a view, if it is a cache, has an entry for a transaction. -/
def CoinsView.hasEntry : CoinsView → UInt256 → Prop
  | .db _, _ => True
  | .cache view _, txid => (view.cacheCoins txid).isSome = true

/-- The flags of an entry are right over a base: a fresh entry is one that the base has pruned or
not at all, an entry that is not dirty is that of the base, and one that is not fresh was read
through the base. -/
structure CCoinsCacheEntry.Ok (entry : CCoinsCacheEntry) (base : CoinsView) (txid : UInt256) :
    Prop where
  fresh : entry.fresh = true → (base.record ops txid).isPruned = true
  clean : entry.dirty = false → entry.coins.Agrees Eq (base.record ops txid)
  read : entry.fresh = false → base.hasEntry txid

/-- The flags of every entry of every cache are right. -/
def CoinsView.Wf : CoinsView → Prop
  | .db _ => True
  | .cache view base => (∀ txid entry, view.cacheCoins txid = some entry → entry.Ok ops base txid) ∧
      base.Wf

variable {ops}

theorem CCoinsCacheEntry.Ok.congr {entry : CCoinsCacheEntry} {base base' : CoinsView}
    {txid : UInt256} (h : entry.Ok ops base txid) (hc : base'.coins? ops txid = base.coins? ops txid)
    (he : base.hasEntry txid → base'.hasEntry txid) : entry.Ok ops base' txid := by
  have hr : base'.record ops txid = base.record ops txid := by rw [CoinsView.record, hc]; rfl
  exact ⟨fun hf => hr ▸ h.fresh hf, fun hd => hr ▸ h.clean hd, fun hf => he (h.read hf)⟩

/-! ## Reading -/

theorem setEntry_self (view : CCoinsViewCache) (txid : UInt256) (e : Option CCoinsCacheEntry) :
    (view.setEntry txid e).cacheCoins txid = e := if_pos rfl

theorem setEntry_ne {view : CCoinsViewCache} {txid i : UInt256} (h : i ≠ txid)
    (e : Option CCoinsCacheEntry) : (view.setEntry txid e).cacheCoins i = view.cacheCoins i :=
  if_neg h

theorem coins?_of_entry {view : CCoinsViewCache} {txid : UInt256} {entry : CCoinsCacheEntry}
    (h : view.cacheCoins txid = some entry) (base : CoinsView) :
    (CoinsView.cache view base).coins? ops txid = some entry.coins := by
  rw [CoinsView.coins?, h, Option.map_some, Option.some_or]

theorem coins?_of_none {view : CCoinsViewCache} {txid : UInt256} (h : view.cacheCoins txid = none)
    (base : CoinsView) : (CoinsView.cache view base).coins? ops txid = base.coins? ops txid := by
  rw [CoinsView.coins?, h, Option.map_none, Option.none_or]

/-- A cache keeps its contents when its base does. -/
theorem coins?_congr (view : CCoinsViewCache) {base base' : CoinsView}
    (h : base'.coins? ops = base.coins? ops) :
    (CoinsView.cache view base').coins? ops = (CoinsView.cache view base).coins? ops := by
  funext i; rw [CoinsView.coins?, CoinsView.coins?, h]

theorem best_congr (view : CCoinsViewCache) {base base' : CoinsView} (h : base'.best = base.best) :
    (CoinsView.cache view base').best = (CoinsView.cache view base).best := by
  rw [CoinsView.best, CoinsView.best, h]

/-- What reading a view and its best block keeps. -/
structure CoinsView.Same (ops : PubKeyOps) (view view' : CoinsView) : Prop where
  coins? : view'.coins? ops = view.coins? ops
  best : view'.best = view.best
  entry : ∀ txid, view.hasEntry txid → view'.hasEntry txid
  wf : view.Wf ops → view'.Wf ops
  tagged : view.Tagged → view'.Tagged

theorem CoinsView.Same.refl (view : CoinsView) : view.Same ops view :=
  ⟨rfl, rfl, fun _ h => h, fun h => h, fun h => h⟩

theorem CoinsView.Same.trans {view view' view'' : CoinsView} (h : view.Same ops view')
    (h' : view'.Same ops view'') : view.Same ops view'' :=
  ⟨h'.coins?.trans h.coins?, h'.best.trans h.best, fun i hi => h'.entry i (h.entry i hi),
    fun hw => h'.wf (h.wf hw), fun ht => h'.tagged (h.tagged ht)⟩

theorem CoinsView.Same.ok {base base' : CoinsView} (h : base.Same ops base')
    {entry : CCoinsCacheEntry} {txid : UInt256} (he : entry.Ok ops base txid) :
    entry.Ok ops base' txid :=
  he.congr (congrFun h.coins? txid) (h.entry txid)

/-- A cache over a base that was only read. -/
theorem CoinsView.Same.cache {base base' : CoinsView} (h : base.Same ops base')
    (view : CCoinsViewCache) : (CoinsView.cache view base).Same ops (.cache view base') :=
  ⟨coins?_congr view h.coins?, best_congr view h.best, fun _ he => he,
    fun hw => ⟨fun i e he => h.ok (hw.1 i e he), h.wf hw.2⟩,
    fun ht => ht.trans (best_congr view h.best).symm⟩

/-- A cache after it has taken over a record from its base. -/
theorem CoinsView.Same.fetched {base base' : CoinsView} (h : base.Same ops base')
    {view : CCoinsViewCache} {txid : UInt256} {coins : CCoins} (hnone : view.cacheCoins txid = none)
    (hbase : base.coins? ops txid = some coins) (hentry : base'.hasEntry txid) :
    (CoinsView.cache view base).Same ops
      (.cache (view.setEntry txid (some (CCoinsViewCache.fetched coins))) base') := by
  refine ⟨funext fun i => ?_, best_congr view h.best, fun i hi => ?_,
    fun hw => ⟨fun i e he => ?_, h.wf hw.2⟩, fun ht => ht.trans (best_congr view h.best).symm⟩
  · by_cases hi : i = txid
    · subst hi
      rw [coins?_of_entry (setEntry_self _ _ _), coins?_of_none hnone, hbase]; rfl
    · rw [CoinsView.coins?, CoinsView.coins?, setEntry_ne hi, h.coins?]
  · by_cases hit : i = txid
    · subst hit; rw [CoinsView.hasEntry, setEntry_self]; rfl
    · rw [CoinsView.hasEntry, setEntry_ne hit]; exact hi
  · by_cases hi : i = txid
    · subst hi
      rw [setEntry_self] at he
      cases he
      have hr : base'.record ops i = coins := by rw [CoinsView.record, h.coins?, hbase]; rfl
      refine ⟨fun hf => ?_, fun _ => ?_, fun _ => hentry⟩
      · rw [hr]; exact hf
      · rw [hr]; exact .refl (fun _ => rfl) _
    · rw [setEntry_ne hi] at he
      exact h.ok (hw.1 i e he)

/-- Reading through a view returns its contents, and changes nothing but caches; what was found has
an entry afterwards. -/
theorem getCoins_spec (ops : PubKeyOps) (view : CoinsView) (txid : UInt256) :
    (view.getCoins ops txid).1 = view.coins? ops txid ∧
      view.Same ops (view.getCoins ops txid).2 ∧
      (view.coins? ops txid ≠ none → (view.getCoins ops txid).2.hasEntry txid) := by
  induction view with
  | db view => exact ⟨rfl, .refl _, fun _ => trivial⟩
  | cache view base ih =>
    obtain ⟨hval, hsame, hhas⟩ := ih
    cases hentry : view.cacheCoins txid with
    | some entry =>
      simp only [CoinsView.getCoins, hentry, coins?_of_entry hentry]
      exact ⟨trivial, .refl _, fun _ => by rw [CoinsView.hasEntry, hentry]; rfl⟩
    | none =>
      rcases hget : base.getCoins ops txid with ⟨r, base'⟩
      rw [hget] at hval hsame hhas
      simp only at hval
      cases r with
      | none =>
        simp only [CoinsView.getCoins, hentry, hget, coins?_of_none hentry, ← hval]
        exact ⟨trivial, hsame.cache view, fun h => (h rfl).elim⟩
      | some coins =>
        have hbase := hhas (by rw [← hval]; exact Option.some_ne_none _)
        simp only [CoinsView.getCoins, hentry, hget, coins?_of_none hentry, ← hval]
        refine ⟨trivial, hsame.fetched hentry hval.symm hbase, fun _ => ?_⟩
        rw [CoinsView.hasEntry, setEntry_self]; rfl

theorem getBestBlock_spec (ops : PubKeyOps) (view : CoinsView) :
    view.getBestBlock.1 = view.best ∧ view.Same ops view.getBestBlock.2 := by
  induction view with
  | db view => exact ⟨rfl, .refl _⟩
  | cache view base ih =>
    obtain ⟨hval, hsame⟩ := ih
    by_cases h0 : view.hashBlock = 0
    · rcases hget : base.getBestBlock with ⟨hashBlock, base'⟩
      rw [hget] at hval hsame
      simp only at hval hsame
      simp only [CoinsView.getBestBlock, h0, if_true, hget, CoinsView.best]
      have hbest : (if hashBlock = 0 then base'.best else hashBlock) = hashBlock := by
        rw [hsame.best, hval]
        exact ite_self _
      refine ⟨hval, coins?_congr view hsame.coins?, ?_, fun _ h => h, fun hw =>
        ⟨fun i e he => hsame.ok (hw.1 i e he), hsame.wf hw.2⟩, fun _ => hbest.symm⟩
      simp only [CoinsView.best, h0, if_true]
      exact hbest.trans hval
    · simp only [CoinsView.getBestBlock, h0, if_false, CoinsView.best]
      exact ⟨trivial, .refl _⟩

/-! ## The cache on top -/

/-- The stack that a cache and its base make. -/
def CacheView.stack (view : CacheView) : CoinsView := .cache view.cache view.base

theorem CacheView.getCoins_eq (ops : PubKeyOps) (view : CacheView) (txid : UInt256) :
    (view.getCoins ops txid).1 = (view.stack.getCoins ops txid).1 ∧
      (view.getCoins ops txid).2.stack = (view.stack.getCoins ops txid).2 := by
  simp only [CacheView.getCoins, CacheView.stack, CoinsView.getCoins]
  cases view.cache.cacheCoins txid with
  | some entry => exact ⟨rfl, rfl⟩
  | none =>
    rcases view.base.getCoins ops txid with ⟨_ | coins, base'⟩
    · exact ⟨rfl, rfl⟩
    · exact ⟨rfl, rfl⟩

theorem CacheView.getBestBlock_eq (view : CacheView) :
    view.getBestBlock.1 = view.stack.getBestBlock.1 ∧
      view.getBestBlock.2.stack = view.stack.getBestBlock.2 := by
  simp only [CacheView.getBestBlock, CacheView.stack, CoinsView.getBestBlock]
  split_ifs
  · exact ⟨rfl, rfl⟩
  · exact ⟨rfl, rfl⟩

/-- The entry that a modification starts from holds the contents, with the right flags. -/
theorem CacheView.entryFor_spec (view : CacheView) (txid : UInt256) (hw : view.stack.Wf ops) :
    (view.entryFor ops txid).1.coins = view.stack.record ops txid ∧
      view.base.Same ops (view.entryFor ops txid).2 ∧
      (view.entryFor ops txid).1.Ok ops (view.entryFor ops txid).2 txid := by
  unfold CacheView.entryFor CacheView.stack CoinsView.record
  cases hentry : view.cache.cacheCoins txid with
  | some entry =>
    rw [coins?_of_entry hentry]
    exact ⟨rfl, .refl _, hw.1 _ _ hentry⟩
  | none =>
    rw [coins?_of_none hentry]
    obtain ⟨hval, hsame, hhas⟩ := getCoins_spec ops view.base txid
    rcases hget : view.base.getCoins ops txid with ⟨r, base'⟩
    rw [hget] at hval hsame hhas
    simp only at hval hsame hhas
    rw [← hval]
    have hrec : base'.record ops txid = r.getD .empty := by rw [CoinsView.record, hsame.coins?, ← hval]
    cases r with
    | none =>
      refine ⟨rfl, hsame, fun _ => ?_, fun _ => ?_, fun h => Bool.noConfusion h⟩
      · rw [hrec]; rfl
      · rw [hrec]; exact .refl (fun _ => rfl) _
    | some coins =>
      refine ⟨rfl, hsame, fun hf => ?_, fun _ => ?_, fun _ => hhas ?_⟩
      · rw [hrec]; exact hf
      · rw [hrec]; exact .refl (fun _ => rfl) _
      · rw [← hval]; exact Option.some_ne_none _

/-! ## Transparency -/

/-- A cache on a stack stands for a plain store: the flags are right, the records agree and the
best block is the tag. -/
structure CacheView.Repr (ops : PubKeyOps) (view : CacheView) (m : Map UInt256 CCoins UInt256) :
    Prop where
  wf : view.stack.Wf ops
  record : ∀ txid, (view.stack.record ops txid).Agrees Eq (m.record .empty txid)
  best : view.stack.best = m.tag

/-- The contents of a view as a plain store. -/
def CacheView.contents (ops : PubKeyOps) (view : CacheView) : Map UInt256 CCoins UInt256 :=
  ⟨view.stack.coins? ops, view.stack.best⟩

theorem CacheView.repr_contents {view : CacheView} (hw : view.stack.Wf ops) :
    view.Repr ops (view.contents ops) :=
  ⟨hw, fun _ => .refl (fun _ => rfl) _, rfl⟩

theorem CacheView.Repr.same {view view' : CacheView} {m : Map UInt256 CCoins UInt256}
    (h : view.Repr ops m) (hs : view.stack.Same ops view'.stack) : view'.Repr ops m :=
  ⟨hs.wf h.wf, fun txid => by rw [CoinsView.record, hs.coins?]; exact h.record txid,
    hs.best.trans h.best⟩

/-- Modifying a record of a view: the contents change at that record only. -/
theorem CacheView.modifyCoins_repr {view : CacheView} {m : Map UInt256 CCoins UInt256}
    (h : view.Repr ops m) (txid : UInt256) (f g : CCoins → CCoins)
    (hfg : (f (view.stack.record ops txid)).Agrees Eq (g (m.record .empty txid))) :
    (view.modifyCoins ops txid f).2.Repr ops (m.put txid (g (m.record .empty txid))) := by
  obtain ⟨hcoins, hsame, hok⟩ := view.entryFor_spec txid h.wf
  unfold CacheView.modifyCoins
  generalize view.entryFor ops txid = r at hcoins hsame hok
  obtain ⟨entry, base⟩ := r
  simp only at hcoins hsame hok ⊢
  rw [hcoins]
  have hothers : ∀ i, i ≠ txid → ∀ e,
      (CoinsView.cache (view.cache.setEntry txid e) base).record ops i = view.stack.record ops i := by
    intro i hi e
    rw [CoinsView.record, CoinsView.coins?, setEntry_ne hi, hsame.coins?]; rfl
  refine ⟨⟨fun i e he => ?_, hsame.wf h.wf.2⟩, fun i => ?_, ?_⟩
  · by_cases hi : i = txid
    · subst hi
      rw [setEntry_self] at he
      split_ifs at he
      cases he
      exact ⟨hok.fresh, fun hd => Bool.noConfusion hd, hok.read⟩
    · rw [setEntry_ne hi] at he
      exact hsame.ok (h.wf.1 i e he)
  · by_cases hi : i = txid
    · subst hi
      rw [Map.record_put_self]
      show (CoinsView.record ops (.cache _ _) i).Agrees Eq _
      split_ifs with hdrop
      · rw [Bool.and_eq_true] at hdrop
        rw [CoinsView.record, coins?_of_none (setEntry_self _ _ _)]
        refine .of_pruned (hok.fresh hdrop.1) ?_
        rw [← hfg.isPruned]; exact hdrop.2
      · rw [CoinsView.record, coins?_of_entry (setEntry_self _ _ _)]
        exact hfg
    · rw [Map.record_put_ne hi]
      show (CoinsView.record ops (.cache _ _) i).Agrees Eq _
      rw [hothers i hi]
      exact h.record i
  · exact (best_congr view.cache hsame.best).trans h.best

/-- A cache on a stack behaves as a plain store, as long as no null hash is made the best block. -/
theorem viewImpl_sim :
    (viewImpl ops).Sim .empty (CCoins.Agrees Eq) (· ≠ 0) (Map.impl .empty) (CacheView.Repr ops) where
  get {view m} txid h := by
    obtain ⟨hval, hsame, -⟩ := getCoins_spec ops view.stack txid
    obtain ⟨heq, hstack⟩ := view.getCoins_eq ops txid
    refine ⟨?_, h.same ?_⟩
    · show ((view.getCoins ops txid).1.getD .empty).Agrees Eq _
      rw [heq, hval]
      exact h.record txid
    · show view.stack.Same ops (view.getCoins ops txid).2.stack
      rw [hstack]; exact hsame
  edit {view m} txid f g h := by
    have hcoins : ((viewImpl ops).edit view txid f).1 = view.stack.record ops txid :=
      (view.entryFor_spec txid h.wf).1
    refine ⟨?_, fun hfg => ?_⟩
    · rw [hcoins]; exact h.record txid
    · rw [hcoins] at hfg
      exact view.modifyCoins_repr h txid f g hfg
  getTag {view m} h := by
    obtain ⟨hval, hsame⟩ := getBestBlock_spec ops view.stack
    obtain ⟨heq, hstack⟩ := view.getBestBlock_eq
    refine ⟨?_, h.same ?_⟩
    · show view.getBestBlock.1 = _
      rw [heq, hval]; exact h.best
    · show view.stack.Same ops view.getBestBlock.2.stack
      rw [hstack]; exact hsame
  setTag {view m} hashBlock h0 h := ⟨h.wf, h.record, if_neg h0⟩

theorem CacheView.getCoins_base (view : CacheView) (txid : UInt256) :
    view.base.Same ops (view.getCoins ops txid).2.base := by
  obtain ⟨-, hsame, -⟩ := getCoins_spec ops view.base txid
  simp only [CacheView.getCoins]
  cases view.cache.cacheCoins txid with
  | some entry => exact .refl _
  | none =>
    rcases hget : view.base.getCoins ops txid with ⟨_ | coins, base'⟩
    · rw [hget] at hsame; exact hsame
    · rw [hget] at hsame; exact hsame

theorem CacheView.getBestBlock_base (view : CacheView) :
    view.base.Same ops view.getBestBlock.2.base := by
  unfold CacheView.getBestBlock
  split_ifs
  · exact (getBestBlock_spec ops view.base).2
  · exact .refl _

/-- Running a program on a cache keeps the flags right, and only reads the base. -/
theorem run_base {α : Type} (p : CoinsProg α) (view : CacheView) (hw : view.stack.Wf ops) :
    (p.run (viewImpl ops) view).2.stack.Wf ops ∧
      view.base.Same ops (p.run (viewImpl ops) view).2.base := by
  induction p generalizing view with
  | ret a => exact ⟨hw, .refl _⟩
  | fail e => exact ⟨hw, .refl _⟩
  | get txid next ih =>
    have hrepr := (viewImpl_sim.get txid (CacheView.repr_contents hw)).2
    obtain ⟨hw', hsame⟩ := ih _ _ hrepr.wf
    exact ⟨hw', (view.getCoins_base txid).trans hsame⟩
  | edit txid f next ih =>
    have hrepr := view.modifyCoins_repr (CacheView.repr_contents hw) txid f f (.refl (fun _ => rfl) _)
    obtain ⟨hw', hsame⟩ := ih _ _ hrepr.wf
    exact ⟨hw', (view.entryFor_spec txid hw).2.1.trans hsame⟩
  | getTag next ih =>
    have hrepr := (viewImpl_sim.getTag (CacheView.repr_contents hw)).2
    obtain ⟨hw', hsame⟩ := ih _ _ hrepr.wf
    exact ⟨hw', view.getBestBlock_base.trans hsame⟩
  | setTag hashBlock next ih => exact ih (view.setBestBlock hashBlock) hw

end GC
