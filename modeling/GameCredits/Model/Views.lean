import GameCredits.Model.CoinsDB
import GameCredits.Framework.Prog

/-!
# Views of the coins (coins.cpp, txdb.cpp)

A `CCoinsViewCache` stands on another view, down to the coin database. Reading through a cache
fills it, so that reading changes every cache of the stack. `viewImpl` is the implementation of the
record store on which validation runs: the cache on top of a stack.
-/

namespace GC

open Framework (Bytes Impl)

/-- `CCoinsCacheEntry` with its flags. -/
structure CCoinsCacheEntry where
  coins : CCoins
  dirty : Bool
  fresh : Bool

/-- `CCoinsViewCache` without its base. -/
structure CCoinsViewCache where
  cacheCoins : UInt256 → Option CCoinsCacheEntry
  hashBlock : UInt256

/-- `CCoinsViewDB`: encoded records and the best block, null when there is none. -/
structure CCoinsViewDB where
  records : UInt256 → Option Bytes
  hashBestBlock : UInt256

/-- A stack of caches on a database. -/
inductive CoinsView where
  | db (view : CCoinsViewDB)
  | cache (view : CCoinsViewCache) (base : CoinsView)

/-- `CCoinsViewDB::GetCoins`; a record that does not decode is a fatal error and reads as missing
here. -/
def CCoinsViewDB.getCoins (ops : PubKeyOps) (view : CCoinsViewDB) (txid : UInt256) :
    Option CCoins :=
  (view.records txid).bind fun bytes => ((readCoins ops).run bytes).map Prod.fst

namespace CCoinsViewCache

/-- Sets the entry of a transaction, or removes it. -/
def setEntry (view : CCoinsViewCache) (txid : UInt256) (entry : Option CCoinsCacheEntry) :
    CCoinsViewCache :=
  { view with cacheCoins := fun i => if i = txid then entry else view.cacheCoins i }

/-- The entry for a record that comes from the base: fresh when the base has it pruned. -/
def fetched (coins : CCoins) : CCoinsCacheEntry := ⟨coins, false, coins.isPruned⟩

/-- `CCoinsViewCache(base)`. -/
def new : CCoinsViewCache := ⟨fun _ => none, 0⟩

end CCoinsViewCache

namespace CoinsView

variable (ops : PubKeyOps)

/-- `GetCoins` of a view, which for a cache is `FetchCoins`: the view after it has filled its
caches. -/
def getCoins : CoinsView → UInt256 → Option CCoins × CoinsView
  | .db view, txid => (view.getCoins ops txid, .db view)
  | .cache view base, txid =>
    match view.cacheCoins txid with
    | some entry => (some entry.coins, .cache view base)
    | none =>
      match base.getCoins txid with
      | (none, base) => (none, .cache view base)
      | (some coins, base) =>
        (some coins, .cache (view.setEntry txid (some (CCoinsViewCache.fetched coins))) base)

/-- `GetBestBlock`: a cache without a best block takes over that of its base. -/
def getBestBlock : CoinsView → UInt256 × CoinsView
  | .db view => (view.hashBestBlock, .db view)
  | .cache view base =>
    if view.hashBlock = 0 then
      let (hashBlock, base) := base.getBestBlock
      (hashBlock, .cache { view with hashBlock } base)
    else (view.hashBlock, .cache view base)

end CoinsView

/-- The cache on which a program runs, and the view under it. -/
structure CacheView where
  cache : CCoinsViewCache
  base : CoinsView

namespace CacheView

variable (ops : PubKeyOps)

/-- The entry that `ModifyCoins` starts from, and the view under the cache after it was read. -/
def entryFor (view : CacheView) (txid : UInt256) : CCoinsCacheEntry × CoinsView :=
  match view.cache.cacheCoins txid with
  | some entry => (entry, view.base)
  | none =>
    match view.base.getCoins ops txid with
    | (none, base) => (⟨.empty, false, true⟩, base)
    | (some coins, base) => (CCoinsViewCache.fetched coins, base)

/-- `ModifyCoins`, a modification and the destructor of `CCoinsModifier`. -/
def modifyCoins (view : CacheView) (txid : UInt256) (f : CCoins → CCoins) : CCoins × CacheView :=
  let (entry, base) := view.entryFor ops txid
  let coins := f entry.coins
  let cache :=
    view.cache.setEntry txid
      (if entry.fresh && coins.isPruned then none else some ⟨coins, true, entry.fresh⟩)
  (entry.coins, ⟨cache, base⟩)

/-- `FetchCoins`. -/
def getCoins (view : CacheView) (txid : UInt256) : Option CCoins × CacheView :=
  match view.cache.cacheCoins txid with
  | some entry => (some entry.coins, view)
  | none =>
    match view.base.getCoins ops txid with
    | (none, base) => (none, ⟨view.cache, base⟩)
    | (some coins, base) =>
      (some coins, ⟨view.cache.setEntry txid (some (CCoinsViewCache.fetched coins)), base⟩)

def getBestBlock (view : CacheView) : UInt256 × CacheView :=
  if view.cache.hashBlock = 0 then
    let (hashBlock, base) := view.base.getBestBlock
    (hashBlock, ⟨{ view.cache with hashBlock }, base⟩)
  else (view.cache.hashBlock, view)

def setBestBlock (view : CacheView) (hashBlock : UInt256) : CacheView :=
  { view with cache := { view.cache with hashBlock } }

end CacheView

/-- The record store of the cache on top of a stack. -/
def viewImpl (ops : PubKeyOps) : Impl UInt256 CCoins UInt256 CacheView where
  get := CacheView.getCoins ops
  edit := CacheView.modifyCoins ops
  getTag := CacheView.getBestBlock
  setTag := CacheView.setBestBlock

/-! ## Writing a cache down -/

section

variable (ops : PubKeyOps)

/-- What `CCoinsViewCache::BatchWrite` makes of the entry `us` for an entry `entry` of the child. -/
def batchEntry (entry us : Option CCoinsCacheEntry) : Option CCoinsCacheEntry :=
  match entry with
  | none => us
  | some entry =>
    if !entry.dirty then us
    else
      match us with
      | none => if entry.coins.isPruned then none else some ⟨entry.coins, true, true⟩
      | some us =>
        if us.fresh && entry.coins.isPruned then none
        else some ⟨entry.coins, true, us.fresh⟩

theorem batchEntry_clean {entry : CCoinsCacheEntry} (h : entry.dirty = false)
    (us : Option CCoinsCacheEntry) : batchEntry (some entry) us = us := by
  simp only [batchEntry, h, Bool.not_false, if_true]

theorem batchEntry_absent {entry : CCoinsCacheEntry} (h : entry.dirty = true) :
    batchEntry (some entry) none =
      if entry.coins.isPruned then none else some ⟨entry.coins, true, true⟩ := by
  simp only [batchEntry, h, Bool.not_true, Bool.false_eq_true, if_false]

theorem batchEntry_present {entry : CCoinsCacheEntry} (h : entry.dirty = true)
    (us : CCoinsCacheEntry) :
    batchEntry (some entry) (some us) =
      if us.fresh && entry.coins.isPruned then none else some ⟨entry.coins, true, us.fresh⟩ := by
  simp only [batchEntry, h, Bool.not_true, Bool.false_eq_true, if_false]

/-- The assertion of `CCoinsViewCache::BatchWrite` for one entry. -/
def batchAssert (entry us : Option CCoinsCacheEntry) : Prop :=
  ∀ e, entry = some e → e.dirty = true → us = none → e.coins.isPruned = false → e.fresh = true

/-- `CCoinsViewDB::BatchWrite` for one entry. -/
def batchRecord (entry : Option CCoinsCacheEntry) (record : Option Bytes) : Option Bytes :=
  match entry with
  | none => record
  | some entry =>
    if !entry.dirty then record
    else if entry.coins.isPruned then none
    else some (entry.coins.write ops)

/-- `BatchWrite` of a view. -/
def CoinsView.batchWrite (mapCoins : UInt256 → Option CCoinsCacheEntry) (hashBlock : UInt256) :
    CoinsView → CoinsView
  | .db view =>
    .db ⟨fun txid => batchRecord ops (mapCoins txid) (view.records txid),
      if hashBlock = 0 then view.hashBestBlock else hashBlock⟩
  | .cache view base =>
    .cache ⟨fun txid => batchEntry (mapCoins txid) (view.cacheCoins txid), hashBlock⟩ base

/-- `CCoinsViewCache::Flush`: the cache is left empty. -/
def CacheView.flush (view : CacheView) : CacheView :=
  ⟨{ view.cache with cacheCoins := fun _ => none },
    view.base.batchWrite ops view.cache.cacheCoins view.cache.hashBlock⟩

end

end GC
