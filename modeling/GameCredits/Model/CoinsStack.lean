import GameCredits.Model.Views
import GameCredits.Framework.Run

/-!
# Stacks of caches on any view (coins.h, coins.cpp)

`CCoinsView` as an interface, caches stacked on a view that implements it, and the operations on the
topmost cache of a stack.

* `plainStep`: the same operations on plain maps of records, one map for each cache, and one for the
  view at the bottom.
-/

namespace GC

/-- The virtual functions of `CCoinsView` by which a cache uses its base; the base may change when
it is read, as a cache does. -/
structure CCoinsView (β : Type) where
  getCoins : β → UInt256 → Option CCoins × β
  batchWrite : (UInt256 → Option CCoinsCacheEntry) → UInt256 → β → β

/-- Caches, the topmost first, and the view at the bottom. -/
structure CoinsStack (β : Type) where
  layers : List CCoinsViewCache
  base : β

/-- The operations on a stack: a cache is pushed on top, the topmost one is discarded, or it is
used. -/
inductive StackOp where
  | accessCoins (txid : UInt256)
  | getCoins (txid : UInt256)
  | haveCoins (txid : UInt256)
  | modifyCoins (txid : UInt256) (f : CCoins → CCoins)
  | setBestBlock (hashBlock : UInt256)
  | push
  | discard
  | flush

namespace CoinsStack

variable {β : Type} (V : CCoinsView β)

/-- `FetchCoins` down a stack, which is also `GetCoins` of the view at the bottom. -/
def fetchFrom : List CCoinsViewCache → β → UInt256 → Option CCoins × List CCoinsViewCache × β
  | [], b, txid => ((V.getCoins b txid).1, [], (V.getCoins b txid).2)
  | view :: views, b, txid =>
    match view.cacheCoins txid with
    | some entry => (some entry.coins, view :: views, b)
    | none =>
      match fetchFrom views b txid with
      | (none, views, b) => (none, view :: views, b)
      | (some coins, views, b) =>
        (some coins, view.setEntry txid (some (CCoinsViewCache.fetched coins)) :: views, b)

/-- `FetchCoins`. -/
def fetchCoins (s : CoinsStack β) (txid : UInt256) : Option CCoins × CoinsStack β :=
  match fetchFrom V s.layers s.base txid with
  | (coins, layers, base) => (coins, ⟨layers, base⟩)

/-- `CCoinsViewCache::AccessCoins`; no record is a null pointer. -/
def accessCoins (s : CoinsStack β) (txid : UInt256) : Option CCoins × CoinsStack β :=
  s.fetchCoins V txid

/-- `CCoinsViewCache::GetCoins`. -/
def getCoins (s : CoinsStack β) (txid : UInt256) : Option CCoins × CoinsStack β :=
  s.fetchCoins V txid

/-- `CCoinsViewCache::HaveCoins`. -/
def haveCoins (s : CoinsStack β) (txid : UInt256) : Bool × CoinsStack β :=
  match s.fetchCoins V txid with
  | (coins, s) => (coins.any fun coins => !coins.vout.isEmpty, s)

/-- The entry that `ModifyCoins` starts from, and what is under the topmost cache after it was
read. -/
def entryFor (view : CCoinsViewCache) (views : List CCoinsViewCache) (b : β) (txid : UInt256) :
    CCoinsCacheEntry × List CCoinsViewCache × β :=
  match view.cacheCoins txid with
  | some entry => (entry, views, b)
  | none =>
    match fetchFrom V views b txid with
    | (none, views, b) => (⟨.empty, false, true⟩, views, b)
    | (some coins, views, b) => (CCoinsViewCache.fetched coins, views, b)

/-- The destructor of `CCoinsModifier` after an edit: the entry that the cache keeps. -/
def modified (entry : CCoinsCacheEntry) (f : CCoins → CCoins) : Option CCoinsCacheEntry :=
  if entry.fresh && (f entry.coins).cleanup.isPruned then none
  else some ⟨(f entry.coins).cleanup, true, entry.fresh⟩

/-- `ModifyCoins`, an edit and the destructor of `CCoinsModifier`. -/
def modifyCoins (s : CoinsStack β) (txid : UInt256) (f : CCoins → CCoins) : Option (CoinsStack β) :=
  match s.layers with
  | [] => none
  | view :: views =>
    match entryFor V view views s.base txid with
    | (entry, views, b) => some ⟨view.setEntry txid (modified entry f) :: views, b⟩

/-- `SetBestBlock`. -/
def setBestBlock (s : CoinsStack β) (hashBlock : UInt256) : Option (CoinsStack β) :=
  match s.layers with
  | [] => none
  | view :: views => some ⟨{ view with hashBlock } :: views, s.base⟩

/-- `Flush` with `BatchWrite` of the view under the topmost cache, which is left empty. -/
def flush (s : CoinsStack β) : Option (CoinsStack β) :=
  match s.layers with
  | [] => none
  | [view] =>
    some ⟨[{ view with cacheCoins := fun _ => none }],
      V.batchWrite view.cacheCoins view.hashBlock s.base⟩
  | view :: us :: views =>
    some ⟨{ view with cacheCoins := fun _ => none } ::
      ⟨fun txid => batchEntry (view.cacheCoins txid) (us.cacheCoins txid), view.hashBlock⟩ :: views,
      s.base⟩

/-- The assertion of `BatchWrite` when the topmost cache is flushed into another one. -/
def FlushAssert (s : CoinsStack β) : Prop :=
  match s.layers with
  | view :: us :: _ => ∀ txid, batchAssert (view.cacheCoins txid) (us.cacheCoins txid)
  | _ => True

/-- A new cache on top. -/
def push (s : CoinsStack β) : CoinsStack β := ⟨.new :: s.layers, s.base⟩

/-- One operation; none where there is no cache for it. -/
def step : StackOp → CoinsStack β → Option (CoinsStack β)
  | .push, s => some s.push
  | _, ⟨[], _⟩ => none
  | .accessCoins txid, s => some (s.accessCoins V txid).2
  | .getCoins txid, s => some (s.getCoins V txid).2
  | .haveCoins txid, s => some (s.haveCoins V txid).2
  | .modifyCoins txid f, s => s.modifyCoins V txid f
  | .setBestBlock hashBlock, s => s.setBestBlock hashBlock
  | .discard, ⟨_ :: views, b⟩ => some ⟨views, b⟩
  | .flush, s => s.flush V

/-- The operations that flush and discard as many caches. -/
def flushAll (n : Nat) : List StackOp := (List.replicate n [StackOp.flush, .discard]).flatten

end CoinsStack

/-! ## Plain maps -/

/-- A record as a plain map holds it: a fully spent one is absent. -/
def unspent (coins : Option CCoins) : Option CCoins := coins.filter fun coins => !coins.isPruned

/-- A plain map of records. -/
abbrev Records := UInt256 → Option CCoins

/-- An edit of a plain map, with the `Cleanup` that ends every edit. -/
def Records.modify (m : Records) (txid : UInt256) (f : CCoins → CCoins) : Records := fun i =>
  if i = txid then unspent (some (f ((m txid).getD .empty)).cleanup) else m i

/-- The operations of a stack on a plain map for each cache, and one for the view at the bottom. -/
def plainStep : StackOp → List Records → Option (List Records)
  | .push, m :: ms => some (m :: m :: ms)
  | .discard, _ :: m :: ms => some (m :: ms)
  | .flush, m :: _ :: ms => some (m :: m :: ms)
  | .modifyCoins txid f, m :: m' :: ms => some (m.modify txid f :: m' :: ms)
  | .accessCoins _, m :: m' :: ms => some (m :: m' :: ms)
  | .getCoins _, m :: m' :: ms => some (m :: m' :: ms)
  | .haveCoins _, m :: m' :: ms => some (m :: m' :: ms)
  | .setBestBlock _, m :: m' :: ms => some (m :: m' :: ms)
  | _, _ => none

/-! ## Views at the bottom -/

/-- What a batch makes of a record. -/
def batchUnspent (entry : Option CCoinsCacheEntry) (coins : Option CCoins) : Option CCoins :=
  match entry with
  | none => coins
  | some entry => if entry.dirty then unspent (some entry.coins) else coins

/-- What a batch makes of a plain map. -/
def Records.write (m : Records) (mapCoins : UInt256 → Option CCoinsCacheEntry) : Records := fun i =>
  batchUnspent (mapCoins i) (m i)

/-- A plain map as a view, as in `coins_tests.cpp`, with its empty records deleted on every write. -/
def mapView : CCoinsView Records where
  getCoins m txid := (m txid, m)
  batchWrite mapCoins _ m := m.write mapCoins

/-- The coin database. -/
def CCoinsViewDB.view (ops : PubKeyOps) : CCoinsView CCoinsViewDB where
  getCoins view txid := (view.getCoins ops txid, view)
  batchWrite mapCoins hashBlock view :=
    ⟨fun txid => batchRecord ops (mapCoins txid) (view.records txid),
      if hashBlock = 0 then view.hashBestBlock else hashBlock⟩

end GC
