import Tessera.Tx.Transaction

/-!
# The coins cache

`CCoinsViewCache` (`coins.h`, `coins.cpp`): a cache of unspent transaction outputs over another view
of them, which may be a cache again. An entry is DIRTY if it may differ from what the view below
has, and FRESH if the view below does not have the coin.

A stack of caches is the list of them, the top first. Counters and memory usage are left out.
-/

namespace Tessera.Coins

open Script Tx

structure Coin where
  out : CTxOut
  fCoinBase : Bool
  nHeight : Nat
  deriving DecidableEq

namespace Coin

/-- The coin that `Coin()` builds and `Coin::Clear` leaves. -/
def null : Coin := ⟨.null, false, 0⟩

def isSpent (coin : Coin) : Bool := coin.out.nValue == -1

def unspent? (coin : Coin) : Option Coin := if coin.isSpent then none else some coin

@[simp] theorem unspent?_null : null.unspent? = none := rfl

theorem unspent?_eq_some {coin : Coin} (h : coin.isSpent = false) : coin.unspent? = some coin := by
  simp [unspent?, h]

theorem isSpent_of_unspent? {coin : Coin} (h : coin.unspent? = none) : coin.isSpent := by
  simpa [unspent?] using h

end Coin

structure CCoinsCacheEntry where
  coin : Coin
  dirty : Bool
  fresh : Bool
  deriving DecidableEq

/-- An entry with a flag is in the list of flagged entries. -/
def CCoinsCacheEntry.flagged (e : CCoinsCacheEntry) : Bool := e.dirty || e.fresh

/-- The entry that `CCoinsCacheEntry()` builds. -/
def CCoinsCacheEntry.null : CCoinsCacheEntry := ⟨.null, false, false⟩

/-- `CCoinsViewCache`, with the linked list of flagged entries. -/
structure CCoinsViewCache where
  cacheCoins : COutPoint → Option CCoinsCacheEntry
  flagged : List COutPoint
  hashBlock : Uint256

/-- The view at the bottom: the coins that it holds, and its best block. -/
structure CCoinsView where
  coins : COutPoint → Option Coin
  hashBlock : Uint256

namespace CCoinsViewCache

/-- A cache without entries. -/
def empty : CCoinsViewCache := ⟨fun _ => none, [], .null 32⟩

variable (c : CCoinsViewCache) (o : COutPoint)

/-- Set an entry, which enters the list of flagged entries with its first flag and leaves it with
its last one (`AddFlags`, `SetClean`). -/
def setEntry (e : CCoinsCacheEntry) : CCoinsViewCache :=
  { c with
    cacheCoins := Function.update c.cacheCoins o (some e)
    flagged := if e.flagged then if o ∈ c.flagged then c.flagged else c.flagged ++ [o]
      else c.flagged.erase o }

def eraseEntry : CCoinsViewCache :=
  { c with
    cacheCoins := Function.update c.cacheCoins o none
    flagged := c.flagged.erase o }

def addCoin (coin : Coin) (possibleOverwrite : Bool) : Except String CCoinsViewCache :=
  if coin.isSpent then .error "!coin.IsSpent()"
  else if isUnspendable coin.out.scriptPubKey then .ok c
  else
    let entry := (c.cacheCoins o).getD .null
    if !possibleOverwrite && !entry.coin.isSpent then
      .error "Attempted to overwrite an unspent coin (when possible_overwrite is false)"
    else
      let fresh := !possibleOverwrite && !entry.dirty
      .ok (c.setEntry o ⟨coin, true, entry.fresh || fresh⟩)

def haveCoinInCache : Bool :=
  match c.cacheCoins o with
  | some e => !e.coin.isSpent
  | none => false

def uncache : CCoinsViewCache :=
  match c.cacheCoins o with
  | some e => if e.dirty then c else c.eraseEntry o
  | none => c

def reset (_ : CCoinsViewCache) : CCoinsViewCache := empty

variable (c : CCoinsViewCache)

/-- The round of `CCoinsViewCache::BatchWrite` for an entry of the cache above. -/
def mergeEntry (o : COutPoint) (e : CCoinsCacheEntry) : Except String CCoinsViewCache :=
  if !e.dirty then .ok c
  else
    match c.cacheCoins o with
    | none =>
      if e.fresh && e.coin.isSpent then .ok c else .ok (c.setEntry o ⟨e.coin, true, e.fresh⟩)
    | some us =>
      if e.fresh && !us.coin.isSpent then
        .error "FRESH flag misapplied to coin that exists in parent cache"
      else if us.fresh && e.coin.isSpent then .ok (c.eraseEntry o)
      else .ok (c.setEntry o ⟨e.coin, true, us.fresh⟩)

/-- The entries that the cursor of a cache runs through. -/
def cursor : List (COutPoint × CCoinsCacheEntry) :=
  c.flagged.filterMap fun o => (c.cacheCoins o).map fun e => (o, e)

def batchWrite (entries : List (COutPoint × CCoinsCacheEntry))
    (hashBlock : Uint256) : Except String CCoinsViewCache := do
  let c ← entries.foldlM (fun c p => c.mergeEntry p.1 p.2) c
  return { c with hashBlock := hashBlock }

/-- What is left of the cache after its cursor has run through it without erasing everything: spent
coins are erased, and the other entries are clean. -/
def clean : CCoinsViewCache :=
  c.cursor.foldl (fun c p =>
    if p.2.coin.isSpent then c.eraseEntry p.1 else c.setEntry p.1 ⟨p.2.coin, false, false⟩) c

end CCoinsViewCache

/-- The base view takes dirty entries: a spent coin is erased, any other is written. -/
def CCoinsView.batchWrite (base : CCoinsView) (entries : List (COutPoint × CCoinsCacheEntry))
    (hashBlock : Uint256) : CCoinsView :=
  { coins := entries.foldl (fun coins p =>
      if p.2.dirty then Function.update coins p.1 p.2.coin.unspent? else coins) base.coins
    hashBlock := hashBlock }

/-! ### Stacks of caches -/

/-- A stack of caches over a base view. -/
structure CoinsStack where
  layers : List CCoinsViewCache
  base : CCoinsView

section Stack

variable (base : CCoinsView)

def peekCoin : List CCoinsViewCache → COutPoint → Option Coin
  | [], o => base.coins o
  | c :: below, o =>
    match c.cacheCoins o with
    | some e => e.coin.unspent?
    | none => peekCoin below o

/-- `CCoinsViewCache::FetchCoin`, with what the view below answers: the entry, and the caches after
it is there. -/
def fetch (c : CCoinsViewCache) (below : List CCoinsViewCache) (o : COutPoint)
    (fromBase : Option Coin × List CCoinsViewCache) :
    Option CCoinsCacheEntry × List CCoinsViewCache :=
  match c.cacheCoins o with
  | some e => (some e, c :: below)
  | none =>
    match fromBase.1 with
    | some coin => (some ⟨coin, false, false⟩, c.setEntry o ⟨coin, false, false⟩ :: fromBase.2)
    | none => (none, c :: fromBase.2)

/-- `GetCoin` of the view that a stack is, and the caches after it. -/
def getCoin (o : COutPoint) : List CCoinsViewCache → Option Coin × List CCoinsViewCache
  | [] => (base.coins o, [])
  | c :: below =>
    let fetched := fetch c below o (getCoin o below)
    (fetched.1.bind fun e => e.coin.unspent?, fetched.2)

variable (o : COutPoint)

/-- `CCoinsViewCache::FetchCoin` at the top of a stack. -/
def fetchCoin : List CCoinsViewCache → Option CCoinsCacheEntry × List CCoinsViewCache
  | [] => (none, [])
  | c :: below => fetch c below o (getCoin base o below)

variable (layers : List CCoinsViewCache)

def haveCoin : Bool × List CCoinsViewCache :=
  let fetched := fetchCoin base o layers
  (fetched.1.any fun e => !e.coin.isSpent, fetched.2)

def accessCoin : Coin × List CCoinsViewCache :=
  let fetched := fetchCoin base o layers
  ((fetched.1.map CCoinsCacheEntry.coin).getD .null, fetched.2)

/-- `CCoinsViewCache::SpendCoin`: whether there is an entry to spend, the coin that is moved out,
and the caches afterwards. -/
def spendCoin : (Bool × Coin) × List CCoinsViewCache :=
  match fetchCoin base o layers with
  | (some e, c :: below) =>
    ((true, e.coin), (if e.fresh then c.eraseEntry o else c.setEntry o ⟨.null, true, false⟩) ::
      below)
  | (_, layers) => ((false, .null), layers)

/-- `CCoinsViewCache::GetBestBlock`, which remembers the answer of the view below. -/
def getBestBlock : List CCoinsViewCache → Uint256 × List CCoinsViewCache
  | [] => (base.hashBlock, [])
  | c :: below =>
    if c.hashBlock.isNull then
      let found := getBestBlock below
      (found.1, { c with hashBlock := found.1 } :: found.2)
    else (c.hashBlock, c :: below)

/-- `BatchWrite` of the view that a stack is. -/
def batchWriteTo (entries : List (COutPoint × CCoinsCacheEntry))
    (hashBlock : Uint256) : Except String (List CCoinsViewCache × CCoinsView) :=
  match layers with
  | [] => .ok ([], base.batchWrite entries hashBlock)
  | c :: below => (c.batchWrite entries hashBlock).map fun c => (c :: below, base)

/-- The operations on a cache. -/
inductive CoinsOp where
  | addCoin (o : COutPoint) (coin : Coin) (possibleOverwrite : Bool)
  | spendCoin (o : COutPoint)
  | getCoin (o : COutPoint)
  | haveCoin (o : COutPoint)
  | accessCoin (o : COutPoint)
  | haveCoinInCache (o : COutPoint)
  | uncache (o : COutPoint)
  | flush
  | sync
  | reset
  | setBestBlock (hash : Uint256)
  | getBestBlock

/-- An operation on the cache at the top of a stack. -/
def applyTop (op : CoinsOp) (c : CCoinsViewCache) (below : List CCoinsViewCache) :
    Except String (List CCoinsViewCache × CCoinsView) :=
  match op with
  | .addCoin o coin possibleOverwrite =>
    (c.addCoin o coin possibleOverwrite).map fun c => (c :: below, base)
  | .spendCoin o => .ok ((spendCoin base o (c :: below)).2, base)
  | .getCoin o => .ok ((getCoin base o (c :: below)).2, base)
  | .haveCoin o => .ok ((haveCoin base o (c :: below)).2, base)
  | .accessCoin o => .ok ((accessCoin base o (c :: below)).2, base)
  | .haveCoinInCache _ => .ok (c :: below, base)
  | .uncache o => .ok (c.uncache o :: below, base)
  | .flush => (batchWriteTo base below c.cursor c.hashBlock).map fun v =>
      ({ c with cacheCoins := fun _ => none, flagged := [] } :: v.1, v.2)
  | .sync => do
    let v ← batchWriteTo base below c.cursor c.hashBlock
    let c := c.clean
    if c.flagged.isEmpty then return (c :: v.1, v.2)
    else throw "Not all unspent flagged entries were cleared"
  | .reset => .ok (c.reset :: below, base)
  | .setBestBlock hash => .ok ({ c with hashBlock := hash } :: below, base)
  | .getBestBlock => .ok ((getBestBlock base (c :: below)).2, base)

/-- An operation on the cache at a depth. -/
def applyAt (op : CoinsOp) : Nat → List CCoinsViewCache → Except String
    (List CCoinsViewCache × CCoinsView)
  | _, [] => .ok ([], base)
  | 0, c :: below => applyTop base op c below
  | k + 1, c :: below => (applyAt op k below).map fun v => (c :: v.1, v.2)

end Stack

/-- A step: an operation at a depth, on a stack that has not failed. -/
def CoinsStack.step (v : Except String CoinsStack) (i : Nat × CoinsOp) : Except String CoinsStack :=
  do
  let v ← v
  let (layers, base) ← applyAt v.base i.2 i.1 v.layers
  return ⟨layers, base⟩

end Tessera.Coins
