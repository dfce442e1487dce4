import ECash.Coins.Coin

/-!
# The coins view cache

A coins view is the plain view without a backend, a backing map, or a cache
over another view.  Reads fill the caches they pass through, so every operation
returns the view it leaves behind.
-/

namespace ECash.Coins

inductive CoinsView where
  | plain
  | backing (coins : AList fun _ : OutPoint => Coin) (bestBlock : BlockHash)
  | cache (base : CoinsView) (cacheCoins : CoinsMap) (hashBlock : BlockHash)
      (cachedCoinsUsage : Int)

structure CoinsViewCache where
  base : CoinsView
  cacheCoins : CoinsMap
  hashBlock : BlockHash
  cachedCoinsUsage : Int

def CoinsViewCache.toView (c : CoinsViewCache) : CoinsView :=
  .cache c.base c.cacheCoins c.hashBlock c.cachedCoinsUsage

/-- A new cache: no coins, and a null best block that is looked up lazily. -/
def CoinsViewCache.new (base : CoinsView) : CoinsViewCache :=
  { base, cacheCoins := ∅, hashBlock := 0, cachedCoinsUsage := 0 }

/-!
## Errors

The ways a cache operation can end other than by returning.
-/

inductive CoinsError where
  | assertUnspent
  | overwriteUnspent
  | freshMisapplied
  | notAllErased
deriving DecidableEq, Repr

/-- An exception together with the cache it leaves behind. -/
structure Thrown where
  error : CoinsError
  cache : CoinsViewCache

/-!
## Reading through the caches
-/

/--
Find the entry for an outpoint, pulling it from the base when it is not cached;
`getBase` is the base's lookup.
-/
def fetchCoinWith (getBase : OutPoint -> Option Coin × CoinsView)
    (c : CoinsViewCache) (outpoint : OutPoint) : Option CoinsCacheEntry × CoinsViewCache :=
  match c.cacheCoins.lookup outpoint with
  | some e => (some e, c)
  | none =>
    match getBase outpoint with
    | (none, base) => (none, { c with base })
    | (some tmp, base) =>
      let e : CoinsCacheEntry :=
        { coin := tmp, dirty := false, fresh := tmp.isSpent }
      (some e,
        { c with
          base
          cacheCoins := c.cacheCoins.insert outpoint e
          cachedCoinsUsage := c.cachedCoinsUsage + tmp.dynamicMemoryUsage })

def CoinsView.getCoin : CoinsView -> OutPoint -> Option Coin × CoinsView
  | plain, _ => (none, plain)
  | backing coins bestBlock, outpoint => (coins.lookup outpoint, backing coins bestBlock)
  | cache base cacheCoins hashBlock cachedCoinsUsage, outpoint =>
    match fetchCoinWith (fun o => base.getCoin o)
        { base, cacheCoins, hashBlock, cachedCoinsUsage } outpoint with
    | (none, c) => (none, c.toView)
    | (some e, c) => (e.visible, c.toView)

namespace CoinsViewCache

def fetchCoin (c : CoinsViewCache) (outpoint : OutPoint) :
    Option CoinsCacheEntry × CoinsViewCache :=
  fetchCoinWith c.base.getCoin c outpoint

def getCoin (c : CoinsViewCache) (outpoint : OutPoint) : Option Coin × CoinsViewCache :=
  match c.fetchCoin outpoint with
  | (none, c') => (none, c')
  | (some e, c') => (e.visible, c')

def accessCoin (c : CoinsViewCache) (outpoint : OutPoint) : Coin × CoinsViewCache :=
  match c.fetchCoin outpoint with
  | (none, c') => (Coin.empty, c')
  | (some e, c') => (e.coin, c')

def haveCoin (c : CoinsViewCache) (outpoint : OutPoint) : Bool × CoinsViewCache :=
  match c.fetchCoin outpoint with
  | (none, c') => (false, c')
  | (some e, c') => (!e.coin.isSpent, c')

/-!
## Adding and spending coins
-/

def addCoin (c : CoinsViewCache) (outpoint : OutPoint) (coin : Coin)
    (possible_overwrite : Bool) : Except Thrown CoinsViewCache :=
  if coin.isSpent then
    .error { error := .assertUnspent, cache := c }
  else if coin.out.scriptPubKey.isUnspendable then
    .ok c
  else
    let found := c.cacheCoins.lookup outpoint
    let e := found.getD CoinsCacheEntry.empty
    let usage := c.cachedCoinsUsage -
      (if found.isSome then (e.coin.dynamicMemoryUsage : Int) else 0)
    if !possible_overwrite && !e.coin.isSpent then
      .error
        { error := .overwriteUnspent
          cache := { c with cachedCoinsUsage := usage } }
    else
      let fresh := !possible_overwrite && !e.dirty
      .ok
        { c with
          cacheCoins := c.cacheCoins.insert outpoint
            { coin, dirty := true, fresh := e.fresh || fresh }
          cachedCoinsUsage := usage + coin.dynamicMemoryUsage }

/-- Whether an entry was found, the coin moved out, and the cache left behind. -/
def spendCoin (c : CoinsViewCache) (outpoint : OutPoint) : Option Coin × CoinsViewCache :=
  match c.fetchCoin outpoint with
  | (none, c') => (none, c')
  | (some e, c') =>
    let usage := c'.cachedCoinsUsage - e.coin.dynamicMemoryUsage
    if e.fresh then
      (some e.coin,
        { c' with
          cacheCoins := c'.cacheCoins.erase outpoint
          cachedCoinsUsage := usage })
    else
      (some e.coin,
        { c' with
          cacheCoins := c'.cacheCoins.insert outpoint
            { coin := e.coin.clear, dirty := true, fresh := e.fresh }
          cachedCoinsUsage := usage })

def uncache (c : CoinsViewCache) (outpoint : OutPoint) : CoinsViewCache :=
  match c.cacheCoins.lookup outpoint with
  | some e =>
    if e.dirty || e.fresh then c
    else
      { c with
        cacheCoins := c.cacheCoins.erase outpoint
        cachedCoinsUsage := c.cachedCoinsUsage - e.coin.dynamicMemoryUsage }
  | none => c

def setBestBlock (c : CoinsViewCache) (hashBlock : BlockHash) : CoinsViewCache :=
  { c with hashBlock }

/-!
## Writing a child's changes into its parent
-/

def batchWriteEntry (c : CoinsViewCache) (it : Sigma fun _ : OutPoint => CoinsCacheEntry) :
    Except CoinsError CoinsViewCache :=
  if !it.2.dirty then
    .ok c
  else
    match c.cacheCoins.lookup it.1 with
    | none =>
      if it.2.fresh && it.2.coin.isSpent then
        .ok c
      else
        .ok
          { c with
            cacheCoins := c.cacheCoins.insert it.1
              { coin := it.2.coin, dirty := true, fresh := it.2.fresh }
            cachedCoinsUsage :=
              c.cachedCoinsUsage + it.2.coin.dynamicMemoryUsage }
    | some itUs =>
      if it.2.fresh && !itUs.coin.isSpent then
        .error .freshMisapplied
      else if itUs.fresh && it.2.coin.isSpent then
        .ok
          { c with
            cacheCoins := c.cacheCoins.erase it.1
            cachedCoinsUsage :=
              c.cachedCoinsUsage - itUs.coin.dynamicMemoryUsage }
      else
        .ok
          { c with
            cacheCoins := c.cacheCoins.insert it.1 { itUs with coin := it.2.coin, dirty := true }
            cachedCoinsUsage :=
              c.cachedCoinsUsage - itUs.coin.dynamicMemoryUsage + it.2.coin.dynamicMemoryUsage }

end CoinsViewCache

def backingWriteEntry (coins : AList fun _ : OutPoint => Coin)
    (it : Sigma fun _ : OutPoint => CoinsCacheEntry) :
    Except CoinsError (AList fun _ : OutPoint => Coin) :=
  if !it.2.dirty then
    .ok coins
  else if it.2.coin.isSpent then
    .ok (coins.erase it.1)
  else
    .ok (coins.insert it.1 it.2.coin)

/-- What is left of the child's map after a write. -/
def remainingCoins (mapCoins : CoinsMap) (erase : Bool) : CoinsMap :=
  if erase then ∅ else mapCoins

/--
Write a child's map into a view: the success flag, the view afterwards and what
is left of the child's map.
-/
def CoinsView.batchWrite (v : CoinsView) (mapCoins : CoinsMap)
    (hashBlock : BlockHash) (erase : Bool) : Except CoinsError (Bool × CoinsView × CoinsMap) :=
  match v with
  | plain => .ok (false, plain, mapCoins)
  | backing coins _ => do
      let coins' <- mapCoins.entries.foldlM backingWriteEntry coins
      .ok (true, backing coins' hashBlock, remainingCoins mapCoins erase)
  | cache base cacheCoins hash usage => do
      let c <- mapCoins.entries.foldlM CoinsViewCache.batchWriteEntry
        { base, cacheCoins, hashBlock := hash, cachedCoinsUsage := usage }
      .ok (true, (c.setBestBlock hashBlock).toView, remainingCoins mapCoins erase)

namespace CoinsViewCache

def flush (c : CoinsViewCache) : Except CoinsError (Bool × CoinsViewCache) := do
  let (fOk, base, left) <- c.base.batchWrite c.cacheCoins c.hashBlock true
  if fOk && !left.entries.isEmpty then
    .error .notAllErased
  else
    .ok (fOk, { c with base, cacheCoins := left, cachedCoinsUsage := 0 })

/-- One iteration of the loop that drops spent entries and clears the flags. -/
def syncEntry (c : CoinsViewCache) (it : Sigma fun _ : OutPoint => CoinsCacheEntry) :
    Except CoinsError CoinsViewCache :=
  if it.2.coin.isSpent then
    .ok
      { c with
        cacheCoins := c.cacheCoins.erase it.1
        cachedCoinsUsage :=
          c.cachedCoinsUsage - it.2.coin.dynamicMemoryUsage }
  else
    .ok
      { c with
        cacheCoins := c.cacheCoins.insert it.1 { it.2 with dirty := false, fresh := false } }

def sync (c : CoinsViewCache) : Except CoinsError (Bool × CoinsViewCache) := do
  let (fOk, base, left) <- c.base.batchWrite c.cacheCoins c.hashBlock false
  let c' <- left.entries.foldlM syncEntry
    { c with base, cacheCoins := left }
  .ok (fOk, c')

end CoinsViewCache

end ECash.Coins
