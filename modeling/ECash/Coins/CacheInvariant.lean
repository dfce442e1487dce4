import ECash.Foundation.KeyedFold
import ECash.Coins.Cache

/-!
# Well-formed caches

The flag discipline of the coins cache.  A clean entry agrees with the view
below it, and a FRESH entry's outpoint has no unspent coin below.  These two
facts about single entries are all that the operations need, and all that they
preserve; what each operation does to the visible map follows from them.
-/

namespace ECash.Coins

open Foundation CoinsViewCache

/-!
## Visible maps and well-formedness
-/

def CoinsView.view : CoinsView -> OutPoint -> Option Coin
  | plain, _ => none
  | backing coins _, o => coins.lookup o
  | cache base cacheCoins _ _, o =>
    match cacheCoins.lookup o with
    | some e => e.visible
    | none => base.view o

/-- The flag discipline of one entry over the visible coin below it. -/
structure EntryOk (below : Option Coin) (e : CoinsCacheEntry) : Prop where
  clean_eq : e.dirty = false -> e.visible = below
  fresh_none : e.fresh = true -> below = none

def EntriesOk (below : OutPoint -> Option Coin) (m : CoinsMap) : Prop :=
  forall o e, m.lookup o = some e -> EntryOk (below o) e

def CoinsView.WellFormed : CoinsView -> Prop
  | plain => False
  | backing coins _ => forall o c, coins.lookup o = some c -> c.isSpent = false
  | cache base cacheCoins _ _ => base.WellFormed ∧ EntriesOk base.view cacheCoins

namespace CoinsViewCache

def view (c : CoinsViewCache) : OutPoint -> Option Coin :=
  c.toView.view

structure WellFormed (c : CoinsViewCache) : Prop where
  base : c.base.WellFormed
  entries : EntriesOk c.base.view c.cacheCoins

variable {c : CoinsViewCache}

theorem toView_wellFormed : c.toView.WellFormed <-> c.WellFormed := by
  exact ⟨fun h => ⟨h.left, h.right⟩, fun h => ⟨h.base, h.entries⟩⟩

variable {o : OutPoint}

theorem view_of_lookup_some {e : CoinsCacheEntry} (h : c.cacheCoins.lookup o = some e) :
    c.view o = e.visible := by
  simp [view, toView, CoinsView.view, h]

theorem view_of_lookup_none (h : c.cacheCoins.lookup o = none) : c.view o = c.base.view o := by
  simp [view, toView, CoinsView.view, h]

theorem view_congr {d : CoinsViewCache} (hbase : c.base.view o = d.base.view o)
    (hlook : c.cacheCoins.lookup o = d.cacheCoins.lookup o) : c.view o = d.view o := by
  cases h : d.cacheCoins.lookup o with
  | none => rw [view_of_lookup_none h, view_of_lookup_none (hlook.trans h), hbase]
  | some e => rw [view_of_lookup_some h, view_of_lookup_some (hlook.trans h)]

end CoinsViewCache

variable {below : OutPoint -> Option Coin} {o : OutPoint} {m : CoinsMap} {c : CoinsViewCache}

theorem entriesOk_insert {e : CoinsCacheEntry} (hm : EntriesOk below m) (he : EntryOk (below o) e) :
    EntriesOk below (m.insert o e) := by
  intro x d hx
  by_cases hxo : x = o
  · subst hxo
    rw [AList.lookup_insert] at hx
    cases hx
    exact he
  · rw [AList.lookup_insert_ne hxo] at hx
    exact hm x d hx

theorem entriesOk_erase (hm : EntriesOk below m) : EntriesOk below (m.erase o) := by
  intro x d hx
  by_cases hxo : x = o
  · subst hxo
    rw [AList.lookup_erase] at hx
    cases hx
  · rw [AList.lookup_erase_ne hxo] at hx
    exact hm x d hx

/-!
## Pointwise updates of a map
-/

def setCoin (m : OutPoint -> Option Coin) (o : OutPoint) (coin : Option Coin) :
    OutPoint -> Option Coin :=
  fun x => if x = o then coin else m x

@[simp] theorem setCoin_self (m : OutPoint -> Option Coin) (o : OutPoint)
    (coin : Option Coin) : setCoin m o coin o = coin := by
  simp [setCoin]

theorem setCoin_ne (m : OutPoint -> Option Coin) {x : OutPoint} (coin : Option Coin) (h : x ≠ o) :
    setCoin m o coin x = m x := by
  simp [setCoin, h]

theorem setCoin_eq_self (m : OutPoint -> Option Coin) (o : OutPoint) : setCoin m o (m o) = m := by
  funext x
  by_cases h : x = o <;> simp [setCoin, h]

namespace CoinsViewCache

theorem view_insert (c : CoinsViewCache) (o : OutPoint) (e : CoinsCacheEntry) (usage : Int) :
    ({ c with
        cacheCoins := c.cacheCoins.insert o e
        cachedCoinsUsage := usage } : CoinsViewCache).view = setCoin c.view o e.visible := by
  funext x
  by_cases h : x = o
  · subst h
    rw [setCoin_self, view_of_lookup_some (e := e)]
    exact AList.lookup_insert c.cacheCoins
  · rw [setCoin_ne c.view e.visible h]
    exact view_congr rfl (AList.lookup_insert_ne h)

theorem view_erase (c : CoinsViewCache) (o : OutPoint) (usage : Int) :
    ({ c with
        cacheCoins := c.cacheCoins.erase o
        cachedCoinsUsage := usage } : CoinsViewCache).view = setCoin c.view o (c.base.view o) := by
  funext x
  by_cases h : x = o
  · subst h
    rw [setCoin_self, view_of_lookup_none]
    exact AList.lookup_erase x c.cacheCoins
  · rw [setCoin_ne c.view (c.base.view o) h]
    exact view_congr rfl (AList.lookup_erase_ne h)

end CoinsViewCache

/-!
## Layers

The visible maps of a tower, the top cache first and the backing map last.
Reads, uncaching and best-block updates change none of them.
-/

def CoinsView.layerViews : CoinsView -> List (OutPoint -> Option Coin)
  | plain => [CoinsView.plain.view]
  | backing coins bestBlock => [(CoinsView.backing coins bestBlock).view]
  | cache base cacheCoins hashBlock usage =>
    (CoinsView.cache base cacheCoins hashBlock usage).view :: base.layerViews

def CoinsViewCache.layerViews (c : CoinsViewCache) : List (OutPoint -> Option Coin) :=
  c.view :: c.base.layerViews

theorem CoinsView.layerViews_head (v : CoinsView) : v.layerViews.head? = some v.view := by
  cases v <;> rfl

theorem CoinsView.view_eq_of_layerViews {v w : CoinsView}
    (h : v.layerViews = w.layerViews) : v.view = w.view := by
  have hhead : some v.view = some w.view := by rw [← layerViews_head v, ← layerViews_head w, h]
  exact Option.some.inj hhead

theorem CoinsViewCache.wellFormed_of_base {base : CoinsView} (hc : c.WellFormed)
    (hwf : base.WellFormed) (hview : base.view = c.base.view) :
    ({ c with base } : CoinsViewCache).WellFormed ∧
      ({ c with base } : CoinsViewCache).view = c.view := by
  have hentries := hc.entries
  rw [← hview] at hentries
  refine ⟨⟨hwf, hentries⟩, ?_⟩
  funext o
  exact view_congr (congrFun hview o) rfl

/-!
## Fetching

A fetched entry shows exactly the coin the view already showed.
-/

/-- What a fetch returns and leaves behind. -/
structure FetchSpec (c : CoinsViewCache) (o : OutPoint)
    (found : Option CoinsCacheEntry) (c' : CoinsViewCache) : Prop where
  wellFormed : c'.WellFormed
  layerViews : c'.layerViews = c.layerViews
  lookup : c'.cacheCoins.lookup o = found
  missing : found = none -> c.view o = none

theorem fetchCoinWith_spec (getBase : OutPoint -> Option Coin × CoinsView) (hc : c.WellFormed)
    (hval : (getBase o).1 = c.base.view o) (hwf : (getBase o).2.WellFormed)
    (hlayers : (getBase o).2.layerViews = c.base.layerViews)
    (hunspent : forall tmp, (getBase o).1 = some tmp -> tmp.isSpent = false) :
    FetchSpec c o (fetchCoinWith getBase c o).1 (fetchCoinWith getBase c o).2 := by
  unfold fetchCoinWith
  cases hlook : c.cacheCoins.lookup o with
  | some e => exact ⟨hc, rfl, hlook, nofun⟩
  | none =>
    rcases hget : getBase o with ⟨coin, base⟩
    rw [hget] at hval hwf hlayers hunspent
    simp only at hval hwf hlayers hunspent
    have hview : base.view = c.base.view := CoinsView.view_eq_of_layerViews hlayers
    have hbase := wellFormed_of_base hc hwf hview
    cases coin with
    | none =>
      exact ⟨hbase.left, congrArg₂ List.cons hbase.right hlayers, hlook,
        fun _ => (view_of_lookup_none hlook).trans hval.symm⟩
    | some tmp =>
      have htmp : tmp.isSpent = false := hunspent tmp rfl
      have hvisible : ({ coin := tmp, dirty := false, fresh := tmp.isSpent } :
            CoinsCacheEntry).visible = some tmp :=
        CoinsCacheEntry.visible_of_unspent htmp
      refine ⟨⟨hwf, entriesOk_insert hbase.left.entries ⟨fun _ => ?_, by simp [htmp]⟩⟩, ?_,
        AList.lookup_insert c.cacheCoins, nofun⟩
      · rw [hvisible, hview]
        exact hval
      · have hinsert := view_insert
          ({ c with base } : CoinsViewCache) o
          { coin := tmp, dirty := false, fresh := tmp.isSpent }
          (c.cachedCoinsUsage + tmp.dynamicMemoryUsage)
        have hold : ({ c with base } : CoinsViewCache).view o = some tmp := by
          rw [hval, ← congrFun hview o]
          exact view_of_lookup_none hlook
        rw [hvisible, ← hold, setCoin_eq_self] at hinsert
        exact congrArg₂ List.cons (hinsert.trans hbase.right) hlayers

theorem CoinsView.getCoin_spec (v : CoinsView) (hv : v.WellFormed) (o : OutPoint) :
    (v.getCoin o).1 = v.view o ∧ (v.getCoin o).2.WellFormed ∧
      (v.getCoin o).2.layerViews = v.layerViews ∧
      forall coin, (v.getCoin o).1 = some coin -> coin.isSpent = false := by
  induction v with
  | plain => cases hv
  | backing coins bestBlock => exact ⟨rfl, hv, rfl, fun coin hcoin => hv o coin hcoin⟩
  | cache base cacheCoins hashBlock usage ih =>
    rcases ih hv.left with ⟨hval, hwf, hlayers, hunspent⟩
    have hspec := fetchCoinWith_spec (fun x => base.getCoin x)
      (c := { base, cacheCoins, hashBlock, cachedCoinsUsage := usage })
      (toView_wellFormed.mp hv) hval hwf hlayers hunspent
    unfold CoinsView.getCoin
    rcases hfetch : fetchCoinWith (fun x => base.getCoin x)
      { base, cacheCoins, hashBlock, cachedCoinsUsage := usage } o
      with ⟨found, c'⟩
    rw [hfetch] at hspec
    have hview : c'.view = (CoinsView.cache base cacheCoins hashBlock usage).view :=
      (List.cons.inj hspec.layerViews).left
    cases found with
    | none =>
      exact ⟨(hspec.missing rfl).symm, toView_wellFormed.mpr hspec.wellFormed,
        hspec.layerViews, nofun⟩
    | some e =>
      refine ⟨?_, toView_wellFormed.mpr hspec.wellFormed, hspec.layerViews, ?_⟩
      · rw [← hview]
        exact (view_of_lookup_some hspec.lookup).symm
      · rintro _ hcoin
        rcases CoinsCacheEntry.visible_eq_some hcoin with ⟨hunspent, rfl⟩
        exact hunspent

namespace CoinsViewCache

variable {c' : CoinsViewCache}

theorem fetchCoin_spec (hc : c.WellFormed) (o : OutPoint) :
    FetchSpec c o (c.fetchCoin o).1 (c.fetchCoin o).2 := by
  rcases CoinsView.getCoin_spec c.base hc.base o with ⟨hval, hwf, hlayers, hunspent⟩
  exact fetchCoinWith_spec c.base.getCoin hc hval hwf hlayers hunspent

theorem view_of_fetchSpec {found : Option CoinsCacheEntry} (h : FetchSpec c o found c') :
    c'.view = c.view :=
  (List.cons.inj h.layerViews).left

theorem view_eq_of_fetched {e : CoinsCacheEntry} (h : FetchSpec c o (some e) c') :
    c.view o = e.visible := by
  rw [← view_of_fetchSpec h]
  exact view_of_lookup_some h.lookup

end CoinsViewCache

end ECash.Coins
