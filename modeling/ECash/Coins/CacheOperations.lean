import ECash.Coins.CacheInvariant

/-!
# What the cache operations do

One specification for each operation: it succeeds, keeps the cache well formed,
and changes the visible maps as its name says.
-/

namespace ECash.Coins

open Foundation

namespace CoinsViewCache

/-!
## Reads
-/

/-- A read's answer and the cache it leaves behind. -/
structure ReadSpec (c c' : CoinsViewCache) : Prop where
  wellFormed : c'.WellFormed
  layerViews : c'.layerViews = c.layerViews

variable {c : CoinsViewCache}

theorem ReadSpec.of_fetch {c' : CoinsViewCache} {o : OutPoint} {found : Option CoinsCacheEntry}
    (h : FetchSpec c o found c') : ReadSpec c c' :=
  { wellFormed := h.wellFormed, layerViews := h.layerViews }

theorem getCoin_spec (hc : c.WellFormed) (o : OutPoint) :
    (c.getCoin o).1 = c.view o ∧ ReadSpec c (c.getCoin o).2 := by
  have hspec := fetchCoin_spec hc o
  unfold getCoin
  rcases hfetch : c.fetchCoin o with ⟨found, _⟩
  rw [hfetch] at hspec
  cases found with
  | none => exact ⟨(hspec.missing rfl).symm, ReadSpec.of_fetch hspec⟩
  | some e => exact ⟨(view_eq_of_fetched hspec).symm, ReadSpec.of_fetch hspec⟩

theorem haveCoin_spec (hc : c.WellFormed) (o : OutPoint) :
    (c.haveCoin o).1 = (c.view o).isSome ∧ ReadSpec c (c.haveCoin o).2 := by
  have hspec := fetchCoin_spec hc o
  unfold haveCoin
  rcases hfetch : c.fetchCoin o with ⟨found, _⟩
  rw [hfetch] at hspec
  cases found with
  | none =>
    refine ⟨?_, ReadSpec.of_fetch hspec⟩
    rw [hspec.missing rfl]
    rfl
  | some e =>
    refine ⟨?_, ReadSpec.of_fetch hspec⟩
    rw [view_eq_of_fetched hspec]
    cases hspent : e.coin.isSpent <;>
      simp [CoinsCacheEntry.visible, hspent]

theorem accessCoin_spec (hc : c.WellFormed) (o : OutPoint) :
    (forall coin, c.view o = some coin -> (c.accessCoin o).1 = coin) ∧
      (c.view o = none -> (c.accessCoin o).1.isSpent = true) ∧ ReadSpec c (c.accessCoin o).2 := by
  have hspec := fetchCoin_spec hc o
  unfold accessCoin
  rcases hfetch : c.fetchCoin o with ⟨found, _⟩
  rw [hfetch] at hspec
  cases found with
  | none =>
    rw [hspec.missing rfl]
    exact ⟨nofun, fun _ => rfl, ReadSpec.of_fetch hspec⟩
  | some e =>
    rw [view_eq_of_fetched hspec]
    refine ⟨?_, CoinsCacheEntry.spent_of_visible_none, ReadSpec.of_fetch hspec⟩
    exact fun coin hcoin => (CoinsCacheEntry.visible_eq_some hcoin).right

theorem uncache_spec (hc : c.WellFormed) (o : OutPoint) : ReadSpec c (c.uncache o) := by
  unfold uncache
  cases hlook : c.cacheCoins.lookup o with
  | none => exact { wellFormed := hc, layerViews := rfl }
  | some e =>
    cases hflags : e.dirty || e.fresh with
    | true =>
      simp only [hflags, if_true]
      exact { wellFormed := hc, layerViews := rfl }
    | false =>
      simp only [hflags, Bool.false_eq_true, if_false]
      have hclean : c.view o = c.base.view o := by
        rw [view_of_lookup_some hlook]
        exact (hc.entries o e hlook).clean_eq (Bool.or_eq_false_iff.mp hflags).left
      refine ⟨⟨hc.base, entriesOk_erase hc.entries⟩, ?_⟩
      unfold layerViews
      rw [view_erase, ← hclean, setCoin_eq_self]

/-!
## Adding and spending
-/

/-- An update of the top map: the layers below keep their maps. -/
structure UpdateSpec (c : CoinsViewCache) (after : OutPoint -> Option Coin)
    (c' : CoinsViewCache) : Prop where
  wellFormed : c'.WellFormed
  view : c'.view = after
  below : c'.base.layerViews = c.base.layerViews

theorem addCoin_spec (hc : c.WellFormed) (o : OutPoint) {coin : Coin}
    (hcoin : coin.isSpent = false) (possible_overwrite : Bool)
    (hfree : possible_overwrite = false -> c.view o = none) :
    exists c', c.addCoin o coin possible_overwrite = .ok c' ∧
      UpdateSpec c
        (if coin.out.scriptPubKey.isUnspendable then c.view
          else setCoin c.view o (some coin)) c' := by
  unfold addCoin
  simp only [hcoin, Bool.false_eq_true, if_false]
  cases hscript : coin.out.scriptPubKey.isUnspendable with
  | true => exact ⟨c, rfl, { wellFormed := hc, view := rfl, below := rfl }⟩
  | false =>
    -- The entry the coin is written over, default-constructed when absent.
    have hentry : (possible_overwrite = false ->
          ((c.cacheCoins.lookup o).getD CoinsCacheEntry.empty).coin.isSpent = true) ∧
        ((((c.cacheCoins.lookup o).getD CoinsCacheEntry.empty).fresh || (!possible_overwrite &&
          !((c.cacheCoins.lookup o).getD CoinsCacheEntry.empty).dirty)) = true ->
          c.base.view o = none) := by
      cases hlook : c.cacheCoins.lookup o with
      | none =>
        rw [view_of_lookup_none hlook] at hfree
        exact ⟨fun _ => rfl, by simpa [CoinsCacheEntry.empty] using hfree⟩
      | some e =>
        rw [view_of_lookup_some hlook] at hfree
        have hok := hc.entries o e hlook
        refine ⟨fun hno => CoinsCacheEntry.spent_of_visible_none (hfree hno), ?_⟩
        intro hfresh
        simp only [Option.getD_some, Bool.or_eq_true, Bool.and_eq_true, Bool.not_eq_true'] at hfresh
        rcases hfresh with hold | ⟨hno, hclean⟩
        · exact hok.fresh_none hold
        · exact (hok.clean_eq hclean).symm.trans (hfree hno)
    generalize (c.cacheCoins.lookup o).getD CoinsCacheEntry.empty = e at hentry ⊢
    have hthrow : (!possible_overwrite && !e.coin.isSpent) = false := by
      cases possible_overwrite with
      | true => rfl
      | false => simp [hentry.left rfl]
    simp only [hthrow, Bool.false_eq_true, if_false]
    refine ⟨_, rfl, ⟨hc.base, entriesOk_insert hc.entries ⟨nofun, hentry.right⟩⟩, ?_, rfl⟩
    rw [view_insert, CoinsCacheEntry.visible_of_unspent hcoin]

theorem spendCoin_spec (hc : c.WellFormed) (o : OutPoint) :
    UpdateSpec c (setCoin c.view o none) (c.spendCoin o).2 ∧
      (forall coin, c.view o = some coin -> (c.spendCoin o).1 = some coin) := by
  have hspec := fetchCoin_spec hc o
  unfold spendCoin
  rcases hfetch : c.fetchCoin o with ⟨found, c'⟩
  rw [hfetch] at hspec
  have hview : c'.view = c.view := view_of_fetchSpec hspec
  have hbelow : c'.base.layerViews = c.base.layerViews := (List.cons.inj hspec.layerViews).right
  cases found with
  | none =>
    have hmissing : c.view o = none := hspec.missing rfl
    refine ⟨⟨hspec.wellFormed, ?_, hbelow⟩, by simp [hmissing]⟩
    rw [hview, ← hmissing, setCoin_eq_self]
  | some e =>
    have hmoved : forall coin, c.view o = some coin -> some e.coin = some coin := by
      intro coin hcoin
      rw [view_eq_of_fetched hspec] at hcoin
      rw [(CoinsCacheEntry.visible_eq_some hcoin).right]
    have hok : EntryOk (c'.base.view o) e := hspec.wellFormed.entries o e hspec.lookup
    simp only
    cases hfresh : e.fresh with
    | true =>
      simp only [if_true]
      refine ⟨⟨⟨hspec.wellFormed.base, entriesOk_erase hspec.wellFormed.entries⟩, ?_, hbelow⟩,
        hmoved⟩
      rw [view_erase, hok.fresh_none hfresh, hview]
    | false =>
      simp only [Bool.false_eq_true, if_false]
      refine ⟨⟨⟨hspec.wellFormed.base,
        entriesOk_insert hspec.wellFormed.entries ⟨nofun, nofun⟩⟩, ?_, hbelow⟩, hmoved⟩
      rw [view_insert, hview, CoinsCacheEntry.visible_of_spent (Coin.isSpent_clear e.coin)]

end CoinsViewCache

end ECash.Coins
