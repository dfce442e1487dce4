import ECash.Coins.CacheOperations

/-!
# Writing changes down a layer

A batch write acts on one outpoint at a time, so its effect on the parent is
the pointwise merge of the child's entries.  Over a well-formed child the merge
raises no error, keeps the parent well formed and makes the parent show what
the child shows; flushing and syncing are two ways to tidy up the child
afterwards.
-/

namespace ECash.Coins

open Foundation CoinsViewCache

/-!
## Merging one entry
-/

/-- The parent's entry after the child's entry `it` has been written to it. -/
def mergeEntry (us : Option CoinsCacheEntry) (it : CoinsCacheEntry) : Option CoinsCacheEntry :=
  if !it.dirty then us
  else
    match us with
    | none =>
      if it.fresh && it.coin.isSpent then none
      else some { coin := it.coin, dirty := true, fresh := it.fresh }
    | some itUs =>
      if itUs.fresh && it.coin.isSpent then none
      else some { itUs with coin := it.coin, dirty := true }

/-- What a cache with this entry shows over the visible coin below it. -/
def visibleOver (below : Option Coin) : Option CoinsCacheEntry -> Option Coin
  | some e => e.visible
  | none => below

theorem CoinsViewCache.view_eq_visibleOver (c : CoinsViewCache) (o : OutPoint) :
    c.view o = visibleOver (c.base.view o) (c.cacheCoins.lookup o) := by
  cases h : c.cacheCoins.lookup o with
  | none => exact view_of_lookup_none h
  | some e => exact view_of_lookup_some h

variable {it : CoinsCacheEntry} {m : CoinsMap} {c : CoinsViewCache}

theorem mergedEntry_spec {below : Option Coin} {fresh : Bool}
    (hfresh : fresh = true -> below = none)
    {merged : Option CoinsCacheEntry} (hmerged : merged =
      if fresh && it.coin.isSpent then none else some { coin := it.coin, dirty := true, fresh }) :
    (forall e, merged = some e -> EntryOk below e) ∧ visibleOver below merged = it.visible := by
  cases hdrop : fresh && it.coin.isSpent with
  | true =>
    have hparts := Bool.and_eq_true_iff.mp hdrop
    rw [hmerged, hdrop, CoinsCacheEntry.visible_of_spent hparts.right]
    exact ⟨nofun, hfresh hparts.left⟩
  | false =>
    rw [hmerged, hdrop]
    refine ⟨?_, rfl⟩
    rintro _ ⟨⟩
    exact ⟨nofun, hfresh⟩

theorem mergeEntry_spec {below : Option Coin} {us : Option CoinsCacheEntry}
    (hus : forall e, us = some e -> EntryOk below e) (hit : EntryOk (visibleOver below us) it) :
    (forall e, mergeEntry us it = some e -> EntryOk below e) ∧
      visibleOver below (mergeEntry us it) = it.visible := by
  unfold mergeEntry
  cases hdirty : it.dirty with
  | false => exact ⟨hus, (hit.clean_eq hdirty).symm⟩
  | true =>
    cases us with
    | none => exact mergedEntry_spec hit.fresh_none rfl
    | some itUs => exact mergedEntry_spec (hus itUs rfl).fresh_none rfl

/-!
## Batch writes
-/

theorem CoinsViewCache.batchWriteEntry_spec (c : CoinsViewCache) {o : OutPoint}
    (hit : EntryOk (c.view o) it) :
    exists c', c.batchWriteEntry ⟨o, it⟩ = .ok c' ∧ c'.base = c.base ∧
      c'.cacheCoins.lookup o = mergeEntry (c.cacheCoins.lookup o) it ∧
      forall x, x ≠ o -> c'.cacheCoins.lookup x = c.cacheCoins.lookup x := by
  unfold batchWriteEntry mergeEntry
  cases hdirty : it.dirty with
  | false => exact ⟨c, rfl, rfl, rfl, fun _ _ => rfl⟩
  | true =>
    cases hlook : c.cacheCoins.lookup o with
    | none =>
      cases hdrop : it.fresh && it.coin.isSpent with
      | true => exact ⟨c, rfl, rfl, hlook, fun _ _ => rfl⟩
      | false =>
        exact ⟨_, rfl, rfl, AList.lookup_insert c.cacheCoins, fun x hx => AList.lookup_insert_ne hx⟩
    | some itUs =>
      -- A FRESH child entry sits over a spent parent entry.
      have hthrow : (it.fresh && !itUs.coin.isSpent) = false := by
        cases hfresh : it.fresh with
        | false => rfl
        | true =>
          have hnone : itUs.visible = none := by
            rw [← view_of_lookup_some hlook]
            exact hit.fresh_none hfresh
          rw [CoinsCacheEntry.spent_of_visible_none hnone]
          rfl
      simp only [hthrow, Bool.false_eq_true, if_false]
      cases hdrop : itUs.fresh && it.coin.isSpent with
      | true =>
        exact ⟨_, rfl, rfl, AList.lookup_erase o c.cacheCoins, fun x hx => AList.lookup_erase_ne hx⟩
      | false =>
        exact ⟨_, rfl, rfl, AList.lookup_insert c.cacheCoins, fun x hx => AList.lookup_insert_ne hx⟩

/-- The backing map's coin after the child's entry has been written to it. -/
def mergeBacking (us : Option Coin) (it : CoinsCacheEntry) : Option Coin :=
  if !it.dirty then us else it.visible

theorem backingWriteEntry_spec (coins : AList fun _ : OutPoint => Coin)
    (o : OutPoint) (it : CoinsCacheEntry) :
    exists coins', backingWriteEntry coins ⟨o, it⟩ = .ok coins' ∧
      coins'.lookup o = mergeBacking (coins.lookup o) it ∧
      forall x, x ≠ o -> coins'.lookup x = coins.lookup x := by
  unfold backingWriteEntry mergeBacking
  cases hdirty : it.dirty with
  | false => exact ⟨coins, rfl, rfl, fun _ _ => rfl⟩
  | true =>
    cases hspent : it.coin.isSpent with
    | true =>
      refine ⟨_, rfl, ?_, fun x hx => AList.lookup_erase_ne hx⟩
      rw [CoinsCacheEntry.visible_of_spent hspent]
      exact AList.lookup_erase o coins
    | false =>
      refine ⟨_, rfl, ?_, fun x hx => AList.lookup_insert_ne hx⟩
      rw [CoinsCacheEntry.visible_of_unspent hspent]
      exact AList.lookup_insert coins

/-- The backing map takes the entries one by one. -/
theorem foldlM_backingWriteEntry {entries : List (Sigma fun _ : OutPoint => CoinsCacheEntry)}
    (hnodup : entries.NodupKeys) (coins : AList fun _ : OutPoint => Coin) :
    exists coins', entries.foldlM backingWriteEntry coins = .ok coins' ∧
      forall o, coins'.lookup o = applyEntry mergeBacking entries (fun o => coins.lookup o) o := by
  rcases foldlM_applyEntry (fun s k => AList.lookup k s) (fun _ => True) backingWriteEntry
    mergeBacking entries hnodup coins trivial (fun t k e _ _ _ =>
      (backingWriteEntry_spec t k e).imp fun _ h => ⟨h.1, trivial, h.2⟩) with
    ⟨coins', hfold, -, hlook⟩
  exact ⟨coins', hfold, hlook⟩

def overlay (below : OutPoint -> Option Coin) (m : CoinsMap) : OutPoint -> Option Coin :=
  fun o => visibleOver (below o) (m.lookup o)

theorem CoinsViewCache.view_eq_overlay (c : CoinsViewCache) :
    c.view = overlay c.base.view c.cacheCoins := by
  funext o
  exact c.view_eq_visibleOver o

theorem applyEntry_mergeBacking {below : OutPoint -> Option Coin} (hm : EntriesOk below m)
    (o : OutPoint) : applyEntry mergeBacking m.entries below o = overlay below m o := by
  unfold overlay
  cases hentry : m.lookup o with
  | none =>
    rw [applyEntry_of_none mergeBacking hentry]
    rfl
  | some e =>
    rw [applyEntry_of_some mergeBacking hentry]
    unfold mergeBacking
    cases hdirty : e.dirty with
    | true => rfl
    | false => exact ((hm o e hentry).clean_eq hdirty).symm

/-- A batch write makes the target show what the child showed. -/
structure BatchSpec (v : CoinsView) (m : CoinsMap) (v' : CoinsView) : Prop where
  wellFormed : v'.WellFormed
  view : v'.view = overlay v.view m
  below : v'.layerViews.tail = v.layerViews.tail

theorem backing_batchWrite {coins : AList fun _ : OutPoint => Coin} {bestBlock : BlockHash}
    (hv : (CoinsView.backing coins bestBlock).WellFormed)
    (hm : EntriesOk (CoinsView.backing coins bestBlock).view m) (hashBlock : BlockHash) :
    exists coins', m.entries.foldlM backingWriteEntry coins =
        .ok coins' ∧ BatchSpec (.backing coins bestBlock) m (.backing coins' hashBlock) := by
  rcases foldlM_backingWriteEntry m.nodupKeys coins with ⟨coins', hfold, hlook⟩
  have hpoint : forall o, coins'.lookup o =
      overlay (CoinsView.backing coins bestBlock).view m o := by
    intro o
    rw [hlook o]
    exact applyEntry_mergeBacking hm o
  refine ⟨coins', hfold, { wellFormed := ?_, view := funext hpoint, below := rfl }⟩
  intro o c hc
  rw [hpoint o] at hc
  unfold overlay at hc
  cases hentry : m.lookup o with
  | none =>
    rw [hentry] at hc
    exact hv o c hc
  | some e =>
    rw [hentry] at hc
    rcases CoinsCacheEntry.visible_eq_some hc with ⟨hspent, rfl⟩
    exact hspent

theorem CoinsViewCache.cache_batchWrite (hc : c.WellFormed) (hm : EntriesOk c.view m) :
    exists c', m.entries.foldlM CoinsViewCache.batchWriteEntry c =
        .ok c' ∧ c'.WellFormed ∧ c'.view = overlay c.view m ∧ c'.base = c.base := by
  rcases foldlM_applyEntry (fun s k => AList.lookup k s.cacheCoins)
      (fun s => s.base = c.base) batchWriteEntry mergeEntry
      m.entries m.nodupKeys c rfl
      (by
        intro t k e hmem hbase hlook
        have hok : EntryOk (t.view k) e := by
          rw [view_congr (d := c) (by rw [hbase]) hlook]
          exact hm k e (AList.mem_lookup_iff.mpr hmem)
        rcases t.batchWriteEntry_spec hok with ⟨t', ht, hkeep, hself, hother⟩
        exact ⟨t', ht, hkeep.trans hbase, hself, hother⟩)
    with ⟨c', hfold, hbase, hlook⟩
  have hpoint : forall o, (forall e, c'.cacheCoins.lookup o = some e -> EntryOk (c.base.view o) e) ∧
      visibleOver (c.base.view o) (c'.cacheCoins.lookup o) = overlay c.view m o := by
    intro o
    rw [hlook o, overlay]
    cases he : m.lookup o with
    | none =>
      rw [applyEntry_of_none mergeEntry he]
      exact ⟨hc.entries o, (c.view_eq_visibleOver o).symm⟩
    | some e =>
      rw [applyEntry_of_some mergeEntry he]
      apply mergeEntry_spec (hc.entries o)
      rw [← c.view_eq_visibleOver o]
      exact hm o e he
  refine ⟨c', hfold, { base := ?_, entries := ?_ }, ?_, hbase⟩
  · rw [hbase]
    exact hc.base
  · intro o
    rw [hbase]
    exact (hpoint o).left
  · funext o
    rw [c'.view_eq_visibleOver o, hbase]
    exact (hpoint o).right

theorem CoinsView.batchWrite_spec {v : CoinsView} (hv : v.WellFormed) (hm : EntriesOk v.view m)
    (hashBlock : BlockHash) (erase : Bool) :
    exists v', v.batchWrite m hashBlock erase =
        .ok (true, v', remainingCoins m erase) ∧ BatchSpec v m v' := by
  cases v with
  | plain => cases hv
  | backing coins bestBlock =>
    rcases backing_batchWrite hv hm hashBlock with ⟨coins', hfold, hspec⟩
    refine ⟨CoinsView.backing coins' hashBlock, ?_, hspec⟩
    unfold CoinsView.batchWrite
    simp only
    rw [hfold]
    rfl
  | cache base cacheCoins hash usage =>
    have hc := toView_wellFormed.mp (show (mk base cacheCoins hash usage).toView.WellFormed from hv)
    rcases cache_batchWrite hc hm with ⟨c', hfold, hwf, hview, hbase⟩
    refine ⟨(c'.setBestBlock hashBlock).toView, ?_, ?_⟩
    · unfold CoinsView.batchWrite
      simp only
      rw [hfold]
      rfl
    · exact ⟨⟨hwf.base, hwf.entries⟩, hview, congrArg CoinsView.layerViews hbase⟩

/-!
## Flush and Sync
-/

/-- Both leave the child's map as it was and copy it to the parent. -/
structure PushSpec (c c' : CoinsViewCache) : Prop where
  wellFormed : c'.WellFormed
  view : c'.view = c.view
  parent : c'.base.view = c.view
  below : c'.base.layerViews.tail = c.base.layerViews.tail

theorem CoinsViewCache.flush_spec (hc : c.WellFormed) :
    exists c', c.flush = .ok (true, c') ∧ PushSpec c c' := by
  rcases CoinsView.batchWrite_spec hc.base hc.entries c.hashBlock true with ⟨base, hwrite, hspec⟩
  have hparent : base.view = c.view := by rw [hspec.view, c.view_eq_overlay]
  refine ⟨{ c with base, cacheCoins := ∅, cachedCoinsUsage := 0 }, ?_, ?_⟩
  · unfold flush
    rw [hwrite]
    rfl
  exact ⟨⟨hspec.wellFormed, nofun⟩, funext fun o => congrFun hparent o, hparent, hspec.below⟩

def clearedEntry (it : CoinsCacheEntry) : Option CoinsCacheEntry :=
  if it.coin.isSpent then none
  else some { it with dirty := false, fresh := false }

theorem CoinsViewCache.sync_clears (c : CoinsViewCache) (m : CoinsMap) :
    exists c', m.entries.foldlM CoinsViewCache.syncEntry
        { c with cacheCoins := m } = .ok c' ∧
      c'.base = c.base ∧ forall o, c'.cacheCoins.lookup o = (m.lookup o).bind clearedEntry := by
  rcases foldlM_applyEntry (fun s k => AList.lookup k s.cacheCoins)
      (fun s => s.base = c.base) syncEntry
      (fun _ it => clearedEntry it) m.entries m.nodupKeys
      { c with cacheCoins := m } rfl
      (by
        intro t k e _hmem hbase _hlook
        unfold syncEntry clearedEntry
        cases hspent : e.coin.isSpent with
        | true =>
          exact ⟨_, rfl, hbase, AList.lookup_erase k t.cacheCoins,
            fun x hx => AList.lookup_erase_ne hx⟩
        | false =>
          exact ⟨_, rfl, hbase, AList.lookup_insert t.cacheCoins,
            fun x hx => AList.lookup_insert_ne hx⟩)
    with ⟨c', hfold, hbase, hlook⟩
  refine ⟨c', hfold, hbase, ?_⟩
  intro o
  rw [hlook o]
  cases he : m.lookup o with
  | none =>
    rw [applyEntry_of_none _ he]
    exact he
  | some e =>
    rw [applyEntry_of_some _ he]
    rfl

theorem CoinsViewCache.sync_spec (hc : c.WellFormed) :
    exists c', c.sync = .ok (true, c') ∧ PushSpec c c' := by
  rcases CoinsView.batchWrite_spec hc.base hc.entries c.hashBlock false with ⟨base, hwrite, hspec⟩
  have hparent : base.view = c.view := by rw [hspec.view, c.view_eq_overlay]
  rcases sync_clears { c with base } c.cacheCoins with ⟨c', hclear, hbase, hlook⟩
  have hbaseView : c'.base.view = c.view := hbase ▸ hparent
  -- A surviving entry is unspent and now agrees with the parent.
  have hsurvive : forall o e, c'.cacheCoins.lookup o = some e ->
      e.fresh = false ∧ e.visible = c.view o := by
    intro o e he
    rw [hlook o] at he
    rcases Option.bind_eq_some_iff.mp he with ⟨d, hold, hcleared⟩
    unfold clearedEntry at hcleared
    split at hcleared
    · cases hcleared
    · cases hcleared
      exact ⟨rfl, (view_of_lookup_some hold).symm⟩
  refine ⟨c', ?_, ?_⟩
  · unfold sync
    rw [hwrite]
    show (do
      let c' <- c.cacheCoins.entries.foldlM syncEntry
        { c with base, cacheCoins := c.cacheCoins }
      .ok (true, c')) = _
    rw [hclear]
    rfl
  · refine ⟨⟨hbase ▸ hspec.wellFormed, ?_⟩, ?_, hbaseView, hbase ▸ hspec.below⟩
    · intro o e he
      rcases hsurvive o e he with ⟨hfresh, hvisible⟩
      rw [hbaseView]
      exact ⟨fun _ => hvisible, by simp [hfresh]⟩
    · funext o
      cases he : c'.cacheCoins.lookup o with
      | none =>
        rw [view_of_lookup_none he]
        exact congrFun hbaseView o
      | some e =>
        rw [view_of_lookup_some he]
        exact (hsurvive o e he).right

end ECash.Coins
