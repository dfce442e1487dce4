import ECash.Foundation.Simulation
import ECash.Coins.Flush

/-!
# The cache tower refines a stack of maps

A tower of caches over a backing map is used through its top cache, while any
layer may be read, uncached, synced or flushed.  The abstract machine is a
stack of plain maps: adding and spending change the top map, and pushing a
layer copies its map onto the one below.
-/

namespace ECash.Coins

open Foundation CoinsViewCache List

/-!
## Operations on a tower
-/

def onLayer (f : CoinsViewCache -> Except CoinsError CoinsViewCache) :
    Nat -> CoinsViewCache -> Except CoinsError CoinsViewCache
  | 0, c => f c
  | layer + 1, c =>
    match c.base with
    | .cache base cacheCoins hashBlock usage => do
        let lower <- onLayer f layer
          { base, cacheCoins, hashBlock, cachedCoinsUsage := usage }
        .ok { c with base := lower.toView }
    -- There is no cache at this depth.
    | _ => .ok c

inductive CoinsOp where
  | addCoin (outpoint : OutPoint) (coin : Coin) (possible_overwrite : Bool)
  | spendCoin (outpoint : OutPoint)
  | getCoin (layer : Nat) (outpoint : OutPoint)
  | haveCoin (layer : Nat) (outpoint : OutPoint)
  | accessCoin (layer : Nat) (outpoint : OutPoint)
  | uncache (layer : Nat) (outpoint : OutPoint)
  | sync (layer : Nat)
  | flush (layer : Nat)

def applyOp (c : CoinsViewCache) :
    CoinsOp -> Except CoinsError CoinsViewCache
  | .addCoin outpoint coin possible_overwrite =>
    match c.addCoin outpoint coin possible_overwrite with
    | .ok c' => .ok c'
    | .error thrown => .error thrown.error
  | .spendCoin outpoint => .ok (c.spendCoin outpoint).2
  | .getCoin layer outpoint => onLayer (fun d => .ok (d.getCoin outpoint).2) layer c
  | .haveCoin layer outpoint => onLayer (fun d => .ok (d.haveCoin outpoint).2) layer c
  | .accessCoin layer outpoint => onLayer (fun d => .ok (d.accessCoin outpoint).2) layer c
  | .uncache layer outpoint => onLayer (fun d => .ok (d.uncache outpoint)) layer c
  | .sync layer => onLayer (fun d => d.sync.map Prod.snd) layer c
  | .flush layer => onLayer (fun d => d.flush.map Prod.snd) layer c

def tower (base : CoinsView) : Nat -> CoinsViewCache
  | 0 => CoinsViewCache.new base
  | height + 1 => CoinsViewCache.new (tower base height).toView

/-!
## The stack of maps
-/

/-- Copy the map `layer` steps below the top onto the one below it. -/
def pushDown {α : Type*} : Nat -> List α -> List α
  | 0, top :: _ :: rest => top :: top :: rest
  | layer + 1, top :: rest => top :: pushDown layer rest
  | _, maps => maps

def abstractOp (maps : List (OutPoint -> Option Coin)) :
    CoinsOp -> List (OutPoint -> Option Coin)
  | .addCoin outpoint coin _ =>
    match maps with
    | top :: rest =>
      (if coin.out.scriptPubKey.isUnspendable then top
        else setCoin top outpoint (some coin)) :: rest
    | [] => []
  | .spendCoin outpoint =>
    match maps with
    | top :: rest => setCoin top outpoint none :: rest
    | [] => []
  | .sync layer => pushDown layer maps
  | .flush layer => pushDown layer maps
  | _ => maps

/--
Callers add unspent coins only, and promise no overwrite only where the top map
has no coin.
-/
def allowedOp (maps : List (OutPoint -> Option Coin)) : CoinsOp -> Prop
  | .addCoin outpoint coin possible_overwrite =>
    coin.isSpent = false ∧
      (possible_overwrite = false -> forall top, maps.head? = some top -> top outpoint = none)
  | _ => True

/-!
## Lifting an operation to a deeper layer
-/

/--
An operation that keeps its own cache's map and changes the maps below it by
`g` does so at every depth.
-/
structure LayerSpec (f : CoinsViewCache -> Except CoinsError CoinsViewCache)
    (g : Nat -> List (OutPoint -> Option Coin) -> List (OutPoint -> Option Coin)) : Prop where
  run : forall c, c.WellFormed -> exists c', f c = .ok c' ∧
    c'.WellFormed ∧ c'.view = c.view ∧ c'.layerViews = g 0 c.layerViews
  single : forall layer m, g layer [m] = [m]
  cons : forall layer m maps, g (layer + 1) (m :: maps) = m :: g layer maps

variable {f : CoinsViewCache -> Except CoinsError CoinsViewCache} {α : Type*}
  {g : Nat -> List (OutPoint -> Option Coin) -> List (OutPoint -> Option Coin)}
  {c c' : CoinsViewCache} {v base : CoinsView}

theorem onLayer_spec (hf : LayerSpec f g) (layer : Nat) (hc : c.WellFormed) :
    exists c', onLayer f layer c = .ok c' ∧ c'.WellFormed ∧
      c'.view = c.view ∧ c'.layerViews = g layer c.layerViews := by
  induction layer generalizing c with
  | zero => exact hf.run c hc
  | succ layer ih =>
    cases hbase : c.base with
    | plain =>
      have hwf := hc.base
      rw [hbase] at hwf
      cases hwf
    | backing coins bestBlock =>
      refine ⟨c, ?_, hc, rfl, ?_⟩
      · unfold onLayer
        rw [hbase]
      · show c.layerViews = g (layer + 1) (c.view :: c.base.layerViews)
        rw [hf.cons]
        show c.view :: c.base.layerViews = _
        rw [hbase]
        exact congrArg (c.view :: ·) (hf.single layer _).symm
    | cache base cacheCoins hashBlock usage =>
      have hlower : (mk base cacheCoins hashBlock usage).WellFormed := by
        apply toView_wellFormed.mp
        show (CoinsView.cache base cacheCoins hashBlock usage).WellFormed
        rw [← hbase]
        exact hc.base
      rcases ih hlower with ⟨lower, hrun, hwf, hview, hlayers⟩
      have hsame : lower.toView.view = c.base.view := by
        rw [hbase]
        exact hview
      rcases wellFormed_of_base hc (toView_wellFormed.mpr hwf) hsame with ⟨hnew, htop⟩
      refine ⟨{ c with base := lower.toView }, ?_, hnew, htop, ?_⟩
      · unfold onLayer
        rw [hbase]
        simp only
        rw [hrun]
        rfl
      · show ({ c with base := lower.toView } : CoinsViewCache).view ::
            lower.layerViews = g (layer + 1) (c.view :: c.base.layerViews)
        rw [htop, hf.cons, hlayers, hbase]
        rfl

theorem layerSpec_read (f : CoinsViewCache -> CoinsViewCache)
    (hf : forall c, c.WellFormed -> CoinsViewCache.ReadSpec c (f c)) :
    LayerSpec (fun c => .ok (f c)) (fun _ maps => maps) :=
  { run := by
      intro c hc
      have hread := hf c hc
      exact ⟨f c, rfl, hread.wellFormed, (List.cons.inj hread.layerViews).left, hread.layerViews⟩
    single := fun _ _ => rfl
    cons := fun _ _ _ => rfl }

theorem pushDown_single (layer : Nat) (m : α) : pushDown layer [m] = [m] := by
  rcases layer with _ | _ | _ <;> rfl

theorem layerViews_of_push (h : PushSpec c c') : c'.layerViews = pushDown 0 c.layerViews := by
  have hnew : c'.base.layerViews = c'.base.view :: c'.base.layerViews.tail := by
    cases c'.base <;> rfl
  have hold : c.base.layerViews = c.base.view :: c.base.layerViews.tail := by cases c.base <;> rfl
  show c'.view :: c'.base.layerViews = pushDown 0 (c.view :: c.base.layerViews)
  rw [hnew, hold, h.view, h.parent, h.below]
  rfl

theorem layerSpec_push (f : CoinsViewCache -> Except CoinsError (Bool × CoinsViewCache))
    (hf : forall c, c.WellFormed -> exists c', f c = .ok (true, c') ∧ PushSpec c c') :
    LayerSpec (fun c => (f c).map Prod.snd) pushDown :=
  { run := by
      intro c hc
      rcases hf c hc with ⟨c', hrun, hpush⟩
      refine ⟨c', ?_, hpush.wellFormed, hpush.view, layerViews_of_push hpush⟩
      simp only [hrun]
      rfl
    single := pushDown_single
    cons := fun _ _ _ => rfl }

theorem layerSpec_flush : LayerSpec (fun c => c.flush.map Prod.snd) pushDown :=
  layerSpec_push flush (fun _ hc => flush_spec hc)

theorem layerSpec_sync : LayerSpec (fun c => c.sync.map Prod.snd) pushDown :=
  layerSpec_push sync (fun _ hc => sync_spec hc)

/-!
## One step
-/

/-- The tower is well formed and its layers show the maps of the stack. -/
structure Refines (c : CoinsViewCache) (maps : List (OutPoint -> Option Coin)) : Prop where
  wellFormed : c.WellFormed
  layerViews : c.layerViews = maps

theorem refines_of_update {after : OutPoint -> Option Coin}
    (h : CoinsViewCache.UpdateSpec c after c') : Refines c' (after :: c.base.layerViews) :=
  { wellFormed := h.wellFormed
    layerViews := by
      show c'.view :: c'.base.layerViews = _
      rw [h.view, h.below] }

theorem refines_of_layer (hf : LayerSpec f g) (layer : Nat) (hc : c.WellFormed) :
    exists c', onLayer f layer c = .ok c' ∧ Refines c' (g layer c.layerViews) := by
  rcases onLayer_spec hf layer hc with ⟨c', hrun, hwf, _, hlayers⟩
  exact ⟨c', hrun, hwf, hlayers⟩

theorem applyOp_refines {maps : List (OutPoint -> Option Coin)} (h : Refines c maps)
    (op : CoinsOp) (hop : allowedOp maps op) :
    exists c', applyOp c op = .ok c' ∧ Refines c' (abstractOp maps op) := by
  rcases h with ⟨hc, hmaps⟩
  subst hmaps
  cases op with
  | addCoin outpoint coin possible_overwrite =>
    rcases addCoin_spec hc outpoint hop.left possible_overwrite
        (fun hno => hop.right hno c.view rfl) with ⟨c', hrun, hspec⟩
    refine ⟨c', ?_, refines_of_update hspec⟩
    unfold applyOp
    simp only
    rw [hrun]
  | spendCoin outpoint => exact ⟨_, rfl, refines_of_update (spendCoin_spec hc outpoint).left⟩
  | getCoin layer outpoint =>
    exact refines_of_layer (layerSpec_read (fun d => (d.getCoin outpoint).2)
        (fun d hd => (getCoin_spec hd outpoint).right))
      layer hc
  | haveCoin layer outpoint =>
    exact refines_of_layer (layerSpec_read (fun d => (d.haveCoin outpoint).2)
        (fun d hd => (haveCoin_spec hd outpoint).right))
      layer hc
  | accessCoin layer outpoint =>
    exact refines_of_layer (layerSpec_read (fun d => (d.accessCoin outpoint).2) (fun d hd =>
          (accessCoin_spec hd outpoint).right.right))
      layer hc
  | uncache layer outpoint =>
    exact refines_of_layer (layerSpec_read (fun d => d.uncache outpoint)
        (fun d hd => uncache_spec hd outpoint))
      layer hc
  | sync layer => exact refines_of_layer layerSpec_sync layer hc
  | flush layer => exact refines_of_layer layerSpec_flush layer hc

/-!
## Runs

A new tower shows the backing map in every layer, and every allowed run keeps
the refinement.
-/

def CoinsView.layers : CoinsView -> List CoinsView
  | plain => [.plain]
  | backing coins bestBlock => [.backing coins bestBlock]
  | cache base cacheCoins hashBlock usage => .cache base cacheCoins hashBlock usage :: base.layers

/-- No FRESH entry of any layer sits over an unspent coin of its parent. -/
def CoinsView.FreshSound : CoinsView -> Prop
  | cache base cacheCoins _ _ =>
    (forall o e, cacheCoins.lookup o = some e -> e.fresh = true -> base.view o = none) ∧
    base.FreshSound
  | _ => True

theorem CoinsView.freshSound_of_wellFormed (hv : v.WellFormed) : v.FreshSound := by
  induction v with
  | plain => trivial
  | backing coins bestBlock => trivial
  | cache base cacheCoins _ usage ih =>
    exact ⟨fun o e he => (hv.right o e he).fresh_none, ih hv.left⟩

theorem CoinsView.layers_read (hv : v.WellFormed) :
    forall w, w ∈ v.layers -> forall o, (w.getCoin o).1 = w.view o := by
  induction v with
  | plain => cases hv
  | backing coins bestBlock =>
    intro w hw o
    rw [mem_singleton.mp hw]
    exact (CoinsView.getCoin_spec _ hv o).left
  | cache base cacheCoins _ usage ih =>
    exact forall_mem_cons.mpr ⟨fun o => (CoinsView.getCoin_spec _ hv o).left, ih hv.left⟩

theorem CoinsView.layerViews_eq_map (v : CoinsView) :
    v.layerViews = v.layers.map CoinsView.view := by
  induction v with
  | plain => rfl
  | backing coins bestBlock => rfl
  | cache base cacheCoins _ usage ih =>
    show _ :: base.layerViews = _ :: base.layers.map CoinsView.view
    rw [ih]

theorem CoinsViewCache.new_refines (hbase : base.WellFormed) :
    Refines (CoinsViewCache.new base) (base.view :: base.layerViews) := by
  refine ⟨⟨hbase, nofun⟩, ?_⟩
  congr 1

theorem tower_refines (hbase : base.WellFormed) (height : Nat) :
    Refines (tower base height) (replicate (height + 1) base.view ++ base.layerViews) := by
  induction height with
  | zero => exact new_refines hbase
  | succ height ih =>
    have hnew := new_refines (toView_wellFormed.mpr ih.wellFormed)
    have hlayers : (tower base height).toView.layerViews =
        replicate (height + 1) base.view ++ base.layerViews :=
      ih.layerViews
    have hview : (tower base height).toView.view = base.view := (List.cons.inj hlayers).left
    rw [hlayers, hview] at hnew
    exact hnew

theorem pushDown_layers {layer : Nat} {maps : List α} (h : layer + 1 < maps.length) :
    (pushDown layer maps)[layer + 1]? = maps[layer]? ∧
      (pushDown layer maps)[layer]? = maps[layer]? := by
  induction layer generalizing maps with
  | zero =>
    cases maps with
    | nil => cases h
    | cons top rest =>
      cases rest with
      | nil => exact absurd h (Nat.lt_irrefl 1)
      | cons second rest => exact ⟨rfl, rfl⟩
  | succ layer ih =>
    cases maps with
    | nil => cases h
    | cons top rest => exact ih (Nat.lt_of_succ_lt_succ h)

/-- Pushing a layer copies its visible map to its parent and keeps its own. -/
def PushesLayer (c : CoinsViewCache)
    (f : CoinsViewCache -> Except CoinsError CoinsViewCache) : Prop :=
  forall layer, layer + 1 < c.layerViews.length -> exists c', onLayer f layer c = .ok c' ∧
      c'.layerViews[layer + 1]? = c.layerViews[layer]? ∧
      c'.layerViews[layer]? = c.layerViews[layer]?

theorem pushesLayer_of_spec (hc : c.WellFormed) (hf : LayerSpec f pushDown) : PushesLayer c f := by
  intro layer hlayer
  rcases onLayer_spec hf layer hc with ⟨c', hrun, _, _, hlayers⟩
  refine ⟨c', hrun, ?_⟩
  rw [hlayers]
  exact pushDown_layers hlayer

/--
Every allowed run of a tower over a backing map succeeds, and afterwards every
layer reads as the stack of maps says.
-/
theorem coinsCache_refines_maps (coins : AList fun _ : OutPoint => Coin)
    (hcoins : forall o c, coins.lookup o = some c -> c.isSpent = false)
    (bestBlock : BlockHash) (height : Nat) (ops : List CoinsOp)
    (hallowed : AllowedRun abstractOp allowedOp
      (replicate (height + 2) (fun o => coins.lookup o)) ops) :
    exists c,
      ops.foldlM applyOp (tower (.backing coins bestBlock) height) = .ok c ∧
      c.toView.layers.map CoinsView.view =
        ops.foldl abstractOp (replicate (height + 2) (fun o => coins.lookup o)) ∧
      (forall v, v ∈ c.toView.layers -> forall o, (v.getCoin o).1 = v.view o) ∧
      c.toView.FreshSound ∧
      PushesLayer c (fun d => d.flush.map Prod.snd) ∧
      PushesLayer c (fun d => d.sync.map Prod.snd) := by
  have hbase : (CoinsView.backing coins bestBlock).WellFormed := hcoins
  have hstart : Refines (tower (.backing coins bestBlock) height)
      (replicate (height + 2) (fun o => coins.lookup o)) := by
    have h := tower_refines hbase height
    rw [replicate_succ']
    exact h
  rcases foldlM_simulates Refines (fun _ _ op hrel => applyOp_refines hrel op) ops hstart
    hallowed with ⟨c, hrun, hrefines⟩
  have hview : c.toView.WellFormed := toView_wellFormed.mpr hrefines.wellFormed
  refine ⟨c, hrun, ?_, CoinsView.layers_read hview, CoinsView.freshSound_of_wellFormed hview,
    pushesLayer_of_spec hrefines.wellFormed layerSpec_flush,
    pushesLayer_of_spec hrefines.wellFormed layerSpec_sync⟩
  rw [← CoinsView.layerViews_eq_map]
  exact hrefines.layerViews

/-- A coin added, flushed, spent above the flush and flushed down again. -/
theorem coinsCache_refines_maps_readded :
    exists c,
      [.addCoin ⟨1, 0⟩ (Coin.ofOutput ⟨5, []⟩ 1 false) false,
        .flush 0, .spendCoin ⟨1, 0⟩,
        .addCoin ⟨1, 0⟩ (Coin.ofOutput ⟨7, []⟩ 2 false) false,
        .sync 0, .flush 1].foldlM applyOp (tower (.backing ∅ 0) 1) = .ok c := by
  rcases coinsCache_refines_maps ∅ (fun _ _ h => nomatch h) 0 1
      [.addCoin ⟨1, 0⟩ (Coin.ofOutput ⟨5, []⟩ 1 false) false, .flush 0, .spendCoin ⟨1, 0⟩,
        .addCoin ⟨1, 0⟩ (Coin.ofOutput ⟨7, []⟩ 2 false) false,
        .sync 0, .flush 1]
      ⟨⟨rfl, fun _ top h => by cases h; rfl⟩, trivial, trivial,
        ⟨rfl, fun _ top h => by cases h; rfl⟩, trivial, trivial,
        trivial⟩
    with ⟨c, hrun, _⟩
  exact ⟨c, hrun⟩

end ECash.Coins
