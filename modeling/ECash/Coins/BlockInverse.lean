import ECash.Coins.BlockUndo

/-!
# Connecting and disconnecting are inverse

The loops of block connection and disconnection, read as operations on the
visible map.  What they do depends on which outpoints a block creates and
spends, not on the order of its transactions.
-/

namespace ECash.Coins

open Foundation List CoinsViewCache

abbrev UtxoMap := OutPoint -> Option Coin

/-!
## Caches that show a map
-/

structure CoinsViewCache.Shows (c : CoinsViewCache) (m : UtxoMap) : Prop where
  wellFormed : c.WellFormed
  view : c.view = m

theorem CoinsViewCache.new_shows {base : CoinsView} (h : base.WellFormed) :
    (CoinsViewCache.new base).Shows base.view :=
  ⟨⟨h, nofun⟩, rfl⟩

/-- A cache that shows a map over a base that keeps its own. -/
structure ShowsOver (below : UtxoMap) (c : CoinsViewCache) (m : UtxoMap) : Prop where
  top : c.Shows m
  base : c.base.view = below

namespace ShowsOver

variable {below m : UtxoMap} {c c' : CoinsViewCache} (h : ShowsOver below c m)

include h

theorem of_read (hread : CoinsViewCache.ReadSpec c c') : ShowsOver below c' m where
  top := { wellFormed := hread.wellFormed
           view := (cons.inj hread.layerViews).left.trans h.top.view }
  base :=
    (CoinsView.view_eq_of_layerViews (cons.inj hread.layerViews).right).trans h.base

theorem of_update {after : UtxoMap} (hupdate : CoinsViewCache.UpdateSpec c after c') :
    ShowsOver below c' after where
  top := { wellFormed := hupdate.wellFormed, view := hupdate.view }
  base := (CoinsView.view_eq_of_layerViews hupdate.below).trans h.base

theorem haveCoin (o : OutPoint) :
    exists c', c.haveCoin o = ((m o).isSome, c') ∧ ShowsOver below c' m := by
  have hspec := haveCoin_spec h.top.wellFormed o
  refine ⟨_, ?_, h.of_read hspec.right⟩
  rw [← h.top.view, ← hspec.left]

theorem accessCoin (o : OutPoint) : ShowsOver below (c.accessCoin o).2 m :=
  h.of_read (accessCoin_spec h.top.wellFormed o).right.right

theorem addCoin {o : OutPoint} {coin : Coin} (hcoin : coin.isSpent = false)
    {possible_overwrite : Bool} (hfree : possible_overwrite = false -> m o = none) :
    exists c', c.addCoin o coin possible_overwrite = .ok c' ∧
      ShowsOver below c'
        (if coin.out.scriptPubKey.isUnspendable then m else setCoin m o (some coin)) := by
  rw [← h.top.view] at hfree
  rcases addCoin_spec h.top.wellFormed o hcoin possible_overwrite hfree with ⟨c', hadd, hspec⟩
  rw [h.top.view] at hspec
  exact ⟨c', hadd, h.of_update hspec⟩

theorem spendCoin (o : OutPoint) :
    exists moved c', c.spendCoin o = (moved, c') ∧ ShowsOver below c' (setCoin m o none) ∧
      forall coin, m o = some coin -> moved = some coin := by
  have hspec := spendCoin_spec h.top.wellFormed o
  rw [h.top.view] at hspec
  exact ⟨_, _, rfl, h.of_update hspec.left, hspec.right⟩

theorem setBestBlock (hashBlock : BlockHash) : ShowsOver below (c.setBestBlock hashBlock) m where
  top :=
    { wellFormed := { base := h.top.wellFormed.base, entries := h.top.wellFormed.entries }
      view := h.top.view }
  base := h.base

end ShowsOver

variable {o : OutPoint} {coin : Coin} {c : CoinsViewCache} {m below : UtxoMap} {vin : List TxIn}
  {full : UtxoMap} {tx : Transaction} {vtx vtx' : List Transaction}

theorem CoinsView.unspent_of_view {v : CoinsView} (hv : v.WellFormed) (h : v.view o = some coin) :
    coin.isSpent = false := by
  induction v with
  | plain => cases h
  | backing coins bestBlock => exact hv o coin h
  | cache base cacheCoins _ usage ih =>
    unfold CoinsView.view at h
    cases hlook : cacheCoins.lookup o with
    | none =>
      simp only [hlook] at h
      exact ih hv.left h
    | some e =>
      simp only [hlook] at h
      rcases CoinsCacheEntry.visible_eq_some h with ⟨hunspent, rfl⟩
      exact hunspent

theorem CoinsViewCache.Shows.unspent (hc : c.Shows m) (h : m o = some coin) :
    coin.isSpent = false := by
  rw [← hc.view] at h
  exact CoinsView.unspent_of_view (toView_wellFormed.mpr hc.wellFormed) h

/-!
## The coins a block creates
-/

/-- The coin an output becomes, if it can ever be spent. -/
def spendableCoin (nHeight : Nat) (fCoinbase : Bool) (out : TxOut) : Option Coin :=
  if out.scriptPubKey.isUnspendable then none
  else some (Coin.ofOutput out nHeight fCoinbase)

def outputsFrom (txid : TxId) (fCoinbase : Bool) (nHeight : Nat) (i : Nat)
    (vout : List TxOut) : UtxoMap :=
  fun o =>
    if o.txid = txid ∧ i ≤ o.n then
      (vout[o.n - i]?).bind (spendableCoin nHeight fCoinbase)
    else none

def outputCoin (nHeight : Nat) (tx : Transaction) : UtxoMap :=
  outputsFrom tx.txid tx.isCoinBase nHeight 0 tx.vout

def createdCoin (nHeight : Nat) (vtx : List Transaction) : UtxoMap :=
  fun o => vtx.findSome? fun tx => outputCoin nHeight tx o

def plus (m added : UtxoMap) : UtxoMap :=
  fun o => (added o).or (m o)

def minusCoins (m removed : UtxoMap) : UtxoMap :=
  fun o => if (removed o).isSome then none else m o

variable {txid : TxId} {fCoinbase : Bool} {nHeight i : Nat} {out : TxOut} {vout : List TxOut}

theorem outputsFrom_nil (o : OutPoint) : outputsFrom txid fCoinbase nHeight i [] o = none := by
  simp [outputsFrom]

theorem outputsFrom_cons_self :
    outputsFrom txid fCoinbase nHeight i (out :: vout) { txid, n := i } =
      spendableCoin nHeight fCoinbase out := by
  simp [outputsFrom]

theorem outputsFrom_succ_self :
    outputsFrom txid fCoinbase nHeight (i + 1) vout { txid, n := i } = none := by
  have hlt : ¬ i + 1 ≤ i := Nat.not_succ_le_self i
  simp only [outputsFrom, hlt, and_false, if_false]

theorem outputsFrom_cons_ne (h : o ≠ { txid, n := i }) :
    outputsFrom txid fCoinbase nHeight i (out :: vout) o =
      outputsFrom txid fCoinbase nHeight (i + 1) vout o := by
  unfold outputsFrom
  by_cases hlater : o.txid = txid ∧ i + 1 ≤ o.n
  · have hsub : o.n - i = o.n - (i + 1) + 1 := by
      omega
    rw [if_pos hlater, if_pos ⟨hlater.left, by omega⟩, hsub, getElem?_cons_succ]
  · rw [if_neg hlater, if_neg]
    rintro ⟨htx, hle⟩
    refine hlater ⟨htx, Nat.lt_of_le_of_ne hle fun hn => h ?_⟩
    rw [← htx, hn]

theorem plus_outputsFrom_cons :
    plus (if (Coin.ofOutput out nHeight fCoinbase).out.scriptPubKey.isUnspendable then m
        else setCoin m { txid, n := i } (some (Coin.ofOutput out nHeight fCoinbase)))
      (outputsFrom txid fCoinbase nHeight (i + 1) vout) =
    plus m (outputsFrom txid fCoinbase nHeight i (out :: vout)) := by
  funext o
  by_cases ho : o = { txid, n := i }
  · subst ho
    unfold plus
    rw [outputsFrom_cons_self, outputsFrom_succ_self]
    cases hscript : out.scriptPubKey.isUnspendable <;>
      simp [spendableCoin, hscript]
  · unfold plus
    rw [outputsFrom_cons_ne ho]
    split
    · rfl
    · rw [setCoin_ne m _ ho]

theorem plus_outputsFrom_nil : plus m (outputsFrom txid fCoinbase nHeight i []) = m := by
  funext o
  simp [plus, outputsFrom_nil]

theorem addCoinsFrom_over (check_for_overwrite : Bool) (hc : ShowsOver below c m)
    (hvalid : forall out, out ∈ vout -> out.isNull = false)
    (hfree : check_for_overwrite = false -> forall n, i ≤ n -> m { txid, n } = none) :
    exists c', addCoinsFrom txid fCoinbase nHeight check_for_overwrite i vout c =
        .ok c' ∧ ShowsOver below c' (plus m (outputsFrom txid fCoinbase nHeight i vout)) := by
  induction vout generalizing i c m with
  | nil => exact ⟨c, rfl, plus_outputsFrom_nil.symm ▸ hc⟩
  | cons out vout ih =>
    have hunspent : (Coin.ofOutput out nHeight fCoinbase).isSpent = false :=
      hvalid out mem_cons_self
    have hchecked : exists overwrite c₁,
        (if check_for_overwrite then c.haveCoin { txid, n := i } else (fCoinbase, c)) =
          (overwrite, c₁) ∧
        ShowsOver below c₁ m ∧ (overwrite = false -> m { txid, n := i } = none) := by
      cases check_for_overwrite with
      | true =>
        rcases hc.haveCoin { txid, n := i } with ⟨c₁, hhave, hc₁⟩
        exact ⟨_, c₁, hhave, hc₁, by simp⟩
      | false => exact ⟨fCoinbase, c, rfl, hc, fun _ => hfree rfl i (Nat.le_refl i)⟩
    rcases hchecked with ⟨_, c₁, hlook, hc₁, hnone⟩
    rcases hc₁.addCoin hunspent hnone with ⟨_, hadd, hc₂⟩
    rcases ih (i := i + 1) hc₂ (forall_mem_cons.mp hvalid).2 (by
        intro hcheck n _
        have hne : ({ txid, n } : OutPoint) ≠ { txid, n := i } := by
          rintro ⟨⟩
          omega
        have hlater := hfree hcheck n (by omega)
        split
        · exact hlater
        · rw [setCoin_ne m _ hne]
          exact hlater) with ⟨c', hrest, hc'⟩
    rw [plus_outputsFrom_cons] at hc'
    refine ⟨c', ?_, hc'⟩
    simp only [addCoinsFrom, hlook, hadd]
    exact hrest

theorem minusCoins_nil : minusCoins m (outputsFrom txid fCoinbase nHeight i []) = m := by
  funext o
  simp [minusCoins, outputsFrom_nil]

theorem outputsFrom_cons_unspendable (hscript : out.scriptPubKey.isUnspendable = true) :
    outputsFrom txid fCoinbase nHeight i (out :: vout) =
      outputsFrom txid fCoinbase nHeight (i + 1) vout := by
  funext o
  by_cases ho : o = { txid, n := i }
  · rw [ho, outputsFrom_cons_self, outputsFrom_succ_self]
    simp [spendableCoin, hscript]
  · exact outputsFrom_cons_ne ho

theorem minusCoins_outputsFrom_cons (hscript : out.scriptPubKey.isUnspendable = false) :
    minusCoins (setCoin m { txid, n := i } none)
        (outputsFrom txid fCoinbase nHeight (i + 1) vout) =
      minusCoins m (outputsFrom txid fCoinbase nHeight i (out :: vout)) := by
  funext o
  unfold minusCoins
  by_cases ho : o = { txid, n := i }
  · rw [ho, outputsFrom_cons_self]
    simp [spendableCoin, hscript]
  · rw [outputsFrom_cons_ne ho, setCoin_ne m _ ho]

theorem removeOutputsFrom_over (fClean : Bool) (hc : ShowsOver below c m) :
    exists fClean' c', removeOutputsFrom txid fCoinbase nHeight i vout fClean c =
        (fClean', c') ∧
      ShowsOver below c' (minusCoins m (outputsFrom txid fCoinbase nHeight i vout)) ∧
      ((forall o coin, outputsFrom txid fCoinbase nHeight i vout o = some coin ->
        m o = some coin) -> fClean' = fClean) := by
  induction vout generalizing i fClean c m with
  | nil => exact ⟨fClean, c, rfl, minusCoins_nil.symm ▸ hc, fun _ => rfl⟩
  | cons out vout ih =>
    cases hscript : out.scriptPubKey.isUnspendable with
    | true =>
      simp only [removeOutputsFrom, hscript, if_true]
      rw [outputsFrom_cons_unspendable hscript]
      exact ih (i := i + 1) fClean hc
    | false =>
      rcases hc.spendCoin { txid, n := i } with ⟨moved, _, hspend, hc₁, hmoved⟩
      simp only [removeOutputsFrom, hscript, Bool.false_eq_true, if_false, hspend]
      rw [← minusCoins_outputsFrom_cons hscript]
      generalize hflag : (fClean && !(moved.isNone || _ || _ || _)) = flag
      rcases ih (i := i + 1) flag hc₁ with ⟨fClean', c', hrest, hc', hclean⟩
      refine ⟨fClean', c', hrest, hc', ?_⟩
      intro hhas
      have hcreated : spendableCoin nHeight fCoinbase out =
          some (Coin.ofOutput out nHeight fCoinbase) := by
        simp [spendableCoin, hscript]
      have hcoin := hmoved _ (hhas _ _ (outputsFrom_cons_self.trans hcreated))
      rw [hclean, ← hflag, hcoin]
      · simp
      intro o coin ho
      have hother : o ≠ { txid, n := i } := by
        rintro rfl
        cases outputsFrom_succ_self.symm.trans ho
      rw [setCoin_ne m _ hother]
      exact hhas o coin ((outputsFrom_cons_ne hother).trans ho)

/-!
## The outputs of all transactions

Distinct transactions create distinct outpoints, so each step adds or removes
its own coins and leaves those of the other transactions alone.
-/

theorem txid_of_outputCoin (h : outputCoin nHeight tx o = some coin) : o.txid = tx.txid := by
  by_contra hne
  simp [outputCoin, outputsFrom, hne] at h

theorem createdCoin_cons :
    createdCoin nHeight (tx :: vtx) o =
      (outputCoin nHeight tx o).or (createdCoin nHeight vtx o) := by
  unfold createdCoin
  rw [findSome?_cons]
  cases outputCoin nHeight tx o <;> rfl

theorem exists_of_createdCoin (h : createdCoin nHeight vtx o = some coin) :
    exists tx, tx ∈ vtx ∧ outputCoin nHeight tx o = some coin :=
  exists_of_findSome?_eq_some h

theorem createdCoin_of_outputCoin (hnodup : ((tx :: vtx).map Transaction.txid).Nodup)
    (h : outputCoin nHeight tx o = some coin) : createdCoin nHeight vtx o = none := by
  cases hrest : createdCoin nHeight vtx o with
  | none => rfl
  | some other =>
    rcases exists_of_createdCoin hrest with ⟨tx', hmem, htx'⟩
    have hsame : tx'.txid = tx.txid := (txid_of_outputCoin htx').symm.trans (txid_of_outputCoin h)
    exact absurd (hsame ▸ mem_map_of_mem hmem) (nodup_cons.mp hnodup).left

theorem plus_createdCoin_cons (hnodup : ((tx :: vtx).map Transaction.txid).Nodup) :
    plus (plus m (outputCoin nHeight tx)) (createdCoin nHeight vtx) =
      plus m (createdCoin nHeight (tx :: vtx)) := by
  funext o
  show (createdCoin nHeight vtx o).or ((outputCoin nHeight tx o).or (m o)) =
    (createdCoin nHeight (tx :: vtx) o).or (m o)
  rw [createdCoin_cons]
  cases hcoin : outputCoin nHeight tx o with
  | none => rfl
  | some coin =>
    rw [createdCoin_of_outputCoin hnodup hcoin]
    rfl

theorem minusCoins_createdCoin_cons :
    minusCoins (minusCoins m (outputCoin nHeight tx)) (createdCoin nHeight vtx) =
      minusCoins m (createdCoin nHeight (tx :: vtx)) := by
  funext o
  show (if (createdCoin nHeight vtx o).isSome then none
      else if (outputCoin nHeight tx o).isSome then none else m o) =
    if (createdCoin nHeight (tx :: vtx) o).isSome then none else m o
  rw [createdCoin_cons]
  cases outputCoin nHeight tx o <;>
    cases createdCoin nHeight vtx o <;> rfl

theorem addAllCoins_over (hc : ShowsOver below c m)
    (hvalid : forall tx, tx ∈ vtx -> forall out, out ∈ tx.vout -> out.isNull = false)
    (hnodup : (vtx.map Transaction.txid).Nodup)
    (hfree : forall tx, tx ∈ vtx -> forall n, m { txid := tx.txid, n } = none) :
    exists c', addAllCoins nHeight vtx c = .ok c' ∧
      ShowsOver below c' (plus m (createdCoin nHeight vtx)) := by
  induction vtx generalizing c m with
  | nil => exact ⟨c, rfl, hc⟩
  | cons tx vtx ih =>
    rcases addCoinsFrom_over false hc (hvalid tx mem_cons_self)
      (fun _ n _ => hfree tx mem_cons_self n) with ⟨_, hadd, hc₁⟩
    have hfree₁ : forall tx', tx' ∈ vtx -> forall n,
        plus m (outputCoin nHeight tx) { txid := tx'.txid, n } = none := by
      intro tx' hmem n
      have hne : tx'.txid ≠ tx.txid :=
        fun h => (nodup_cons.mp hnodup).left (h ▸ mem_map_of_mem hmem)
      unfold plus
      rw [hfree tx' (mem_cons_of_mem tx hmem) n]
      simp [outputCoin, outputsFrom, hne]
    rcases ih hc₁ (forall_mem_cons.mp hvalid).2
      (nodup_cons.mp hnodup).right hfree₁ with ⟨c', hrest, hc'⟩
    refine ⟨c', ?_, ?_⟩
    · simp only [addAllCoins, addCoins, hadd]
      exact hrest
    · rw [← plus_createdCoin_cons hnodup]
      exact hc'

theorem removeAllOutputs_over (fClean : Bool) (hc : ShowsOver below c m)
    (hnodup : (vtx.map Transaction.txid).Nodup) :
    exists fClean' c', removeAllOutputs nHeight vtx fClean c = (fClean', c') ∧
      ShowsOver below c' (minusCoins m (createdCoin nHeight vtx)) ∧
      ((forall o coin, createdCoin nHeight vtx o = some coin -> m o = some coin) ->
        fClean' = fClean) := by
  induction vtx generalizing fClean c m with
  | nil => exact ⟨fClean, c, rfl, hc, fun _ => rfl⟩
  | cons tx vtx ih =>
    rcases @removeOutputsFrom_over _ m _ tx.txid tx.isCoinBase nHeight 0 tx.vout fClean hc with
      ⟨clean₁, c₁, hremove, hc₁, hclean₁⟩
    rcases ih clean₁ hc₁ (nodup_cons.mp hnodup).right with ⟨fClean', c', hrest, hc', hclean⟩
    refine ⟨fClean', c', ?_, ?_, ?_⟩
    · simp only [removeAllOutputs, hremove]
      exact hrest
    · rw [← minusCoins_createdCoin_cons]
      exact hc'
    intro hhas
    rw [hclean, hclean₁]
    · intro o coin h
      exact hhas o coin (by rw [createdCoin_cons, show outputCoin nHeight tx o = _ from h]; rfl)
    intro o coin h
    have hother : outputCoin nHeight tx o = none := by
      cases hcoin : outputCoin nHeight tx o with
      | none => rfl
      | some own => cases (createdCoin_of_outputCoin hnodup hcoin).symm.trans h
    unfold minusCoins
    rw [show outputsFrom tx.txid tx.isCoinBase nHeight 0 tx.vout o = _ from hother]
    exact hhas o coin (by rw [createdCoin_cons, hother]; exact h)

/-!
## Inputs

The spent coins are recorded in the order of the inputs, so restoring them in
that order puts back what was there.
-/

def minus (m : UtxoMap) (spent : List OutPoint) : UtxoMap :=
  fun o => if o ∈ spent then none else m o

def prevouts (vin : List TxIn) : List OutPoint :=
  vin.map TxIn.prevout

def blockInputs (vtx : List Transaction) : List OutPoint :=
  (vtx.filter fun tx => !tx.isCoinBase).flatMap fun tx => prevouts tx.vin

theorem minus_cons (m : UtxoMap) (o : OutPoint) (spent : List OutPoint) :
    minus (setCoin m o none) spent = minus m (o :: spent) := by
  funext x
  by_cases hx : x = o <;> simp [minus, setCoin, hx]

theorem minus_append (m : UtxoMap) (first second : List OutPoint) :
    minus (minus m first) second = minus m (first ++ second) := by
  funext x
  unfold minus
  by_cases h : x ∈ first <;> simp [h]

theorem haveInputsFrom_over (hc : ShowsOver below c m)
    (hhas : forall o, o ∈ prevouts vin -> (m o).isSome = true) :
    exists c', haveInputsFrom vin c = (true, c') ∧ ShowsOver below c' m := by
  induction vin generalizing c with
  | nil => exact ⟨c, rfl, hc⟩
  | cons txin vin ih =>
    rcases hc.haveCoin txin.prevout with ⟨_, hhave, hc₁⟩
    rw [hhas txin.prevout mem_cons_self] at hhave
    rcases ih hc₁ (forall_mem_cons.mp hhas).2 with ⟨c', hrest, hc'⟩
    refine ⟨c', ?_, hc'⟩
    simp only [haveInputsFrom, hhave]
    exact hrest

theorem prevheights_over (vin : List TxIn) (hc : ShowsOver below c m) :
    ShowsOver below (prevheights vin c).2 m := by
  induction vin generalizing c with
  | nil => exact hc
  | cons txin vin ih => exact ih (hc.accessCoin txin.prevout)

/-- The undo data of a list of inputs: the coins the map holds for them. -/
def Records (m : UtxoMap) (vin : List TxIn) (coins : List Coin) : Prop :=
  (prevouts vin).map m = coins.map some

theorem spendInputs_over (vin : List TxIn) (txundo : TxUndo) (hc : ShowsOver below c m)
    (hnodup : (prevouts vin).Nodup) (hhas : forall o, o ∈ prevouts vin -> (m o).isSome = true) :
    exists coins c', spendInputs vin txundo c =
        .ok ({ vprevout := txundo.vprevout ++ coins }, c') ∧
      ShowsOver below c' (minus m (prevouts vin)) ∧ Records m vin coins := by
  induction vin generalizing c m txundo with
  | nil =>
    refine ⟨[], c, ?_, hc, rfl⟩
    simp [spendInputs]
  | cons txin vin ih =>
    have hparts := nodup_cons.mp hnodup
    rcases Option.isSome_iff_exists.mp (hhas txin.prevout mem_cons_self) with ⟨coin, hcoin⟩
    rcases hc.spendCoin txin.prevout with ⟨_, _, hspend, hc₁, hmoved⟩
    cases hmoved coin hcoin
    -- The later inputs are other outpoints, so their coins are untouched.
    have hkeep : forall o, o ∈ prevouts vin -> setCoin m txin.prevout none o = m o :=
      fun o ho => setCoin_ne m _ (ne_of_mem_of_not_mem ho hparts.left)
    have hhas₁ : forall o, o ∈ prevouts vin -> (setCoin m txin.prevout none o).isSome = true := by
      intro o ho
      rw [hkeep o ho]
      exact hhas o (mem_cons_of_mem _ ho)
    rcases ih { vprevout := txundo.vprevout ++ [coin] } hc₁ hparts.right hhas₁
      with ⟨coins, c', hrest, hc', hrecords⟩
    refine ⟨coin :: coins, c', ?_, ?_, ?_⟩
    · simp only [spendInputs, hspend]
      rw [hrest]
      simp
    · rw [minus_cons] at hc'
      exact hc'
    show m txin.prevout :: (prevouts vin).map m = some coin :: coins.map some
    rw [← hrecords]
    congr 1
    apply map_congr_left
    intro o ho
    exact (hkeep o ho).symm

/-!
## Restoring the inputs of one transaction
-/

/-- A coin that undo data restores as it is. -/
structure Restorable (coin : Coin) : Prop where
  unspent : coin.isSpent = false
  spendable : coin.out.scriptPubKey.isUnspendable = false
  height : coin.getHeight ≠ 0

theorem undoCoinSpend_over {undo : Coin} (hundo : Restorable undo) (hc : ShowsOver below c m)
    (o : OutPoint) :
    exists c', undoCoinSpend undo c o =
        .ok (if (m o).isSome then .UNCLEAN else .OK, c') ∧
      ShowsOver below c' (setCoin m o (some undo)) := by
  rcases hc.haveCoin o with ⟨_, hhave, hc₁⟩
  rcases hc₁.addCoin hundo.unspent (fun hnone => Option.isSome_eq_false_iff.mp hnone |>
    Option.isNone_iff_eq_none.mp) with ⟨c', hadd, hc'⟩
  rw [hundo.spendable] at hc'
  refine ⟨c', ?_, hc'⟩
  simp only [undoCoinSpend, hhave, undoMetadata, if_neg hundo.height, hadd]

def restored (full m : UtxoMap) (spent : List OutPoint) : UtxoMap :=
  patch (fun o => decide (o ∈ spent)) full m

theorem restored_cons (full m : UtxoMap) (o : OutPoint) (spent : List OutPoint) :
    restored full (setCoin m o (full o)) spent = restored full m (o :: spent) := by
  funext x
  by_cases hx : x = o <;> simp [restored, patch, setCoin, hx]

theorem restored_append (full m : UtxoMap) (first second : List OutPoint) :
    restored full (restored full m first) second = restored full m (first ++ second) := by
  funext x
  unfold restored patch
  by_cases h : x ∈ first <;> simp [h]

theorem restoreInputs_over (vin : List TxIn) (coins : List Coin) (fClean : Bool)
    (hc : ShowsOver below c m) (hrecords : Records full vin coins)
    (hgood : forall o, o ∈ prevouts vin -> forall coin, full o = some coin -> Restorable coin) :
    exists fClean' c', restoreInputs vin coins fClean c = .ok (some fClean', c') ∧
      ShowsOver below c' (restored full m (prevouts vin)) ∧
      ((prevouts vin).Nodup -> (forall o, o ∈ prevouts vin -> m o = none) -> fClean' = fClean) := by
  induction vin generalizing coins fClean c m with
  | nil => exact ⟨fClean, c, by simp [restoreInputs], hc, fun _ _ => rfl⟩
  | cons txin vin ih =>
    cases coins with
    | nil => cases hrecords
    | cons coin coins =>
      have hsplit : full txin.prevout = some coin ∧ Records full vin coins := cons.inj hrecords
      have hcoin := hgood txin.prevout mem_cons_self coin hsplit.left
      rcases undoCoinSpend_over hcoin hc txin.prevout with ⟨_, hundo, hc₁⟩
      rw [← hsplit.left] at hc₁
      rcases ih coins (fClean && (m txin.prevout).isNone) hc₁ hsplit.right
        (forall_mem_cons.mp hgood).2 with ⟨fClean', c', hrest, hc', hclean⟩
      rw [restored_cons] at hc'
      refine ⟨fClean', c', ?_, hc', ?_⟩
      · simp only [restoreInputs, hundo]
        cases hm : m txin.prevout <;> rw [hm] at hrest <;> exact hrest
      · intro hnodup hnone
        rw [hclean (nodup_cons.mp hnodup).right]
        · simp [hnone txin.prevout mem_cons_self]
        · intro o ho
          rw [setCoin_ne m _ (ne_of_mem_of_not_mem ho (nodup_cons.mp hnodup).left)]
          exact hnone o (mem_cons_of_mem _ ho)

/-!
## The inputs of all transactions
-/

theorem blockInputs_cons_coinbase (h : tx.isCoinBase = true) (vtx : List Transaction) :
    blockInputs (tx :: vtx) = blockInputs vtx := by
  simp [blockInputs, h]

theorem blockInputs_cons_regular (h : tx.isCoinBase = false) (vtx : List Transaction) :
    blockInputs (tx :: vtx) = prevouts tx.vin ++ blockInputs vtx := by
  simp [blockInputs, h]

def RecordsAll (m : UtxoMap) (vtx : List Transaction) (undos : List TxUndo) : Prop :=
  Forall₂ (fun tx txundo => Records m tx.vin txundo.vprevout) vtx undos

variable {before : UtxoMap}

/--
Spending the inputs of transactions that are not coinbases, over a map that
still agrees with `before` on them.
-/
theorem spendAllCoins_over (vtx : List Transaction) (hc : ShowsOver below c m)
    (hregular : forall tx, tx ∈ vtx -> tx.isCoinBase = false) (hnodup : (blockInputs vtx).Nodup)
    (hhas : forall o, o ∈ blockInputs vtx -> (m o).isSome = true)
    (hagree : forall o, o ∈ blockInputs vtx -> m o = before o) :
    exists undos c', spendAllCoins vtx
          (replicate vtx.length { vprevout := [] }) c =
        .ok (undos, c') ∧
      ShowsOver below c' (minus m (blockInputs vtx)) ∧ RecordsAll before vtx undos := by
  induction vtx generalizing c m with
  | nil => exact ⟨[], c, rfl, hc, Forall₂.nil⟩
  | cons tx vtx ih =>
    have htx : tx.isCoinBase = false := hregular tx mem_cons_self
    rw [blockInputs_cons_regular htx] at hnodup hhas hagree ⊢
    have hparts := nodup_append.mp hnodup
    have hown : forall o, o ∈ prevouts tx.vin -> (m o).isSome = true :=
      fun o ho => hhas o (mem_append_left _ ho)
    rcases haveInputsFrom_over hc hown with ⟨c₁, hhave, hc₁⟩
    rcases spendInputs_over tx.vin { vprevout := [] }
      (prevheights_over tx.vin hc₁) hparts.left hown with
      ⟨coins, c₂, hspend, hc₂, hrecords⟩
    -- No outpoint is spent twice, so the later inputs are still there.
    have hkeep : forall o, o ∈ blockInputs vtx -> minus m (prevouts tx.vin) o = m o := by
      intro o ho
      have hnot : o ∉ prevouts tx.vin := fun hmem => hparts.right.right o hmem o ho rfl
      simp [minus, hnot]
    rcases ih hc₂ (fun tx' hmem => hregular tx' (mem_cons_of_mem tx hmem)) hparts.right.left
      (fun o ho => by
        rw [hkeep o ho]
        exact hhas o (mem_append_right _ ho))
      (fun o ho => by
        rw [hkeep o ho]
        exact hagree o (mem_append_right _ ho)) with
      ⟨undos, c', hrest, hc', hall⟩
    refine ⟨{ vprevout := coins } :: undos, c', ?_, ?_, ?_⟩
    · simp only [spendAllCoins, htx, haveInputs, Bool.false_eq_true, if_false,
        hhave, length_cons, replicate_succ, spendCoins, hspend,
        hrest, nil_append]
    · rw [minus_append] at hc'
      exact hc'
    apply Forall₂.cons
    · show (prevouts tx.vin).map before = coins.map some
      rw [← hrecords]
      apply map_congr_left
      intro o ho
      exact (hagree o (mem_append_left _ ho)).symm
    · exact hall

theorem length_of_records {m : UtxoMap} {coins : List Coin} (h : Records m vin coins) :
    coins.length = vin.length := by
  have hlength := congrArg length h
  simpa [prevouts] using hlength.symm

theorem restoreAllInputs_over (vtx : List Transaction) (undos : List TxUndo) (fClean : Bool)
    (hc : ShowsOver below c m) (hregular : forall tx, tx ∈ vtx -> tx.isCoinBase = false)
    (hrecords : RecordsAll full vtx undos)
    (hgood : forall o, o ∈ blockInputs vtx -> forall coin, full o = some coin -> Restorable coin) :
    exists fClean' c', restoreAllInputs vtx undos fClean c = .ok (some fClean', c') ∧
      ShowsOver below c' (restored full m (blockInputs vtx)) ∧
      ((blockInputs vtx).Nodup -> (forall o, o ∈ blockInputs vtx -> m o = none) ->
        fClean' = fClean) := by
  induction hrecords generalizing fClean c m with
  | nil => exact ⟨fClean, c, rfl, hc, fun _ _ => rfl⟩
  | @cons tx txundo vtx undos hown hall ih =>
    have htx : tx.isCoinBase = false := hregular tx mem_cons_self
    rw [blockInputs_cons_regular htx] at hgood ⊢
    rcases restoreInputs_over tx.vin txundo.vprevout fClean hc hown
      (forall_mem_append.mp hgood).1 with ⟨clean₁, _, hrestore, hc₁, hclean₁⟩
    rcases ih clean₁ hc₁ (forall_mem_cons.mp hregular).2
      (forall_mem_append.mp hgood).2 with ⟨fClean', c', hrest, hc', hclean⟩
    rw [restored_append] at hc'
    refine ⟨fClean', c', ?_, hc', ?_⟩
    · simp only [restoreAllInputs, length_of_records hown, ne_eq, not_true_eq_false, if_false,
        hrestore]
      exact hrest
    intro hnodup hnone
    have hparts := nodup_append.mp hnodup
    rw [hclean hparts.right.left, hclean₁ hparts.left]
    · exact (forall_mem_append.mp hnone).1
    · intro o ho
      have hnot : o ∉ prevouts tx.vin := fun hmem => hparts.right.right o hmem o ho rfl
      simp [restored, patch, hnot, hnone o (mem_append_right _ ho)]

/-!
## Blocks that can be connected

The conditions under which a block connects over a map.  They speak of the
transactions of the block as a set; only the coinbase has a place.
-/

structure Connectable (m : UtxoMap) (nHeight : Nat) (coinbase : Transaction)
    (vtx : List Transaction) : Prop where
  /-- The genesis block's transactions are not connected. -/
  height : 0 < nHeight
  first : coinbase.isCoinBase = true
  regular : forall tx, tx ∈ vtx -> tx.isCoinBase = false
  /-- Transaction checks reject negative output values. -/
  outputs : forall tx, tx ∈ coinbase :: vtx -> forall out, out ∈ tx.vout -> 0 ≤ out.nValue
  txids : ((coinbase :: vtx).map Transaction.txid).Nodup
  fresh : forall tx, tx ∈ coinbase :: vtx -> forall n, m { txid := tx.txid, n } = none
  heights : forall o coin, m o = some coin -> 1 ≤ coin.getHeight
  inputsOnce : (blockInputs (coinbase :: vtx)).Nodup
  inputsSpendable : forall o, o ∈ blockInputs (coinbase :: vtx) ->
    (exists coin, m o = some coin ∧ coin.out.scriptPubKey.isUnspendable = false) ∨
    (exists tx, tx ∈ coinbase :: vtx ∧ tx.txid = o.txid ∧
      exists out, tx.vout[o.n]? = some out ∧ out.scriptPubKey.isUnspendable = false)

variable {nHeight : Nat}

theorem createdCoin_eq_some_iff (hnodup : (vtx.map Transaction.txid).Nodup) :
    createdCoin nHeight vtx o = some coin <->
      exists tx, tx ∈ vtx ∧ outputCoin nHeight tx o = some coin := by
  constructor
  · exact exists_of_createdCoin
  rintro ⟨_, hmem, hcoin⟩
  induction vtx with
  | nil => cases hmem
  | cons first vtx ih =>
    rw [createdCoin_cons]
    rcases mem_cons.mp hmem with hfirst | hlater
    · rw [← hfirst, hcoin]
      rfl
    have hrest := ih (nodup_cons.mp hnodup).right hlater
    cases hother : outputCoin nHeight first o with
    | none => exact hrest
    | some other => cases (createdCoin_of_outputCoin hnodup hother).symm.trans hrest

theorem createdCoin_perm (hperm : vtx'.Perm vtx) (hnodup : (vtx.map Transaction.txid).Nodup) :
    createdCoin nHeight vtx' = createdCoin nHeight vtx := by
  have hnodup' : (vtx'.map Transaction.txid).Nodup :=
    (hperm.map Transaction.txid).nodup_iff.mpr hnodup
  funext o
  apply Option.ext
  intro coin
  rw [createdCoin_eq_some_iff hnodup', createdCoin_eq_some_iff hnodup]
  exact exists_congr fun _ => and_congr_left' hperm.mem_iff

theorem blockInputs_perm (hperm : vtx'.Perm vtx) : (blockInputs vtx').Perm (blockInputs vtx) :=
  (hperm.filter _).flatMap_right _

theorem minus_perm (m : UtxoMap) {spent spent' : List OutPoint}
    (hperm : spent'.Perm spent) : minus m spent' = minus m spent := by
  funext o
  simp [minus, hperm.mem_iff]

theorem Connectable.perm {coinbase : Transaction}
    (h : Connectable m nHeight coinbase vtx) (hperm : vtx'.Perm vtx) :
    Connectable m nHeight coinbase vtx' := by
  have hall : (coinbase :: vtx').Perm (coinbase :: vtx) := hperm.cons coinbase
  have hinputs := blockInputs_perm hall
  exact
    { height := h.height
      first := h.first
      regular := fun tx hmem => h.regular tx (hperm.mem_iff.mp hmem)
      outputs := fun tx hmem => h.outputs tx (hall.mem_iff.mp hmem)
      txids := (hall.map Transaction.txid).nodup_iff.mpr h.txids
      fresh := fun tx hmem => h.fresh tx (hall.mem_iff.mp hmem)
      heights := h.heights
      inputsOnce := hinputs.nodup_iff.mpr h.inputsOnce
      inputsSpendable := fun o ho => (h.inputsSpendable o (hinputs.mem_iff.mp ho)).imp_right
        fun ⟨tx, hmem, hrest⟩ => ⟨tx, hall.mem_iff.mpr hmem, hrest⟩ }

namespace Connectable

variable {nHeight : Nat} {coinbase : Transaction} (h : Connectable m nHeight coinbase vtx)

include h

theorem unspentOutputs :
    forall tx, tx ∈ coinbase :: vtx -> forall out, out ∈ tx.vout -> out.isNull = false := by
  intro tx htx out hout
  have hvalue := h.outputs tx htx out hout
  have hne : out.nValue ≠ -1 := by omega
  simp [TxOut.isNull, hne]

theorem restorable_of_created {coin : Coin}
    (hcoin : createdCoin nHeight (coinbase :: vtx) o = some coin) : Restorable coin := by
  rcases exists_of_createdCoin hcoin with ⟨tx, hmem, htx⟩
  have htxid := txid_of_outputCoin htx
  simp only [outputCoin, outputsFrom, htxid, Nat.zero_le, and_self, if_true, Nat.sub_zero] at htx
  rcases Option.bind_eq_some_iff.mp htx with ⟨out, hout, hspendable⟩
  unfold spendableCoin at hspendable
  cases hscript : out.scriptPubKey.isUnspendable with
  | true => simp [hscript] at hspendable
  | false =>
    simp only [hscript, Bool.false_eq_true, if_false, Option.some.injEq] at hspendable
    subst hspendable
    have hpos := h.height
    exact
      { unspent := h.unspentOutputs tx hmem out (mem_of_getElem? hout)
        spendable := hscript
        height := by
          rw [Coin.getHeight_ofOutput]
          omega }

theorem created_of_output {tx : Transaction} (hmem : tx ∈ coinbase :: vtx)
    (htxid : tx.txid = o.txid) {out : TxOut} (hout : tx.vout[o.n]? = some out)
    (hscript : out.scriptPubKey.isUnspendable = false) :
    exists coin, createdCoin nHeight (coinbase :: vtx) o = some coin := by
  refine ⟨Coin.ofOutput out nHeight tx.isCoinBase,
    (createdCoin_eq_some_iff h.txids).mpr ⟨tx, hmem, ?_⟩⟩
  simp [outputCoin, outputsFrom, htxid, hout, spendableCoin, hscript]

theorem restorable_input (hunspent : forall o coin, m o = some coin -> coin.isSpent = false)
    (ho : o ∈ blockInputs (coinbase :: vtx)) :
    exists coin, plus m (createdCoin nHeight (coinbase :: vtx)) o = some coin ∧
      Restorable coin := by
  unfold plus
  cases hcreated : createdCoin nHeight (coinbase :: vtx) o with
  | some coin => exact ⟨coin, rfl, h.restorable_of_created hcreated⟩
  | none =>
    rcases h.inputsSpendable o ho with ⟨coin, hcoin, hscript⟩ | ⟨_, hmem, htxid, _, hout, hscript⟩
    · exact ⟨coin, hcoin, hunspent o coin hcoin, hscript, Nat.ne_of_gt (h.heights o coin hcoin)⟩
    · rcases h.created_of_output hmem htxid hout hscript with ⟨_, hsome⟩
      cases hcreated.symm.trans hsome

theorem minusCoins_plus :
    minusCoins (plus m (createdCoin nHeight (coinbase :: vtx)))
      (createdCoin nHeight (coinbase :: vtx)) = m := by
  funext o
  unfold minusCoins plus
  cases hcreated : createdCoin nHeight (coinbase :: vtx) o with
  | none => rfl
  | some coin =>
    rcases exists_of_createdCoin hcreated with ⟨tx, hmem, htx⟩
    have hnone := h.fresh tx hmem o.n
    rw [← txid_of_outputCoin htx] at hnone
    exact hnone.symm

end Connectable

/-!
## The inverse
-/

variable {coinbase : Transaction}

def connectedMap (m : UtxoMap) (nHeight : Nat) (vtx : List Transaction) : UtxoMap :=
  minus (plus m (createdCoin nHeight vtx)) (blockInputs vtx)

theorem connectedMap_perm (h : Connectable m nHeight coinbase vtx) (hperm : vtx'.Perm vtx) :
    connectedMap m nHeight (coinbase :: vtx') = connectedMap m nHeight (coinbase :: vtx) := by
  have hall : (coinbase :: vtx').Perm (coinbase :: vtx) := hperm.cons coinbase
  unfold connectedMap
  rw [createdCoin_perm hall h.txids, minus_perm _ (blockInputs_perm hall)]

theorem connectBlock_shows (h : Connectable m nHeight coinbase vtx) (hashPrevBlock : BlockHash)
    (hc : c.Shows m) :
    exists undos c', connectBlock
          { hashPrevBlock, vtx := coinbase :: vtx } nHeight c =
        .ok ({ vtxundo := undos }, c') ∧
      c'.Shows (connectedMap m nHeight (coinbase :: vtx)) ∧
      RecordsAll (plus m (createdCoin nHeight (coinbase :: vtx))) vtx undos := by
  have hinputs : blockInputs (coinbase :: vtx) = blockInputs vtx :=
    blockInputs_cons_coinbase h.first vtx
  have hover : ShowsOver c.base.view c m := { top := hc, base := rfl }
  rcases addAllCoins_over hover h.unspentOutputs h.txids h.fresh with ⟨_, hadd, hc₁⟩
  have hhas : forall o, o ∈ blockInputs vtx ->
      (plus m (createdCoin nHeight (coinbase :: vtx)) o).isSome = true := by
    intro o ho
    rw [← hinputs] at ho
    rcases h.restorable_input (fun _ _ => hc.unspent) ho with ⟨_, hcoin, -⟩
    rw [hcoin]
    rfl
  rcases spendAllCoins_over vtx hc₁ h.regular (hinputs ▸ h.inputsOnce) hhas
    (fun _ _ => rfl) with ⟨undos, c', hspend, hc', hrecords⟩
  refine ⟨undos, c', ?_, ?_, hrecords⟩
  · simp only [connectBlock, hadd, length_cons, Nat.add_sub_cancel,
      spendAllCoins, h.first, if_true, hspend]
  · unfold connectedMap
    rw [hinputs]
    exact hc'.top

def touched (nHeight : Nat) (vtx : List Transaction) (o : OutPoint) : Bool :=
  (createdCoin nHeight vtx o).isSome || decide (o ∈ blockInputs vtx)

theorem connectedMap_of_not_touched (h : touched nHeight vtx o = false) :
    connectedMap before nHeight vtx o = before o := by
  simp only [touched, Bool.or_eq_false_iff, decide_eq_false_iff_not,
    Option.isSome_eq_false_iff, Option.isNone_iff_eq_none] at h
  unfold connectedMap minus plus
  rw [if_neg h.right, h.left]
  rfl

theorem undone_eq_patch (h : Connectable before nHeight coinbase vtx) :
    minusCoins
        (restored (plus before (createdCoin nHeight (coinbase :: vtx))) m
          (blockInputs (coinbase :: vtx)))
        (createdCoin nHeight (coinbase :: vtx)) =
      patch (touched nHeight (coinbase :: vtx)) before m := by
  have hfresh := congrFun h.minusCoins_plus
  funext o
  have ho := hfresh o
  unfold minusCoins at ho ⊢
  unfold patch touched restored patch
  cases hcreated : createdCoin nHeight (coinbase :: vtx) o with
  | some coin =>
    rw [hcreated] at ho
    exact ho
  | none =>
    rw [hcreated] at ho
    by_cases hin : o ∈ blockInputs (coinbase :: vtx)
    · simp only [hin, decide_true, Bool.or_true, if_true]
      exact ho
    · simp [hin]

/-- Undoing a block on any map; it is clean on the map that the block gave. -/
theorem applyBlockUndo_over (h : Connectable before nHeight coinbase vtx)
    (hunspent : forall o coin, before o = some coin -> coin.isSpent = false) {undo : BlockUndo}
    {block : Block} (hblock : block.vtx = coinbase :: vtx)
    (hrecords : RecordsAll (plus before (createdCoin nHeight (coinbase :: vtx))) vtx undo.vtxundo)
    (hc : ShowsOver below c m) :
    exists res c', applyBlockUndo undo block nHeight c = .ok (res, c') ∧
      res ≠ .FAILED ∧
      ShowsOver below c' (patch (touched nHeight (coinbase :: vtx)) before m) ∧
      (m = connectedMap before nHeight (coinbase :: vtx) -> res = .OK) := by
  have hinputs : blockInputs (coinbase :: vtx) = blockInputs vtx :=
    blockInputs_cons_coinbase h.first vtx
  have hgood : forall o, o ∈ blockInputs vtx -> forall coin,
      plus before (createdCoin nHeight (coinbase :: vtx)) o = some coin -> Restorable coin := by
    intro o ho coin hcoin
    rw [← hinputs] at ho
    rcases h.restorable_input hunspent ho with ⟨_, hother, hrestorable⟩
    cases hcoin.symm.trans hother
    exact hrestorable
  rcases restoreAllInputs_over vtx undo.vtxundo true hc h.regular hrecords hgood with
    ⟨clean₁, c₁, hrestore, hc₁, hclean₁⟩
  rcases removeAllOutputs_over clean₁ hc₁ h.txids with ⟨fClean, c₂, hremove, hc₂, hclean⟩
  rw [← hinputs, undone_eq_patch h] at hc₂
  have hlength : undo.vtxundo.length = vtx.length := hrecords.length_eq.symm
  refine ⟨if fClean then .OK else .UNCLEAN,
    c₂.setBestBlock block.hashPrevBlock, ?_, ?_, hc₂.setBestBlock _, ?_⟩
  · simp only [applyBlockUndo, hblock, length_cons, hlength, ne_eq, not_true_eq_false,
      if_false, tail_cons, hrestore, hremove]
  · split <;> decide
  -- all inputs are spent, and all outputs are there once the inputs are restored
  rintro rfl
  rw [hclean, hclean₁ (hinputs ▸ h.inputsOnce), if_pos rfl]
  · intro o ho
    simp [connectedMap, minus, hinputs, ho]
  intro o coin hcoin
  have hplus : plus before (createdCoin nHeight (coinbase :: vtx)) o = some coin := by
    rw [plus, hcoin]
    rfl
  by_cases hin : o ∈ blockInputs vtx
  · simpa [restored, patch, hin] using hplus
  · simpa [restored, patch, hin, connectedMap, minus, hinputs] using hplus

theorem patch_connectedMap (before : UtxoMap) (nHeight : Nat) (vtx : List Transaction) :
    patch (touched nHeight vtx) before (connectedMap before nHeight vtx) = before := by
  funext o
  unfold patch
  split
  · rfl
  · rename_i hnot
    exact connectedMap_of_not_touched (Bool.eq_false_iff.mpr hnot)

/--
Connecting a block in any order of its transactions gives the map with its
outputs added and its inputs taken away, and undoing it from any cache that
shows that map is clean and gives the first map back.
-/
theorem connectBlock_applyBlockUndo_inverse {m : UtxoMap} {nHeight : Nat}
    {coinbase : Transaction} {vtx : List Transaction}
    (h : Connectable m nHeight coinbase vtx) {vtx' : List Transaction}
    (horder : vtx'.Perm vtx) (hashPrevBlock : BlockHash) {c : CoinsViewCache} (hc : c.Shows m) :
    exists undo c', connectBlock
          { hashPrevBlock, vtx := coinbase :: vtx' } nHeight c =
        .ok (undo, c') ∧
      c'.Shows (connectedMap m nHeight (coinbase :: vtx)) ∧
      forall d : CoinsViewCache,
        d.Shows (connectedMap m nHeight (coinbase :: vtx)) ->
        exists d', applyBlockUndo undo
              { hashPrevBlock, vtx := coinbase :: vtx' }
              nHeight d = .ok (.OK, d') ∧ d'.Shows m := by
  have h' := h.perm horder
  rcases connectBlock_shows h' hashPrevBlock hc with ⟨undos, c', hconnect, hc', hrecords⟩
  rw [connectedMap_perm h horder] at hc'
  refine ⟨{ vtxundo := undos }, c', hconnect, hc', ?_⟩
  intro d hd
  rw [← connectedMap_perm h horder] at hd
  rcases @applyBlockUndo_over d _ _ _ _ _ _ h' (fun _ _ => hc.unspent) { vtxundo := undos }
    { hashPrevBlock, vtx := coinbase :: vtx' } rfl hrecords
    { top := hd, base := rfl } with ⟨res, d', hundo, -, hd', hclean⟩
  rw [hclean rfl] at hundo
  rw [patch_connectedMap] at hd'
  exact ⟨d', hundo, hd'.top⟩

/-!
A block whose second transaction spends an output of the third, which spends
the only coin of the map.
-/

def fundingOutPoint : OutPoint := { txid := 1, n := 0 }

def fundingCoin : Coin :=
  Coin.ofOutput { nValue := 50, scriptPubKey := [0x51] } 1 false

def fundedMap : UtxoMap := setCoin (fun _ => none) fundingOutPoint (some fundingCoin)

def fundedCache : CoinsViewCache :=
  CoinsViewCache.new (.backing (AList.insert fundingOutPoint fundingCoin ∅) 0)

def rewardTx : Transaction :=
  { txid := 10
    vin := [{ prevout := { txid := 0, n := OutPoint.NULL_INDEX } }]
    vout := [{ nValue := 25, scriptPubKey := [0x51] }] }

def childTx : Transaction :=
  { txid := 11
    vin := [{ prevout := { txid := 12, n := 0 } }]
    vout := [{ nValue := 40, scriptPubKey := [0x51] },
      { nValue := 0, scriptPubKey := [Script.OP_RETURN] }] }

def parentTx : Transaction :=
  { txid := 12
    vin := [{ prevout := fundingOutPoint }]
    vout := [{ nValue := 45, scriptPubKey := [0x51] }] }

theorem fundedMap_eq_some (h : fundedMap o = some coin) : coin = fundingCoin := by
  unfold fundedMap setCoin at h
  split at h
  · exact (Option.some.inj h).symm
  · cases h

theorem fundedCache_shows : fundedCache.Shows fundedMap := by
  have hlook : forall o : OutPoint, (AList.insert fundingOutPoint fundingCoin ∅ :
        AList fun _ : OutPoint => Coin).lookup o = fundedMap o := by
    intro o
    unfold fundedMap
    by_cases ho : o = fundingOutPoint
    · rw [ho, AList.lookup_insert, setCoin_self]
    · rw [AList.lookup_insert_ne ho, AList.lookup_empty, setCoin_ne _ _ ho]
  refine ⟨(CoinsViewCache.new_shows ?_).wellFormed, funext hlook⟩
  intro o coin hcoin
  rw [hlook] at hcoin
  rw [fundedMap_eq_some hcoin]
  rfl

theorem connectable_chained : Connectable fundedMap 2 rewardTx [parentTx, childTx] := by
  refine
    { height := by decide
      first := by decide
      regular := by decide
      outputs := by decide
      txids := by decide
      fresh := ?_
      heights := ?_
      inputsOnce := by decide
      inputsSpendable := ?_ }
  · intro tx htx n
    apply setCoin_ne
    intro h
    have htxids : forall tx', tx' ∈ [rewardTx, parentTx, childTx] -> tx'.txid ≠ 1 := by decide
    exact htxids tx htx (congrArg OutPoint.txid h)
  · intro o coin hcoin
    rw [fundedMap_eq_some hcoin]
    decide
  · intro o _
    have hcases : o = fundingOutPoint ∨ o = { txid := 12, n := 0 } := by
      revert o
      decide
    rcases hcases with rfl | rfl
    · exact .inl ⟨fundingCoin, setCoin_self _ _ _, by decide⟩
    · exact .inr ⟨parentTx, by decide, rfl, _, rfl, by decide⟩

theorem connectBlock_applyBlockUndo_inverse_chained :
    exists undo c', connectBlock
          { hashPrevBlock := 7, vtx := [rewardTx, childTx, parentTx] } 2
          fundedCache = .ok (undo, c') ∧
      c'.Shows (connectedMap fundedMap 2 [rewardTx, parentTx, childTx]) ∧
      forall d : CoinsViewCache,
        d.Shows (connectedMap fundedMap 2 [rewardTx, parentTx, childTx]) ->
        exists d', applyBlockUndo undo
              { hashPrevBlock := 7, vtx := [rewardTx, childTx, parentTx] } 2 d =
            .ok (.OK, d') ∧ d'.Shows fundedMap :=
  connectBlock_applyBlockUndo_inverse connectable_chained
    (Perm.swap parentTx childTx []) 7 fundedCache_shows

end ECash.Coins
