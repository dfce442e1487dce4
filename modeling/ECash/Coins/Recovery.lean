import ECash.Coins.BlockInverse
import ECash.Coins.Flush
import ECash.Coins.Replay

/-!
# Recovery from an interrupted flush

Undoing or redoing a block on any map gives the outpoints it touches the state they had
before or after it, and leaves the others alone.  So a view that is a mixture of the maps
at a block and at the new tip stays one along both branches, and at the new tip it is the
map of the new tip.
-/

namespace ECash.Coins

open Foundation Validation List

/-!
## One block on any map
-/

variable {before below m : UtxoMap} {nHeight : Nat} {coinbase : Transaction}
  {vtx : List Transaction} {c : CoinsViewCache}

theorem rollforwardAdd_over (hc : ShowsOver below c m)
    (hvalid : forall tx, tx ∈ vtx -> forall out, out ∈ tx.vout -> out.isNull = false)
    (hnodup : (vtx.map Transaction.txid).Nodup) :
    exists c', rollforwardAdd nHeight vtx c = .ok c' ∧
      ShowsOver below c' (plus m (createdCoin nHeight vtx)) := by
  induction vtx generalizing c m with
  | nil => exact ⟨c, rfl, hc⟩
  | cons tx vtx ih =>
    rcases @addCoinsFrom_over _ m _ tx.txid tx.isCoinBase nHeight 0 tx.vout true hc
      (hvalid tx mem_cons_self) nofun with ⟨_, hadd, hc₁⟩
    rcases ih hc₁ (forall_mem_cons.mp hvalid).2 (nodup_cons.mp hnodup).right with ⟨c', hrest, hc'⟩
    refine ⟨c', ?_, ?_⟩
    · simp only [rollforwardAdd, addCoins, hadd]
      exact hrest
    · rw [← plus_createdCoin_cons hnodup]
      exact hc'

theorem spendPrevouts_over (vin : List TxIn) (hc : ShowsOver below c m) :
    ShowsOver below (spendPrevouts vin c) (minus m (prevouts vin)) := by
  induction vin generalizing c m with
  | nil => exact hc
  | cons txin vin ih =>
    rcases hc.spendCoin txin.prevout with ⟨_, _, hspend, hc₁, -⟩
    have hrest := ih hc₁
    rw [minus_cons] at hrest
    simp only [spendPrevouts, hspend]
    exact hrest

theorem rollforwardSpend_over (vtx : List Transaction) (hc : ShowsOver below c m) :
    ShowsOver below (rollforwardSpend vtx c) (minus m (blockInputs vtx)) := by
  induction vtx generalizing c m with
  | nil => exact hc
  | cons tx vtx ih =>
    unfold rollforwardSpend
    cases htx : tx.isCoinBase with
    | true =>
      rw [blockInputs_cons_coinbase htx]
      exact ih hc
    | false =>
      rw [blockInputs_cons_regular htx, ← minus_append]
      exact ih (spendPrevouts_over tx.vin hc)

theorem redone_eq_patch :
    minus (plus m (createdCoin nHeight vtx)) (blockInputs vtx) =
      patch (touched nHeight vtx) (connectedMap before nHeight vtx) m := by
  funext o
  unfold patch touched connectedMap minus plus
  by_cases hin : o ∈ blockInputs vtx
  · simp [hin]
  · cases hcreated : createdCoin nHeight vtx o <;> simp [hin]

/-!
## The history of a tree
-/

/-- The block connects over one map, with this undo data and another map as a result. -/
def Connects (before : UtxoMap) (nHeight : Nat) (block : Block) (undo : BlockUndo)
    (after : UtxoMap) : Prop :=
  exists coinbase vtx, block.vtx = coinbase :: vtx ∧ Connectable before nHeight coinbase vtx ∧
    exists c c', c.Shows before ∧ connectBlock block nHeight c = .ok (undo, c') ∧ c'.Shows after

section Connection

variable {before after : UtxoMap} {nHeight : Nat} {block : Block} {undo : BlockUndo}
  (h : Connects before nHeight block undo after)

include h

theorem Connects.unspent : forall o coin, after o = some coin -> coin.isSpent = false := by
  intro o coin hcoin
  rcases h with ⟨_, _, _, _, _, _, _, _, hafter⟩
  exact hafter.unspent hcoin

/-- A connection has one outcome, so any way to compute it tells what was recorded. -/
theorem Connects.elim :
    exists coinbase vtx, block.vtx = coinbase :: vtx ∧
      Connectable before nHeight coinbase vtx ∧
      (forall o coin, before o = some coin -> coin.isSpent = false) ∧
      RecordsAll (plus before (createdCoin nHeight (coinbase :: vtx))) vtx undo.vtxundo ∧
      after = connectedMap before nHeight (coinbase :: vtx) := by
  rcases h with ⟨coinbase, vtx, hvtx, hconnectable, _, _, hc, hconnect, hafter⟩
  rcases connectBlock_shows hconnectable block.hashPrevBlock hc with
    ⟨undos, c'', hconnect', hafter', hrecords⟩
  have hblock : { hashPrevBlock := block.hashPrevBlock, vtx := coinbase :: vtx } = block :=
    congrArg (Block.mk block.hashPrevBlock) hvtx.symm
  rw [hblock, hconnect] at hconnect'
  cases hconnect'
  refine ⟨coinbase, vtx, hvtx, hconnectable, fun _ _ => hc.unspent, hrecords, ?_⟩
  rw [← hafter.view, hafter'.view]

end Connection

/-- The contents of the blocks of a tree, with the undo data and the coins after each. -/
structure BlockHistory where
  block : Ptr -> Block
  undo : Ptr -> BlockUndo
  utxo : Ptr -> UtxoMap

variable {p prev fork : Ptr} {below m : UtxoMap} {c : CoinsViewCache}

section History

variable (tree : BlockTree) (history : BlockHistory)

/-- Every block up to a tip connects over its parent; the root has no coins. -/
structure ValidUpTo (tip : Ptr) : Prop where
  genesis : forall {p}, tree.Ancestor p tip -> tree.pprev p = none -> history.utxo p = fun _ => none
  connects : forall {p prev}, tree.Ancestor p tip -> tree.pprev p = some prev ->
    Connects (history.utxo prev) (tree.nHeight p) (history.block p) (history.undo p)
      (history.utxo p)

variable {tree history} {tip : Ptr}

theorem ValidUpTo.unspent (h : ValidUpTo tree history tip) (hp : tree.Ancestor p tip) :
    forall o coin, history.utxo p o = some coin -> coin.isSpent = false := by
  cases hprev : tree.pprev p with
  | some prev => exact (h.connects hp hprev).unspent
  | none =>
    intro o coin hcoin
    rw [h.genesis hp hprev] at hcoin
    cases hcoin

/-!
## The two branches

The view is at every step a mixture of the maps at the current block and at the new tip.
-/

variable {store : BlockStorage} {new : Ptr}

theorem rollbackBlock_over (hvalid : ValidUpTo tree history tip)
    (hp : tree.Ancestor p tip) (hprev : tree.pprev p = some prev)
    (hread : store.readBlockFromDisk p = some (history.block p))
    (hundo : store.undoReadFromDisk p = some (history.undo p)) (hc : ShowsOver below c m)
    (hm : Mixture (history.utxo p) (history.utxo new) m) :
    exists c' m', rollbackBlock tree store p c = .ok c' ∧ ShowsOver below c' m' ∧
      Mixture (history.utxo prev) (history.utxo new) m' := by
  rcases (hvalid.connects hp hprev).elim with
    ⟨coinbase, vtx, hvtx, hconnectable, hunspent, hrecords, hafter⟩
  rcases applyBlockUndo_over hconnectable hunspent hvtx hrecords hc with
    ⟨res, c', happly, hres, hc', -⟩
  refine ⟨c', _, ?_, hc', ?_⟩
  · simp only [rollbackBlock, if_pos (show tree.nHeight p > 0 from hconnectable.height), hread,
      disconnectBlock, hundo, happly]
  · rw [hafter] at hm
    exact hm.patch fun o ho => connectedMap_of_not_touched ho

theorem rollbackLoop_over {rounds : Nat} (hvalid : ValidUpTo tree history tip)
    (hp : tree.Ancestor p tip) (hfork : tree.Ancestor fork p) (hrounds : tree.depth p < rounds)
    (hstored : forall q, tree.Ancestor q tip -> tree.depth fork < tree.depth q ->
      store.readBlockFromDisk q = some (history.block q) ∧
        store.undoReadFromDisk q = some (history.undo q)) (hc : ShowsOver below c m)
    (hm : Mixture (history.utxo p) (history.utxo new) m) :
    exists c' m', rollbackLoop tree store (some fork) rounds (some p) c = .ok c' ∧
      ShowsOver below c' m' ∧ Mixture (history.utxo fork) (history.utxo new) m' := by
  induction rounds generalizing p c m with
  | zero => exact absurd hrounds (Nat.not_lt_zero _)
  | succ rounds ih =>
    unfold rollbackLoop
    by_cases heq : p = fork
    · subst heq
      rw [if_pos rfl]
      exact ⟨c, m, rfl, hc, hm⟩
    rw [if_neg (fun h => heq (Option.some.inj h))]
    have habove : tree.depth fork < tree.depth p :=
      Nat.lt_of_le_of_ne hfork.depth_le fun hdepth =>
        heq (hfork.eq_of_depth (Nat.le_of_eq hdepth.symm)).symm
    rcases Forest.exists_parent (Nat.lt_of_le_of_lt (Nat.zero_le _) habove) with ⟨prev, hprev⟩
    have hdepth := tree.depth_parent hprev
    rcases hstored p hp habove with ⟨hread, hundo⟩
    rcases rollbackBlock_over hvalid hp hprev hread hundo hc hm with ⟨_, _, hblock, hc₁, hm₁⟩
    simp only [hblock]
    rw [show tree.pprev p = some prev from hprev]
    exact ih ((Forest.ancestor_of_parent hprev).trans hp)
      (hfork.of_ne (Ne.symm heq) hprev) (by omega) hc₁ hm₁

theorem rollforwardBlock_over (hvalid : ValidUpTo tree history new) (hp : tree.Ancestor p new)
    (hprev : tree.pprev p = some prev)
    (hread : store.readBlockFromDisk p = some (history.block p)) (hc : ShowsOver below c m)
    (hm : Mixture (history.utxo prev) (history.utxo new) m) :
    exists c' m', rollforwardBlock tree store p c = .ok c' ∧ ShowsOver below c' m' ∧
      Mixture (history.utxo p) (history.utxo new) m' := by
  rcases (hvalid.connects hp hprev).elim with
    ⟨coinbase, vtx, hvtx, hconnectable, hunspent, hrecords, hafter⟩
  rcases rollforwardAdd_over hc hconnectable.unspentOutputs hconnectable.txids with ⟨_, hadd, hc'⟩
  have hc' := rollforwardSpend_over (coinbase :: vtx) hc'
  rw [redone_eq_patch, ← hafter] at hc'
  refine ⟨_, _, ?_, hc', ?_⟩
  · simp only [rollforwardBlock, hread, hvtx]
    rw [hadd]
  · apply hm.patch
    intro o ho
    rw [hafter]
    exact (connectedMap_of_not_touched ho).symm

theorem rollforwardLoop_over {left : Nat} (hvalid : ValidUpTo tree history new)
    (hp : tree.Ancestor p new) (hleft : tree.depth p + left = tree.depth new)
    (hstored : forall q, tree.Ancestor q new -> tree.depth p < tree.depth q ->
      store.readBlockFromDisk q = some (history.block q)) (hc : ShowsOver below c m)
    (hm : Mixture (history.utxo p) (history.utxo new) m) :
    exists c', rollforwardLoop tree store new left (tree.depth p + 1) c = .ok c' ∧
      ShowsOver below c' (history.utxo new) := by
  induction left generalizing p c m with
  | zero =>
    rw [hp.eq_of_depth (Nat.le_of_eq hleft.symm)] at hm
    rw [hm.eq] at hc
    exact ⟨c, rfl, hc⟩
  | succ left ih =>
    have hle : tree.depth p + 1 ≤ tree.nHeight new := by
      show tree.depth p + 1 ≤ tree.depth new
      omega
    rcases tree.getAncestor_spec hle with ⟨q, hget, hq, hheight⟩
    have hdepth : tree.depth q = tree.depth p + 1 := hheight
    rcases Forest.exists_parent (show 0 < tree.depth q by omega) with ⟨prev, hprev⟩
    have hprevdepth := tree.depth_parent hprev
    have hsame : prev = p := ((Forest.ancestor_of_parent hprev).trans hq).unique hp (by omega)
    rw [hsame] at hprev
    rcases rollforwardBlock_over hvalid hq hprev (hstored q hq (by omega)) hc hm with
      ⟨c₁, m₁, hblock, hc₁, hm₁⟩
    rcases ih hq (by omega) (fun r hr _ => hstored r hr (by omega)) hc₁ hm₁ with ⟨c', hloop, hc'⟩
    refine ⟨c', ?_, hc'⟩
    rw [hdepth] at hloop
    simp only [rollforwardLoop]
    rw [show tree.getAncestor new ((tree.depth p + 1 : Nat) : Int) = some q from hget]
    simp only [hblock]
    exact hloop

end History

/-!
## The interrupted flush
-/

/-- The coins and the hash of a tip; before the first flush there is none. -/
def tipCoins (history : BlockHistory) : Option Ptr -> UtxoMap
  | none => fun _ => none
  | some p => history.utxo p

def tipHash (store : BlockStorage) : Option Ptr -> BlockHash
  | none => 0
  | some p => store.hash p

section Flush

variable (tree : BlockTree) (store : BlockStorage) (history : BlockHistory)
  (old : Option Ptr) (new : Ptr)

/-- Two tips of a valid tree, with the data of the two branches on disk. -/
structure ReplaySetting : Prop where
  validNew : ValidUpTo tree history new
  validOld : forall {p}, old = some p -> ValidUpTo tree history p
  common : forall {p}, old = some p -> exists a, tree.Ancestor a p ∧ tree.Ancestor a new
  lookupNew : store.lookup (store.hash new) = some new
  lookupOld : forall {p}, old = some p -> store.lookup (store.hash p) = some p
  hashNew : store.hash new ≠ 0
  hashOld : forall {p}, old = some p -> store.hash p ≠ 0
  storedOld : forall {p q}, old = some p -> tree.Ancestor q p -> ¬ tree.Ancestor q new ->
    store.readBlockFromDisk q = some (history.block q) ∧
      store.undoReadFromDisk q = some (history.undo q)
  storedNew : forall {q}, tree.Ancestor q new -> 0 < tree.depth q ->
    (forall {p}, old = some p -> ¬ tree.Ancestor q p) ->
      store.readBlockFromDisk q = some (history.block q)

/-- An interrupted flush has written any part of the changes between the two tips. -/
structure Between (db : CoinsViewDB) : Prop where
  coins : Mixture (tipCoins history old) (history.utxo new) (fun o => db.coins.lookup o)
  bestBlock : db.bestBlock = 0
  headBlocks : db.headBlocks = [store.hash new, tipHash store old]

structure Finished (db : CoinsViewDB) : Prop where
  coins : (fun o => db.coins.lookup o) = history.utxo new
  bestBlock : db.bestBlock = store.hash new
  headBlocks : db.headBlocks = []

variable {tree store history old new} {db : CoinsViewDB}

theorem replayBranches_first (h : ReplaySetting tree store history none new)
    (hc : ShowsOver below c m) (hm : Mixture (fun _ => none) (history.utxo new) m) :
    exists c', replayBranches tree store none none new c =
        .ok (c'.setBestBlock (store.hash new)) ∧ ShowsOver below c' (history.utxo new) := by
  rcases tree.getAncestor_spec (Nat.zero_le (tree.nHeight new)) with ⟨root, -, hroot, hheight⟩
  have hdepth : tree.depth root = 0 := hheight
  have hnone : tree.pprev root = none := by
    cases hprev : tree.pprev root with
    | none => rfl
    | some prev => cases hdepth.symm.trans (tree.depth_parent hprev)
  rw [← h.validNew.genesis hroot hnone] at hm
  rcases rollforwardLoop_over h.validNew hroot
    (show tree.depth root + tree.depth new = tree.depth new by omega)
    (fun q hq _ => h.storedNew hq (by omega) nofun) hc hm
    with ⟨c', hloop, hc'⟩
  rw [hdepth] at hloop
  refine ⟨c', ?_, hc'⟩
  show (rollforwardLoop tree store new (tree.depth new) (0 + 1) c >>= _) = _
  rw [hloop]
  rfl

theorem replayBranches_fork (h : ReplaySetting tree store history (some p) new)
    (hfork : tree.IsLastCommon p new fork) (hc : ShowsOver below c m)
    (hm : Mixture (history.utxo p) (history.utxo new) m) :
    exists c', replayBranches tree store (some p) (some fork) new c =
        .ok (c'.setBestBlock (store.hash new)) ∧ ShowsOver below c' (history.utxo new) := by
  -- A block above the fork is on one of the branches only.
  have hsplit : forall {q}, tree.depth fork < tree.depth q ->
      ¬ (tree.Ancestor q p ∧ tree.Ancestor q new) := by
    intro q hlt hboth
    have hle := (hfork.last hboth.left hboth.right).depth_le
    omega
  rcases rollbackLoop_over (h.validOld rfl) (Forest.ancestor_refl p) hfork.left
    (Nat.lt_succ_self (tree.depth p))
    (fun q hq hlt => h.storedOld rfl hq (fun hnew => hsplit hlt ⟨hq, hnew⟩)) hc hm with
    ⟨c₁, m₁, hback, hc₁, hm₁⟩
  have hle := hfork.right.depth_le
  rcases rollforwardLoop_over h.validNew hfork.right
    (show tree.depth fork + (tree.depth new - tree.depth fork) = tree.depth new by omega)
    (fun q hq hlt => h.storedNew hq (by omega)
      (fun heq hold => hsplit hlt ⟨Option.some.inj heq ▸ hold, hq⟩)) hc₁ hm₁ with
    ⟨c', hforward, hc'⟩
  refine ⟨c', ?_, hc'⟩
  simp only [replayBranches, nForkHeight, rollbackRounds]
  rw [hback]
  show (rollforwardLoop tree store new (tree.depth new - tree.depth fork) (tree.depth fork + 1)
    c₁ >>= _) = _
  rw [hforward]
  rfl

theorem writeEntries_over {coins : AList fun _ : OutPoint => Coin} {after : UtxoMap}
    (hc : ShowsOver (fun o => coins.lookup o) c after) (written : OutPoint -> Bool) :
    exists coins', CoinsViewDB.writeEntries coins
        (c.cacheCoins.entries.filter fun it => written it.1) = .ok coins' ∧
      (fun o => coins'.lookup o) = patch written after (fun o => coins.lookup o) := by
  rcases foldlM_backingWriteEntry
    (NodupKeys.sublist (filter_sublist (p := fun it => written it.1)) c.cacheCoins.nodupKeys)
    coins with ⟨coins', hfold, hlook⟩
  refine ⟨coins', ?_, ?_⟩
  · simp only [CoinsViewDB.writeEntries, hfold]
  have hview : overlay (fun o => coins.lookup o) c.cacheCoins = after := by
    rw [← hc.base, ← c.view_eq_overlay, hc.top.view]
  have hentries := hc.top.wellFormed.entries
  rw [hc.base] at hentries
  funext o
  show coins'.lookup o = if written o then after o else coins.lookup o
  rw [hlook o, applyEntry_filter, applyEntry_mergeBacking hentries, hview]

section Setting

variable (h : ReplaySetting tree store history old new) (hdb : Between store history old new db)

include h hdb

theorem Between.unspent : forall o coin, db.coins.lookup o = some coin -> coin.isSpent = false := by
  intro o coin hcoin
  rcases hdb.coins o with hold | hnew
  · cases old with
    | none => cases hold.symm.trans hcoin
    | some p =>
      exact (h.validOld rfl).unspent (Forest.ancestor_refl p) o coin (hold.symm.trans hcoin)
  · exact h.validNew.unspent (Forest.ancestor_refl new) o coin (hnew.symm.trans hcoin)

theorem Between.start :
    ShowsOver (fun o => db.coins.lookup o) (CoinsViewCache.new db.toView)
      (fun o => db.coins.lookup o) where
  top := CoinsViewCache.new_shows (hdb.unspent h)
  base := rfl

theorem Between.replayCache :
    exists c, replayCache tree store db =
        .ok (some (c.setBestBlock (store.hash new))) ∧
      ShowsOver (fun o => db.coins.lookup o) c (history.utxo new) := by
  have hstart := hdb.start h
  have hcoins := hdb.coins
  unfold Coins.replayCache
  rw [hdb.headBlocks]
  simp only [h.lookupNew]
  cases old with
  | none =>
    rcases replayBranches_first h hstart hcoins with ⟨c, hbranches, hc⟩
    refine ⟨c, ?_, hc⟩
    simp only [replayStart, tipHash, if_true, Except.bind, bind, hbranches]
  | some p =>
    rcases tree.lastCommonAncestor_spec (h.common rfl) with ⟨_, hlast, hfork⟩
    rcases replayBranches_fork h hfork hstart hcoins with ⟨c, hbranches, hc⟩
    refine ⟨c, ?_, hc⟩
    simp only [replayStart, tipHash, if_neg (h.hashOld rfl), h.lookupOld rfl, hlast,
      Except.bind, bind, hbranches]

theorem Between.oldTip : db.oldTip (store.hash new) = .ok (tipHash store old) := by
  simp [CoinsViewDB.oldTip, h.hashNew, hdb.bestBlock, hdb.headBlocks]

theorem Between.partialWrite (hc : ShowsOver (fun o => db.coins.lookup o) c (history.utxo new))
    (written : OutPoint -> Bool) :
    exists crashed, db.partialWrite c.cacheCoins (store.hash new) written =
        .ok crashed ∧ Between store history old new crashed := by
  rcases writeEntries_over hc written with ⟨coins, hwrite, hcoins⟩
  refine ⟨{ coins, bestBlock := 0, headBlocks := [store.hash new, tipHash store old] }, ?_,
    ?_, rfl, rfl⟩
  · simp only [CoinsViewDB.partialWrite, hdb.oldTip h, hwrite, Except.bind, bind]
  apply hdb.coins.trans
  intro o
  show coins.lookup o = _ ∨ coins.lookup o = _
  rw [show coins.lookup o = _ from congrFun hcoins o]
  unfold patch
  split
  · exact .inr rfl
  · exact .inl rfl

theorem Between.batchWrite (hc : ShowsOver (fun o => db.coins.lookup o) c (history.utxo new)) :
    exists done, db.batchWrite c.cacheCoins (store.hash new) = .ok done ∧
      Finished store history new done := by
  rcases writeEntries_over hc (fun _ => true) with ⟨coins, hwrite, hcoins⟩
  rw [filter_true] at hwrite
  refine ⟨{ coins, bestBlock := store.hash new, headBlocks := [] }, ?_, hcoins, rfl, rfl⟩
  simp only [CoinsViewDB.batchWrite, hdb.oldTip h, hwrite, Except.bind, bind]

/-!
## Recovery
-/

theorem Between.replayBlocks :
    exists done, replayBlocks tree store db = .ok done ∧ Finished store history new done := by
  rcases hdb.replayCache h with ⟨_, hcache, hc⟩
  rcases hdb.batchWrite h hc with ⟨done, hwrite, hdone⟩
  refine ⟨done, ?_, hdone⟩
  simp only [Coins.replayBlocks, hcache, Except.bind, bind]
  exact hwrite

end Setting

theorem Finished.replayBlocks (hdb : Finished store history new db) :
    Coins.replayBlocks tree store db = .ok db := by
  simp only [Coins.replayBlocks, Coins.replayCache, hdb.headBlocks, Except.bind, bind]

/-- An interrupted replay leaves the database between the same tips, or is done. -/
theorem Interrupts.step (h : ReplaySetting tree store history old new)
    (hdb : Between store history old new db ∨ Finished store history new db)
    {crashed : CoinsViewDB} (hstep : Interrupts tree store db crashed) :
    Between store history old new crashed ∨ Finished store history new crashed := by
  rcases hstep with ⟨_, hcache, hwrite⟩
  rcases hdb with hdb | hdb
  · rcases hdb.replayCache h with ⟨c, hreplay, hc⟩
    rw [hreplay] at hcache
    cases hcache
    rcases hwrite with ⟨written, hpart⟩ | hfull
    · rcases hdb.partialWrite h hc written with ⟨crashed', hpart', hbetween⟩
      cases hpart'.symm.trans hpart
      exact .inl hbetween
    · rcases hdb.batchWrite h hc with ⟨done, hfull', hdone⟩
      cases hfull'.symm.trans hfull
      exact .inr hdone
  · simp [Coins.replayCache, hdb.headBlocks] at hcache

/--
From every database between the old and the new tip, and after any number of interrupted
replays from there, a replay succeeds and leaves the coins of the new tip.
-/
theorem replayBlocks_recovers (h : ReplaySetting tree store history old new)
    (hdb : Between store history old new db) {crashed : CoinsViewDB}
    (hruns : Relation.ReflTransGen (Interrupts tree store) db crashed) :
    exists done, replayBlocks tree store crashed = .ok done ∧ Finished store history new done := by
  have hcrashed : Between store history old new crashed ∨ Finished store history new crashed := by
    induction hruns with
    | refl => exact .inl hdb
    | tail _ hstep ih => exact Interrupts.step h ih hstep
  rcases hcrashed with hbetween | hfinished
  · exact hbetween.replayBlocks h
  · exact ⟨crashed, hfinished.replayBlocks, hfinished⟩

/-!
Two blocks over the genesis block, each with a reward only.  The flush from one to the
other has deleted the old reward and not yet written the new one.
-/

def rivalReward (txid : TxId) : Transaction :=
  { txid
    vin := [{ prevout := { txid := 0, n := OutPoint.NULL_INDEX } }]
    vout := [{ nValue := 25, scriptPubKey := [0x51] }] }

def rivalTree : BlockTree where
  parent
    | 1 => some 0
    | 2 => some 0
    | _ => none
  depth
    | 1 => 1
    | 2 => 1
    | _ => 0
  depth_parent := by
    intro x y h
    split at h <;> cases h <;> rfl
  depth_root := by
    intro x h
    split at h <;> cases h
    rfl
  pskip := fun _ => none
  nChainWork := fun p => p
  nSequenceId := fun _ => 0
  nChainTx := fun _ => 1
  pskip_spec := nofun

def rivalBlock (p : Ptr) : Block :=
  { hashPrevBlock := 100, vtx := [rivalReward p] }

def rivalHistory : BlockHistory where
  block := rivalBlock
  undo := fun _ => { vtxundo := [] }
  utxo := fun p =>
    if rivalTree.pprev p = none then fun _ => none
    else connectedMap (fun _ => none) 1 [rivalReward p]

def rivalStore : BlockStorage where
  hash := fun p => p + 100
  lookup := fun hash => some (hash - 100)
  readBlockFromDisk := fun p => some (rivalBlock p)
  undoReadFromDisk := fun _ => some { vtxundo := [] }

theorem connectable_rivalReward (txid : TxId) :
    Connectable (fun _ => none) 1 (rivalReward txid) [] where
  height := Nat.one_pos
  first := rfl
  regular := nofun
  outputs := by
    intro tx htx out hout
    rw [mem_singleton.mp htx] at hout
    rw [mem_singleton.mp hout]
    decide
  txids := nodup_singleton _
  fresh := fun _ _ _ => rfl
  heights := nofun
  inputsOnce := nodup_nil
  inputsSpendable := nofun

theorem connects_rivalBlock (p : Ptr) :
    Connects (fun _ => none) 1 (rivalBlock p) { vtxundo := [] }
      (connectedMap (fun _ => none) 1 [rivalReward p]) := by
  have hempty : (CoinsViewCache.new (.backing ∅ 0)).Shows fun _ => none :=
    CoinsViewCache.new_shows nofun
  rcases connectBlock_shows (connectable_rivalReward p) 100 hempty with
    ⟨undos, c', hconnect, hc', hrecords⟩
  have hundos : undos = [] := length_eq_zero_iff.mp hrecords.length_eq.symm
  rw [hundos] at hconnect
  exact ⟨rivalReward p, [], rfl, connectable_rivalReward p, _, c', hempty, hconnect, hc'⟩

theorem valid_rivalHistory (tip : Ptr) : ValidUpTo rivalTree rivalHistory tip where
  genesis := fun _ hprev => if_pos hprev
  connects := by
    intro p prev _ hprev
    have hparent : prev = 0 ∧ rivalTree.nHeight p = 1 := by
      unfold rivalTree BlockTree.pprev at hprev
      dsimp only at hprev
      split at hprev <;> cases hprev <;> exact ⟨rfl, rfl⟩
    have hroot : rivalHistory.utxo prev = fun _ => none := by
      rw [hparent.left]
      rfl
    have hblock : rivalHistory.utxo p = connectedMap (fun _ => none) 1 [rivalReward p] :=
      if_neg (by simp [hprev])
    rw [hroot, hblock, hparent.right]
    exact connects_rivalBlock p

theorem txid_of_rivalCoins {o : OutPoint} {coin : Coin}
    (h : connectedMap (fun _ => none) 1 [rivalReward p] o = some coin) : o.txid = p := by
  simp only [connectedMap, minus, plus] at h
  split at h
  · cases h
  cases hcreated : createdCoin 1 [rivalReward p] o with
  | none =>
    rw [hcreated] at h
    cases h
  | some created =>
    rcases exists_of_createdCoin hcreated with ⟨_, hmem, htx⟩
    rw [txid_of_outputCoin htx, mem_singleton.mp hmem]
    rfl

theorem replayBlocks_recovers_rivals :
    exists done, replayBlocks rivalTree rivalStore
        { coins := ∅, bestBlock := 0, headBlocks := [102, 101] } = .ok done ∧
      Finished rivalStore rivalHistory 2 done := by
  have hsetting : ReplaySetting rivalTree rivalStore rivalHistory (some 1) 2 :=
    { validNew := valid_rivalHistory 2
      validOld := fun _ => valid_rivalHistory _
      common := by
        rintro p ⟨⟩
        exact ⟨0, Forest.ancestor_of_parent rfl, Forest.ancestor_of_parent rfl⟩
      lookupNew := rfl
      lookupOld := fun _ => rfl
      hashNew := by decide
      hashOld := fun _ => Nat.succ_ne_zero _
      storedOld := fun _ _ _ => ⟨rfl, rfl⟩
      storedNew := fun _ _ _ => rfl }
  refine replayBlocks_recovers hsetting ?_ Relation.ReflTransGen.refl
  refine { coins := ?_, bestBlock := rfl, headBlocks := rfl }
  intro o
  cases hold : rivalHistory.utxo 1 o with
  | none => exact .inl hold.symm
  | some coin =>
    cases hnew : rivalHistory.utxo 2 o with
    | none => exact .inr rfl
    | some other => cases (txid_of_rivalCoins hold).symm.trans (txid_of_rivalCoins hnew)

end Flush

end ECash.Coins
