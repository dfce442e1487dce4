import Mathlib
import ECash.Validation.BestChain

/-!
# Resynchronizing the index

At startup the index is brought back to a block of the node's active chain, and the
node's blocks above it are connected.  The rewind goes from the block below the tip of
the index down to the fork; the tip itself stays in the index.
-/

namespace ECash.Index

open Foundation Validation List
open Chainstate (forkTree)

/-!
## The block table
-/

abbrev BlockHash := Nat

/-- `BlockHeight::MAX`; heights are signed 32-bit numbers. -/
def maxHeight : Int := 2 ^ 31 - 1

def addHeight (a b : Int) : Int :=
  Int.bmod (a + b) (2 ^ 32)

structure DbBlock where
  hash : BlockHash
  prevHash : BlockHash
  height : Int
deriving DecidableEq

inductive IndexerError where
  | cannotRewindChronik (hash : BlockHash)
  | blocksBelowMissing (missing existing : Int)
  | orphanBlock (height : Int)
  | blockIndexNotFound
  | disconnectBelowLastFinalizedHeight (indexerHeight disconnectedHeight : Int)
  | other
deriving DecidableEq

/-- A row of the block table: a height and the hash of the block there. -/
abbrev Row := Int × BlockHash

def putRow (row : Row) : List Row -> List Row
  | [] => [row]
  | first :: rest =>
    if row.1 < first.1 then row :: first :: rest
    else if row.1 = first.1 then row :: rest
    else first :: putRow row rest

def deleteRow (height : Int) (rows : List Row) : List Row :=
  rows.filter fun row => row.1 != height

/-- The tables of the index: the blocks by height, and all the others. -/
structure Db (tables : Type) where
  blk : List Row
  tables : tables
deriving DecidableEq

variable {tables : Type}

def Db.getPrevHash (db : Db tables) (height : Int) : Except IndexerError BlockHash :=
  if height = 0 then .ok 0
  else
    match db.blk.lookup (height - 1) with
    | none => .error (.orphanBlock height)
    | some hash => .ok hash

def Db.tip (db : Db tables) : Except IndexerError (Option DbBlock) :=
  match db.blk.getLast? with
  | none => .ok none
  | some (height, hash) => do
      let prevHash ← db.getPrevHash height
      .ok (some { hash, prevHash, height })

def Db.byHeight (db : Db tables) (height : Int) :
    Except IndexerError (Option DbBlock) :=
  match db.blk.lookup height with
  | none => .ok none
  | some hash => do
      let prevHash ← db.getPrevHash height
      .ok (some { hash, prevHash, height })

/-!
## Connecting and disconnecting
-/

structure ChronikBlock (body : Type) where
  dbBlock : DbBlock
  contents : body

inductive BlockMsgType where
  | connected
  | disconnected
deriving DecidableEq

structure BlockMsg where
  msgType : BlockMsgType
  hash : BlockHash
  height : Int
deriving DecidableEq

/--
The writers of the tables other than that of the blocks.  The LOKAD ID table is left
alone by a removal if it is going to be written anew.
-/
structure Writers (body tables : Type) where
  insert : ChronikBlock body -> tables -> Except IndexerError tables
  delete : Bool -> ChronikBlock body -> tables -> Except IndexerError tables
  reindexLokadIdIndex : Int -> tables -> Except IndexerError tables

structure Indexer (tables : Type) where
  db : Db tables
  avalanche : Int
  needsLokadIdReindex : Bool
  broadcasts : List BlockMsg
deriving DecidableEq

/-- `Avalanche::disconnect_block` on the height of the last finalized block. -/
def disconnectFinalized (finalized height : Int) : Except IndexerError Int :=
  if height < finalized then
    .error (.disconnectBelowLastFinalizedHeight finalized height)
  else if finalized = height then .ok (finalized - 1)
  else .ok finalized

section Handlers

variable {body tables : Type} (w : Writers body tables)

def handleBlockConnected (block : ChronikBlock body) (ix : Indexer tables) :
    Except IndexerError (Indexer tables) := do
  let written ← w.insert block ix.db.tables
  .ok
    { ix with
      db :=
        { blk := putRow (block.dbBlock.height, block.dbBlock.hash) ix.db.blk
          tables := written }
      broadcasts := ix.broadcasts ++
        [{ msgType := .connected
           hash := block.dbBlock.hash
           height := block.dbBlock.height }] }

def handleBlockDisconnected (block : ChronikBlock body) (ix : Indexer tables) :
    Except IndexerError (Indexer tables) := do
  let written ← w.delete ix.needsLokadIdReindex block ix.db.tables
  let finalized ← disconnectFinalized ix.avalanche block.dbBlock.height
  .ok
    { ix with
      db :=
        { blk := deleteRow block.dbBlock.height ix.db.blk
          tables := written }
      avalanche := finalized
      broadcasts := ix.broadcasts ++
        [{ msgType := .disconnected
           hash := block.dbBlock.hash
           height := block.dbBlock.height }] }

end Handlers

/-!
## The node
-/

/--
What the indexer sees of the node: its block tree and active chain, the blocks by hash
and on disk, and whether a shutdown is requested at a height of the two loops.
-/
structure Bridge (tree : BlockTree) (body : Type) where
  chain : CChain tree
  hash : Ptr -> BlockHash
  lookupBlockIndex : BlockHash -> Option Ptr
  loadBlock : Ptr -> Except IndexerError body
  stopsRewind : Int -> Bool
  stopsResync : Int -> Bool
  lookup_hash : forall p, lookupBlockIndex (hash p) = some p
  height_lt : forall p, (tree.nHeight p : Int) < maxHeight

namespace Bridge

variable {tree : BlockTree} {body : Type}

def dbBlock (bridge : Bridge tree body) (p : Ptr) : DbBlock where
  hash := bridge.hash p
  prevHash :=
    match tree.pprev p with
    | none => 0
    | some prev => bridge.hash prev
  height := tree.nHeight p

def loadChronikBlock (bridge : Bridge tree body) (p : Ptr) :
    Except IndexerError (ChronikBlock body) := do
  let contents ← bridge.loadBlock p
  .ok { dbBlock := bridge.dbBlock p, contents }

def row (bridge : Bridge tree body) (p : Ptr) : Row :=
  (tree.nHeight p, bridge.hash p)

def disconnected (bridge : Bridge tree body) (p : Ptr) : BlockMsg where
  msgType := .disconnected
  hash := bridge.hash p
  height := tree.nHeight p

end Bridge

section Resync

variable {tree : BlockTree} {body tables : Type}
variable (w : Writers body tables) (bridge : Bridge tree body)

def rewindBlock (indexerHeight height : Int) (ix : Indexer tables) :
    Except IndexerError (Indexer tables) := do
  match ← ix.db.byHeight height with
  | none => .error (.blocksBelowMissing height indexerHeight)
  | some dbBlock =>
    match bridge.lookupBlockIndex dbBlock.hash with
    | none => .error (.cannotRewindChronik dbBlock.hash)
    | some p => do
        let block ← bridge.loadChronikBlock p
        handleBlockDisconnected w block ix

/-- The loop of the rewind, with the number of heights left; it says whether it was
stopped by a shutdown. -/
def rewindLoop (indexerHeight revertHeight : Int) :
    Nat -> Indexer tables -> Except IndexerError (Bool × Indexer tables)
  | 0, ix => .ok (false, ix)
  | left + 1, ix =>
    if bridge.stopsRewind (revertHeight + left) then .ok (true, ix)
    else do
      let ix ← rewindBlock w bridge indexerHeight (revertHeight + left) ix
      rewindLoop indexerHeight revertHeight left ix

def rewindIndexer (indexerTipIndex : Ptr) (indexerDbTip : DbBlock) (ix : Indexer tables) :
    Except IndexerError (Int × Indexer tables) :=
  match bridge.chain.findFork indexerTipIndex with
  | none => .error (.cannotRewindChronik indexerDbTip.hash)
  | some fork => do
      let indexerHeight := indexerDbTip.height
      let revertHeight := addHeight (tree.nHeight fork) 1
      let (stopped, ix) ← rewindLoop w bridge indexerHeight revertHeight
        (indexerHeight - revertHeight).toNat ix
      -- After a shutdown no block is to be added.
      .ok (if stopped then maxHeight else tree.nHeight fork, ix)

def resyncBlock (nodeTip : Ptr) (height : Int) (ix : Indexer tables) :
    Except IndexerError (Indexer tables) :=
  match tree.getAncestor nodeTip height with
  | none => .error .blockIndexNotFound
  | some p => do
      let block ← bridge.loadChronikBlock p
      handleBlockConnected w block ix

def resyncLoop (nodeTip : Ptr) :
    Nat -> Int -> Indexer tables -> Except IndexerError (Indexer tables)
  | 0, _, ix => .ok ix
  | left + 1, height, ix =>
    if bridge.stopsResync height then .ok ix
    else do
      let ix ← resyncBlock w bridge nodeTip height ix
      resyncLoop nodeTip left (height + 1) ix

/-- The height at which the index agrees with the node, after a rewind if it is
needed. -/
def startHeight (nodeTip : Ptr) (ix : Indexer tables) :
    Except IndexerError (Int × Indexer tables) := do
  match ← ix.db.tip with
  | none => .ok (-1, ix)
  | some tip =>
    if tip.hash = bridge.hash nodeTip then .ok (tip.height, ix)
    else
      match bridge.lookupBlockIndex tip.hash with
      | none => .error (.cannotRewindChronik tip.hash)
      | some tipIndex => rewindIndexer w bridge tipIndex tip ix

def reindexIfNeeded (height : Int) (ix : Indexer tables) :
    Except IndexerError (Indexer tables) :=
  if ix.needsLokadIdReindex then do
    let written ← w.reindexLokadIdIndex height ix.db.tables
    .ok { ix with db := { ix.db with tables := written }, needsLokadIdReindex := false }
  else .ok ix

def resyncIndexer (ix : Indexer tables) : Except IndexerError (Indexer tables) :=
  match bridge.chain.tip with
  | none => do
      match ← ix.db.tip with
      | some tip => .error (.cannotRewindChronik tip.hash)
      | none => .ok ix
  | some nodeTip => do
      let (start, ix) ← startHeight w bridge nodeTip ix
      let ix ← reindexIfNeeded w start ix
      let first := addHeight start 1
      resyncLoop w bridge nodeTip ((tree.nHeight nodeTip : Int) + 1 - first).toNat first ix

def connectBlocks (blocks : List Ptr) (ix : Indexer tables) :
    Except IndexerError (Indexer tables) :=
  blocks.foldlM
    (fun ix p => do
      let block ← bridge.loadChronikBlock p
      handleBlockConnected w block ix)
    ix

end Resync

/-!
## The block table of an index
-/

variable {rows : List Row} {p : Ptr} {blocks : List Ptr} {indexerHeight : Int}
  {tree : BlockTree} {body tables : Type} {w : Writers body tables} {bridge : Bridge tree body}
  {indexed : CChain tree} {fresh ix ix' : Indexer tables}

theorem putRow_of_lt {row : Row} (h : forall r, r ∈ rows -> r.1 < row.1) :
    putRow row rows = rows ++ [row] := by
  induction rows with
  | nil => rfl
  | cons first rest ih =>
    have hfirst := h first mem_cons_self
    unfold putRow
    rw [if_neg (Int.not_lt.mpr (Int.le_of_lt hfirst)), if_neg (Int.ne_of_gt hfirst),
      ih (forall_mem_cons.mp h).2]
    rfl

theorem connect_eq_ok (h : (do
      let block ← bridge.loadChronikBlock p
      handleBlockConnected w block ix) = .ok ix') :
    ix'.db.blk = putRow (bridge.row p) ix.db.blk := by
  rcases bind_eq_ok.mp h with ⟨_, hload, hconnect⟩
  rcases bind_eq_ok.mp hload with ⟨_, _, hblock⟩
  rcases bind_eq_ok.mp hconnect with ⟨_, _, hix⟩
  cases hblock
  cases hix
  rfl

theorem connectBlocks_blk {low : List Ptr} (hlow : ix.db.blk = low.map bridge.row)
    (hheights : forall i p, (low ++ blocks)[i]? = some p -> tree.nHeight p = i)
    (h : connectBlocks w bridge blocks ix = .ok ix') :
    ix'.db.blk = (low ++ blocks).map bridge.row := by
  induction blocks generalizing low ix with
  | nil =>
    cases h
    rw [hlow, append_nil]
  | cons p rest ih =>
    rcases bind_eq_ok.mp h with ⟨next, hnext, hrest⟩
    have hp : tree.nHeight p = low.length := hheights low.length p (by simp)
    have hbelow : forall r, r ∈ low.map bridge.row -> r.1 < (bridge.row p).1 := by
      refine forall_mem_map.mpr fun q hq => ?_
      rcases List.getElem?_of_mem hq with ⟨i, hi⟩
      have hi' := getElem?_lt hi
      have hqheight := hheights i q (getElem?_append_of_some hi _)
      show (tree.nHeight q : Int) < tree.nHeight p
      omega
    have hblk : next.db.blk = (low ++ [p]).map bridge.row := by
      rw [connect_eq_ok hnext, hlow, putRow_of_lt hbelow]
      simp
    have happend : low ++ p :: rest = (low ++ [p]) ++ rest := by simp
    rw [happend] at hheights ⊢
    exact ih hblk hheights hrest

/-- The index was built from nothing by connecting the blocks of a chain. -/
structure BuiltFrom (w : Writers body tables) (bridge : Bridge tree body)
    (indexed : CChain tree) (fresh ix : Indexer tables) : Prop where
  empty : fresh.db.blk = []
  connected : exists built, connectBlocks w bridge indexed.vChain fresh = .ok built ∧
    ix.db = built.db

theorem BuiltFrom.blk (h : BuiltFrom w bridge indexed fresh ix) :
    ix.db.blk = indexed.vChain.map bridge.row := by
  rcases h.connected with ⟨_, hbuilt, hdb⟩
  have hempty : fresh.db.blk = ([] : List Ptr).map bridge.row := h.empty
  rw [hdb]
  exact connectBlocks_blk hempty (fun _ _ hp => indexed.heights hp) hbuilt

theorem BuiltFrom.take (h : BuiltFrom w bridge indexed fresh ix) (n : Nat) :
    exists past, connectBlocks w bridge (indexed.vChain.take n) fresh = .ok past ∧
      past.db.blk = (indexed.vChain.take n).map bridge.row := by
  rcases h.connected with ⟨_, hbuilt, _⟩
  unfold connectBlocks at hbuilt
  rw [← take_append_drop n indexed.vChain, foldlM_append] at hbuilt
  rcases bind_eq_ok.mp hbuilt with ⟨past, hpast, _⟩
  have hempty : fresh.db.blk = ([] : List Ptr).map bridge.row := h.empty
  refine ⟨past, hpast, ?_⟩
  apply connectBlocks_blk hempty _ hpast
  intro i p hp
  rw [nil_append, getElem?_take] at hp
  split at hp
  · exact indexed.heights hp
  · cases hp

theorem row_injective {q : Ptr} (h : bridge.row p = bridge.row q) : p = q := by
  have hhash : bridge.hash p = bridge.hash q := congrArg Prod.snd h
  have hlookup := bridge.lookup_hash p
  rw [hhash, bridge.lookup_hash q] at hlookup
  exact (Option.some.inj hlookup).symm

theorem lookup_rows {i : Nat} (hheights : forall i p, blocks[i]? = some p -> tree.nHeight p = i)
    (hp : blocks[i]? = some p) :
    (blocks.map bridge.row).lookup (i : Int) = some (bridge.hash p) := by
  rcases List.getElem?_eq_some_iff.mp hp with ⟨hi, hat⟩
  rw [List.lookup_eq_some_iff]
  refine ⟨(blocks.take i).map bridge.row, (blocks.drop (i + 1)).map bridge.row, ?_, ?_⟩
  · have hrow : ((i : Int), bridge.hash p) = bridge.row p := by
      rw [Bridge.row, hheights i p hp]
    rw [hrow, ← map_cons, ← map_append, ← hat, ← drop_eq_getElem_cons hi, take_append_drop]
  refine forall_mem_map.mpr fun q hq => ?_
  rcases getElem?_of_mem hq with ⟨j, hj⟩
  rw [getElem?_take] at hj
  split at hj
  · rename_i hlt
    rw [Bridge.row, hheights j q hj, bne_iff_ne]
    exact fun heq => absurd (Int.ofNat.inj heq) (by omega)
  · cases hj

theorem BuiltFrom.tip (h : BuiltFrom w bridge indexed fresh ix) {tip : Ptr}
    (htip : indexed.tip = some tip) : ix.db.tip = .ok (some (bridge.dbBlock tip)) := by
  have hlast : ix.db.blk.getLast? = some (bridge.row tip) := by
    rw [h.blk, getLast?_map]
    exact congrArg (Option.map bridge.row) htip
  have hheights : forall i p, indexed.vChain[i]? = some p -> tree.nHeight p = i :=
    fun _ _ => indexed.heights
  have hprev : ix.db.getPrevHash (tree.nHeight tip) = .ok (bridge.dbBlock tip).prevHash := by
    unfold Db.getPrevHash Bridge.dbBlock
    cases hparent : tree.pprev tip with
    | none =>
      have hzero : tree.nHeight tip = 0 := tree.depth_root hparent
      rw [hzero]
      rfl
    | some prev =>
      have hsucc := tree.nHeight_pprev hparent
      have hin := CChain.contains_pprev (CChain.contains_tip htip) hparent
      rw [if_neg (by omega)]
      have hsub : (tree.nHeight tip : Int) - 1 = (tree.nHeight prev : Nat) := by omega
      rw [hsub, h.blk, lookup_rows hheights ((indexed.contains_iff prev).mp hin)]
  unfold Db.tip
  rw [hlast]
  show (ix.db.getPrevHash (tree.nHeight tip) >>= _) = _
  rw [hprev]
  rfl

/-!
## The rewind
-/

/-- Every row of the table is that of a block of the node. -/
def KnownRows (bridge : Bridge tree body) (rows : List Row) : Prop :=
  forall r, r ∈ rows -> exists p, r = bridge.row p

variable {height : Int}

theorem mem_of_byHeight {db : Db tables} {dbBlock : DbBlock}
    (h : db.byHeight height = .ok (some dbBlock)) :
    (height, dbBlock.hash) ∈ db.blk := by
  unfold Db.byHeight at h
  split at h
  · cases h
  rename_i _ hlookup
  rcases bind_eq_ok.mp h with ⟨_, _, hblock⟩
  cases hblock
  rcases lookup_eq_some_iff.mp hlookup with ⟨_, _, hrows, _⟩
  rw [hrows]
  simp

theorem rewindBlock_blk (hknown : KnownRows bridge ix.db.blk)
    (h : rewindBlock w bridge indexerHeight height ix = .ok ix') :
    ix'.db.blk = deleteRow height ix.db.blk := by
  rcases bind_eq_ok.mp h with ⟨found, hfound, hrest⟩
  cases found with
  | none => cases hrest
  | some dbBlock =>
    simp only at hrest
    split at hrest
    · cases hrest
    rename_i p hlookup
    rcases bind_eq_ok.mp hrest with ⟨_, hload, hdisconnect⟩
    rcases bind_eq_ok.mp hload with ⟨_, _, hblock⟩
    rcases bind_eq_ok.mp hdisconnect with ⟨_, _, hdisconnect⟩
    rcases bind_eq_ok.mp hdisconnect with ⟨_, _, hix⟩
    rcases hknown _ (mem_of_byHeight hfound) with ⟨q, hq⟩
    have hheight : height = (tree.nHeight q : Int) := congrArg Prod.fst hq
    have hhash : dbBlock.hash = bridge.hash q := congrArg Prod.snd hq
    rw [hhash, bridge.lookup_hash q] at hlookup
    cases hlookup
    cases hblock
    cases hix
    rw [hheight]
    rfl

theorem mem_deleteRow {r : Row} :
    r ∈ deleteRow height rows <-> r ∈ rows ∧ r.1 ≠ height := by
  simp [deleteRow]

theorem rewindLoop_keeps {revertHeight : Int} {left : Nat} {stopped : Bool} {r : Row}
    (hknown : KnownRows bridge ix.db.blk) (hr : r ∈ ix.db.blk)
    (habove : revertHeight + left ≤ r.1)
    (h : rewindLoop w bridge indexerHeight revertHeight left ix = .ok (stopped, ix')) :
    r ∈ ix'.db.blk := by
  induction left generalizing ix with
  | zero =>
    cases h
    exact hr
  | succ left ih =>
    unfold rewindLoop at h
    split at h
    · cases h
      exact hr
    rcases bind_eq_ok.mp h with ⟨_, hnext, hrest⟩
    have hblk := rewindBlock_blk hknown hnext
    apply ih _ _ _ hrest
    · intro q hq
      rw [hblk] at hq
      exact hknown q (mem_deleteRow.mp hq).left
    · rw [hblk]
      apply mem_deleteRow.mpr
      constructor
      · exact hr
      · intro _
        omega
    · omega

theorem addHeight_one {h : Nat} (hlt : (h : Int) < maxHeight) :
    addHeight h 1 = (h : Int) + 1 := by
  unfold maxHeight at hlt
  apply Int.bmod_eq_of_le <;> omega

theorem rewindIndexer_keeps_tip {tip fork : Ptr}
    (hknown : KnownRows bridge ix.db.blk) (htip : bridge.row tip ∈ ix.db.blk)
    (hfork : bridge.chain.findFork tip = some fork)
    (hbelow : tree.nHeight fork < tree.nHeight tip)
    (h : rewindIndexer w bridge tip (bridge.dbBlock tip) ix = .ok (height, ix')) :
    bridge.row tip ∈ ix'.db.blk := by
  unfold rewindIndexer at h
  rw [hfork] at h
  rcases bind_eq_ok.mp h with ⟨⟨_, _⟩, hloop, hix⟩
  cases hix
  rw [addHeight_one (bridge.height_lt fork)] at hloop
  apply rewindLoop_keeps hknown htip _ hloop
  show (tree.nHeight fork : Int) + 1 +
    (((tree.nHeight tip : Int) - ((tree.nHeight fork : Int) + 1)).toNat : Nat) ≤ tree.nHeight tip
  omega

theorem rewindIndexer_self {tip : Ptr} (hfork : bridge.chain.findFork tip = some tip)
    (ix : Indexer tables) :
    rewindIndexer w bridge tip (bridge.dbBlock tip) ix = .ok ((tree.nHeight tip : Int), ix) := by
  have hnone : (((bridge.dbBlock tip).height) - ((tree.nHeight tip : Int) + 1)).toNat = 0 := by
    show ((tree.nHeight tip : Int) - ((tree.nHeight tip : Int) + 1)).toNat = 0
    omega
  unfold rewindIndexer
  simp only [hfork, addHeight_one (bridge.height_lt tip), hnone]
  rfl

/-!
## The blocks above the fork
-/

theorem resyncLoop_eq (hstop : forall height, bridge.stopsResync height = false)
    {nodeTip : Ptr} (htip : bridge.chain.tip = some nodeTip) {left height : Nat}
    (hleft : height + left = tree.nHeight nodeTip + 1) (ix : Indexer tables) :
    resyncLoop w bridge nodeTip left height ix =
      connectBlocks w bridge (bridge.chain.vChain.drop height) ix := by
  have hin := CChain.contains_tip htip
  have hlength := CChain.nHeight_tip htip
  induction left generalizing height ix with
  | zero =>
    rw [drop_of_length_le (by omega)]
    rfl
  | succ left ih =>
    have hlt : height < bridge.chain.vChain.length := by omega
    have hat := getElem?_eq_getElem hlt
    have hheight := bridge.chain.heights hat
    have hancestor : tree.getAncestor nodeTip (height : Int) =
        some bridge.chain.vChain[height] := by
      have hle : tree.nHeight bridge.chain.vChain[height] ≤ tree.nHeight nodeTip := by omega
      have hself := (tree.getAncestor_eq_self_iff hle).mpr
        (CChain.ancestor_of_contains (CChain.contains_of_getElem hat) hin hle)
      rw [hheight] at hself
      exact hself
    rw [drop_eq_getElem_cons hlt]
    unfold resyncLoop resyncBlock
    rw [hstop, hancestor]
    simp only [Bool.false_eq_true, if_false]
    congr 1
    funext next
    have hnext : height + 1 + left = tree.nHeight nodeTip + 1 := by omega
    exact ih hnext next

theorem resyncIndexer_self {indexed : CChain tree} {fresh ix : Indexer tables}
    (hbuilt : BuiltFrom w bridge indexed fresh ix) {tip : Ptr} (htip : indexed.tip = some tip)
    (hfork : bridge.chain.findFork tip = some tip)
    (hstop : forall height, bridge.stopsResync height = false) :
    resyncIndexer w bridge ix = (do
      let ix ← reindexIfNeeded w (tree.nHeight tip) ix
      connectBlocks w bridge (bridge.chain.vChain.drop (tree.nHeight tip + 1)) ix) := by
  have hin := ((bridge.chain.findFork_isFork tip).onChain hfork).left
  have hlt := getElem?_lt ((bridge.chain.contains_iff tip).mp hin)
  cases hnode : bridge.chain.tip with
  | none =>
    rw [CChain.tip, getLast?_eq_none_iff] at hnode
    rw [hnode] at hlt
    cases hlt
  | some nodeTip =>
    have hstart : startHeight w bridge nodeTip ix = .ok ((tree.nHeight tip : Int), ix) := by
      unfold startHeight
      rw [hbuilt.tip htip]
      show (if bridge.hash tip = bridge.hash nodeTip then _ else _) = _
      split
      · rfl
      · show (match bridge.lookupBlockIndex (bridge.hash tip) with
          | none => _
          | some tipIndex => rewindIndexer w bridge tipIndex (bridge.dbBlock tip) ix) = _
        rw [bridge.lookup_hash]
        exact rewindIndexer_self hfork ix
    have hheight := CChain.nHeight_tip hnode
    simp only [resyncIndexer, hnode, hstart]
    show (reindexIfNeeded w (tree.nHeight tip) ix >>= fun next =>
      resyncLoop w bridge nodeTip
        ((tree.nHeight nodeTip : Int) + 1 - addHeight (tree.nHeight tip) 1).toNat
        (addHeight (tree.nHeight tip) 1) next) = _
    apply bind_congr
    intro next
    rw [addHeight_one (bridge.height_lt tip)]
    have hcount : ((tree.nHeight nodeTip : Int) + 1 - ((tree.nHeight tip : Int) + 1)).toNat =
        tree.nHeight nodeTip - tree.nHeight tip := by
      omega
    rw [hcount]
    have hleft : tree.nHeight tip + 1 + (tree.nHeight nodeTip - tree.nHeight tip) =
        tree.nHeight nodeTip + 1 := by
      omega
    exact resyncLoop_eq hstop hnode hleft next

/-!
## Exactness
-/

/--
The rewind disconnects the blocks of the index above the fork, the highest first, and
leaves the index as it was with the fork as its tip; unless a shutdown is requested, the
blocks connected afterwards are those of the active chain above the fork.
-/
def RewindsExactly (w : Writers body tables) (bridge : Bridge tree body)
    (indexed : CChain tree) (fresh ix : Indexer tables) (tip fork : Ptr) : Prop :=
  exists past ix',
    connectBlocks w bridge (indexed.vChain.take (tree.nHeight fork + 1)) fresh =
        .ok past ∧
      rewindIndexer w bridge tip (bridge.dbBlock tip) ix = .ok ((tree.nHeight fork : Int), ix') ∧
      ix'.db = past.db ∧
      ix'.broadcasts = ix.broadcasts ++
        (indexed.vChain.drop (tree.nHeight fork + 1)).reverse.map bridge.disconnected ∧
      ((forall height, bridge.stopsResync height = false) ->
        resyncIndexer w bridge ix = (do
          let ix ← reindexIfNeeded w (tree.nHeight fork) ix'
          connectBlocks w bridge (bridge.chain.vChain.drop (tree.nHeight fork + 1)) ix))

variable {tip fork : Ptr}

theorem not_rewindsExactly_of_lt (hbuilt : BuiltFrom w bridge indexed fresh ix)
    (htip : indexed.tip = some tip) (hfork : bridge.chain.findFork tip = some fork)
    (hbelow : tree.nHeight fork < tree.nHeight tip) :
    ¬ RewindsExactly w bridge indexed fresh ix tip fork := by
  intro h
  rcases h with ⟨_, _, hpast, hrewind, hdb, _⟩
  have hknown : KnownRows bridge ix.db.blk := by
    rw [hbuilt.blk]
    exact forall_mem_map.mpr fun p _ => ⟨p, rfl⟩
  have hrow : bridge.row tip ∈ ix.db.blk := by
    rw [hbuilt.blk]
    exact mem_map_of_mem (mem_of_getLast? htip)
  have hkept := rewindIndexer_keeps_tip hknown hrow hfork hbelow hrewind
  rcases hbuilt.take (tree.nHeight fork + 1) with ⟨_, hpast', hblk⟩
  cases hpast.symm.trans hpast'
  rw [hdb, hblk] at hkept
  rcases mem_map.mp hkept with ⟨_, hp, heq⟩
  rw [row_injective heq] at hp
  rcases getElem?_of_mem hp with ⟨_, hi⟩
  rw [getElem?_take] at hi
  split at hi
  · have hheight := indexed.heights hi
    omega
  · cases hi

theorem rewindsExactly_self (hbuilt : BuiltFrom w bridge indexed fresh ix)
    (htip : indexed.tip = some tip) (hfork : bridge.chain.findFork tip = some tip) :
    RewindsExactly w bridge indexed fresh ix tip tip := by
  rcases hbuilt.connected with ⟨built, hconnected, hdb⟩
  have hall := (CChain.nHeight_tip htip).ge
  refine ⟨built, ix, ?_, rewindIndexer_self hfork ix, hdb, ?_, ?_⟩
  · rw [take_of_length_le hall]
    exact hconnected
  · rw [drop_of_length_le hall]
    simp
  · intro hstop
    exact resyncIndexer_self hbuilt htip hfork hstop

/-- The rewind is exact only where there is nothing to rewind. -/
theorem rewindIndexer_exact_iff (hbuilt : BuiltFrom w bridge indexed fresh ix)
    (htip : indexed.tip = some tip) (hfork : bridge.chain.findFork tip = some fork) :
    RewindsExactly w bridge indexed fresh ix tip fork <-> fork = tip := by
  have hanc := ((bridge.chain.findFork_isFork tip).onChain hfork).right
  constructor
  · intro h
    by_contra hne
    have hlt : tree.nHeight fork < tree.nHeight tip := by
      rcases Nat.lt_or_eq_of_le hanc.depth_le with hlt | heq
      · exact hlt
      · exact absurd (Forest.Ancestor.eq_of_depth hanc heq.ge) hne
    exact not_rewindsExactly_of_lt hbuilt htip hfork hlt h
  · intro heq
    rw [heq] at hfork ⊢
    exact rewindsExactly_self hbuilt htip hfork

/-!
An index of two blocks, and nodes that have another block above the first or one more.
-/

def forkChain (tip : Ptr) : CChain forkTree := CChain.empty.setTip tip

def hashWriters : Writers Unit (List BlockHash) where
  insert := fun block hashes => .ok (block.dbBlock.hash :: hashes)
  delete := fun _ _ hashes => .ok hashes.tail
  reindexLokadIdIndex := fun _ hashes => .ok hashes

def forkBridge (tip : Ptr) : Bridge forkTree Unit where
  chain := forkChain tip
  hash := fun p => p
  lookupBlockIndex := some
  loadBlock := fun _ => .ok ()
  stopsRewind := fun _ => false
  stopsResync := fun _ => false
  lookup_hash := fun _ => rfl
  height_lt := by
    intro p
    show ((forkTree.depth p : Nat) : Int) < maxHeight
    simp only [forkTree]
    split <;> decide

def freshIndexer : Indexer (List BlockHash) where
  db := { blk := [], tables := [] }
  avalanche := -1
  needsLokadIdReindex := false
  broadcasts := []

def forkIndexer : Indexer (List BlockHash) where
  db := { blk := [(0, 0), (1, 1)], tables := [1, 0] }
  avalanche := -1
  needsLokadIdReindex := false
  broadcasts := []

theorem forkIndexer_builtFrom (tip : Ptr) :
    BuiltFrom hashWriters (forkBridge tip) (forkChain 1) freshIndexer forkIndexer where
  empty := rfl
  connected := ⟨_, rfl, rfl⟩

/-- The node has left block `1`, and the rewind to block `0` keeps it in the index. -/
theorem rewindIndexer_keeps_stale_tip :
    BuiltFrom hashWriters (forkBridge 2) (forkChain 1) freshIndexer forkIndexer ∧
      (forkChain 1).tip = some 1 ∧ (forkBridge 2).chain.findFork 1 = some 0 ∧
      rewindIndexer hashWriters (forkBridge 2) 1 ((forkBridge 2).dbBlock 1) forkIndexer =
        .ok (0, forkIndexer) ∧
      ¬ RewindsExactly hashWriters (forkBridge 2) (forkChain 1) freshIndexer forkIndexer 1 0 := by
  have hbuilt := forkIndexer_builtFrom 2
  refine ⟨hbuilt, rfl, rfl, rfl, ?_⟩
  exact not_rewindsExactly_of_lt hbuilt rfl rfl (by decide)

/-- The node is one block ahead of the index, or has left its tip. -/
theorem rewindIndexer_exact_iff_fork :
    RewindsExactly hashWriters (forkBridge 4) (forkChain 1) freshIndexer forkIndexer 1 1 ∧
      ¬ RewindsExactly hashWriters (forkBridge 2) (forkChain 1) freshIndexer forkIndexer 1 0 :=
  ⟨(rewindIndexer_exact_iff (forkIndexer_builtFrom 4) rfl rfl).mpr rfl,
    mt (rewindIndexer_exact_iff (forkIndexer_builtFrom 2) rfl rfl).mp (by decide)⟩

end ECash.Index
