import ECash.Coins.BlockUndo
import ECash.Validation.Chain

/-!
# Replaying blocks after an interrupted flush

A flush to the coins database is written in batches, and while it is under way the
database names the two tips it is between.  At startup a database in that state is
brought to the new tip: the old branch is rolled back, the new one rolled forward, and
the result flushed again.
-/

namespace ECash.Coins

open Validation

/-!
## The coins database
-/

structure CoinsViewDB where
  coins : AList fun _ : OutPoint => Coin
  bestBlock : BlockHash
  headBlocks : List BlockHash

inductive ReplayError where
  | unknownInconsistentState
  | unknownNewBlock
  | unknownOldBlock
  | assertFork
  | assertAncestor
  | readBlockFailed
  | disconnectFailed
  | assertHashBlock
  | assertHeadBlock
  | thrown (error : CoinsError)
deriving DecidableEq, Repr

namespace CoinsViewDB

def toView (db : CoinsViewDB) : CoinsView :=
  .backing db.coins db.bestBlock

/-- The tip that a write moves away from; a replay keeps that of the first write. -/
def oldTip (db : CoinsViewDB) (hashBlock : BlockHash) : Except ReplayError BlockHash :=
  if hashBlock = 0 then .error .assertHashBlock
  else if db.bestBlock = 0 then
    match db.headBlocks with
    | [new, old] => if new = hashBlock then .ok old else .error .assertHeadBlock
    | _ => .ok db.bestBlock
  else .ok db.bestBlock

def writeEntries (coins : AList fun _ : OutPoint => Coin)
    (entries : List (Sigma fun _ : OutPoint => CoinsCacheEntry)) :
    Except ReplayError (AList fun _ : OutPoint => Coin) :=
  match entries.foldlM backingWriteEntry coins with
  | .error e => .error (.thrown e)
  | .ok coins => .ok coins

/-- The database when a write is interrupted after some of the entries, in any order. -/
def partialWrite (db : CoinsViewDB) (mapCoins : CoinsMap) (hashBlock : BlockHash)
    (written : OutPoint -> Bool) : Except ReplayError CoinsViewDB := do
  let oldTip ← db.oldTip hashBlock
  let coins ← writeEntries db.coins (mapCoins.entries.filter fun it => written it.1)
  .ok { coins, bestBlock := 0, headBlocks := [hashBlock, oldTip] }

def batchWrite (db : CoinsViewDB) (mapCoins : CoinsMap) (hashBlock : BlockHash) :
    Except ReplayError CoinsViewDB := do
  let _ ← db.oldTip hashBlock
  let coins ← writeEntries db.coins mapCoins.entries
  .ok { coins, bestBlock := hashBlock, headBlocks := [] }

end CoinsViewDB

/-!
## Blocks on disk
-/

/-- The block index by hash, and the blocks and undo data on disk. -/
structure BlockStorage where
  hash : Ptr -> BlockHash
  lookup : BlockHash -> Option Ptr
  readBlockFromDisk : Ptr -> Option Block
  undoReadFromDisk : Ptr -> Option BlockUndo

/-!
## Replaying
-/

section Tree

variable (tree : BlockTree) (store : BlockStorage)

def disconnectBlock (pindex : Ptr) (block : Block) (view : CoinsViewCache) :
    Except ReplayError CoinsViewCache :=
  match store.undoReadFromDisk pindex with
  | none => .error .disconnectFailed
  | some blockUndo =>
    match applyBlockUndo blockUndo block (tree.nHeight pindex) view with
    | .error e => .error (.thrown e.error)
    | .ok (.FAILED, _) => .error .disconnectFailed
    -- An unclean result is the undo of a block that was applied in part.
    | .ok (_, view) => .ok view

/-- The genesis block is never disconnected. -/
def rollbackBlock (pindexOld : Ptr) (view : CoinsViewCache) : Except ReplayError CoinsViewCache :=
  if tree.nHeight pindexOld > 0 then
    match store.readBlockFromDisk pindexOld with
    | none => .error .readBlockFailed
    | some block => disconnectBlock tree store pindexOld block view
  else .ok view

/-- The loop down the old branch; a block has its height many ancestors. -/
def rollbackLoop (pindexFork : Option Ptr) :
    Nat -> Option Ptr -> CoinsViewCache -> Except ReplayError CoinsViewCache
  | rounds + 1, some pindexOld, view =>
    if some pindexOld = pindexFork then .ok view
    else
      match rollbackBlock tree store pindexOld view with
      | .error e => .error e
      | .ok view => rollbackLoop pindexFork rounds (tree.pprev pindexOld) view
  | _, _, view => .ok view

/-- All additions may be overwrites. -/
def rollforwardAdd (nHeight : Nat) :
    List Transaction -> CoinsViewCache -> Except ReplayError CoinsViewCache
  | [], view => .ok view
  | tx :: vtx, view =>
    match addCoins view tx nHeight true with
    | .error e => .error (.thrown e.error)
    | .ok view => rollforwardAdd nHeight vtx view

def spendPrevouts : List TxIn -> CoinsViewCache -> CoinsViewCache
  | [], view => view
  | txin :: vin, view => spendPrevouts vin (view.spendCoin txin.prevout).2

def rollforwardSpend : List Transaction -> CoinsViewCache -> CoinsViewCache
  | [], view => view
  | tx :: vtx, view =>
    if tx.isCoinBase then rollforwardSpend vtx view
    else rollforwardSpend vtx (spendPrevouts tx.vin view)

def rollforwardBlock (pindex : Ptr) (view : CoinsViewCache) : Except ReplayError CoinsViewCache :=
  match store.readBlockFromDisk pindex with
  | none => .error .readBlockFailed
  | some block =>
    match rollforwardAdd (tree.nHeight pindex) block.vtx view with
    | .error e => .error e
    | .ok view => .ok (rollforwardSpend block.vtx view)

def rollforwardLoop (pindexNew : Ptr) :
    Nat -> Nat -> CoinsViewCache -> Except ReplayError CoinsViewCache
  | 0, _, view => .ok view
  | left + 1, nHeight, view =>
    match tree.getAncestor pindexNew nHeight with
    | none => .error .assertAncestor
    | some pindex =>
      match rollforwardBlock tree store pindex view with
      | .error e => .error e
      | .ok view => rollforwardLoop pindexNew left (nHeight + 1) view

def replayStart (hashOld : BlockHash) (pindexNew : Ptr) :
    Except ReplayError (Option Ptr × Option Ptr) :=
  if hashOld = 0 then .ok (none, none)
  else
    match store.lookup hashOld with
    | none => .error .unknownOldBlock
    | some pindexOld =>
      match tree.lastCommonAncestor pindexOld pindexNew with
      | none => .error .assertFork
      | some fork => .ok (some pindexOld, some fork)

def rollbackRounds (pindexOld : Option Ptr) : Nat :=
  match pindexOld with
  | none => 0
  | some p => tree.nHeight p + 1

def nForkHeight (pindexFork : Option Ptr) : Nat :=
  match pindexFork with
  | none => 0
  | some fork => tree.nHeight fork

def replayBranches (pindexOld pindexFork : Option Ptr) (pindexNew : Ptr)
    (view : CoinsViewCache) : Except ReplayError CoinsViewCache := do
  let view ← rollbackLoop tree store pindexFork (rollbackRounds tree pindexOld) pindexOld view
  let view ← rollforwardLoop tree store pindexNew
    (tree.nHeight pindexNew - nForkHeight tree pindexFork) (nForkHeight tree pindexFork + 1) view
  .ok (view.setBestBlock (store.hash pindexNew))

/-- The cache that is flushed in the end, if there is anything to replay. -/
def replayCache (db : CoinsViewDB) : Except ReplayError (Option CoinsViewCache) :=
  match db.headBlocks with
  | [] => .ok none
  | [hashNew, hashOld] =>
    match store.lookup hashNew with
    | none => .error .unknownNewBlock
    | some pindexNew => do
        let (pindexOld, pindexFork) ← replayStart tree store hashOld pindexNew
        let view ← replayBranches tree store pindexOld pindexFork pindexNew
          (CoinsViewCache.new db.toView)
        .ok (some view)
  | _ => .error .unknownInconsistentState

def replayBlocks (db : CoinsViewDB) : Except ReplayError CoinsViewDB := do
  match ← replayCache tree store db with
  | none => .ok db
  | some cache => db.batchWrite cache.cacheCoins cache.hashBlock

/-- The states in which an interrupted replay can leave the database. -/
def Interrupts (db crashed : CoinsViewDB) : Prop :=
  exists cache, replayCache tree store db = .ok (some cache) ∧
    ((exists written, db.partialWrite cache.cacheCoins cache.hashBlock written = .ok crashed) ∨
      db.batchWrite cache.cacheCoins cache.hashBlock = .ok crashed)

end Tree

end ECash.Coins
