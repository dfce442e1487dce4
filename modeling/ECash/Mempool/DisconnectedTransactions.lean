import ECash.Coins.BlockUndo
import ECash.Foundation.IndexedSet

/-!
# Transactions of disconnected blocks

During a reorganisation the transactions of the disconnected blocks are queued, to be
offered to the mempool again at its end.  The queue is walked from its end then, so it
must hold every transaction before the queued ones it spends from.

The mempool is seen through the operations that the queue performs on it.
-/

namespace ECash.Mempool

open Coins Foundation List

def DEFAULT_MAX_BLOCK_SIZE : Nat := 100000000000000

def MAX_DISCONNECTED_TX_POOL_SIZE : Nat := 20 * DEFAULT_MAX_BLOCK_SIZE

/-!
## The mempool as the queue uses it
-/

structure MempoolEntry where
  tx : Transaction
  time : Int
  fee : Int
  modifiedFee : Int
  height : Nat

structure PoolOps (pool : Type) where
  /-- Both the entries and the fee deltas are empty. -/
  isEmpty : pool -> Bool
  /-- In the order of their ids. -/
  entries : pool -> List MempoolEntry
  contains : pool -> TxId -> Bool
  clear : pool -> pool
  removeRecursive : pool -> Transaction -> pool
  removeStaged : pool -> TxId -> pool
  removeConflicts : pool -> Transaction -> pool
  clearPrioritisation : pool -> TxId -> pool
  updateFeeForBlock : pool -> pool
  setDelta : pool -> TxId -> Int -> pool
  eraseDelta : pool -> TxId -> pool
  /-- The accept time is that of the call where none is given. -/
  acceptToMemoryPool : pool -> Transaction -> Option Int -> Nat -> Bool × pool
  limitSize : pool -> pool

/-!
## The queue
-/

structure TxInfo where
  time : Int
  feeDelta : Int
  height : Nat
deriving DecidableEq, Repr

def TxInfo.ofEntry (e : MempoolEntry) : TxInfo :=
  { time := e.time, feeDelta := e.modifiedFee - e.fee, height := e.height }

/-- A transaction id with the saved data of its mempool entry. -/
structure SavedInfo where
  txid : TxId
  info : TxInfo

inductive ReorgError where
  /-- A loop that goes on after the rounds it was given. -/
  | unbounded
  /-- The first entry of an empty queue is asked for. -/
  | emptyQueue
  /-- A queue is destroyed that still holds transactions. -/
  | assertEmpty
deriving DecidableEq, Repr

structure DisconnectedBlockTransactions where
  queuedTx : IndexedSet Transaction.txid
  cachedInnerUsage : Nat
  txInfo : IndexedSet SavedInfo.txid
  /-- The buckets of the table of `txInfo`. -/
  bucketCount : Nat

namespace DisconnectedBlockTransactions

def new : DisconnectedBlockTransactions :=
  { queuedTx := IndexedSet.empty
    cachedInnerUsage := 0
    txInfo := IndexedSet.empty
    bucketCount := 1 }

/-- A queued transaction takes a reference, six pointers and an allocation. -/
def queuedUsage : Nat := Script.mallocUsage (16 + 6 * 8)

/-- The id, the saved data and a pointer. -/
def txInfoUsage : Nat := Script.mallocUsage (32 + 24 + 8)

def dynamicMemoryUsage (p : DisconnectedBlockTransactions) : Nat :=
  queuedUsage * p.queuedTx.items.length +
    (txInfoUsage * p.txInfo.items.length + Script.mallocUsage (8 * p.bucketCount)) +
    p.cachedInnerUsage

def getTxInfo (p : DisconnectedBlockTransactions) (tx : Transaction) : Option TxInfo :=
  (p.txInfo.find? tx.txid).map SavedInfo.info

section Usage

/-! The memory of a shared transaction is a parameter. -/

variable (usage : Transaction -> Nat)

def addTransaction (p : DisconnectedBlockTransactions) (tx : Transaction) :
    DisconnectedBlockTransactions :=
  { p with
    queuedTx := p.queuedTx.insert tx
    cachedInnerUsage := p.cachedInnerUsage + usage tx }

def removeEntry (p : DisconnectedBlockTransactions) (entry : Transaction) :
    DisconnectedBlockTransactions :=
  { p with
    cachedInnerUsage := p.cachedInnerUsage - usage entry
    txInfo := p.txInfo.erase entry.txid
    queuedTx := p.queuedTx.erase entry.txid }

/--
Drop the earliest entries while the queue uses too much memory.  There are as many
rounds as entries; the result has the dropped transactions with it.
-/
def limitSize : Nat -> DisconnectedBlockTransactions ->
    Except ReorgError (DisconnectedBlockTransactions × List Transaction)
  | rounds, p =>
    if p.dynamicMemoryUsage > MAX_DISCONNECTED_TX_POOL_SIZE then
      match p.queuedTx.items, rounds with
      | [], _ => .error .emptyQueue
      | _ :: _, 0 => .error .unbounded
      | tx :: _, rounds + 1 =>
        (limitSize rounds (p.removeEntry usage tx)).map fun r => (r.1, tx :: r.2)
    else .ok (p, [])

/-!
## Adding a block
-/

/-- The order in which a hash set of ids is walked, for each transaction and round. -/
structure HashOrder where
  walk : TxId -> Nat -> List TxId -> List TxId
  perm : forall txid round parents, (walk txid round parents).Perm parents

def insertParents (vin : List TxIn) (parents : List TxId) : List TxId :=
  vin.foldl (fun parents txin => parents.insert txin.prevout.txid) parents

def reinsertParent (state : IndexedSet Transaction.txid × List TxId) (txid : TxId) :
    IndexedSet Transaction.txid × List TxId :=
  match state.1.find? txid with
  | none => state
  | some ptx => ((state.1.erase txid).insert ptx, insertParents ptx.vin state.2)

def reinsertParents (walk : Nat -> List TxId -> List TxId) :
    Nat -> IndexedSet Transaction.txid -> List TxId -> Option (IndexedSet Transaction.txid)
  | _, queuedTx, [] => some queuedTx
  | 0, _, _ :: _ => none
  | rounds + 1, queuedTx, parent :: parents =>
    let state := (walk rounds (parent :: parents)).foldl reinsertParent (queuedTx, [])
    reinsertParents walk rounds state.1 state.2

variable (order : HashOrder)

def addForBlockTx (p : DisconnectedBlockTransactions) (tx : Transaction) :
    Except ReorgError DisconnectedBlockTransactions :=
  if p.queuedTx.contains tx.txid then .ok p
  else
    let p := p.addTransaction usage tx
    match reinsertParents (order.walk tx.txid) p.queuedTx.items.length p.queuedTx
        (insertParents tx.vin []) with
    | none => .error .unbounded
    | some queuedTx => .ok { p with queuedTx }

section Pool

variable {pool : Type} (ops : PoolOps pool)

/-- A queue and a mempool, and the transactions that a call dropped for memory. -/
structure Outcome (pool : Type) where
  queue : DisconnectedBlockTransactions
  mempool : pool
  dropped : List Transaction

def addForBlock (p : DisconnectedBlockTransactions) (vtx : List Transaction)
    (mempool : pool) : Except ReorgError (Outcome pool) := do
  let p ← vtx.reverse.foldlM (addForBlockTx usage order) p
  let (p, dropped) ← limitSize usage p.queuedTx.items.length p
  .ok
    { queue := p
      mempool := dropped.foldl ops.removeRecursive mempool
      dropped }

/-!
## Removing a block
-/

def removeForBlockTx (p : DisconnectedBlockTransactions) (tx : Transaction) :
    DisconnectedBlockTransactions :=
  match p.queuedTx.find? tx.txid with
  | none => p
  | some queued =>
    { p with
      cachedInnerUsage := p.cachedInnerUsage - usage queued
      queuedTx := p.queuedTx.erase tx.txid
      txInfo := p.txInfo.erase tx.txid }

def removeForBlock (p : DisconnectedBlockTransactions) (vtx : List Transaction) :
    DisconnectedBlockTransactions :=
  if p.queuedTx.items.isEmpty then p else vtx.foldl (removeForBlockTx usage) p

def removeConfirmed (mempool : pool) (tx : Transaction) : pool :=
  let mempool :=
    if ops.contains mempool tx.txid then ops.removeStaged mempool tx.txid
    else ops.removeConflicts mempool tx
  ops.clearPrioritisation mempool tx.txid

/-- The overload that also takes the block out of the mempool. -/
def removeForBlockFromPool (p : DisconnectedBlockTransactions) (vtx : List Transaction)
    (mempool : pool) : Except ReorgError (Outcome pool) := do
  if ops.isEmpty mempool then
    .ok { queue := p, mempool, dropped := [] }
  else
    let added ← addForBlock usage order ops p vtx mempool
    let mempool := added.queue.queuedTx.items.reverse.foldl (removeConfirmed ops) added.mempool
    .ok
      { queue := added.queue.removeForBlock usage vtx
        mempool := ops.updateFeeForBlock mempool
        dropped := added.dropped }

/-!
## Importing the mempool
-/

def saveInfo (p : DisconnectedBlockTransactions) (e : MempoolEntry) :
    DisconnectedBlockTransactions :=
  { p with txInfo := p.txInfo.insert { txid := e.tx.txid, info := TxInfo.ofEntry e } }

/-- The transactions that are not in the other queue yet go in front of it. -/
def splice (front back : IndexedSet Transaction.txid) : IndexedSet Transaction.txid where
  items := front.items.filter (fun tx => !back.contains tx.txid) ++ back.items
  nodup := by
    rw [map_append]
    apply Nodup.append _ back.nodup
    · intro txid hfront hback
      rcases mem_map.mp hfront with ⟨tx, htx, rfl⟩
      rcases mem_map.mp hback with ⟨other, hother, heq⟩
      have hnew : back.contains tx.txid = false := by simpa using (mem_filter.mp htx).right
      exact IndexedSet.contains_eq_false.mp hnew other hother heq
    · exact front.nodup.sublist (filter_sublist.map Transaction.txid)

/-- The table of saved data may get any number of buckets as it grows. -/
def importMempool (p : DisconnectedBlockTransactions) (mempool : pool) (bucketCount : Nat) :
    Except ReorgError (Outcome pool) := do
  let entries := ops.entries mempool
  let p := entries.foldl saveInfo { p with bucketCount }
  let ordered ← addForBlock usage order ops new (entries.map MempoolEntry.tx) (ops.clear mempool)
  let orderedTxnPool := ordered.queue
  let left := orderedTxnPool.queuedTx.items.filter fun tx => p.queuedTx.contains tx.txid
  let p :=
    { p with
      cachedInnerUsage := p.cachedInnerUsage + orderedTxnPool.cachedInnerUsage
      queuedTx := splice orderedTxnPool.queuedTx p.queuedTx }
  let (p, dropped) ← limitSize usage p.queuedTx.items.length p
  if left.isEmpty then
    .ok { queue := p, mempool := ordered.mempool, dropped := ordered.dropped ++ dropped }
  else .error .assertEmpty

/-!
## Offering the queue to the mempool
-/

def offeredTxs (p : DisconnectedBlockTransactions) : List Transaction :=
  p.queuedTx.items.reverse.filter fun tx => !tx.isCoinBase

def reofferTx (p : DisconnectedBlockTransactions) (mempool : pool) (tx : Transaction) : pool :=
  match p.getTxInfo tx with
  | none => (ops.acceptToMemoryPool mempool tx none 0).2
  | some info =>
    let hasFeeDelta : Bool := info.feeDelta != 0
    let mempool := if hasFeeDelta then ops.setDelta mempool tx.txid info.feeDelta else mempool
    match ops.acceptToMemoryPool mempool tx (some info.time) info.height with
    | (true, mempool) => mempool
    | (false, mempool) => if hasFeeDelta then ops.eraseDelta mempool tx.txid else mempool

def updateMempoolForReorg (p : DisconnectedBlockTransactions) (fAddToMempool : Bool)
    (mempool : pool) : DisconnectedBlockTransactions × pool :=
  let mempool := if fAddToMempool then (offeredTxs p).foldl (reofferTx ops p) mempool else mempool
  ({ p with queuedTx := IndexedSet.empty, txInfo := IndexedSet.empty }, ops.limitSize mempool)

end Pool

end Usage

end DisconnectedBlockTransactions

end ECash.Mempool
