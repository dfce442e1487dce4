import ECash.Index.Group

/-!
# Preparing the transactions of a block

Transactions get their numbers, and the transactions they spend are looked up by their id: in the
block itself, in a cache, and in the table of the index.
-/

namespace ECash.Index

open Foundation List

abbrev TxId := Nat

structure OutPoint where
  txid : TxId
  outIdx : Nat
deriving DecidableEq

structure TxOutput where
  value : Int
  script : Bytes
deriving DecidableEq

/-- The output that an input spends, as the node gives it. -/
structure Coin where
  output : TxOutput
deriving DecidableEq

structure TxInput where
  prevOut : OutPoint
  coin : Option Coin
deriving DecidableEq

structure Tx where
  txid : TxId
  inputs : List TxInput
  outputs : List TxOutput
deriving DecidableEq

inductive IndexTxError where
  | unknownInputSpent (prevOut : OutPoint)
deriving DecidableEq

/-!
## The cache
-/

/-- Maps from ids to numbers, the one that is being filled first. -/
structure TxNumCache where
  numBuckets : Nat
  bucketSize : Nat
  buckets : List (List (TxId × TxNum))

def TxNumCache.get (cache : TxNumCache) (txid : TxId) : Option TxNum :=
  cache.buckets.findSome? fun bucket => bucket.lookup txid

/-- Put a number into the first bucket; when it is full, the last one is emptied and becomes the
first. -/
def TxNumCache.add (buckets : List (List (TxId × TxNum))) (bucketSize : Nat) (txid : TxId)
    (txNum : TxNum) : List (List (TxId × TxNum)) :=
  let buckets :=
    match buckets with
    | [] => []
    | front :: _ => if front.length ≥ bucketSize then [] :: buckets.dropLast else buckets
  match buckets with
  | [] => []
  | front :: others => ((txid, txNum) :: front.filter fun entry => entry.1 != txid) :: others

def TxNumCache.addToCache (cache : TxNumCache) (indexTxs : List (IndexTx Tx)) : TxNumCache :=
  if cache.numBuckets = 0 then cache
  else
    { cache with
      buckets := indexTxs.foldl (fun buckets indexTx =>
          TxNumCache.add buckets cache.bucketSize indexTx.tx.txid indexTx.txNum)
        cache.buckets }

def TxNumCache.clear (cache : TxNumCache) : TxNumCache :=
  { cache with buckets := cache.buckets.map fun _ => [] }

/-!
## Looking up the inputs
-/

section Prepare

/-- The numbers of the block's own transactions; the last one counts. -/
def blockTxNum (firstTxNum : TxNum) (txs : List Tx) (txid : TxId) : Option TxNum :=
  (txs.mapIdx fun txIdx tx => (tx.txid, firstTxNum + txIdx)).reverse.lookup txid

variable (dbTxNum : TxId -> Option TxNum) (cache : TxNumCache) (firstTxNum : TxNum) (txs : List Tx)

def inputTxNum (input : TxInput) : Except IndexTxError TxNum :=
  match blockTxNum firstTxNum txs input.prevOut.txid with
  | some txNum => .ok txNum
  | none =>
    match cache.get input.prevOut.txid with
    | some txNum => .ok txNum
    | none =>
      match dbTxNum input.prevOut.txid with
      | some txNum => .ok txNum
      | none => .error (.unknownInputSpent input.prevOut)

def prepareIndexedTx (txIdx : Nat) (tx : Tx) : Except IndexTxError (IndexTx Tx) := do
  let inputNums ←
    if txIdx = 0 then .ok []
    else tx.inputs.mapM (inputTxNum dbTxNum cache firstTxNum txs)
  .ok
    { tx, txNum := firstTxNum + txIdx, isCoinbase := decide (txIdx = 0),
      inputNums }

def prepareIndexedTxs : Except IndexTxError (List (IndexTx Tx)) :=
  txs.zipIdx.mapM fun entry =>
    prepareIndexedTx dbTxNum cache firstTxNum txs entry.2 entry.1

end Prepare

/-!
## What is found
-/

/-- The cache has only numbers of the table. -/
def TxNumCache.Sound (cache : TxNumCache) (txNumOf : TxId -> Option TxNum) : Prop :=
  forall bucket, bucket ∈ cache.buckets -> forall txid txNum, (txid, txNum) ∈ bucket ->
    txNumOf txid = some txNum

variable {txid : TxId} {txNum : TxNum} {cache : TxNumCache}

theorem mem_of_lookup_eq_some {entries : List (TxId × TxNum)}
    (h : entries.lookup txid = some txNum) : (txid, txNum) ∈ entries := by
  rcases lookup_eq_some_iff.mp h with ⟨_, _, heq, _⟩
  rw [heq]
  simp

variable {txNumOf : TxId -> Option TxNum}

theorem TxNumCache.Sound.get (h : cache.Sound txNumOf)
    (hget : cache.get txid = some txNum) : txNumOf txid = some txNum := by
  unfold TxNumCache.get at hget
  rcases exists_of_findSome?_eq_some hget with ⟨bucket, hbucket, hlookup⟩
  exact h bucket hbucket txid txNum (mem_of_lookup_eq_some hlookup)

theorem TxNumCache.sound_clear (cache : TxNumCache) (txNumOf : TxId -> Option TxNum) :
    cache.clear.Sound txNumOf := by
  intro bucket hbucket txid txNum hmem
  rcases mem_map.mp hbucket with ⟨_, _, heq⟩
  rw [← heq] at hmem
  cases hmem

theorem TxNumCache.mem_add {buckets : List (List (TxId × TxNum))} {bucketSize : Nat}
    {bucket : List (TxId × TxNum)} {entry : TxId × TxNum}
    (hbucket : bucket ∈ TxNumCache.add buckets bucketSize txid txNum) (hentry : entry ∈ bucket) :
    entry = (txid, txNum) ∨ exists bucket', bucket' ∈ buckets ∧ entry ∈ bucket' := by
  unfold TxNumCache.add at hbucket
  cases buckets with
  | nil => cases hbucket
  | cons front others =>
    simp only at hbucket
    by_cases hfull : front.length ≥ bucketSize
    · rw [if_pos hfull] at hbucket
      rcases mem_cons.mp hbucket with heq | hmem
      · rw [heq] at hentry
        rcases mem_cons.mp hentry with heq | hmem
        · exact .inl heq
        · cases (mem_filter.mp hmem).left
      · exact .inr ⟨bucket, dropLast_subset _ hmem, hentry⟩
    · rw [if_neg hfull] at hbucket
      rcases mem_cons.mp hbucket with heq | hmem
      · rw [heq] at hentry
        rcases mem_cons.mp hentry with heq | hmem
        · exact .inl heq
        · exact .inr ⟨front, mem_cons_self, (mem_filter.mp hmem).left⟩
      · exact .inr ⟨bucket, mem_cons_of_mem front hmem, hentry⟩

theorem TxNumCache.Sound.addToCache (h : cache.Sound txNumOf) {indexTxs : List (IndexTx Tx)}
    (htxs : forall indexTx, indexTx ∈ indexTxs -> txNumOf indexTx.tx.txid = some indexTx.txNum) :
    (cache.addToCache indexTxs).Sound txNumOf := by
  unfold TxNumCache.addToCache
  split
  · exact h
  unfold TxNumCache.Sound at h ⊢
  generalize cache.buckets = buckets at h ⊢
  induction indexTxs generalizing buckets with
  | nil => exact h
  | cons indexTx indexTxs ih =>
    refine ih (forall_mem_cons.mp htxs).2 _ ?_
    intro bucket hbucket txid txNum hmem
    rcases TxNumCache.mem_add hbucket hmem with heq | ⟨bucket', hbucket', hmem'⟩
    · cases heq
      exact htxs indexTx mem_cons_self
    · exact h bucket' hbucket' txid txNum hmem'

end ECash.Index
