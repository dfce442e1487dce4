import ECash.Index.Group

/-!
# The history of a group

For each member the index stores the numbers of its transactions in pages, and how many there
are.  A page is a row of variable-length numbers: transactions are added by appending to it, and
removed by cutting off bytes.
-/

namespace ECash.Index

open Foundation

def CONCAT : UInt8 := 67
def TRIM : UInt8 := 84

/-- The tables for the pages and for the numbers of transactions. -/
inductive HistoryCf where
  | page
  | numTxs
deriving DecidableEq

abbrev HistoryKey := HistoryCf × Bytes

abbrev HistoryDb := Store HistoryKey Bytes

abbrev HistoryOp := BatchOp HistoryKey Bytes Bytes

/-- Besides the errors of the writer: a merge into a table without merges, a panic of the merge
operator, and a loop that does not end. -/
inductive GroupHistoryError where
  | badNumTxsSize (bytes : Bytes)
  | deserialize (bytes : Bytes)
  | unknownOperandPrefix (first : UInt8) (operand : Bytes)
  | noMergeOperator
  | panic
  | endless
deriving DecidableEq

def bytesToNumTxs (bytes : Bytes) : Except GroupHistoryError Nat :=
  if bytes.length = 4 then .ok (readBigEndian bytes)
  else .error (.badNumTxsSize bytes)

def applyConcatTrim (bytes operand : Bytes) : Except GroupHistoryError Bytes :=
  match operand with
  | [] => .error .panic
  | first :: data =>
    if first = CONCAT then .ok (bytes ++ data)
    else if first = TRIM then
      if data.length < 4 ∨ bytes.length < readBigEndian (data.take 4) then
        .error .panic
      else .ok (bytes.take (bytes.length - readBigEndian (data.take 4)))
    else .error (.unknownOperandPrefix first operand)

def mergeHistory : HistoryKey -> Option Bytes -> Bytes -> Except GroupHistoryError Bytes
  | (.page, _), existing, operand => applyConcatTrim (existing.getD []) operand
  | (.numTxs, _), _, _ => .error .noMergeOperator

def keyForMemberPage (memberSer : Bytes) (pageNum : Nat) : Bytes :=
  memberSer ++ bigEndian 4 pageNum

def dbSerializeVec (txNums : List TxNum) : Bytes :=
  varintFormat.writeAll txNums

def dbDeserializeVec (bytes : Bytes) : Option (List TxNum) :=
  varintFormat.readAll bytes.length bytes

def getNumTxs (db : HistoryDb) (memberSer : Bytes) : Except GroupHistoryError Nat :=
  match db (.numTxs, memberSer) with
  | some dbNumTxs => bytesToNumTxs dbNumTxs
  | none => .ok 0

def getPageTxs (db : HistoryDb) (memberSer : Bytes) (pageNum : Nat) :
    Except GroupHistoryError (Option (List TxNum)) :=
  match db (.page, keyForMemberPage memberSer pageNum) with
  | none => .ok none
  | some value =>
    match dbDeserializeVec value with
    | some txNums => .ok (some txNums)
    | none => .error (.deserialize value)

section Loops

variable (pageSize : Nat) (memberSer : Bytes)

/-- Fill up the last page, then start new ones.  Numbers of transactions have 32 bits. -/
def insertLoop : Nat -> List TxNum -> Nat -> Nat -> Nat ->
    Except GroupHistoryError (List HistoryOp)
  | 0, _, _, _, _ => Except.error GroupHistoryError.endless
  | rounds + 1, newTxNums, numTxs, pageNum, lastPageNumTxs =>
    let spaceLeft := pageSize - lastPageNumTxs
    let numNewTxs := min spaceLeft newTxNums.length
    let mergeTxNums := dbSerializeVec (newTxNums.take numNewTxs)
    let newTxNums := newTxNums.drop numNewTxs
    let merge := BatchOp.merge (HistoryCf.page, keyForMemberPage memberSer pageNum)
      (CONCAT :: mergeTxNums)
    let numTxs := (numTxs + numNewTxs) % 2 ^ 32
    if newTxNums = [] then
      Except.ok [merge, BatchOp.put (HistoryCf.numTxs, memberSer) (bigEndian 4 numTxs)]
    else do
      let ops ← insertLoop rounds newTxNums numTxs ((pageNum + 1) % 2 ^ 32) 0
      Except.ok (merge :: ops)

/-- A member without transactions has no row. -/
def writeNumTxs (memberSer : Bytes) (numTxs : Nat) : HistoryOp :=
  if numTxs > 0 then .put (.numTxs, memberSer) (bigEndian 4 numTxs)
  else .delete (.numTxs, memberSer)

/-- Go back over the pages.  A page of which all transactions are removed is deleted, but their
numbers are not taken off `removedTxNums`. -/
def deleteLoop : Nat -> List TxNum -> Nat -> Nat -> Nat -> Nat ->
    Except GroupHistoryError (List HistoryOp)
  | 0, _, _, _, _, _ => Except.error GroupHistoryError.endless
  | rounds + 1, removedTxNums, numRemainingRemoves, numTxs, pageNum, lastPageNumTxs =>
    let numPageRemoves := min lastPageNumTxs numRemainingRemoves
    let key := (HistoryCf.page, keyForMemberPage memberSer pageNum)
    let kept := removedTxNums.length - numPageRemoves
    let op :=
      if numPageRemoves = lastPageNumTxs then BatchOp.delete key
      else
        BatchOp.merge key
          (TRIM :: bigEndian 4 ((dbSerializeVec (removedTxNums.drop kept)).length % 2 ^ 32))
    let removedTxNums :=
      if numPageRemoves = lastPageNumTxs then removedTxNums else removedTxNums.take kept
    let numTxs := (numTxs + 2 ^ 32 - numPageRemoves % 2 ^ 32) % 2 ^ 32
    let numRemainingRemoves := numRemainingRemoves - numPageRemoves
    if numRemainingRemoves = 0 then Except.ok [op, writeNumTxs memberSer numTxs]
    else do
      let ops ← if pageNum > 0 then
          deleteLoop rounds removedTxNums numRemainingRemoves numTxs (pageNum - 1) pageSize
        else deleteLoop rounds removedTxNums numRemainingRemoves numTxs pageNum lastPageNumTxs
      Except.ok (op :: ops)

end Loops

section Writer

variable {tx member aux : Type} [LinearOrder member]

def noteTxNum (txNum : TxNum) (txNums : Option (List TxNum)) : Option (List TxNum) :=
  let txNums := txNums.getD []
  if txNums.getLast? = some txNum then some txNums else some (txNums ++ [txNum])

def groupTxs (group : Group tx member aux) (block : Block tx aux) :
    Std.TreeMap member (List TxNum) :=
  block.txs.foldl (fun grouped indexTx =>
      (txMembersForGroup group indexTx.query block.aux).foldl
        (fun grouped member => grouped.alter member (noteTxNum indexTx.txNum)) grouped)
    ∅

/-- A member with its transactions in a block, and how many it has in the index. -/
structure FetchedNumTxs where
  txNums : List TxNum
  memberSer : Bytes
  numTxs : Nat

def fetchMember (group : Group tx member aux) (db : HistoryDb)
    (entry : member × List TxNum) : Except GroupHistoryError FetchedNumTxs := do
  let memberSer := group.serMember entry.1
  let numTxs ← getNumTxs db memberSer
  .ok { txNums := entry.2, memberSer, numTxs }

def fetchMembersNumTxs (group : Group tx member aux) (db : HistoryDb) (block : Block tx aux) :
    Except GroupHistoryError (List FetchedNumTxs) :=
  (groupTxs group block).toList.mapM (fetchMember group db)

def insertMember (pageSize : Nat) (fetched : FetchedNumTxs) :
    Except GroupHistoryError (List HistoryOp) :=
  insertLoop pageSize fetched.memberSer fetched.txNums.length fetched.txNums fetched.numTxs
    (fetched.numTxs / pageSize) (fetched.numTxs % pageSize)

def deleteMember (pageSize : Nat) (fetched : FetchedNumTxs) :
    Except GroupHistoryError (List HistoryOp) :=
  deleteLoop pageSize fetched.memberSer
    (fetched.numTxs / pageSize + fetched.txNums.length + 1) fetched.txNums fetched.txNums.length
    fetched.numTxs (fetched.numTxs / pageSize) (fetched.numTxs % pageSize)

def updateHistory (group : Group tx member aux)
    (updateMember : Nat -> FetchedNumTxs -> Except GroupHistoryError (List HistoryOp))
    (db : HistoryDb) (block : Block tx aux) : Except GroupHistoryError HistoryDb := do
  let fetched ← fetchMembersNumTxs group db block
  let batch ← fetched.mapM (updateMember group.txHistoryConf.pageSize)
  writeBatch mergeHistory db batch.flatten

def insertHistory (group : Group tx member aux) (db : HistoryDb) (block : Block tx aux) :
    Except GroupHistoryError HistoryDb :=
  updateHistory group insertMember db block

def deleteHistory (group : Group tx member aux) (db : HistoryDb) (block : Block tx aux) :
    Except GroupHistoryError HistoryDb :=
  updateHistory group deleteMember db block

end Writer

end ECash.Index
