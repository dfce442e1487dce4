import ECash.Foundation.Batch
import ECash.Foundation.ByteFormat

/-!
# Groups of transactions

The indexer groups transactions by members: anything found in a transaction, such as the scripts
of its outputs.
-/

namespace ECash.Index

open Foundation

/-- Transactions are numbered in the order in which they came into the index. -/
abbrev TxNum := Nat

/-- A transaction of a block, with what is known about it before it is indexed. -/
structure IndexTx (tx : Type) where
  tx : tx
  txNum : TxNum
  isCoinbase : Bool
  inputNums : List TxNum

structure GroupQuery (tx : Type) where
  isCoinbase : Bool
  tx : tx

structure MemberItem (member : Type) where
  idx : Nat
  member : member

/-- The pages of a member's history have room for `pageSize` transactions. -/
structure GroupHistoryConf where
  pageSize : Nat
  pageSize_pos : 0 < pageSize
  pageSize_lt : pageSize < 2 ^ 32

structure Group (tx member aux : Type) where
  inputMembers : GroupQuery tx -> aux -> List (MemberItem member)
  outputMembers : GroupQuery tx -> aux -> List (MemberItem member)
  serMember : member -> Bytes
  txHistoryConf : GroupHistoryConf

variable {tx member aux : Type}

def IndexTx.query (indexTx : IndexTx tx) : GroupQuery tx where
  isCoinbase := indexTx.isCoinbase
  tx := indexTx.tx

/-- The members in the inputs and then those in the outputs; a member can come more than once. -/
def txMembersForGroup (group : Group tx member aux) (query : GroupQuery tx) (aux : aux) :
    List member :=
  (group.inputMembers query aux ++ group.outputMembers query aux).map MemberItem.member

/-- A block as it is given to the index. -/
structure Block (tx aux : Type) where
  txs : List (IndexTx tx)
  aux : aux

/-- The transactions of the blocks are numbered one by one. -/
def Numbered (chain : List (Block tx aux)) : Prop :=
  (chain.flatMap Block.txs).map IndexTx.txNum = List.range (chain.flatMap Block.txs).length

end ECash.Index
