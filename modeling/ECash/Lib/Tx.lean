import ECash.Lib.Script

/-!
# Transactions of the library
-/

namespace ECash.Lib

open Foundation List

def DEFAULT_SEQUENCE : Int := 0xffffffff

def DEFAULT_TX_VERSION : Int := 2

/-- The digits of a hex string with the most significant byte of an id first. -/
structure HexTxid where
  digits : List (Fin 16)
  length : digits.length = 64

/-- Either as hex, or as bytes with the least significant byte first. -/
inductive Txid where
  | hex (txid : HexTxid)
  | bytes (txid : Bytes) (length : txid.length = 32)

def fromHex : List (Fin 16) -> Bytes
  | high :: low :: digits => UInt8.ofNat (16 * high.val + low.val) :: fromHex digits
  | _ => []

def fromHexRev (digits : List (Fin 16)) : Bytes := (fromHex digits).reverse

theorem fromHex_length (digits : List (Fin 16)) : (fromHex digits).length = digits.length / 2 := by
  match digits with
  | [] => rfl
  | [_] => simp [fromHex]
  | _ :: _ :: digits =>
    have hrest := fromHex_length digits
    simp only [fromHex, length_cons]
    omega

structure OutPoint where
  txid : Txid
  outIdx : Int

structure SignData where
  value : Int
  outputScript : Option Script
  redeemScript : Option Script

structure TxInput where
  prevOut : OutPoint
  script : Option Script
  sequence : Option Int
  signData : Option SignData

structure TxOutput where
  value : Int
  script : Script
deriving DecidableEq, Repr

structure Tx where
  version : Int
  inputs : List TxInput
  outputs : List TxOutput
  locktime : Int

def Txid.toBytes : Txid -> Bytes
  | hex txid => fromHexRev txid.digits
  | bytes txid _ => txid

theorem Txid.toBytes_length (txid : Txid) : txid.toBytes.length = 32 := by
  cases txid with
  | hex txid =>
    show (fromHexRev txid.digits).length = 32
    unfold fromHexRev
    rw [length_reverse, fromHex_length, txid.length]
  | bytes txid length => exact length

def writeOutPoint (outpoint : OutPoint) : List Put :=
  [.bytes outpoint.txid.toBytes, .u32 outpoint.outIdx]

def TxInput.scriptOrEmpty (input : TxInput) : Script :=
  input.script.getD { bytecode := [] }

def TxInput.sequenceOrDefault (input : TxInput) : Int :=
  input.sequence.getD DEFAULT_SEQUENCE

def writeTxInput (input : TxInput) : List Put :=
  writeOutPoint input.prevOut ++ input.scriptOrEmpty.writeWithSize ++ [.u32 input.sequenceOrDefault]

def writeTxOutput (output : TxOutput) : List Put :=
  [.u64 output.value] ++ output.script.writeWithSize

namespace Tx

def puts (tx : Tx) : List Put :=
  [.u32 tx.version] ++ writeVarSize tx.inputs.length ++ tx.inputs.flatMap writeTxInput ++
    writeVarSize tx.outputs.length ++ tx.outputs.flatMap writeTxOutput ++ [.u32 tx.locktime]

def serSize (tx : Tx) : Nat := writerLength tx.puts

def ser (tx : Tx) : Except LibError Bytes := write tx.puts

end Tx

/-!
## Sizes
-/

def sizedLength (length : Nat) : Nat := writerLength (writeVarSize length) + length

theorem writerLength_writeTxOutput (output : TxOutput) :
    writerLength (writeTxOutput output) = 8 + sizedLength output.script.bytecode.length := by
  simp [writeTxOutput, Put.length, sizedLength]

theorem writerLength_flatMap {α : Type} (f : α -> List Put) (xs : List α) :
    writerLength (xs.flatMap f) = (xs.map fun x => writerLength (f x)).sum := by
  induction xs with
  | nil => rfl
  | cons x xs ih => rw [flatMap_cons, writerLength_append, ih, map_cons, sum_cons]

def txSize (inputLengths outputLengths : List Nat) : Nat :=
  8 + writerLength (writeVarSize inputLengths.length) +
    (inputLengths.map fun length => 40 + sizedLength length).sum +
    writerLength (writeVarSize outputLengths.length) +
    (outputLengths.map fun length => 8 + sizedLength length).sum

def TxInput.scriptLength (input : TxInput) : Nat := input.scriptOrEmpty.bytecode.length

def TxOutput.scriptLength (output : TxOutput) : Nat := output.script.bytecode.length

theorem Tx.serSize_eq (tx : Tx) :
    tx.serSize = txSize (tx.inputs.map TxInput.scriptLength)
      (tx.outputs.map TxOutput.scriptLength) := by
  have hinputs : (tx.inputs.map fun input => writerLength (writeTxInput input)) =
      (tx.inputs.map TxInput.scriptLength).map fun length => 40 + sizedLength length := by
    rw [map_map]
    refine map_congr_left fun input _ => ?_
    simp [writeTxInput, writeOutPoint, Put.length, Txid.toBytes_length, sizedLength,
      TxInput.scriptLength]
    omega
  have houtputs : (tx.outputs.map fun output => writerLength (writeTxOutput output)) =
      (tx.outputs.map TxOutput.scriptLength).map fun length => 8 + sizedLength length := by
    rw [map_map]
    exact map_congr_left fun output _ => writerLength_writeTxOutput output
  unfold Tx.serSize Tx.puts txSize
  simp only [writerLength_append, writerLength_cons, writerLength_nil, Put.length,
    writerLength_flatMap, hinputs, houtputs, length_map]
  omega

theorem txSize_insert (inputLengths before after : List Nat) (length : Nat) :
    txSize inputLengths (before ++ after) ≤ txSize inputLengths (before ++ length :: after) := by
  have hcount : writerLength (writeVarSize (before ++ after).length) ≤
      writerLength (writeVarSize (before ++ length :: after).length) := by
    apply writerLength_writeVarSize_mono
    simp
  unfold txSize
  simp only [map_append, map_cons, sum_append, sum_cons]
  omega

end ECash.Lib
