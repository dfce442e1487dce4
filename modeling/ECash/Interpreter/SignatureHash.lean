import ECash.Interpreter.ScriptOps

/-!
# The hash a signature signs

The node's side: the serialization of transactions, and `SignatureHash` with its two ways of
choosing what is hashed.
-/

namespace ECash.Interpreter

open Foundation List

/-!
## Transactions
-/

structure Uint256 where
  bytes : Bytes
  length : bytes.length = 32

def Uint256.zero : Uint256 where
  bytes := replicate 32 0
  length := length_replicate

structure COutPoint where
  txid : Uint256
  n : UInt32

/-- The size of a script is a number of 32 bits. -/
structure CScript where
  bytes : Bytes
  size : bytes.length < 2 ^ 32

def CScript.empty : CScript where
  bytes := []
  size := by decide

structure CTxIn where
  prevout : COutPoint
  scriptSig : CScript
  nSequence : UInt32

structure CTxOut where
  nValue : Int64
  scriptPubKey : CScript

def CTxOut.null : CTxOut where
  nValue := -1
  scriptPubKey := CScript.empty

structure CTransaction where
  nVersion : Int32
  vin : List CTxIn
  vout : List CTxOut
  nLockTime : UInt32

/-!
## Serialization
-/

def serializeUInt32 (value : UInt32) : Bytes := littleEndian 4 value.toNat

def serializeInt32 (value : Int32) : Bytes := littleEndian 4 value.toUInt32.toNat

def serializeInt64 (value : Int64) : Bytes := littleEndian 8 value.toUInt64.toNat

def writeCompactSize (nSize : Nat) : Bytes :=
  if nSize < 253 then littleEndian 1 nSize
  else if nSize ≤ 0xffff then 253 :: littleEndian 2 nSize
  else if nSize ≤ 0xffffffff then 254 :: littleEndian 4 nSize
  else 255 :: littleEndian 8 nSize

def COutPoint.serialize (outpoint : COutPoint) : Bytes :=
  outpoint.txid.bytes ++ serializeUInt32 outpoint.n

def CScript.serialize (script : CScript) : Bytes :=
  writeCompactSize script.bytes.length ++ script.bytes

def CTxOut.serialize (txout : CTxOut) : Bytes :=
  serializeInt64 txout.nValue ++ txout.scriptPubKey.serialize

/-!
## Types of hashes
-/

structure SigHashType where
  sigHash : UInt32
deriving DecidableEq, Repr

namespace SigHashType

def ALL : UInt32 := 1
def NONE : UInt32 := 2
def SINGLE : UInt32 := 3

def getBaseType (sigHashType : SigHashType) : UInt32 := sigHashType.sigHash &&& 0x1f

def getForkValue (sigHashType : SigHashType) : UInt32 := sigHashType.sigHash >>> 8

def withForkValue (sigHashType : SigHashType) (forkId : UInt32) : SigHashType where
  sigHash := (forkId <<< 8) ||| (sigHashType.sigHash &&& 0xff)

def hasForkId (sigHashType : SigHashType) : Bool := sigHashType.sigHash &&& 0x40 ≠ 0

def hasAnyoneCanPay (sigHashType : SigHashType) : Bool := sigHashType.sigHash &&& 0x80 ≠ 0

end SigHashType

def SCRIPT_ENABLE_SIGHASH_FORKID : UInt32 := (1 : UInt32) <<< 16

def SCRIPT_ENABLE_REPLAY_PROTECTION : UInt32 := (1 : UInt32) <<< 17

/-!
## Serialization for the types without a fork id
-/

def codeSeparatorsLoop : Nat -> Bytes -> Nat
  | 0, _ => 0
  | rounds + 1, it =>
    match getScriptOp it with
    | (none, _) => 0
    | (some (opcode, _), it) =>
      (if opcode = OP_CODESEPARATOR then 1 else 0) + codeSeparatorsLoop rounds it

/-- Write the code between the separators.  When an operation cannot be read, the code is
written up to where the iterator stopped. -/
def scriptCodeLoop : Nat -> Bytes -> Bytes -> Bytes
  | 0, _, _ => []
  | rounds + 1, it, itBegin =>
    match getScriptOp it with
    | (none, it) => if itBegin = [] then [] else itBegin.take (itBegin.length - it.length)
    | (some (opcode, _), it) =>
      if opcode = OP_CODESEPARATOR then
        itBegin.take (itBegin.length - it.length - 1) ++ scriptCodeLoop rounds it it
      else scriptCodeLoop rounds it itBegin

def serializeScriptCode (scriptCode : CScript) : Bytes :=
  let rounds := scriptCode.bytes.length + 1
  writeCompactSize (scriptCode.bytes.length - codeSeparatorsLoop rounds scriptCode.bytes) ++
    scriptCodeLoop rounds scriptCode.bytes scriptCode.bytes

section Serializer

variable (txTo : CTransaction) (scriptCode : CScript) (nIn : Nat) (sigHashType : SigHashType)

def serializeInput (nInput : Nat) : Bytes :=
  let nInput := if sigHashType.hasAnyoneCanPay then nIn else nInput
  match txTo.vin[nInput]? with
  | none => []
  | some txin =>
    txin.prevout.serialize ++
      (if nInput ≠ nIn then CScript.empty.serialize else serializeScriptCode scriptCode) ++
      (if nInput ≠ nIn ∧ (sigHashType.getBaseType = SigHashType.SINGLE ∨
          sigHashType.getBaseType = SigHashType.NONE) then serializeInt32 0
        else serializeUInt32 txin.nSequence)

def serializeOutput (nOutput : Nat) : Bytes :=
  if sigHashType.getBaseType = SigHashType.SINGLE ∧ nOutput ≠ nIn then CTxOut.null.serialize
  else
    match txTo.vout[nOutput]? with
    | none => []
    | some txout => txout.serialize

def serializeForSignature : Bytes :=
  let nInputs := if sigHashType.hasAnyoneCanPay then 1 else txTo.vin.length
  let nOutputs :=
    if sigHashType.getBaseType = SigHashType.NONE then 0
    else if sigHashType.getBaseType = SigHashType.SINGLE then nIn + 1
    else txTo.vout.length
  serializeInt32 txTo.nVersion ++ writeCompactSize nInputs ++
    (range nInputs).flatMap (serializeInput txTo scriptCode nIn sigHashType) ++
    writeCompactSize nOutputs ++
    (range nOutputs).flatMap (serializeOutput txTo nIn sigHashType) ++
    serializeUInt32 txTo.nLockTime

end Serializer

/-!
## The hash
-/

/-- What is hashed twice for a signature, if the result is such a hash at all. -/
inductive SignatureMessage where
  | hashed (data : Bytes)
  | one
deriving DecidableEq, Repr

structure PrecomputedTransactionData where
  hashPrevouts : Bytes
  hashSequence : Bytes
  hashOutputs : Bytes

def HasFlag (flags flag : UInt32) : Prop := flags &&& flag ≠ 0

instance (flags flag : UInt32) : Decidable (HasFlag flags flag) :=
  inferInstanceAs (Decidable (_ ≠ _))

section Hash

variable (sha256d : Bytes -> Bytes)

def getPrevoutHash (txTo : CTransaction) : Bytes :=
  sha256d (txTo.vin.flatMap fun txin => txin.prevout.serialize)

def getSequenceHash (txTo : CTransaction) : Bytes :=
  sha256d (txTo.vin.flatMap fun txin => serializeUInt32 txin.nSequence)

def getOutputsHash (txTo : CTransaction) : Bytes :=
  sha256d (txTo.vout.flatMap CTxOut.serialize)

def PrecomputedTransactionData.ofTx (txTo : CTransaction) : PrecomputedTransactionData where
  hashPrevouts := getPrevoutHash sha256d txTo
  hashSequence := getSequenceHash sha256d txTo
  hashOutputs := getOutputsHash sha256d txTo

section Parts

variable (txTo : CTransaction) (nIn : Nat) (sigHashType : SigHashType)
  (cache : Option PrecomputedTransactionData)

def hashPrevouts : Bytes :=
  if sigHashType.hasAnyoneCanPay then Uint256.zero.bytes
  else
    match cache with
    | some cache => cache.hashPrevouts
    | none => getPrevoutHash sha256d txTo

def hashSequence : Bytes :=
  if ¬ sigHashType.hasAnyoneCanPay ∧ sigHashType.getBaseType ≠ SigHashType.SINGLE ∧
      sigHashType.getBaseType ≠ SigHashType.NONE then
    match cache with
    | some cache => cache.hashSequence
    | none => getSequenceHash sha256d txTo
  else Uint256.zero.bytes

def hashOutputs : Bytes :=
  if sigHashType.getBaseType ≠ SigHashType.SINGLE ∧ sigHashType.getBaseType ≠ SigHashType.NONE then
    match cache with
    | some cache => cache.hashOutputs
    | none => getOutputsHash sha256d txTo
  else if sigHashType.getBaseType = SigHashType.SINGLE then
    match txTo.vout[nIn]? with
    | some txout => sha256d txout.serialize
    | none => Uint256.zero.bytes
  else Uint256.zero.bytes

end Parts

def replayProtected (sigHashType : SigHashType) : SigHashType :=
  sigHashType.withForkValue (0xff0000 ||| (sigHashType.getForkValue ^^^ 0xdead))

/-- Without an input of the index an assertion fails. -/
def signatureMessage (scriptCode : CScript) (txTo : CTransaction) (nIn : Nat)
    (sigHashType : SigHashType) (amount : Int64) (cache : Option PrecomputedTransactionData)
    (flags : UInt32) : Option SignatureMessage :=
  match txTo.vin[nIn]? with
  | none => none
  | some txin =>
    let sigHashType :=
      if HasFlag flags SCRIPT_ENABLE_REPLAY_PROTECTION then replayProtected sigHashType
      else sigHashType
    if sigHashType.hasForkId ∧ HasFlag flags SCRIPT_ENABLE_SIGHASH_FORKID then
      some (.hashed ( serializeInt32 txTo.nVersion ++ hashPrevouts sha256d txTo sigHashType cache ++
        hashSequence sha256d txTo sigHashType cache ++
        txin.prevout.serialize ++
        scriptCode.serialize ++
        serializeInt64 amount ++
        serializeUInt32 txin.nSequence ++
        hashOutputs sha256d txTo nIn sigHashType cache ++
        serializeUInt32 txTo.nLockTime ++
        serializeUInt32 sigHashType.sigHash))
    else if sigHashType.getBaseType = SigHashType.SINGLE ∧ nIn ≥ txTo.vout.length then
      some .one
    else
      some (.hashed ( serializeForSignature txTo scriptCode nIn sigHashType ++
        serializeUInt32 sigHashType.sigHash))

def SignatureMessage.hash : SignatureMessage -> Bytes
  | hashed data => sha256d data
  | one => 1 :: replicate 31 0

def signatureHash (scriptCode : CScript) (txTo : CTransaction) (nIn : Nat)
    (sigHashType : SigHashType) (amount : Int64) (cache : Option PrecomputedTransactionData)
    (flags : UInt32) : Option Bytes :=
  (signatureMessage sha256d scriptCode txTo nIn sigHashType amount cache flags).map
    (SignatureMessage.hash sha256d)

end Hash

end ECash.Interpreter
