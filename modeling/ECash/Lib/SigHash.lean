import ECash.Lib.Tx

/-!
# Signing an input

What is signed for an input is the hash of a preimage of the transaction.  The parts of the
preimage that are the same for all inputs are hashed once.
-/

namespace ECash.Lib

open Foundation

inductive SigHashTypeVariant where
  | legacy
  | bip143
deriving DecidableEq, Repr

inductive SigHashTypeInputs where
  | fixed
  | anyonecanpay
deriving DecidableEq, Repr

inductive SigHashTypeOutputs where
  | all
  | none
  | single
deriving DecidableEq, Repr

structure SigHashType where
  variant : SigHashTypeVariant
  inputType : SigHashTypeInputs
  outputType : SigHashTypeOutputs
deriving DecidableEq, Repr

def SigHashTypeVariant.flags : SigHashTypeVariant -> Nat
  | legacy => 0
  | bip143 => 0x40

def SigHashTypeInputs.flags : SigHashTypeInputs -> Nat
  | fixed => 0
  | anyonecanpay => 0x80

def SigHashTypeOutputs.flags : SigHashTypeOutputs -> Nat
  | all => 1
  | none => 2
  | single => 3

def SigHashType.toInt (sigHashType : SigHashType) : Nat :=
  sigHashType.variant.flags ||| sigHashType.inputType.flags ||| sigHashType.outputType.flags

def ALL_BIP143 : SigHashType where
  variant := .bip143
  inputType := .fixed
  outputType := .all

structure UnsignedTx where
  tx : Tx
  prevoutsHash : Bytes
  sequencesHash : Bytes
  outputsHash : Bytes

def zeroHash : Bytes := List.replicate 32 0

def writePrevouts (tx : Tx) : List Put :=
  tx.inputs.flatMap fun input => writeOutPoint input.prevOut

def writeSequences (tx : Tx) : List Put :=
  tx.inputs.flatMap fun input => [.u32 input.sequenceOrDefault]

def writeOutputs (tx : Tx) : List Put :=
  tx.outputs.flatMap writeTxOutput

def signDataScriptCode (signData : SignData) : Except LibError Script :=
  match signData.outputScript with
  | some outputScript =>
    if outputScript.isP2sh then .error .outputScriptIsP2sh
    else .ok outputScript
  | none =>
    match signData.redeemScript with
    | none => .error .noScript
    | some redeemScript => .ok redeemScript

structure UnsignedTxInput where
  inputIdx : Nat
  unsignedTx : UnsignedTx

structure SighashPreimage where
  bytes : Bytes
  scriptCode : Script
  redeemScript : Script

section Hash

variable (sha256d : Bytes -> Bytes)

def txWriterHash (puts : List Put) : Except LibError Bytes := do
  let data ← write puts
  .ok (sha256d data)

def UnsignedTx.fromTx (tx : Tx) : Except LibError UnsignedTx := do
  let prevoutsHash ← txWriterHash sha256d (writePrevouts tx)
  let sequencesHash ← txWriterHash sha256d (writeSequences tx)
  let outputsHash ← txWriterHash sha256d (writeOutputs tx)
  .ok
    { tx, prevoutsHash, sequencesHash,
      outputsHash }

/-- For the estimation of sizes. -/
def UnsignedTx.dummyFromTx (tx : Tx) : UnsignedTx where
  tx
  prevoutsHash := zeroHash
  sequencesHash := zeroHash
  outputsHash := zeroHash

namespace UnsignedTxInput

def hashOutputs (input : UnsignedTxInput) : SigHashTypeOutputs -> Except LibError Bytes
  | .all => .ok input.unsignedTx.outputsHash
  | .none => .ok zeroHash
  | .single =>
    match input.unsignedTx.tx.outputs[input.inputIdx]? with
    | some output => txWriterHash sha256d (writeTxOutput output)
    | none => .ok zeroHash

def writePreimage (unsignedTx : UnsignedTx) (txInput : TxInput) (signData : SignData)
    (scriptCode : Script) (hashOutputs : Bytes) (sigHashType : SigHashType) : List Put :=
  [.u32 unsignedTx.tx.version,
    .bytes (if sigHashType.inputType = .fixed then unsignedTx.prevoutsHash
      else zeroHash),
    .bytes (if sigHashType.inputType = .fixed ∧
        sigHashType.outputType = .all then unsignedTx.sequencesHash
      else zeroHash)] ++
    writeOutPoint txInput.prevOut ++ scriptCode.writeWithSize ++
    [.u64 signData.value, .u32 txInput.sequenceOrDefault, .bytes hashOutputs,
      .u32 unsignedTx.tx.locktime, .u32 sigHashType.toInt]

def sigHashPreimage (input : UnsignedTxInput) (sigHashType : SigHashType)
    (nCodesep : Option Nat) : Except LibError SighashPreimage := do
  if sigHashType.variant = .legacy then .error .legacySigHash
  else
    -- An index past the inputs reads an undefined object, whose fields cannot be read.
    match input.unsignedTx.tx.inputs[input.inputIdx]? with
    | none => .error (.other "Cannot read properties of undefined")
    | some txInput =>
      match txInput.signData with
      | none => .error .noSignData
      | some signData => do
          let redeemScript ← signDataScriptCode signData
          let scriptCode ← match nCodesep with
            | none => .ok redeemScript
            | some nCodesep => redeemScript.cutOutCodesep nCodesep
          let hashOutputs ← input.hashOutputs sha256d sigHashType.outputType
          let bytes ← write (writePreimage input.unsignedTx txInput signData scriptCode
            hashOutputs sigHashType)
          .ok { bytes, scriptCode, redeemScript }

end UnsignedTxInput

end Hash

end ECash.Lib
