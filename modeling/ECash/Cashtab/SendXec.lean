import ECash.Lib.P2pkh

/-!
# Sending from a wallet

`sendXec` collects inputs until they pay for the outputs and the fee, and broadcasts the
transaction.
-/

namespace ECash.Cashtab

open Foundation
open Lib

def dustSats : Int := 546

/-- The keys of one address of a wallet. -/
structure WalletPath where
  privateKey : Bytes
  hash : Bytes
  hash_length : hash.length = 20

structure Utxo where
  outpoint : OutPoint
  value : Int
  isCoinbase : Bool
  blockHeight : Int
  path : Nat

structure Wallet where
  paths : Nat -> WalletPath
  nonSlpUtxos : List Utxo

/-- An output of the transaction to be; one without a script may be for the wallet itself. -/
structure TargetOutput where
  value : Int
  script : Option Script
  otherKeys : Bool

/-- An input that has its signatory already. -/
structure FinalizedInput where
  prevOut : OutPoint
  script : Option Script
  sequence : Option Int
  signData : SignData
  signatory : Signatory

inductive RequiredInput where
  | finalized (input : FinalizedInput)
  | wallet (utxo : Utxo)

def RequiredInput.value : RequiredInput -> Int
  | finalized input => input.signData.value
  | wallet utxo => utxo.value

inductive SendError where
  | lib (error : LibError)
  | belowDust
  | insufficientFunds

/-- What is given to the node: the transaction and its bytes. -/
structure Broadcast where
  tx : Tx
  bytes : Bytes

/-- An input for the builder, by value. -/
structure ReadyInput where
  input : TxInput
  signatory : Signatory

def isTokenDustChangeOutput (targetOutput : TargetOutput) : Bool :=
  targetOutput.script.isNone && !targetOutput.otherKeys && targetOutput.value == dustSats

def COINBASE_REQUIRED_CONFS_TO_SPEND : Int := 100

def ignoreUnspendableUtxos (unfilteredUtxos : List Utxo) (chaintipBlockheight : Int) : List Utxo :=
  unfilteredUtxos.filter fun utxo =>
    !utxo.isCoinbase ||
      decide (chaintipBlockheight ≥ utxo.blockHeight + COINBASE_REQUIRED_CONFS_TO_SPEND)

def changeScript (wallet : Wallet) : Except LibError Script :=
  Script.p2pkh (wallet.paths 1899).hash

def resolveOutputs (wallet : Wallet) : List TargetOutput -> Except LibError (List TxOutput)
  | [] => .ok []
  | targetOutput :: targetOutputs =>
    match targetOutput.script with
    | some script => do
        let outputs ← resolveOutputs wallet targetOutputs
        .ok ({ value := targetOutput.value, script } :: outputs)
    | none =>
      if isTokenDustChangeOutput targetOutput then do
        let script ← changeScript wallet
        let outputs ← resolveOutputs wallet targetOutputs
        .ok ({ value := targetOutput.value, script } :: outputs)
      else resolveOutputs wallet targetOutputs

section Send

variable (sha256d : Bytes -> Bytes) (ecc : Ecc) (wallet : Wallet)

def walletInput (utxo : Utxo) : Except LibError ReadyInput := do
  let sk := (wallet.paths utxo.path).privateKey
  let pk := ecc.derivePubkey sk
  let outputScript ← Script.p2pkh (wallet.paths utxo.path).hash
  .ok
    { input :=
        { prevOut := utxo.outpoint, script := none, sequence := none,
          signData := some
            { value := utxo.value, outputScript := some outputScript, redeemScript := none } },
      signatory := P2PKHSignatory sha256d sk pk ALL_BIP143 }

def readyInput : RequiredInput -> Except LibError ReadyInput
  | .finalized input =>
    .ok
      { input :=
          { prevOut := input.prevOut, script := input.script, sequence := input.sequence,
            signData := some input.signData },
        signatory := input.signatory }
  | .wallet utxo => walletInput sha256d ecc wallet utxo

structure Selection where
  inputs : List ReadyInput
  inputSatoshis : Int
  needsAnotherUtxo : Bool

def builderOf (inputs : List ReadyInput) (outputs : List TxOutput) (change : Script) :
    TxBuilder where
  version := DEFAULT_TX_VERSION
  inputs := inputs.zipIdx.map fun entry => ⟨entry.2, some entry.1.signatory⟩
  outputs := (List.range outputs.length).map .fixed ++ [.leftover change]
  locktime := 0

def heapOf (inputs : List ReadyInput) (outputs : List TxOutput) : Heap where
  inputs := inputs.map ReadyInput.input
  outputs

variable (outputs : List TxOutput) (change : Script) (satsPerKb : ℚ) (satoshisToSend : Int)

def signSelected (inputs : List ReadyInput) : Except LibError Tx :=
  ((builderOf inputs outputs change).sign sha256d ecc (some satsPerKb)
    (some (dustSats : ℚ)) (heapOf inputs outputs)).1

def broadcast (tx : Tx) : Except SendError Broadcast :=
  match tx.ser with
  | .ok bytes => .ok { tx, bytes }
  | .error error => .error (.lib error)

/-- Add the utxo if the inputs so far are known not to pay. -/
def addIfNeeded (selection : Selection) (utxo : Utxo) : Except LibError Selection :=
  if selection.needsAnotherUtxo then do
    let input ← walletInput sha256d ecc wallet utxo
    let inputSatoshis := selection.inputSatoshis + utxo.value
    .ok
      { inputs := selection.inputs ++ [input], inputSatoshis,
        needsAnotherUtxo := decide (inputSatoshis ≤ satoshisToSend) }
  else .ok selection

def selectLoop : List Utxo -> Selection -> Except SendError Broadcast
  | [], _ => .error .insufficientFunds
  | utxo :: utxos, selection =>
    match addIfNeeded sha256d ecc wallet satoshisToSend selection utxo with
    | .error error => .error (.lib error)
    | .ok selection =>
      if selection.needsAnotherUtxo then selectLoop utxos selection
      else
        match signSelected sha256d ecc outputs change satsPerKb selection.inputs with
        | .ok tx => broadcast tx
        | .error (.insufficientInputValue _ _ _) =>
          selectLoop utxos { selection with needsAnotherUtxo := true }
        | .error error => .error (.lib error)

end Send

def sendXec (sha256d : Bytes -> Bytes) (ecc : Ecc) (wallet : Wallet)
    (targetOutputs : List TargetOutput) (satsPerKb : ℚ) (chaintipBlockheight : Int)
    (requiredInputs : List RequiredInput) : Except SendError Broadcast := do
  let outputs ← (resolveOutputs wallet targetOutputs).mapError .lib
  let satoshisToSend := (outputs.map TxOutput.value).sum
  if satoshisToSend < dustSats then .error .belowDust
  else
    let change ← (changeScript wallet).mapError .lib
    let spendableUtxos := ignoreUnspendableUtxos wallet.nonSlpUtxos chaintipBlockheight
    let inputs ← (requiredInputs.mapM (readyInput sha256d ecc wallet)).mapError .lib
    let inputSatoshis := (requiredInputs.map RequiredInput.value).sum
    selectLoop sha256d ecc wallet outputs change satsPerKb satoshisToSend spendableUtxos
      { inputs, inputSatoshis,
        needsAnotherUtxo := decide (inputSatoshis ≤ satoshisToSend) }

end ECash.Cashtab
