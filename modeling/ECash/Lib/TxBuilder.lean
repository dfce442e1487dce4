import Mathlib.Data.Rat.Floor
import ECash.Foundation.Effect
import ECash.Lib.SigHash

/-!
# The transaction builder

A builder refers to objects of its caller.  It signs a transaction made of copies of them: a
first time with signatures of the right length to measure the transaction, and a second time
when the leftover value is known.
-/

namespace ECash.Lib

open Foundation List

/-- What the signatures of an elliptic curve are computed with.  Public keys and Schnorr
signatures have a fixed length. -/
structure Ecc where
  derivePubkey : Bytes -> Bytes
  ecdsaSign : Bytes -> Bytes -> Bytes
  schnorrSign : Bytes -> Bytes -> Bytes
  derivePubkey_length : forall seckey, (derivePubkey seckey).length = 33
  schnorrSign_length : forall seckey msg, (schnorrSign seckey msg).length = 64

/-- Always zeros, of the length a signature has at most. -/
def EccDummy : Ecc where
  derivePubkey := fun _ => replicate 33 0
  ecdsaSign := fun _ _ => replicate 73 0
  schnorrSign := fun _ _ => replicate 64 0
  derivePubkey_length := fun _ => length_replicate
  schnorrSign_length := fun _ _ => length_replicate

abbrev Signatory := Ecc -> UnsignedTxInput -> Except LibError Script

/-- The objects inputs and outputs are, under the numbers they are referred to by. -/
structure Heap where
  inputs : List TxInput
  outputs : List TxOutput

structure TxBuilderInput where
  input : Nat
  signatory : Option Signatory

inductive TxBuilderOutput where
  | fixed (output : Nat)
  | leftover (script : Script)

structure TxBuilder where
  version : Int
  inputs : List TxBuilderInput
  outputs : List TxBuilderOutput
  locktime : Int

/-- A transaction as the arrays of its objects. -/
structure TxObject where
  version : Int
  inputs : List Nat
  outputs : List Nat
  locktime : Int

structure UnsignedTxObject where
  tx : TxObject
  prevoutsHash : Bytes
  sequencesHash : Bytes
  outputsHash : Bytes

abbrev Build := Effect Heap LibError

def undefinedObject : LibError := .other "Cannot read properties of undefined"

/-!
## Objects
-/

def readInput (ref : Nat) : Build TxInput := do
  let heap ← Effect.read
  match heap.inputs[ref]? with
  | some input => pure input
  | none => Effect.fail undefinedObject

def readOutput (ref : Nat) : Build TxOutput := do
  let heap ← Effect.read
  match heap.outputs[ref]? with
  | some output => pure output
  | none => Effect.fail undefinedObject

def newInput (input : TxInput) : Build Nat := do
  let heap ← Effect.read
  Effect.write { heap with inputs := heap.inputs ++ [input] }
  pure heap.inputs.length

def newOutput (output : TxOutput) : Build Nat := do
  let heap ← Effect.read
  Effect.write { heap with outputs := heap.outputs ++ [output] }
  pure heap.outputs.length

def setScript (ref : Nat) (script : Script) : Build Unit := do
  let input ← readInput ref
  let heap ← Effect.read
  Effect.write { heap with inputs := heap.inputs.set ref { input with script := some script } }

def setValue (ref : Nat) (value : Int) : Build Unit := do
  let output ← readOutput ref
  let heap ← Effect.read
  Effect.write { heap with outputs := heap.outputs.set ref { output with value } }

def readInputs : List Nat -> Build (List TxInput)
  | [] => pure []
  | ref :: refs => do
      let input ← readInput ref
      let inputs ← readInputs refs
      pure (input :: inputs)

def readOutputs : List Nat -> Build (List TxOutput)
  | [] => pure []
  | ref :: refs => do
      let output ← readOutput ref
      let outputs ← readOutputs refs
      pure (output :: outputs)

def TxObject.read (tx : TxObject) : Build Tx := do
  let inputs ← readInputs tx.inputs
  let outputs ← readOutputs tx.outputs
  pure { version := tx.version, inputs, outputs, locktime := tx.locktime }

def UnsignedTxObject.read (unsignedTx : UnsignedTxObject) : Build UnsignedTx := do
  let tx ← unsignedTx.tx.read
  pure
    { tx, prevoutsHash := unsignedTx.prevoutsHash,
      sequencesHash := unsignedTx.sequencesHash, outputsHash := unsignedTx.outputsHash }

def UnsignedTx.toObject (unsignedTx : UnsignedTx) (tx : TxObject) : UnsignedTxObject where
  tx
  prevoutsHash := unsignedTx.prevoutsHash
  sequencesHash := unsignedTx.sequencesHash
  outputsHash := unsignedTx.outputsHash

def copyTxInput (ref : Nat) : Build Nat := do
  let input ← readInput ref
  newInput input

def copyTxOutput (ref : Nat) : Build Nat := do
  let output ← readOutput ref
  newOutput output

/-!
## Signing
-/

def calcTxFee (txSize : Nat) (feePerKb : Int) : Int :=
  (txSize * feePerKb + 999).tdiv 1000

namespace TxBuilder

/-- The sum of all sats coming in, or nothing if some are not known. -/
def inputSumLoop : List TxBuilderInput -> Int -> Build (Option Int)
  | [], inputSum => pure (some inputSum)
  | builderInput :: inputs, inputSum => do
      let input ← readInput builderInput.input
      match input.signData with
      | none => pure none
      | some signData => inputSumLoop inputs (inputSum + signData.value)

def inputSum (builder : TxBuilder) : Build (Option Int) :=
  inputSumLoop builder.inputs 0

structure Prepared where
  fixedOutputSum : Int
  leftoverIdx : Option Nat
  outputs : List Nat

def prepareOutput (prepared : Prepared) : TxBuilderOutput -> Build Prepared
  | .leftover script =>
    match prepared.leftoverIdx with
    | some _ => Effect.fail .multipleLeftover
    | none => do
        -- The value is a placeholder.
        let output ← newOutput { value := 0, script }
        pure
          { prepared with
            leftoverIdx := some prepared.outputs.length,
            outputs := prepared.outputs ++ [output] }
  | .fixed ref => do
      let output ← readOutput ref
      let copy ← copyTxOutput ref
      pure
        { prepared with
          fixedOutputSum := prepared.fixedOutputSum + output.value,
          outputs := prepared.outputs ++ [copy] }

def prepareOutputsLoop : List TxBuilderOutput -> Prepared -> Build Prepared
  | [], prepared => pure prepared
  | builderOutput :: outputs, prepared => do
      let prepared ← prepareOutput prepared builderOutput
      prepareOutputsLoop outputs prepared

def prepareOutputs (builder : TxBuilder) : Build Prepared :=
  prepareOutputsLoop builder.outputs { fixedOutputSum := 0, leftoverIdx := none, outputs := [] }

def copyInputs : List TxBuilderInput -> Build (List Nat)
  | [] => pure []
  | builderInput :: inputs => do
      let copy ← copyTxInput builderInput.input
      let copies ← copyInputs inputs
      pure (copy :: copies)

/-- Give each input with a signatory the script the signatory makes for it.  A signatory sees
the scripts given so far. -/
def signInputs (ecc : Ecc) (unsignedTx : UnsignedTxObject) :
    Nat -> List TxBuilderInput -> List Nat -> Build Unit
  | inputIdx, builderInput :: builderInputs, input :: inputs => do
      match builderInput.signatory with
      | none => signInputs ecc unsignedTx (inputIdx + 1) builderInputs inputs
      | some signatory => do
          let current ← unsignedTx.read
          let script ← Effect.ofExcept
            (signatory ecc { inputIdx, unsignedTx := current })
          setScript input script
          signInputs ecc unsignedTx (inputIdx + 1) builderInputs inputs
  | _, _, _ => pure ()

def txObject (builder : TxBuilder) (inputs outputs : List Nat) : TxObject where
  version := builder.version
  inputs
  outputs
  locktime := builder.locktime

/-- What the leftover output needs to be known of the inputs and the fees. -/
def leftoverParams (inputSum : Option Int) (feePerKb dustLimit : Option ℚ) :
    Except LibError (Int × Int × ℚ) :=
  match inputSum, feePerKb, dustLimit with
  | none, _, _ => .error .noInputValue
  | some _, none, _ => .error .noFeePerKb
  | some inputSum, some feePerKb, dustLimit =>
    if feePerKb.isInt then
      match dustLimit with
      | none => .error .noDustLimit
      | some dustLimit => .ok (inputSum, feePerKb.num, dustLimit)
    else .error .feePerKbNotInteger

/-- Measure the transaction that is signed for the size, and give the leftover output its value
or remove it. -/
def chooseLeftover (builder : TxBuilder) (prepared : Prepared) (leftoverIdx : Nat)
    (inputs : List Nat) (inputSum feePerKb : Int) (dustLimit : ℚ) : Build (List Nat) := do
  let dummyTx ← (builder.txObject inputs prepared.outputs).read
  let txFee := calcTxFee dummyTx.serSize feePerKb
  let leftoverValue := inputSum - (prepared.fixedOutputSum + txFee)
  if (leftoverValue : ℚ) < dustLimit then do
    let outputs := prepared.outputs.eraseIdx leftoverIdx
    let dummyTx ← (builder.txObject inputs outputs).read
    let txFee := calcTxFee dummyTx.serSize feePerKb
    if inputSum < prepared.fixedOutputSum + txFee then
      Effect.fail (.insufficientInputValue inputSum (inputSum - prepared.fixedOutputSum) txFee)
    else pure outputs
  else do
    match prepared.outputs[leftoverIdx]? with
    | none => Effect.fail undefinedObject
    | some leftover => do
        setValue leftover leftoverValue
        if inputSum < prepared.fixedOutputSum + txFee then
          Effect.fail (.insufficientInputValue inputSum (inputSum - prepared.fixedOutputSum) txFee)
        else pure prepared.outputs

def settleLeftover (builder : TxBuilder) (feePerKb dustLimit : Option ℚ) (prepared : Prepared)
    (leftoverIdx : Nat) (inputs : List Nat) : Build (List Nat) := do
  let inputSum ← builder.inputSum
  let (inputSum, feePerKb, dustLimit) ←
    Effect.ofExcept (leftoverParams inputSum feePerKb dustLimit)
  let tx := builder.txObject inputs prepared.outputs
  let dummyTx ← tx.read
  signInputs EccDummy ((UnsignedTx.dummyFromTx dummyTx).toObject tx) 0 builder.inputs inputs
  builder.chooseLeftover prepared leftoverIdx inputs inputSum feePerKb dustLimit

section Hash

variable (sha256d : Bytes -> Bytes)

def signOutputs (builder : TxBuilder) (ecc : Ecc) (inputs outputs : List Nat) : Build Tx := do
  let tx := builder.txObject inputs outputs
  let current ← tx.read
  let unsignedTx ← Effect.ofExcept (UnsignedTx.fromTx sha256d current)
  signInputs ecc (unsignedTx.toObject tx) 0 builder.inputs inputs
  tx.read

def sign (builder : TxBuilder) (ecc : Ecc) (feePerKb dustLimit : Option ℚ) : Build Tx := do
  let prepared ← builder.prepareOutputs
  let inputs ← copyInputs builder.inputs
  match prepared.leftoverIdx with
  | none => builder.signOutputs sha256d ecc inputs prepared.outputs
  | some leftoverIdx => do
      let outputs ← builder.settleLeftover feePerKb dustLimit prepared leftoverIdx inputs
      builder.signOutputs sha256d ecc inputs outputs

end Hash

end TxBuilder

end ECash.Lib
