import ECash.Lib.ScriptReading
import ECash.Lib.SlpSend

/-!
# Advertisements of one-shot offers

An offer of a token is locked in a covenant, and advertised by the input script that makes the
output with it.  A reader of the chain finds the offer from the transaction as the indexer
delivers it.
-/

namespace ECash.Agora

open Foundation Lib

-- "AGR0" and "ONESHOT".
def AGORA_LOKAD_ID : Bytes := [65, 71, 82, 48]
def COVENANT_VARIANT : Bytes := [79, 78, 69, 83, 72, 79, 84]

def OP_2 : Opcode := 0x52
def OP_IF : Opcode := 0x63
def OP_ELSE : Opcode := 0x67
def OP_ENDIF : Opcode := 0x68
def OP_3DUP : Opcode := 0x6f
def OP_DROP : Opcode := 0x75
def OP_NIP : Opcode := 0x77
def OP_OVER : Opcode := 0x78
def OP_ROT : Opcode := 0x7b
def OP_SWAP : Opcode := 0x7c
def OP_CAT : Opcode := 0x7e
def OP_SPLIT : Opcode := 0x7f
def OP_NUM2BIN : Opcode := 0x80
def OP_SHA256 : Opcode := 0xa8
def OP_HASH256 : Opcode := 0xaa
def OP_CHECKSIGVERIFY : Opcode := 0xad
def OP_CHECKDATASIGVERIFY : Opcode := 0xbb

def ALL_ANYONECANPAY_BIP143 : SigHashType :=
  { ALL_BIP143 with inputType := .anyonecanpay }

/-!
## Offers
-/

structure AgoraOneshot where
  enforcedOutputs : List TxOutput
  cancelPk : Bytes
deriving DecidableEq, Repr

def serOutputs (outputs : List TxOutput) : Except LibError Bytes :=
  write (outputs.flatMap writeTxOutput)

def covenantOps (enforcedOutputs hashOutputsIdx hashSize preimageSize sighashFlags cancelPk : Op) :
    List Op :=
  [.code OP_IF, enforcedOutputs, .code OP_SWAP, .code OP_CAT, .code OP_HASH256,
    .code OP_OVER, hashOutputsIdx, .code OP_SPLIT, .code OP_NIP, hashSize, .code OP_SPLIT,
    .code OP_DROP, .code OP_EQUALVERIFY, .code OP_2, preimageSize, .code OP_NUM2BIN,
    .code OP_SWAP, .code OP_CAT, .code OP_SHA256, .code OP_3DUP, .code OP_ROT,
    .code OP_CHECKDATASIGVERIFY, .code OP_DROP, sighashFlags, .code OP_CAT, .code OP_SWAP,
    .code OP_ELSE, cancelPk, .code OP_ENDIF, .code OP_CODESEPARATOR, .code OP_CHECKSIG]

def AgoraOneshot.script (offer : AgoraOneshot) : Except LibError Script := do
  let enforcedOutputsSer ← serOutputs offer.enforcedOutputs
  let enforcedOutputs ← pushBytesOp enforcedOutputsSer
  let hashOutputsIdx ← pushBytesOp [36 + 2 + 8 + 4]
  let hashSize ← pushBytesOp [32]
  let preimageSize ← pushBytesOp [4 + 32 + 32]
  let sighashFlags ← pushBytesOp [UInt8.ofNat ALL_ANYONECANPAY_BIP143.toInt]
  let cancelPk ← pushBytesOp offer.cancelPk
  Script.fromOps
    (covenantOps enforcedOutputs hashOutputsIdx hashSize preimageSize sighashFlags cancelPk)

/-- The script that advertises the offer: it asks for a signature by the key. -/
def AgoraOneshot.adScript (offer : AgoraOneshot) : Except LibError Script := do
  let outputsSer ← serOutputs offer.enforcedOutputs.tail
  let outputs ← pushBytesOp outputsSer
  let cancelPk ← pushBytesOp offer.cancelPk
  let covenantVariant ← pushBytesOp COVENANT_VARIANT
  let lokadId ← pushBytesOp AGORA_LOKAD_ID
  Script.fromOps
    [outputs, .code OP_DROP, cancelPk, .code OP_CHECKSIGVERIFY, covenantVariant,
      .code OP_EQUALVERIFY, lokadId, .code OP_EQUAL]

def AgoraOneshotAdSignatory (sha256d : Bytes -> Bytes) (cancelSk : Bytes) : Signatory :=
  fun ecc input => do
    let preimage ← input.sigHashPreimage sha256d ALL_BIP143 none
    let sighash := sha256d preimage.bytes
    let cancelSig ← flagSignature (ecc.schnorrSign cancelSk sighash) ALL_BIP143
    let lokadId ← pushBytesOp AGORA_LOKAD_ID
    let covenantVariant ← pushBytesOp COVENANT_VARIANT
    let sig ← pushBytesOp cancelSig
    let redeemScript ← pushBytesOp preimage.redeemScript.bytecode
    Script.fromOps [lokadId, covenantVariant, sig, redeemScript]

/-!
## Reading an offer from the script that advertised it
-/

def expectPush (message : String) (ops : Bytes) : Except LibError (Bytes × Bytes) :=
  match ops with
  | [] => .error (.other message)
  | byte :: bytes => do
    match ← readOp (byte :: bytes) with
    | (.push _ data, ops) => .ok (data, ops)
    | (.code _, _) => .error (.other message)

def expectCode (opcode : Opcode) (message : String) (ops : Bytes) : Except LibError Bytes :=
  match ops with
  | [] => .error (.other message)
  | byte :: bytes => do
    let (op, ops) ← readOp (byte :: bytes)
    if op = .code opcode then .ok ops else .error (.other message)

def readVarSize (bytes : Bytes) : Except LibError (Nat × Bytes) := do
  let (firstByte, bytes) ← readNumber 1 bytes
  if firstByte ≤ 0xfc then .ok (firstByte, bytes)
  else if firstByte = 0xfd then readNumber 2 bytes
  else if firstByte = 0xfe then readNumber 4 bytes
  else readNumber 8 bytes

def readTxOutput (bytes : Bytes) : Except LibError (TxOutput × Bytes) := do
  let (value, bytes) ← readNumber 8 bytes
  let (size, bytes) ← readVarSize bytes
  let (bytecode, bytes) ← readBytes size bytes
  .ok ({ value, script := { bytecode } }, bytes)

/-- An output takes a byte at least. -/
def readTxOutputs : Nat -> Bytes -> Except LibError (List TxOutput)
  | _, [] => .ok []
  | 0, _ :: _ => .ok []
  | rounds + 1, byte :: bytes => do
      let (output, rest) ← readTxOutput (byte :: bytes)
      let outputs ← readTxOutputs rounds rest
      .ok (output :: outputs)

def AgoraOneshot.fromRedeemScript (redeemScript opreturnScript : Script) :
    Except LibError AgoraOneshot := do
  let (outputsSer, ops) ← expectPush "Op 0 expected to be pushop for outputsSer"
    redeemScript.bytecode
  let ops ← expectCode OP_DROP "Op 1 expected to be OP_DROP" ops
  let (cancelPk, ops) ← expectPush "Op 2 expected to be pushop for cancelPk" ops
  if cancelPk.length ≠ 33 then
    .error (.other "Expected cancelPk to be 33 bytes")
  else do
    let ops ← expectCode OP_CHECKSIGVERIFY "Op 3 expected to be OP_CHECKSIGVERIFY" ops
    let (_, ops) ← expectPush "Op 4 expected to be pushop for covenantVariant" ops
    let ops ← expectCode OP_EQUALVERIFY "Op 5 expected to be OP_CHECKSIGVERIFY" ops
    let _ ← expectPush "Op 6 expected to be pushop for covenantVariant" ops
    let outputs ← readTxOutputs outputsSer.length outputsSer
    .ok
      { enforcedOutputs := { value := 0, script := opreturnScript } :: outputs
        cancelPk }

/-!
## Transactions of the indexer
-/

inductive TokenProtocol where
  | SLP
  | ALP
deriving DecidableEq, Repr

structure TokenEntry where
  tokenId : HexTxid
  protocol : TokenProtocol
  number : Nat

structure OutputInNode where
  value : Int
  outputScript : Bytes
  /-- The amount, if there is a token at the output. -/
  token : Option UInt64
  spentBy : Option OutPoint

structure TxInNode where
  txid : Txid
  inputScripts : List Bytes
  outputs : List OutputInNode
  tokenEntries : List TokenEntry

structure ParsedAd where
  params : AgoraOneshot
  outpoint : OutPoint
  txBuilderInput : TxInput
  spentBy : Option OutPoint

structure ParsedAdSlp where
  covenantVariant : Bytes
  pushdata : List Bytes
  redeemScript : Script

def MIN_NUM_SCRIPTSIG_PUSHOPS : Nat := 3

/-- The operation `OP_0` is the number zero, which ends the loop like the end of the script. -/
def scriptSigPushes : Nat -> Bytes -> Except LibError (Option (List Bytes))
  | _, [] => .ok (some [])
  | 0, _ :: _ => .ok none
  | rounds + 1, byte :: bytes => do
      match ← readOp (byte :: bytes) with
      | (.code opcode, _) => .ok (if opcode = OP_0 then some [] else none)
      | (.push _ data, rest) => do
          let pushdata ← scriptSigPushes rounds rest
          .ok (pushdata.map fun pushdata => data :: pushdata)

/-- Bytes that decode to a text of ASCII characters; a byte order mark is dropped. -/
def decodesTo (bytes text : Bytes) : Prop :=
  bytes = text ∨ bytes = [0xef, 0xbb, 0xbf] ++ text

instance (bytes text : Bytes) : Decidable (decodesTo bytes text) := by
  unfold decodesTo
  infer_instance

def parseAdScriptSig (scriptSig : Bytes) : Except LibError (Option ParsedAdSlp) := do
  match ← scriptSigPushes scriptSig.length scriptSig with
  | none => .ok none
  | some pushdata =>
    if pushdata.length < MIN_NUM_SCRIPTSIG_PUSHOPS then .ok none
    else if ¬ decodesTo (pushdata.getD 0 []) AGORA_LOKAD_ID then .ok none
    else
      .ok (some
        { covenantVariant := pushdata.getD 1 []
          pushdata := (pushdata.drop 2).dropLast
          redeemScript := { bytecode := pushdata.getLastD [] } })

/-- The hash that addresses of scripts are made of. -/
structure ScriptHash where
  shaRmd160 : Bytes -> Bytes
  length : forall bytes, (shaRmd160 bytes).length = 20

def p2sh (scriptHash : Bytes) : Except LibError Script :=
  if scriptHash.length ≠ 20 then
    .error (.other ("scriptHash length must be 20, got " ++ toString scriptHash.length))
  else do
    let push ← pushBytesOp scriptHash
    Script.fromOps [.code OP_HASH160, push, .code OP_EQUAL]

def parseOffer (sha : ScriptHash) (txid : Txid) (offerOutput : OutputInNode)
    (opreturnScript : Script) (parsedAd : ParsedAdSlp) : Except LibError (Option ParsedAd) :=
  if ¬ decodesTo parsedAd.covenantVariant COVENANT_VARIANT then .ok none
  else
    match AgoraOneshot.fromRedeemScript parsedAd.redeemScript opreturnScript with
    | .error _ => .ok none
    | .ok agoraOneshot => do
        let expectedAgoraScript ← agoraOneshot.script
        let expectedAgoraP2sh ← p2sh (sha.shaRmd160 expectedAgoraScript.bytecode)
        if offerOutput.outputScript ≠ expectedAgoraP2sh.bytecode then .ok none
        else
          let outpoint : OutPoint := { txid, outIdx := 1 }
          .ok (some
            { params := agoraOneshot
              outpoint
              txBuilderInput :=
                { prevOut := outpoint
                  script := none
                  sequence := none
                  signData := some
                    { value := offerOutput.value
                      outputScript := none
                      redeemScript := some expectedAgoraScript } }
              spentBy := offerOutput.spentBy })

def parseTokenAd (sha : ScriptHash) (txid : Txid) (inputScript : Bytes)
    (offerOutput : OutputInNode) (tokenEntry : TokenEntry) (amount : UInt64) :
    Except LibError (Option ParsedAd) := do
  let opreturnScript ← slpSend tokenEntry.tokenId.digits tokenEntry.number [0, amount.toNat]
  match ← parseAdScriptSig inputScript with
  | none => .ok none
  | some parsedAd => parseOffer sha txid offerOutput opreturnScript parsedAd

/-- The script of the first input, the second output and the first entry are read. -/
def parseAgoraTx (sha : ScriptHash) (tx : TxInNode) : Except LibError (Option ParsedAd) :=
  match tx.inputScripts[0]?, tx.outputs[1]?, tx.tokenEntries[0]? with
  | some inputScript, some offerOutput, some tokenEntry =>
    match offerOutput.token, tokenEntry.protocol with
    | some amount, .SLP => parseTokenAd sha tx.txid inputScript offerOutput tokenEntry amount
    | _, _ => .ok none
  | _, _, _ => .ok none

end ECash.Agora
