import ECash.Tokens.Alp

/-!
# Colouring

The outputs of a transaction are coloured with the tokens its `OP_RETURN`, or
its CashTokens outputs, assign to them.  A section that cannot be coloured
leaves no trace but a report.
-/

namespace ECash.Tokens

open Foundation

/-!
## CashTokens prefixes
-/

namespace CashTokens

inductive ParseError where
  | missingCategory
  | missingCapabilities
  | invalidCapabilities (capabilities : UInt8)
  | invalidCommitmentLength
  | invalidCommitment (length : Nat)
  | invalidAmount
  deriving DecidableEq, Repr

structure ParsedData where
  tokenId : TokenId
  capabilities : UInt8
  commitment : Bytes
  amount : Amount
  deriving DecidableEq

def prefixToken : UInt8 := 0xef

def nftMutable : UInt8 := 0x01
def nftMinting : UInt8 := 0x02
def hasAmount : UInt8 := 0x10
def hasNft : UInt8 := 0x20
def hasCommitmentLength : UInt8 := 0x40
def allCapabilities : UInt8 := 0x73

def containsFlag (capabilities flag : UInt8) : Bool :=
  capabilities &&& flag = flag

def orFail {value : Type} (err : ParseError) (read : Reader DataError value) :
    Reader ParseError value :=
  fun bytecode => (read bytecode).mapError fun _ => err

def readCommitment (capabilities : UInt8) : Reader ParseError Bytes :=
  if containsFlag capabilities hasCommitmentLength then do
    let length <- orFail .invalidCommitmentLength readCompactSize
    orFail (.invalidCommitment length) (readBytes length)
  else
    return []

def readTokenAmount (capabilities : UInt8) : Reader ParseError Amount :=
  if containsFlag capabilities hasAmount then
    orFail .invalidAmount readCompactSize
  else
    return 0

def parseTokenData : Reader ParseError ParsedData := do
  let tokenId <- orFail .missingCategory (readArray 32)
  let capabilities <- orFail .missingCapabilities readByte
  if containsFlag allCapabilities capabilities = false ∨
      (containsFlag capabilities nftMutable ∧ containsFlag capabilities nftMinting) then
    throw (.invalidCapabilities capabilities)
  else
    let commitment <- readCommitment capabilities
    let amount <- readTokenAmount capabilities
    return {
      tokenId
      capabilities
      commitment
      amount }

def parseScript (script : Script) : Except ParseError (Option ParsedData) :=
  match script.bytecode with
  | [] => return none
  | first :: bytecode =>
    if first = prefixToken then
      (fun result => some result.1) <$> parseTokenData bytecode
    else
      return none

end CashTokens

/-!
## Transactions

The parts of a transaction that the colouring reads.
-/

structure OutPoint where
  txid : TxId
  outIdx : Nat
  deriving DecidableEq

structure Tx where
  txid : TxId
  inputs : List OutPoint
  outputs : List Script
  deriving DecidableEq

def CashTokens.hasAnyPrefixToken (tx : Tx) : Bool :=
  tx.outputs.any fun script => script.bytecode.head? = some CashTokens.prefixToken

/-!
## The coloured transaction
-/

structure ColoredTxSection where
  tokenMeta : TokenMeta
  txType : TxType
  requiredInputSum : Nat
  hasColoredOutOfRange : Bool
  genesisInfo : Option GenesisInfo
  deriving DecidableEq

inductive ParseError where
  | empp (error : Empp.ParseError)
  | slp (error : Slp.ParseError)
  | alp (error : Alp.ParseError)
  | cashTokens (error : CashTokens.ParseError)
  deriving DecidableEq

structure FailedParsing where
  pushdataIdx : Option Nat
  bytes : Bytes
  error : ParseError
  deriving DecidableEq

inductive ColorError where
  | tooFewOutputs (expected actual : Nat)
  | genesisMustBeFirst
  | descendingTokenType (before after : UInt8)
  | duplicateTokenId (prevSectionIdx : Nat) (tokenId : TokenId)
  | duplicateIntentionalBurnTokenId (prevBurnIdx burnIdx : Nat) (tokenId : TokenId)
  | overlappingAmount (prevToken : Token) (outputIdx : Nat) (amount : Amount)
  | overlappingMintBaton (prevToken : Token) (outputIdx : Nat)
  deriving DecidableEq

structure FailedColoring where
  pushdataIdx : Nat
  parsed : ParsedData
  error : ColorError
  deriving DecidableEq

structure IntentionalBurn where
  tokenMeta : TokenMeta
  amount : Amount
  deriving DecidableEq

structure ColoredTx where
  sections : List ColoredTxSection
  intentionalBurns : List IntentionalBurn
  outputs : List (Option TokenOutput)
  failedParsings : List FailedParsing
  failedColorings : List FailedColoring
  deriving DecidableEq

/-- Where the code would panic instead of returning. -/
inductive Panic where
  | coloringSlpFailed (error : ColorError)
  | indexOutOfBounds (len index : Nat)
  | missingSpentScripts
  | burnInSections
  | subtractOverflow
  deriving DecidableEq

def index {value : Type} (xs : List value) (i : Nat) : Except Panic value :=
  match xs[i]? with
  | some x => .ok x
  | none => .error (.indexOutOfBounds xs.length i)

/-!
## Colouring one section

A colouring either fails with an error, before anything is changed, or returns
the transaction with the section added.
-/

abbrev ColorM (value : Type) := ExceptT ColorError (Except Panic) value

abbrev Outputs := List (Option TokenOutput)

namespace ColoredTx

def token (tx : ColoredTx) (tokenOutput : TokenOutput) : Except Panic Token := do
  let sec <- index tx.sections tokenOutput.tokenIdx
  return { tokenMeta := sec.tokenMeta, variant := tokenOutput.variant }

/-- Whether the output is free; an index out of range is only remembered. -/
def checkOutput (tx : ColoredTx) (outputIdx : Nat) (overlapping : Token -> ColorError)
    (outOfRangeIdx : Option Nat) : ColorM (Option Nat) :=
  match tx.outputs[outputIdx]? with
  | some (some tokenOutput) => do
      let prevToken <- tx.token tokenOutput
      throw (overlapping prevToken)
  | some none => return outOfRangeIdx
  | none => return some outputIdx

def checkAmounts (tx : ColoredTx) : List (Nat × Amount) -> Option Nat -> ColorM (Option Nat)
  | [], outOfRangeIdx => return outOfRangeIdx
  | (outputIdx, amount) :: rest, outOfRangeIdx =>
    if amount ≠ 0 then do
      let outOfRangeIdx <- tx.checkOutput outputIdx
        (fun prevToken => .overlappingAmount prevToken outputIdx amount)
        outOfRangeIdx
      checkAmounts tx rest outOfRangeIdx
    else
      checkAmounts tx rest outOfRangeIdx

def checkBatons (tx : ColoredTx) : List Nat -> Option Nat -> ColorM (Option Nat)
  | [], outOfRangeIdx => return outOfRangeIdx
  | outputIdx :: rest, outOfRangeIdx => do
      let outOfRangeIdx <- tx.checkOutput outputIdx
        (fun prevToken => .overlappingMintBaton prevToken outputIdx)
        outOfRangeIdx
      checkBatons tx rest outOfRangeIdx

/-- ALP forbids amounts and batons for nonexistent outputs. -/
def checkOutOfRange (tx : ColoredTx) (tokenMeta : TokenMeta) (outOfRangeIdx : Option Nat) :
    ColorM Unit :=
  match outOfRangeIdx with
  | some outputIdx =>
    if tokenMeta.tokenType.isAlp then
      throw (.tooFewOutputs (outputIdx + 1) tx.outputs.length)
    else
      return ()
  | none => return ()

def colorMintAmounts (tokenIdx : Nat) : List (Nat × Amount) -> Outputs -> Outputs
  | [], outputs => outputs
  | (outputIdx, amount) :: rest, outputs =>
    if outputIdx ≥ outputs.length then
      outputs
    else if amount > 0 then
      colorMintAmounts tokenIdx rest
        (outputs.set outputIdx (some { tokenIdx, variant := .amount amount }))
    else
      colorMintAmounts tokenIdx rest outputs

def colorMintBatons (tokenIdx : Nat) : List Nat -> Outputs -> Outputs
  | [], outputs => outputs
  | outputIdx :: rest, outputs =>
    if outputIdx ≥ outputs.length then
      outputs
    else
      colorMintBatons tokenIdx rest
        (outputs.set outputIdx (some { tokenIdx, variant := .mintBaton }))

def colorMintData (tx : ColoredTx) (tokenMeta : TokenMeta) (mintData : ParsedMintData) :
    ColorM (Outputs × Bool) := do
  let tokenIdx := tx.sections.length
  let outOfRangeIdx <- tx.checkAmounts mintData.amountsRange none
  let outOfRangeIdx <- tx.checkBatons mintData.batonsRange outOfRangeIdx
  tx.checkOutOfRange tokenMeta outOfRangeIdx
  let outputs := colorMintAmounts tokenIdx mintData.amountsRange tx.outputs
  let outputs := colorMintBatons tokenIdx mintData.batonsRange outputs
  return (outputs, outOfRangeIdx.isSome)

def colorGenesis (tx : ColoredTx) (pushdataIdx : Nat) (tokenMeta : TokenMeta)
    (genesis : ParsedGenesis) : ColorM ColoredTx :=
  -- GENESIS must be the very first section in the pushdata.
  if pushdataIdx ≠ 0 then
    throw .genesisMustBeFirst
  else do
    let (outputs, hasColoredOutOfRange) <- tx.colorMintData tokenMeta genesis.mintData
    let sec : ColoredTxSection :=
      { tokenMeta
        txType := .genesis
        requiredInputSum := 0
        hasColoredOutOfRange
        genesisInfo := some genesis.info }
    return { tx with sections := tx.sections ++ [sec], outputs }

def colorMint (tx : ColoredTx) (tokenMeta : TokenMeta) (mint : ParsedMintData) :
    ColorM ColoredTx := do
  let (outputs, hasColoredOutOfRange) <- tx.colorMintData tokenMeta mint
  let sec : ColoredTxSection :=
    { tokenMeta
      txType := .mint
      requiredInputSum := 0
      hasColoredOutOfRange
      genesisInfo := none }
  return { tx with sections := tx.sections ++ [sec], outputs }

/-- Colour the outputs of a SEND and sum up the amounts sent. -/
def colorSendAmounts (tokenIdx : Nat) :
    List (Nat × Amount) -> Outputs -> Nat -> Outputs × Nat
  | [], outputs, requiredInputSum => (outputs, requiredInputSum)
  | (outputIdx, amount) :: rest, outputs, requiredInputSum =>
    if amount = 0 then
      colorSendAmounts tokenIdx rest outputs requiredInputSum
    else
      -- An output out of range is left alone, but still has to be paid for.
      colorSendAmounts tokenIdx rest
        (outputs.set outputIdx (some { tokenIdx, variant := .amount amount }))
        (requiredInputSum + amount)

def colorSend (tx : ColoredTx) (tokenMeta : TokenMeta) (amounts : List Amount) :
    ColorM ColoredTx := do
  let outOfRangeIdx <- tx.checkAmounts (outputAmounts amounts) none
  tx.checkOutOfRange tokenMeta outOfRangeIdx
  let (outputs, requiredInputSum) :=
    colorSendAmounts tx.sections.length (outputAmounts amounts) tx.outputs 0
  let sec : ColoredTxSection :=
    { tokenMeta
      txType := .send
      requiredInputSum
      hasColoredOutOfRange := outOfRangeIdx.isSome
      genesisInfo := none }
  return { tx with sections := tx.sections ++ [sec], outputs }

def colorBurn (tx : ColoredTx) (tokenMeta : TokenMeta) (amount : Amount) : ColorM ColoredTx :=
  match tx.intentionalBurns.findIdx? fun prevBurn =>
      prevBurn.tokenMeta.tokenId = tokenMeta.tokenId with
  | some prevBurnIdx =>
    throw (.duplicateIntentionalBurnTokenId prevBurnIdx
      tx.intentionalBurns.length tokenMeta.tokenId)
  | none =>
    return { tx with
      intentionalBurns :=
        tx.intentionalBurns ++ [{ tokenMeta, amount }] }

def colorUnknownOutputs (tokenOutput : TokenOutput) : Outputs -> Outputs
  | [] => []
  | opReturnOutput :: outputs =>
    opReturnOutput :: outputs.map fun output => some (output.getD tokenOutput)

def colorUnknown (tx : ColoredTx) (tokenMeta : TokenMeta) : ColoredTx :=
  let tokenOutput : TokenOutput :=
    { tokenIdx := tx.sections.length
      variant := .unknown tokenMeta.tokenType.toU8 }
  let sec : ColoredTxSection :=
    { tokenMeta
      txType := .unknown
      requiredInputSum := 0
      hasColoredOutOfRange := false
      genesisInfo := none }
  { tx with
    sections := tx.sections ++ [sec]
    outputs := colorUnknownOutputs tokenOutput tx.outputs }

/-- Duplicate token ids are reported here for MINT and SEND only. -/
def checkDuplicateTokenId (tx : ColoredTx) (parsed : ParsedData) : ColorM Unit :=
  if parsed.txType.txType = .mint ∨ parsed.txType.txType = .send then
    match tx.sections.findIdx? fun prevSection =>
        prevSection.tokenMeta.tokenId = parsed.tokenMeta.tokenId with
    | some prevSectionIdx => throw (.duplicateTokenId prevSectionIdx parsed.tokenMeta.tokenId)
    | none => return ()
  else
    return ()

def colorParsed (tx : ColoredTx) (pushdataIdx : Nat) (parsed : ParsedData) :
    ColorM ColoredTx := do
  tx.checkDuplicateTokenId parsed
  match parsed.txType with
  | .genesis genesis => tx.colorGenesis pushdataIdx parsed.tokenMeta genesis
  | .mint mint => tx.colorMint parsed.tokenMeta mint
  | .send amounts => tx.colorSend parsed.tokenMeta amounts
  | .burn amount => tx.colorBurn parsed.tokenMeta amount
  | .unknown => return tx.colorUnknown parsed.tokenMeta

/-- Token types must come in ascending order; the largest one seen is updated
even when the colouring fails later on. -/
def colorSection (tx : ColoredTx) (pushdataIdx : Nat) (parsed : ParsedData)
    (maxTokenType : UInt8) : Except Panic (UInt8 × Except ColorError ColoredTx) :=
  let tokenType := parsed.tokenMeta.tokenType.toU8
  if maxTokenType > tokenType then
    return (maxTokenType, .error (.descendingTokenType maxTokenType tokenType))
  else do
    let result <- (tx.colorParsed pushdataIdx parsed).run
    return (tokenType, result)

/-!
## Colouring a transaction
-/

structure AlpState where
  colored : ColoredTx
  maxTokenType : UInt8
  hasAnyAlp : Bool

def colorAlpPushdata (txid : TxId) (pushdataIdx : Nat) (pushdata : Bytes)
    (state : AlpState) : Except Panic AlpState :=
  let tx := state.colored
  match Alp.parseSection txid pushdata with
  | .ok none => return state
  | .error alpError =>
    let failedParsing : FailedParsing :=
      { pushdataIdx := some pushdataIdx
        bytes := pushdata
        error := .alp alpError }
    return { state with
      colored := { tx with failedParsings := tx.failedParsings ++ [failedParsing] }
      hasAnyAlp := true }
  | .ok (some parsed) => do
      let (maxTokenType, result) <- tx.colorSection pushdataIdx parsed state.maxTokenType
      match result with
      | .ok colored => return { colored, maxTokenType, hasAnyAlp := true }
      | .error error =>
        let failedColoring : FailedColoring :=
          { pushdataIdx, parsed, error }
        return {
          colored := { tx with failedColorings := tx.failedColorings ++ [failedColoring] }
          maxTokenType
          hasAnyAlp := true }

def colorAllAlpPushdata (txid : TxId) : Nat -> List Bytes -> AlpState -> Except Panic AlpState
  | _, [], state => return state
  | pushdataIdx, pushdata :: rest, state => do
      let state <- colorAlpPushdata txid pushdataIdx pushdata state
      colorAllAlpPushdata txid (pushdataIdx + 1) rest state

def uncolored (tx : Tx) : ColoredTx :=
  { sections := []
    intentionalBurns := []
    outputs := List.replicate tx.outputs.length none
    failedParsings := []
    failedColorings := [] }

/-- A transaction whose whole `OP_RETURN` could not be parsed. -/
def unparsed (tx : Tx) (opReturn : Script) (error : ParseError) : ColoredTx :=
  { uncolored tx with
    failedParsings :=
      [{ pushdataIdx := none, bytes := opReturn.bytecode, error }] }

def colorTxAlp (tx : Tx) (opReturn : Script) : Except Panic (Option ColoredTx) :=
  match Empp.parse opReturn with
  | .ok none => return none
  | .error emppErr => return some (unparsed tx opReturn (.empp emppErr))
  | .ok (some pushdata) => do
      let state <- colorAllAlpPushdata tx.txid 0 pushdata
        { colored := uncolored tx, maxTokenType := 0, hasAnyAlp := false }
      return if state.hasAnyAlp then some state.colored else none

/-- Parse the `OP_RETURN` of the transaction, as SLP first and as eMPP then, and
colour its outputs. -/
def colorTxOpreturn (tx : Tx) : Except Panic (Option ColoredTx) :=
  match tx.outputs.head? with
  | none => return none
  | some opReturn =>
    if opReturn.isOpreturn then
      match Slp.parse tx.txid opReturn with
      | .ok (some parsed) => do
          let (_, result) <- (uncolored tx).colorSection 0 parsed 0
          match result with
          | .ok colored => return some colored
          | .error error => throw (.coloringSlpFailed error)
      | .ok none => colorTxAlp tx opReturn
      | .error slpError => return some (unparsed tx opReturn (.slp slpError))
    else
      return none

/-- The section of a CashTokens token, which is added when it is missing. -/
def cashTokensSection (colored : ColoredTx) (tokenMeta : TokenMeta)
    (pregenesisInputIdx : Option Nat) : Nat × ColoredTx :=
  match colored.sections.findIdx? fun sec => sec.tokenMeta = tokenMeta with
  | some tokenIdx => (tokenIdx, colored)
  | none =>
    let sec : ColoredTxSection :=
      { tokenMeta
        txType := if pregenesisInputIdx.isSome then .genesis else .send
        requiredInputSum := 0
        hasColoredOutOfRange := false
        genesisInfo := pregenesisInputIdx.map fun inputIdx =>
          { GenesisInfo.default with pregenesisInputIdx := some inputIdx } }
    (colored.sections.length, { colored with sections := colored.sections ++ [sec] })

def cashTokensVariant (parsed : CashTokens.ParsedData) : TokenVariant :=
  if CashTokens.containsFlag parsed.capabilities CashTokens.hasNft then
    .commitment
      { amount := parsed.amount
        capabilities := parsed.capabilities
        commitment := parsed.commitment }
  else
    .amount parsed.amount

def colorCashTokensOutput (tx : Tx) (colored : ColoredTx) (outIdx : Nat) (script : Script) :
    Except Panic ColoredTx :=
  match CashTokens.parseScript script with
  | .ok none => return colored
  | .error err =>
    let failedParsing : FailedParsing :=
      { pushdataIdx := none
        bytes := script.bytecode
        error := .cashTokens err }
    return { colored with failedParsings := colored.failedParsings ++ [failedParsing] }
  | .ok (some parsed) => do
      let pregenesisInputIdx := tx.inputs.findIdx? fun prevOut =>
        prevOut.txid = parsed.tokenId ∧ prevOut.outIdx = 0
      let (tokenIdx, colored) := colored.cashTokensSection
        { tokenId := parsed.tokenId, tokenType := .cashTokens } pregenesisInputIdx
      let _ <- index colored.outputs outIdx
      return { colored with
        outputs := colored.outputs.set outIdx
          (some { tokenIdx, variant := cashTokensVariant parsed }) }

/-- Colour the CashTokens outputs, overriding SLP and ALP tokens. -/
def colorCashTokens (tx : Tx) : Nat -> List Script -> ColoredTx -> Except Panic ColoredTx
  | _, [], colored => return colored
  | outIdx, script :: rest, colored => do
      let colored <- colorCashTokensOutput tx colored outIdx script
      colorCashTokens tx (outIdx + 1) rest colored

def colorTx (tx : Tx) : Except Panic (Option ColoredTx) := do
  let colored <- colorTxOpreturn tx
  if CashTokens.hasAnyPrefixToken tx then
    let colored <- colorCashTokens tx 0 tx.outputs (colored.getD (uncolored tx))
    return some colored
  else
    return colored

end ColoredTx

end ECash.Tokens
