import Mathlib
import ECash.Foundation.KeyedList
import ECash.Tokens.Color

/-!
# Verification

A coloured transaction is checked against the tokens its inputs spend.  Every
section gets an entry; intentional burns, failed colourings and input tokens
that no section mentions get entries of their own.
-/

namespace ECash.Tokens

open Foundation

inductive BurnError where
  | tooManyTxInputs (numInputs : Nat)
  | missingNft1Group
  | missingMintBaton
  | missingMintVault
  | insufficientInputSum (required actual : Nat)
  deriving DecidableEq

structure SpentToken where
  token : Token
  groupTokenMeta : Option TokenMeta
  deriving DecidableEq

structure VerifyContext where
  spentTokens : List (Option SpentToken)
  spentScripts : Option (List Script)
  genesisInfo : Option GenesisInfo
  overrideHasMintVault : Option Bool
  deriving DecidableEq

structure TokenTxEntry where
  tokenMeta : TokenMeta
  txType : Option TxType
  genesisInfo : Option GenesisInfo
  groupTokenMeta : Option TokenMeta
  isInvalid : Bool
  intentionalBurnAmount : Option Amount
  actualBurnAmount : Nat
  burnsMintBatons : Bool
  burnError : Option BurnError
  hasColoredOutOfRange : Bool
  failedColorings : List FailedColoring
  deriving DecidableEq

structure TokenTx where
  entries : List TokenTxEntry
  outputs : List (Option TokenOutput)
  failedParsings : List FailedParsing
  deriving DecidableEq

namespace TokenTx

def spentToken (t : TokenTx) (tokenOutput : TokenOutput) : Except Panic SpentToken := do
  let entry <- index t.entries tokenOutput.tokenIdx
  return {
    token := { tokenMeta := entry.tokenMeta, variant := tokenOutput.variant }
    groupTokenMeta := entry.groupTokenMeta }

end TokenTx

structure BareBurn where
  burnAmount : Nat
  burnsMintBatons : Bool
  groupTokenMeta : Option TokenMeta
  isInvalid : Bool
  deriving DecidableEq

/-- The limit on the number of inputs of an ALP transaction. -/
def maxTxInputs : Nat := 32767

namespace VerifyContext

/-!
## What the inputs hold
-/

def hasMintBaton (ctx : VerifyContext) (tokenMeta : TokenMeta) : Bool :=
  ctx.spentTokens.reduceOption.any fun spentToken =>
    spentToken.token.tokenMeta = tokenMeta && spentToken.token.variant.isMintBaton

def hasMintVault (ctx : VerifyContext) : Except Panic Bool :=
  match ctx.overrideHasMintVault with
  | some overrideHasMintVault => return overrideHasMintVault
  | none =>
    match ctx.spentScripts with
    | none => throw .missingSpentScripts
    | some spentScripts =>
      match ctx.genesisInfo with
      | none => return false
      | some genesisInfo =>
        match genesisInfo.mintVaultScripthash with
        | none => return false
        | some scripthash => return spentScripts.contains (Script.p2sh scripthash)

def calcInputSum (ctx : VerifyContext) (tokenMeta : TokenMeta) : Nat :=
  ((ctx.spentTokens.reduceOption.filter fun spentToken =>
    spentToken.token.tokenMeta = tokenMeta).map fun spentToken =>
      spentToken.token.variant.amountOf).sum

def sumOutputs (sections : List ColoredTxSection) (tokenMeta : TokenMeta) :
    List TokenOutput -> Except Panic Nat
  | [] => return 0
  | tokenOutput :: rest => do
      let sec <- index sections tokenOutput.tokenIdx
      let sum <- sumOutputs sections tokenMeta rest
      return if sec.tokenMeta = tokenMeta then tokenOutput.variant.amountOf + sum else sum

def calcOutputSum (tx : ColoredTx) (tokenMeta : TokenMeta) : Except Panic Nat :=
  sumOutputs tx.sections tokenMeta tx.outputs.reduceOption

def inheritedGroupTokenMeta (ctx : VerifyContext) (tokenMeta : TokenMeta) : Option TokenMeta :=
  (ctx.spentTokens.reduceOption.find? fun spentToken =>
    spentToken.token.tokenMeta = tokenMeta).bind fun spentToken =>
      spentToken.groupTokenMeta

def intentionalBurnAmount (tx : ColoredTx) (tokenMeta : TokenMeta) : Option Amount :=
  (tx.intentionalBurns.find? fun burn => burn.tokenMeta = tokenMeta).map fun burn =>
    burn.amount

/-!
## Sections
-/

/-- The entry with zero defaults, or values copied over from the section. -/
def templateEntry (ctx : VerifyContext) (tx : ColoredTx) (sec : ColoredTxSection) : TokenTxEntry :=
  { tokenMeta := sec.tokenMeta
    txType := some sec.txType
    genesisInfo := sec.genesisInfo
    groupTokenMeta := ctx.inheritedGroupTokenMeta sec.tokenMeta
    isInvalid := false
    intentionalBurnAmount := intentionalBurnAmount tx sec.tokenMeta
    actualBurnAmount := 0
    burnsMintBatons := false
    burnError := none
    hasColoredOutOfRange := sec.hasColoredOutOfRange
    failedColorings := [] }

def isMintVaultMint (sec : ColoredTxSection) : Bool :=
  sec.txType = .mint && sec.tokenMeta.tokenType = TokenType.mintVault

/-- The NFT1 GROUP token at the first input, with a positive amount. -/
def firstNft1Group (ctx : VerifyContext) : Option TokenMeta :=
  match ctx.spentTokens.head? with
  | some (some spentToken) =>
    if spentToken.token.tokenMeta.tokenType = .slp .nft1Group ∧
        spentToken.token.variant.amountOf > 0 then
      some spentToken.token.tokenMeta
    else none
  | _ => none

def verifyGenesis (ctx : VerifyContext) (sec : ColoredTxSection) (entry : TokenTxEntry) :
    TokenTxEntry :=
  if sec.tokenMeta.tokenType = .slp .nft1Child then
    match ctx.firstNft1Group with
    | some group => { entry with groupTokenMeta := some group }
    | none => { entry with isInvalid := true, burnError := some .missingNft1Group }
  else
    entry

/-- MINT needs a mint vault, or a mint baton of the token; either way the input
amounts are burned. -/
def verifyMint (ctx : VerifyContext) (sec : ColoredTxSection) (entry : TokenTxEntry) :
    Except Panic TokenTxEntry := do
  let inputSum := ctx.calcInputSum sec.tokenMeta
  if isMintVaultMint sec then
    if <- ctx.hasMintVault then
      return { entry with actualBurnAmount := inputSum }
    else
      return { entry with
        isInvalid := true
        actualBurnAmount := inputSum
        burnError := some .missingMintVault }
  else if ctx.hasMintBaton sec.tokenMeta then
    return { entry with actualBurnAmount := inputSum }
  else
    return { entry with
      isInvalid := true
      actualBurnAmount := inputSum
      burnError := some .missingMintBaton }

def verifySend (ctx : VerifyContext) (tx : ColoredTx) (sec : ColoredTxSection)
    (entry : TokenTxEntry) : Except Panic TokenTxEntry := do
  let inputSum := ctx.calcInputSum sec.tokenMeta
  if inputSum < sec.requiredInputSum then
    return { entry with
      isInvalid := true
      actualBurnAmount := inputSum
      burnsMintBatons := ctx.hasMintBaton sec.tokenMeta
      burnError := some (.insufficientInputSum sec.requiredInputSum inputSum) }
  else
    let outputSum <- calcOutputSum tx sec.tokenMeta
    if inputSum < outputSum then
      throw .subtractOverflow
    else
      return { entry with
        actualBurnAmount := inputSum - outputSum
        burnsMintBatons := ctx.hasMintBaton sec.tokenMeta }

def verifySection (ctx : VerifyContext) (tx : ColoredTx) (sec : ColoredTxSection) :
    Except Panic TokenTxEntry :=
  let entry := ctx.templateEntry tx sec
  if sec.tokenMeta.tokenType.isAlp ∧ ctx.spentTokens.length > maxTxInputs then
    return { entry with
      isInvalid := true
      actualBurnAmount := ctx.calcInputSum sec.tokenMeta
      burnsMintBatons := ctx.hasMintBaton sec.tokenMeta
      burnError := some (.tooManyTxInputs ctx.spentTokens.length) }
  else
    match sec.txType with
    | .genesis => return ctx.verifyGenesis sec entry
    | .mint => ctx.verifyMint sec entry
    | .send => ctx.verifySend tx sec entry
    | .unknown => return entry
    | .burn => throw .burnInSections

/-!
## Entries without a section
-/

def emptyEntry (tokenMeta : TokenMeta) (txType : Option TxType) : TokenTxEntry :=
  { tokenMeta
    txType
    genesisInfo := none
    groupTokenMeta := none
    isInvalid := false
    intentionalBurnAmount := none
    actualBurnAmount := 0
    burnsMintBatons := false
    burnError := none
    hasColoredOutOfRange := false
    failedColorings := [] }

def intentionalBurnEntry (burn : IntentionalBurn) : TokenTxEntry :=
  { emptyEntry burn.tokenMeta (some .burn) with
    intentionalBurnAmount := some burn.amount }

/-- A standalone intentional burn, unless an entry has the token already. -/
def addIntentionalBurn (entries : List TokenTxEntry) (burn : IntentionalBurn) : List TokenTxEntry :=
  if entries.any fun entry => entry.tokenMeta.tokenId = burn.tokenMeta.tokenId then
    entries
  else
    entries ++ [intentionalBurnEntry burn]

def failedColoringEntry (failedColoring : FailedColoring) : TokenTxEntry :=
  let parsed := failedColoring.parsed
  { emptyEntry parsed.tokenMeta (some parsed.txType.txType) with
    genesisInfo :=
      match parsed.txType with
      | .genesis genesis => some genesis.info
      | _ => none
    isInvalid := true
    failedColorings := [failedColoring] }

def withFailedColoring (failedColoring : FailedColoring) (entry : TokenTxEntry) : TokenTxEntry :=
  { entry with failedColorings := entry.failedColorings ++ [failedColoring] }

def addFailedColoring (entries : List TokenTxEntry) (failedColoring : FailedColoring) :
    List TokenTxEntry :=
  updateOrPush TokenTxEntry.tokenMeta failedColoring.parsed.tokenMeta
    (withFailedColoring failedColoring) (failedColoringEntry failedColoring) entries

/-!
## Bare burns

Spent tokens without a corresponding section, in a map ordered by token.
-/

abbrev BareBurns := List (TokenMeta × BareBurn)

def insertBareBurn (tokenMeta : TokenMeta) (burn : BareBurn) : BareBurns -> BareBurns
  | [] => [(tokenMeta, burn)]
  | (otherMeta, other) :: rest =>
    if TokenMeta.cmp tokenMeta otherMeta = Ordering.lt then
      (tokenMeta, burn) :: (otherMeta, other) :: rest
    else
      (otherMeta, other) :: insertBareBurn tokenMeta burn rest

def orInsertBareBurn (bareBurns : BareBurns) (tokenMeta : TokenMeta) (burn : BareBurn) :
    BareBurns :=
  if bareBurns.any fun other => other.1 = tokenMeta then
    bareBurns
  else
    insertBareBurn tokenMeta burn bareBurns

def modifyBareBurn (bareBurns : BareBurns) (tokenMeta : TokenMeta)
    (update : BareBurn -> BareBurn) : BareBurns :=
  bareBurns.map fun other =>
    if other.1 = tokenMeta then (other.1, update other.2) else other

def burnVariant (variant : TokenVariant) (burn : BareBurn) : BareBurn :=
  let burn := { burn with isInvalid := true }
  match variant with
  | .amount amount => { burn with burnAmount := burn.burnAmount + amount }
  | .mintBaton => { burn with burnsMintBatons := true }
  | .unknown _ => burn
  | .commitment commitment => { burn with burnAmount := burn.burnAmount + commitment.amount }

/-- The first entry is a valid NFT1 CHILD GENESIS, which spends the NFT1 GROUP
token at the first input without burning it. -/
def isNft1ChildGenesis (entries : List TokenTxEntry) : Bool :=
  match entries.head? with
  | some firstEntry =>
    firstEntry.tokenMeta.tokenType = .slp .nft1Child &&
      firstEntry.txType = some .genesis && !firstEntry.isInvalid
  | none => false

def addBareBurn (tx : ColoredTx) (entries : List TokenTxEntry) (inputIdx : Nat)
    (spentToken : SpentToken) (bareBurns : BareBurns) : BareBurns :=
  let tokenMeta := spentToken.token.tokenMeta
  if tx.sections.any fun sec => sec.tokenMeta = tokenMeta then
    bareBurns
  else
    let bareBurns := orInsertBareBurn bareBurns tokenMeta
      { burnAmount := 0
        burnsMintBatons := false
        groupTokenMeta := spentToken.groupTokenMeta
        isInvalid := false }
    if inputIdx = 0 ∧ isNft1ChildGenesis entries then
      bareBurns
    else
      modifyBareBurn bareBurns tokenMeta (burnVariant spentToken.token.variant)

def addBareBurns (tx : ColoredTx) (entries : List TokenTxEntry) :
    Nat -> List (Option SpentToken) -> BareBurns -> BareBurns
  | _, [], bareBurns => bareBurns
  | inputIdx, none :: rest, bareBurns => addBareBurns tx entries (inputIdx + 1) rest bareBurns
  | inputIdx, some spentToken :: rest, bareBurns =>
    addBareBurns tx entries (inputIdx + 1) rest
      (addBareBurn tx entries inputIdx spentToken bareBurns)

def calcBareBurns (ctx : VerifyContext) (tx : ColoredTx) (entries : List TokenTxEntry) :
    BareBurns :=
  addBareBurns tx entries 0 ctx.spentTokens []

def bareBurnEntry (tokenMeta : TokenMeta) (bareBurn : BareBurn) : TokenTxEntry :=
  { emptyEntry tokenMeta none with
    groupTokenMeta := bareBurn.groupTokenMeta
    isInvalid := bareBurn.isInvalid
    actualBurnAmount := bareBurn.burnAmount
    burnsMintBatons := bareBurn.burnsMintBatons }

def withBareBurn (bareBurn : BareBurn) (entry : TokenTxEntry) : TokenTxEntry :=
  { entry with
    isInvalid := if bareBurn.burnsMintBatons then true else entry.isInvalid
    actualBurnAmount := bareBurn.burnAmount
    burnsMintBatons := bareBurn.burnsMintBatons
    groupTokenMeta := bareBurn.groupTokenMeta }

def applyBareBurn (entries : List TokenTxEntry) (bareBurn : TokenMeta × BareBurn) :
    List TokenTxEntry :=
  updateOrPush TokenTxEntry.tokenMeta bareBurn.1 (withBareBurn bareBurn.2)
    (bareBurnEntry bareBurn.1 bareBurn.2) entries

/-!
## The verified transaction
-/

def verifyOutput (entries : List TokenTxEntry) :
    Option TokenOutput -> Except Panic (Option TokenOutput)
  | none => return none
  | some output => do
      let entry <- index entries output.tokenIdx
      return if entry.isInvalid then none else some output

def verify (ctx : VerifyContext) (tx : ColoredTx) : Except Panic TokenTx := do
  let entries <- tx.sections.mapM (ctx.verifySection tx)
  let entries := tx.intentionalBurns.foldl addIntentionalBurn entries
  let bareBurns := ctx.calcBareBurns tx entries
  let entries := tx.failedColorings.foldl addFailedColoring entries
  let entries := bareBurns.foldl applyBareBurn entries
  let outputs <- tx.outputs.mapM (verifyOutput entries)
  return { entries, outputs, failedParsings := tx.failedParsings }

end VerifyContext

end ECash.Tokens
