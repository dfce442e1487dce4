import ECash.Tokens.Slp

/-!
# Parsing eMPP and ALP

An eMPP `OP_RETURN` holds any number of pushes, each a protocol message of its
own.  An ALP section is one such push, read field by field.
-/

namespace ECash.Tokens

open Foundation

namespace Empp

inductive ParseError where
  | dataError (error : DataError)
  | emptyScript
  | missingOpReturn (opcode : Opcode)
  | emptyOpReturn
  | missingOpReserved (opcode : Opcode)
  | invalidPushOpcode (opcode : Opcode)
  | invalidNonPushOpcode (opcode : Opcode)
  | emptyPushdata (opcode : Opcode)
  deriving DecidableEq, Repr

def parsePushop : Except DataError Op -> Except ParseError Bytes
  | .error err => throw (.dataError err)
  | .ok (.code opcode) =>
    if opcode = op0 then
      throw (.emptyPushdata op0)
    else if op1Negate ≤ opcode ∧ opcode ≤ op16 then
      throw (.invalidPushOpcode opcode)
    else
      throw (.invalidNonPushOpcode opcode)
  | .ok (.push opcode payload) =>
    if payload = [] then
      throw (.emptyPushdata opcode)
    else
      return payload

def parseWithIgnoredErr (script : Script) : Except ParseError (List Bytes) :=
  match script.iterOps with
  | [] => throw .emptyScript
  | first :: rest =>
    if first ≠ .ok (.code opReturn) then
      throw (.missingOpReturn (script.opcodeAt 0))
    else
      match rest with
      | [] => throw .emptyOpReturn
      | second :: pushops =>
        if second ≠ .ok (.code opReserved) then
          throw (.missingOpReserved (script.opcodeAt 1))
        else
          pushops.mapM parsePushop

def shouldIgnoreErr : ParseError -> Bool
  | .emptyScript => true
  | .missingOpReturn _ => true
  | .emptyOpReturn => true
  | .missingOpReserved _ => true
  | _ => false

def parse (script : Script) : Except ParseError (Option (List Bytes)) :=
  match parseWithIgnoredErr script with
  | .ok empp => return some empp
  | .error err => if shouldIgnoreErr err then return none else throw err

end Empp

namespace Alp

inductive ParseError where
  | dataError (error : DataError)
  | notEnoughBytes (fieldName : String) (expected actual : Nat)
  | sizeOutOfRange (fieldName : String) (size : UInt8)
  | missingLokadId (pushdata : Bytes)
  | invalidLokadId (lokadId : Bytes)
  | invalidSlpLokadId
  | unknownTxType (txType : Bytes)
  | decimalsOutOfRange (decimals : UInt8)
  | leftoverBytes (bytes : Bytes)
  deriving DecidableEq, Repr

abbrev Field (value : Type) := Reader ParseError value

/-!
## Fields
-/

def liftData {value : Type} (read : Reader DataError value) : Field value :=
  fun pushdata => (read pushdata).mapError .dataError

/-- Put the field's name into the errors that carry one. -/
def named {value : Type} (fieldName : String) (read : Field value) : Field value :=
  fun pushdata =>
    match read pushdata with
    | .error (.dataError (.invalidLength expected actual)) =>
      .error (.notEnoughBytes fieldName expected actual)
    | .error (.sizeOutOfRange _ size) => .error (.sizeOutOfRange fieldName size)
    | result => result

def readSize : Field Nat := do
  let size <- liftData readByte
  if size > 127 then
    throw (.sizeOutOfRange "" size)
  else
    return size.toNat

def readAmount : Field Amount := do
  let amount6 <- liftData (readArray 6)
  return leNat amount6.val

def readAmountList : Nat -> Field (List Amount)
  | 0 => return []
  | size + 1 => do
      let amount <- readAmount
      let amounts <- readAmountList size
      return amount :: amounts

def readAmounts : Field (List Amount) := do
  let size <- readSize
  readAmountList size

def readVarBytes : Field Bytes := do
  let size <- readSize
  liftData (readBytes size)

def readTokenId : Field TokenId :=
  named "token_id" (liftData (readArray 32))

def parseMintData : Field ParsedMintData := do
  let amounts <- named "mint_amount" readAmounts
  let numBatons <- named "num_batons" readSize
  return { amounts, numBatons }

def parseTokenType : Field AlpTokenType := do
  let tokenType <- named "token_type" (liftData readByte)
  if tokenType = 0 then
    return .standard
  else
    return .unknown tokenType

/-!
## Actions
-/

def parseGenesis (txid : TxId) (tokenType : AlpTokenType) : Field ParsedData := do
  let tokenTicker <- named "token_ticker" readVarBytes
  let tokenName <- named "token_name" readVarBytes
  let url <- named "url" readVarBytes
  let data <- named "data" readVarBytes
  let authPubkey <- named "auth_pubkey" readVarBytes
  let decimals <- named "decimals" (liftData readByte)
  let mintData <- parseMintData
  if decimals > 9 then
    throw (.decimalsOutOfRange decimals)
  else
    return {
      tokenMeta := { tokenId := txid, tokenType := .alp tokenType }
      txType := .genesis
        { info :=
            { tokenTicker
              tokenName
              mintVaultScripthash := none
              url
              hash := none
              data := some data
              authPubkey := some authPubkey
              decimals
              pregenesisInputIdx := none }
          mintData } }

def parseMint (tokenType : AlpTokenType) : Field ParsedData := do
  let tokenId <- readTokenId
  let mintData <- parseMintData
  return {
    tokenMeta := { tokenId, tokenType := .alp tokenType }
    txType := .mint mintData }

def parseSend (tokenType : AlpTokenType) : Field ParsedData := do
  let tokenId <- readTokenId
  let outputAmounts <- named "send_amount" readAmounts
  return {
    tokenMeta := { tokenId, tokenType := .alp tokenType }
    txType := .send outputAmounts }

def parseBurn (tokenType : AlpTokenType) : Field ParsedData := do
  let tokenId <- readTokenId
  let amount <- named "burn_amount" readAmount
  return {
    tokenMeta := { tokenId, tokenType := .alp tokenType }
    txType := .burn amount }

def parseAction (txid : TxId) (tokenType : AlpTokenType) (txType : Bytes) : Field ParsedData :=
  if txType = genesisBytes then parseGenesis txid tokenType
  else if txType = mintBytes then parseMint tokenType
  else if txType = sendBytes then parseSend tokenType
  else if txType = burnBytes then parseBurn tokenType
  else throw (.unknownTxType txType)

/-- What follows the LOKAD ID; an unknown token type leaves the rest unread. -/
def parseAfterLokadId (txid : TxId) : Field ParsedData := do
  let tokenType <- parseTokenType
  match tokenType with
  | .unknown unknown =>
    return {
      tokenMeta :=
        { tokenId := TxId.zero
          tokenType := .alp (.unknown unknown) }
      txType := .unknown }
  | .standard => do
      let txType <- named "tx_type" readVarBytes
      let parsed <- parseAction txid tokenType txType
      let pushdata <- get
      if pushdata ≠ [] then
        throw (.leftoverBytes pushdata)
      else
        return parsed

def parseSectionWithIgnoredErr (txid : TxId) (pushdata : Bytes) : Except ParseError ParsedData :=
  if pushdata.length < 4 then
    throw (.missingLokadId pushdata)
  else if pushdata.take 4 = slpLokadId then
    throw .invalidSlpLokadId
  else if pushdata.take 4 ≠ alpLokadId then
    throw (.invalidLokadId (pushdata.take 4))
  else
    Prod.fst <$> parseAfterLokadId txid (pushdata.drop 4)

def parseSection (txid : TxId) (pushdata : Bytes) : Except ParseError (Option ParsedData) :=
  match parseSectionWithIgnoredErr txid pushdata with
  | .ok parsed => return some parsed
  | .error (.missingLokadId _) => return none
  | .error (.invalidLokadId _) => return none
  | .error err => throw err

/-!
## What a parsed section says
-/

variable {parsed : ParsedData} {txid : TxId} {pushdata rest : Bytes}

theorem parseAction_proper {txType : Bytes} (h : parseAction txid .standard txType pushdata =
      .ok (parsed, rest)) : parsed.Proper txid ∧ parsed.tokenMeta.tokenType.isAlp = true := by
  unfold parseAction at h
  split at h
  · unfold parseGenesis at h
    simp only [stateT_bind_eq_ok] at h
    rcases h with ⟨_, _, _, _, _, _, _, _, _, _, _, _, _, _, _, _, _, _, _, _, _, h⟩
    split at h
    · cases h
    · cases h
      exact ⟨⟨⟨nofun, id⟩, rfl, nofun⟩, rfl⟩
  split at h
  · unfold parseMint at h
    simp only [stateT_bind_eq_ok] at h
    rcases h with ⟨_, _, _, _, _, _, h⟩
    cases h
    exact ⟨⟨⟨nofun, id⟩, nofun⟩, rfl⟩
  split at h
  · unfold parseSend at h
    simp only [stateT_bind_eq_ok] at h
    rcases h with ⟨_, _, _, _, _, _, h⟩
    cases h
    exact ⟨⟨nofun, id⟩, rfl⟩
  split at h
  · unfold parseBurn at h
    simp only [stateT_bind_eq_ok] at h
    rcases h with ⟨_, _, _, _, _, _, h⟩
    cases h
    exact ⟨⟨nofun, id⟩, rfl⟩
  · cases h

theorem parseAfterLokadId_proper (h : parseAfterLokadId txid pushdata = .ok (parsed, rest)) :
    parsed.Proper txid ∧ parsed.tokenMeta.tokenType.isAlp = true := by
  rcases stateT_bind_eq_ok.mp h with ⟨tokenType, _, _, htype⟩
  cases tokenType with
  | unknown t =>
    cases htype
    exact ⟨trivial, rfl⟩
  | standard =>
    simp only [stateT_bind_eq_ok] at htype
    rcases htype with ⟨_, _, _, _, _, hp, _, _, _, hleft⟩
    split at hleft
    · cases hleft
    · cases hleft
      exact parseAction_proper hp

theorem parseSection_proper (h : parseSection txid pushdata = .ok (some parsed)) :
    parsed.Proper txid ∧ parsed.tokenMeta.tokenType.isAlp = true := by
  unfold parseSection at h
  split at h
  · rename_i p hparse
    cases h
    unfold parseSectionWithIgnoredErr at hparse
    split at hparse
    · cases hparse
    split at hparse
    · cases hparse
    split at hparse
    · cases hparse
    cases hrun : parseAfterLokadId txid (pushdata.drop 4) with
    | error err =>
      rw [hrun] at hparse
      cases hparse
    | ok result =>
      rw [hrun] at hparse
      cases hparse
      exact parseAfterLokadId_proper hrun
  all_goals cases h

end Alp
end ECash.Tokens
