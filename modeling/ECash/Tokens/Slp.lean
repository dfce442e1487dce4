import ECash.Foundation.Computation
import ECash.Tokens.Types

/-!
# Parsing SLP

An SLP transaction has a single `OP_RETURN` whose pushes are the fields of the
token action.  Scripts that do not look like SLP at all are not errors.
-/

namespace ECash.Tokens

/-!
## Constants
-/

-- The ASCII bytes of "GENESIS", "MINT", "SEND" and "BURN".
def genesisBytes : Bytes := [71, 69, 78, 69, 83, 73, 83]
def mintBytes : Bytes := [77, 73, 78, 84]
def sendBytes : Bytes := [83, 69, 78, 68]
def burnBytes : Bytes := [66, 85, 82, 78]

-- "SLP\0" and "SLP2".
def slpLokadId : Bytes := [83, 76, 80, 0]
def alpLokadId : Bytes := [83, 76, 80, 50]

/-- The blacklisted flexUSD token. -/
def flexUsdTokenId : TokenId :=
  ⟨[201, 251, 169, 207, 180, 226, 147, 161, 129, 239, 31, 77, 52, 225, 142,
    251, 240, 90, 83, 182, 109, 225, 255, 232, 97, 54, 217, 50, 69, 190, 33,
    221], by rfl⟩

namespace Slp

open Foundation

inductive ParseError where
  | dataError (error : DataError)
  | emptyScript
  | missingOpReturn (opcode : Opcode)
  | missingLokadId
  | wrongLokadId (lokadId : Bytes)
  | invalidLokadIdOpcode (opcode : Opcode)
  | invalidAlpLokadId
  | nonPushOp (opcode : Opcode) (opIdx : Nat)
  | disallowedPush (opcode : Opcode) (opIdx : Nat)
  | invalidFieldSize (fieldName : String) (expected : List Nat) (actual : Nat)
  | invalidDecimals (actual : Nat)
  | invalidMintBatonIdx (idx : UInt8)
  | nft1ChildCannotHaveMintBaton
  | nft1ChildInvalidInitialQuantity (quantity : Amount)
  | nft1ChildInvalidDecimals (decimals : UInt8)
  | tooFewPushes (expected actual : Nat)
  | unexpectedNumPushes (expected actual : Nat)
  | superfluousPushes (expected actual : Nat)
  | invalidTokenType (tokenType : Bytes)
  | invalidTxType (txType : Bytes)
  deriving DecidableEq, Repr

abbrev Result (value : Type) := Except ParseError value

/-!
## Fields
-/

def parseAmount (amountBytes : Bytes) (fieldName : String) : Result Amount :=
  if amountBytes.length = 8 then
    .ok (beNat amountBytes)
  else
    .error (.invalidFieldSize fieldName [8] amountBytes.length)

def parseTokenId (tokenIdBytes : Bytes) : Result TokenId :=
  if h : tokenIdBytes.length = 32 then
    .ok (TokenId.fromBeBytes ⟨tokenIdBytes, h⟩)
  else
    .error (.invalidFieldSize "token_id" [32] tokenIdBytes.length)

/-- Quantities named `<name>1`, `<name>2`, and so on. -/
def parseQuantities (name : String) : Nat -> List Bytes -> Result (List Amount)
  | _, [] => .ok []
  | idx, quantity :: rest => do
      let amount <- parseAmount quantity (name ++ toString (idx + 1))
      let amounts <- parseQuantities name (idx + 1) rest
      return amount :: amounts

/-- The mint baton output index of GENESIS and MINT: absent, or at least 2. -/
def parseBatonOutIdx (field : Bytes) : Result (Option UInt8) :=
  match field with
  | [] => .ok none
  | [idx] =>
    if idx < 2 then
      .error (.invalidMintBatonIdx idx)
    else
      .ok (some idx)
  | _ => .error (.invalidFieldSize "mint_baton_out_idx" [0, 1] field.length)

/-- The minted quantity goes to output 1; zeros pad up to the mint baton. -/
def batonMintData (quantity : Amount) (batonOutIdx : Option UInt8) : ParsedMintData :=
  match batonOutIdx with
  | none => { amounts := [quantity], numBatons := 0 }
  | some idx => { amounts := quantity :: List.replicate (idx.toNat - 2) 0, numBatons := 1 }

/-!
## Actions
-/

inductive MintField where
  | batonOutIdx (idx : Option UInt8)
  | vaultScripthash (hash : ShaRmd160)
  deriving DecidableEq

def MintField.mintBatonOutIdx : MintField -> Option UInt8
  | batonOutIdx idx => idx
  | vaultScripthash _ => none

def MintField.mintVaultScripthash : MintField -> Option ShaRmd160
  | batonOutIdx _ => none
  | vaultScripthash hash => some hash

def parseMintField (tokenType : SlpTokenType) (mintField : Bytes) : Result MintField :=
  if tokenType = .mintVault then
    if h : mintField.length = 20 then
      .ok (.vaultScripthash ⟨mintField, h⟩)
    else
      .error (.invalidFieldSize "mint_vault_scripthash" [20] mintField.length)
  else
    .batonOutIdx <$> parseBatonOutIdx mintField

def parseDecimals : Bytes -> Result UInt8
  | [decimals] => .ok decimals
  | bytes => .error (.invalidFieldSize "decimals" [1] bytes.length)

/-- The additional rules for a NFT1 CHILD GENESIS. -/
def checkNft1Child (tokenType : SlpTokenType) (mintField : MintField)
    (initialQuantity : Amount) (decimals : UInt8) : Result Unit :=
  if tokenType = .nft1Child then do
    rejectIf (mintField.mintBatonOutIdx.isSome = true) .nft1ChildCannotHaveMintBaton
    rejectIf (initialQuantity ≠ 1) (.nft1ChildInvalidInitialQuantity initialQuantity)
    rejectIf (decimals ≠ 0) (.nft1ChildInvalidDecimals decimals)
  else
    .ok ()

def parseGenesisData (txid : TxId) (tokenType : SlpTokenType) (opreturnData : List Bytes) :
    Result ParsedData :=
  match opreturnData with
  | [_lokadId, _tokenType, _txType, tokenTicker, tokenName, tokenDocumentUrl,
      tokenDocumentHash, decimals, mintField, initialQuantity] => do
      rejectIf (tokenDocumentHash ≠ [] ∧ tokenDocumentHash.length ≠ 32)
        (.invalidFieldSize "token_document_hash" [0, 32] tokenDocumentHash.length)
      let decimals <- parseDecimals decimals
      let mintField <- parseMintField tokenType mintField
      let initialQuantity <- parseAmount initialQuantity "initial_quantity"
      rejectIf (decimals > 9) (.invalidDecimals decimals.toNat)
      checkNft1Child tokenType mintField initialQuantity decimals
      return {
          tokenMeta := { tokenId := txid, tokenType := .slp tokenType }
          txType := .genesis
            { info :=
                { tokenTicker
                  tokenName
                  mintVaultScripthash := mintField.mintVaultScripthash
                  url := tokenDocumentUrl
                  hash :=
                    if h : tokenDocumentHash.length = 32 then
                      some ⟨tokenDocumentHash, h⟩
                    else none
                  data := none
                  authPubkey := none
                  decimals
                  pregenesisInputIdx := none }
              mintData := batonMintData initialQuantity mintField.mintBatonOutIdx } }
  | _ => throw (.unexpectedNumPushes 10 opreturnData.length)

def parseMintDataBaton (tokenType : SlpTokenType) (opreturnData : List Bytes) : Result ParsedData :=
  match opreturnData with
  | [_lokadId, _tokenType, _txType, tokenIdBytes, mintBatonOutIdx,
      additionalQuantity] => do
      let tokenId <- parseTokenId tokenIdBytes
      let mintBatonOutIdx <- parseBatonOutIdx mintBatonOutIdx
      let additionalQuantity <- parseAmount additionalQuantity "additional_quantity"
      return {
          tokenMeta := { tokenId, tokenType := .slp tokenType }
          txType := .mint (batonMintData additionalQuantity mintBatonOutIdx) }
  | _ => throw (.unexpectedNumPushes 6 opreturnData.length)

/-- The token id and the 1 to 19 quantities of SEND and of a mint-vault MINT. -/
def parseIdAndQuantities (name : String) (opreturnData : List Bytes) :
    Result (TokenId × List Amount) := do
  rejectIf (opreturnData.length < 5) (.tooFewPushes 5 opreturnData.length)
  rejectIf (opreturnData.length > 23) (.superfluousPushes 23 opreturnData.length)
  let tokenId <- parseTokenId (opreturnData.getD 3 [])
  let amounts <- parseQuantities name 0 (opreturnData.drop 4)
  return (tokenId, amounts)

def parseMintDataMintVault (opreturnData : List Bytes) : Result ParsedData := do
  let (tokenId, amounts) <- parseIdAndQuantities "additional_quantity" opreturnData
  return {
      tokenMeta := { tokenId, tokenType := TokenType.mintVault }
      txType := .mint { amounts, numBatons := 0 } }

def parseSendData (tokenType : SlpTokenType) (opreturnData : List Bytes) :
    Result ParsedData := do
  let (tokenId, outputQuantities) <-
    parseIdAndQuantities "token_output_quantity" opreturnData
  return {
      tokenMeta := { tokenId, tokenType := .slp tokenType }
      txType := .send outputQuantities }

def parseBurnData (tokenType : SlpTokenType) (opreturnData : List Bytes) : Result ParsedData :=
  match opreturnData with
  | [_lokadId, _tokenType, _txType, tokenIdBytes, tokenBurnQuantity] => do
      let tokenId <- parseTokenId tokenIdBytes
      let tokenBurnQuantity <- parseAmount tokenBurnQuantity "token_burn_quantity"
      return {
          tokenMeta := { tokenId, tokenType := .slp tokenType }
          txType := .burn tokenBurnQuantity }
  | _ => throw (.unexpectedNumPushes 5 opreturnData.length)

/-!
## The script
-/

def parseLokadId (script : Script) : Result Unit :=
  match script.iterOps with
  | [] => throw .emptyScript
  | first :: rest =>
    if first ≠ .ok (.code opReturn) then
      throw (.missingOpReturn (script.opcodeAt 0))
    else
      match rest with
      | [] => throw .missingLokadId
      | .ok (.push _ lokadId) :: _ =>
        if alpLokadId <+: lokadId then
          throw .invalidAlpLokadId
        else if lokadId ≠ slpLokadId then
          throw (.wrongLokadId lokadId)
        else
          return ()
      | _ => throw (.invalidLokadIdOpcode (script.opcodeAt 1))

/-- The pushes after the `OP_RETURN`, the operation at index `opIdx` first. -/
def parsePushes : Nat -> List Op -> Result (List Bytes)
  | _, [] => return []
  | opIdx, .code opcode :: _ =>
    if opcode = op0 ∨ (op1Negate ≤ opcode ∧ opcode ≤ op16) then
      throw (.disallowedPush opcode opIdx)
    else
      throw (.nonPushOp opcode opIdx)
  | opIdx, .push opcode push :: rest =>
    if opcode = op0 ∨ opcode > opPushdata4 then
      throw (.disallowedPush opcode opIdx)
    else do
      let pushes <- parsePushes (opIdx + 1) rest
      return push :: pushes

def parseOpreturnOps : List Op -> Result (List Bytes)
  | [] => return []
  | .code opcode :: rest =>
    if opcode = opReturn then
      parsePushes 1 rest
    else
      throw (.missingOpReturn opcode)
  | .push opcode _ :: _ => throw (.missingOpReturn opcode)

def parseTokenType (byte : UInt8) : SlpTokenType :=
  if byte = 1 then .fungible
  else if byte = 2 then .mintVault
  else if byte = 0x81 then .nft1Group
  else if byte = 0x41 then .nft1Child
  else .unknown byte

def parseAction (txid : TxId) (tokenType : SlpTokenType) (txType : Bytes)
    (opreturnData : List Bytes) : Result ParsedData :=
  if txType = genesisBytes then
    parseGenesisData txid tokenType opreturnData
  else if txType = mintBytes ∧ tokenType = .mintVault then
    parseMintDataMintVault opreturnData
  else if txType = mintBytes then
    parseMintDataBaton tokenType opreturnData
  else if txType = sendBytes then
    parseSendData tokenType opreturnData
  else if txType = burnBytes then
    parseBurnData tokenType opreturnData
  else
    throw (.invalidTxType txType)

def parseOpreturnData (txid : TxId) (opreturnData : List Bytes) : Result ParsedData :=
  match opreturnData with
  | _lokadId :: tokenType :: txType :: _ =>
    match tokenType with
    | [tokenType] =>
      match parseTokenType tokenType with
      | .unknown unknown =>
        return {
          tokenMeta :=
            { tokenId := TxId.zero
              tokenType := .slp (.unknown unknown) }
          txType := .unknown }
      | tokenType => parseAction txid tokenType txType opreturnData
    | _ => throw (.invalidTokenType tokenType)
  | _ => throw (.tooFewPushes 3 opreturnData.length)

def parseWithIgnoredErr (txid : TxId) (script : Script) : Result ParsedData := do
  parseLokadId script
  let ops <- (script.iterOps.mapM id).mapError .dataError
  let opreturnData <- parseOpreturnOps ops
  parseOpreturnData txid opreturnData

def shouldIgnoreErr : ParseError -> Bool
  | .emptyScript => true
  | .missingOpReturn _ => true
  | .missingLokadId => true
  | .invalidLokadIdOpcode _ => true
  | .wrongLokadId _ => true
  | _ => false

/-- Parse the `OP_RETURN` script as SLP; flexUSD is treated as no SLP data. -/
def parse (txid : TxId) (script : Script) : Result (Option ParsedData) :=
  match parseWithIgnoredErr txid script with
  | .ok parsed =>
    if parsed.tokenMeta.tokenId = flexUsdTokenId then
      return none
    else
      return some parsed
  | .error err => if shouldIgnoreErr err then return none else throw err

/-!
## What a parsed transaction says

Each action is proper on its own; the unknown token types never reach an action.
-/

theorem checkNft1Child_mintData {mintField : MintField} {initialQuantity : Amount}
    {decimals : UInt8} {result : Unit}
    (h : checkNft1Child .nft1Child mintField initialQuantity decimals = .ok result) :
    batonMintData initialQuantity mintField.mintBatonOutIdx =
      { amounts := [1], numBatons := 0 } := by
  unfold checkNft1Child at h
  rw [if_pos rfl] at h
  simp only [bind_eq_ok, rejectIf_eq_ok] at h
  rcases h with ⟨_, hbaton, _, hquantity, _⟩
  rw [not_not.mp hquantity, Option.not_isSome_iff_eq_none.mp hbaton]
  rfl

variable {parsed : ParsedData} {txid : TxId} {data : List Bytes}

theorem parseAction_proper {tokenType : SlpTokenType} {txType : Bytes}
    (hknown : ¬ (TokenType.slp tokenType).Unknown)
    (h : parseAction txid tokenType txType data = .ok parsed) :
    parsed.Proper txid ∧ parsed.tokenMeta.tokenType.isAlp = false := by
  unfold parseAction at h
  split at h
  · unfold parseGenesisData at h
    split at h
    · simp only [bind_eq_ok] at h
      rcases h with ⟨_, _, _, _, _, _, _, _, _, _, _, hchild, hreturn⟩
      cases hreturn
      refine ⟨⟨⟨nofun, hknown⟩, rfl, ?_⟩, rfl⟩
      rintro ⟨⟩
      exact checkNft1Child_mintData hchild
    · cases h
  split at h
  · rcases bind_eq_ok.mp h with ⟨_, _, hreturn⟩
    cases hreturn
    exact ⟨⟨⟨nofun, id⟩, fun _ => rfl⟩, rfl⟩
  split at h
  · rename_i hvault _
    unfold parseMintDataBaton at h
    split at h
    · simp only [bind_eq_ok] at h
      rcases h with ⟨_, _, _, _, _, _, hreturn⟩
      cases hreturn
      refine ⟨⟨⟨nofun, hknown⟩, ?_⟩, rfl⟩
      rintro ⟨⟩
      exact absurd ⟨‹_›, rfl⟩ hvault
    · cases h
  split at h
  · rcases bind_eq_ok.mp h with ⟨_, _, hreturn⟩
    cases hreturn
    exact ⟨⟨nofun, hknown⟩, rfl⟩
  split at h
  · unfold parseBurnData at h
    split at h
    · simp only [bind_eq_ok] at h
      rcases h with ⟨_, _, _, _, hreturn⟩
      cases hreturn
      exact ⟨⟨nofun, hknown⟩, rfl⟩
    · cases h
  · cases h

theorem parseOpreturnData_proper (h : parseOpreturnData txid data = .ok parsed) :
    parsed.Proper txid ∧ parsed.tokenMeta.tokenType.isAlp = false := by
  unfold parseOpreturnData at h
  split at h
  · split at h
    · split at h
      · cases h
        exact ⟨trivial, rfl⟩
      rename_i hknown
      refine parseAction_proper ?_ h
      intro hunknown
      cases htype : parseTokenType _ with
      | unknown t => exact hknown t htype
      | _ => rw [htype] at hunknown; exact hunknown
    · cases h
  · cases h

theorem parse_proper {script : Script} (h : parse txid script = .ok (some parsed)) :
    parsed.Proper txid ∧ parsed.tokenMeta.tokenType.isAlp = false := by
  unfold parse at h
  cases hparse : parseWithIgnoredErr txid script with
  | error err =>
    rw [hparse] at h
    cases hignore : shouldIgnoreErr err <;> simp [hignore] at h
    cases h
  | ok p =>
    rw [hparse] at h
    have hp : p = parsed := by
      by_cases hflex : p.tokenMeta.tokenId = flexUsdTokenId
      · simp only [if_pos hflex] at h
        cases h
      · simp only [if_neg hflex] at h
        cases h
        rfl
    subst hp
    unfold parseWithIgnoredErr at hparse
    simp only [bind_eq_ok] at hparse
    rcases hparse with ⟨_, _, _, _, _, _, hdata⟩
    exact parseOpreturnData_proper hdata

end Slp
end ECash.Tokens
