import ECash.Tokens.Script

/-!
# Tokens

Token identity, the values a token output can carry, and the data the SLP and
ALP parsers hand to the colouring.
-/

namespace ECash.Tokens

/-!
## Identity

A txid is stored in little-endian byte order and compared in big-endian order.
-/

abbrev TxId := ByteArr 32

abbrev TokenId := TxId

abbrev ShaRmd160 := ByteArr 20

abbrev Amount := Nat

def TokenId.fromBeBytes (bytes : ByteArr 32) : TokenId :=
  ⟨bytes.val.reverse, by rw [List.length_reverse]; exact bytes.property⟩

def TxId.zero : TxId := ⟨List.replicate 32 0, by rfl⟩

inductive SlpTokenType where
  | fungible
  | mintVault
  | nft1Group
  | nft1Child
  | unknown (tokenType : UInt8)
  deriving DecidableEq, Repr, Ord

inductive AlpTokenType where
  | standard
  | unknown (tokenType : UInt8)
  deriving DecidableEq, Repr, Ord

inductive TokenType where
  | slp (tokenType : SlpTokenType)
  | alp (tokenType : AlpTokenType)
  | cashTokens
  deriving DecidableEq, Repr, Ord

def SlpTokenType.toU8 : SlpTokenType -> UInt8
  | fungible => 1
  | mintVault => 2
  | nft1Group => 0x81
  | nft1Child => 0x41
  | unknown tokenType => tokenType

def AlpTokenType.toU8 : AlpTokenType -> UInt8
  | standard => 0
  | unknown tokenType => tokenType

def TokenType.isAlp : TokenType -> Bool
  | alp _ => true
  | _ => false

def TokenType.toU8 : TokenType -> UInt8
  | slp tokenType => tokenType.toU8
  | alp tokenType => tokenType.toU8
  | cashTokens => 0

structure TokenMeta where
  tokenId : TokenId
  tokenType : TokenType
  deriving DecidableEq

def TokenMeta.cmp (a b : TokenMeta) : Ordering :=
  (compare a.tokenId.val.reverse b.tokenId.val.reverse).then (compare a.tokenType b.tokenType)

inductive TxType where
  | genesis
  | mint
  | send
  | burn
  | unknown
  deriving DecidableEq, Repr

/-!
## What an output carries
-/

structure TokenCommitment where
  amount : Amount
  capabilities : UInt8
  commitment : Bytes
  deriving DecidableEq, Repr

inductive TokenVariant where
  | amount (value : Amount)
  | mintBaton
  | unknown (tokenType : UInt8)
  | commitment (value : TokenCommitment)
  deriving DecidableEq, Repr

namespace TokenVariant

def amountOf : TokenVariant -> Amount
  | amount value => value
  | mintBaton => 0
  | unknown _ => 0
  | commitment value => value.amount

def isMintBaton (v : TokenVariant) : Bool :=
  v = mintBaton

end TokenVariant

/-- A variant with the index of its token among the tokens of the transaction. -/
structure TokenOutput where
  tokenIdx : Nat
  variant : TokenVariant
  deriving DecidableEq, Repr

structure Token where
  tokenMeta : TokenMeta
  variant : TokenVariant
  deriving DecidableEq

structure GenesisInfo where
  tokenTicker : Bytes
  tokenName : Bytes
  mintVaultScripthash : Option ShaRmd160
  url : Bytes
  hash : Option (ByteArr 32)
  data : Option Bytes
  authPubkey : Option Bytes
  decimals : UInt8
  pregenesisInputIdx : Option Nat
  deriving DecidableEq

def GenesisInfo.default : GenesisInfo :=
  { tokenTicker := []
    tokenName := []
    mintVaultScripthash := none
    url := []
    hash := none
    data := none
    authPubkey := none
    decimals := 0
    pregenesisInputIdx := none }

/-!
## Parsed data

For SLP this is the whole `OP_RETURN`, for ALP a single pushdata of it.
-/

structure ParsedMintData where
  amounts : List Amount
  numBatons : Nat
  deriving DecidableEq, Repr

/-- Amounts go to the outputs in order, after the `OP_RETURN` at output 0. -/
def outputAmounts (amounts : List Amount) : List (Nat × Amount) :=
  (List.range' 1 amounts.length).zip amounts

def ParsedMintData.amountsRange (mintData : ParsedMintData) : List (Nat × Amount) :=
  outputAmounts mintData.amounts

def ParsedMintData.batonsRange (mintData : ParsedMintData) : List Nat :=
  List.range' (1 + mintData.amounts.length) mintData.numBatons

structure ParsedGenesis where
  info : GenesisInfo
  mintData : ParsedMintData
  deriving DecidableEq

inductive ParsedTxType where
  | genesis (genesis : ParsedGenesis)
  | mint (mintData : ParsedMintData)
  | send (amounts : List Amount)
  | burn (amount : Amount)
  | unknown
  deriving DecidableEq

def ParsedTxType.txType : ParsedTxType -> TxType
  | genesis _ => .genesis
  | mint _ => .mint
  | send _ => .send
  | burn _ => .burn
  | unknown => .unknown

structure ParsedData where
  tokenMeta : TokenMeta
  txType : ParsedTxType
  deriving DecidableEq

/-!
## What the parsers guarantee

An unknown token type is reported as such, and nothing else is; a GENESIS names the
transaction it stands in; a mint-vault token never gets a mint baton, and a NFT1 CHILD is
issued once.
-/

def TokenType.Unknown : TokenType -> Prop
  | slp (.unknown _) => True
  | alp (.unknown _) => True
  | _ => False

def TokenType.mintVault : TokenType :=
  .slp .mintVault

/-- A type of SLP or ALP that the code knows. -/
structure TokenType.Known (tokenType : TokenType) : Prop where
  opreturn : tokenType ≠ .cashTokens
  known : ¬ tokenType.Unknown

def ParsedTxType.Proper (txid : TxId) (tokenMeta : TokenMeta) : ParsedTxType -> Prop
  | genesis issue =>
    tokenMeta.tokenType.Known ∧ tokenMeta.tokenId = txid ∧
      (tokenMeta.tokenType = .slp .nft1Child -> issue.mintData = { amounts := [1], numBatons := 0 })
  | mint mintData =>
    tokenMeta.tokenType.Known ∧
      (tokenMeta.tokenType = TokenType.mintVault -> mintData.numBatons = 0)
  | send _ => tokenMeta.tokenType.Known
  | burn _ => tokenMeta.tokenType.Known
  | unknown => tokenMeta.tokenType.Unknown

abbrev ParsedData.Proper (txid : TxId) (parsed : ParsedData) : Prop :=
  parsed.txType.Proper txid parsed.tokenMeta

end ECash.Tokens
