import ECash.Lib.P2pkh
import ECash.Tokens.Slp

/-!
# SLP SEND scripts

The library builds the `OP_RETURN` of a token transfer from pushes, and the indexer reads the
pushes back.
-/

namespace ECash.Lib

open Foundation List

-- "SLP\0" and "SEND".
def SLP_LOKAD_ID : Bytes := [83, 76, 80, 0]
def SEND : Bytes := [83, 69, 78, 68]

def SLP_FUNGIBLE : Nat := 1
def SLP_MINT_VAULT : Nat := 2
def SLP_NFT1_CHILD : Nat := 0x41
def SLP_NFT1_GROUP : Nat := 0x81

def verifyTokenType (tokenType : Nat) : Except LibError Unit :=
  if tokenType = SLP_FUNGIBLE ∨ tokenType = SLP_MINT_VAULT ∨ tokenType = SLP_NFT1_GROUP ∨
      tokenType = SLP_NFT1_CHILD then .ok ()
  else .error (.other ("Unknown token type " ++ toString tokenType))

def verifyTokenId (tokenId : List (Fin 16)) : Except LibError Unit :=
  if tokenId.length ≠ 64 then
    .error (.other ("Token ID must be 64 hex characters in length, but got " ++
      toString tokenId.length))
  else .ok ()

def verifySendAmounts (sendAmounts : List Int) : Except LibError Unit :=
  if sendAmounts.length = 0 then
    .error (.other "Send amount cannot be empty")
  else if sendAmounts.length > 19 then
    .error (.other ("Cannot use more than 19 amounts, but got " ++ toString sendAmounts.length))
  else .ok ()

/-- A push that SLP allows: also no bytes are pushed by an operation with a size. -/
def pushdataOpSlp (pushdata : Bytes) : Except LibError Op :=
  if pushdata.length = 0 then .ok (.push OP_PUSHDATA1 pushdata)
  else if pushdata.length < OP_PUSHDATA1.toNat then
    .ok (.push (UInt8.ofNat pushdata.length) pushdata)
  else pushBytesOp pushdata

def slpAmount (amount : Int) : Except LibError Bytes :=
  if amount < 0 ∨ amount > 0xffffffffffffffff then
    .error (.other ("Amount out of range: " ++ toString amount))
  else .ok (littleEndian 8 amount.toNat).reverse

def slpAmountOp (amount : Int) : Except LibError Op := do
  let data ← slpAmount amount
  pushdataOpSlp data

def slpSend (tokenId : List (Fin 16)) (tokenType : Nat) (sendAmounts : List Int) :
    Except LibError Script := do
  verifyTokenType tokenType
  verifyTokenId tokenId
  verifySendAmounts sendAmounts
  let lokadId ← pushdataOpSlp SLP_LOKAD_ID
  let typeOp ← pushdataOpSlp [UInt8.ofNat tokenType]
  let send ← pushdataOpSlp SEND
  let idOp ← pushdataOpSlp (fromHex tokenId)
  let amounts ← sendAmounts.mapM slpAmountOp
  Script.fromOps ([.code OP_RETURN, lokadId, typeOp, send, idOp] ++ amounts)

/-!
## The bytes that are written
-/

def ShortPush (data : Bytes) : Prop := 1 ≤ data.length ∧ data.length ≤ 0x4b

def pushOf (data : Bytes) : Op := .push (UInt8.ofNat data.length) data

theorem pushdataOpSlp_short {data : Bytes} (h : ShortPush data) :
    pushdataOpSlp data = .ok (pushOf data) := by
  have hlength : OP_PUSHDATA1.toNat = 0x4c := rfl
  unfold ShortPush at h
  unfold pushdataOpSlp
  rw [if_neg (by omega), if_pos (by omega)]
  rfl

def pushBytes (data : Bytes) : Bytes := UInt8.ofNat data.length :: data

variable {datas : List Bytes}

theorem fromOps_pushes (h : forall data, data ∈ datas -> ShortPush data) :
    Script.fromOps (.code OP_RETURN :: datas.map pushOf) =
      .ok { bytecode := OP_RETURN :: datas.flatMap pushBytes } := by
  have hwrites : Forall₂ WritesOp (datas.map pushOf) (datas.map pushBytes) := by
    rw [forall₂_map_left_iff, forall₂_map_right_iff, forall₂_same]
    exact fun data hdata => writesOp_short (h data hdata).right
  rw [fromOps_writes (.cons (writesOp_code OP_RETURN) hwrites), flatten_cons, flatMap_def]
  rfl

def amountBytes (amount : Nat) : Bytes := (littleEndian 8 amount).reverse

theorem amountBytes_short (amount : Nat) : ShortPush (amountBytes amount) := by
  unfold ShortPush amountBytes
  rw [length_reverse, littleEndian_length]
  decide

theorem slpAmountOp_eq {amount : Nat} (h : amount < 2 ^ 64) :
    slpAmountOp amount = .ok (pushOf (amountBytes amount)) := by
  have hrange : ¬ ((amount : Int) < 0 ∨ (amount : Int) > 0xffffffffffffffff) := by omega
  unfold slpAmountOp slpAmount
  rw [if_neg hrange]
  exact pushdataOpSlp_short (amountBytes_short amount)

variable {amounts : List Nat}

theorem mapM_slpAmountOp (h : forall amount, amount ∈ amounts -> amount < 2 ^ 64) :
    (amounts.map fun amount : Nat => (amount : Int)).mapM slpAmountOp =
      .ok ((amounts.map amountBytes).map pushOf) := by
  induction amounts with
  | nil => rfl
  | cons amount amounts ih =>
    rw [map_cons, mapM_cons, slpAmountOp_eq (h amount mem_cons_self), ih (forall_mem_cons.mp h).2]
    rfl

def sendPushes (tokenId : HexTxid) (tokenType : UInt8) (amounts : List Nat) : List Bytes :=
  [SLP_LOKAD_ID, [tokenType], SEND, fromHex tokenId.digits] ++ amounts.map amountBytes

theorem fromHex_tokenId_length (tokenId : HexTxid) : (fromHex tokenId.digits).length = 32 := by
  rw [fromHex_length, tokenId.length]

theorem sendPushes_short (tokenId : HexTxid) (tokenType : UInt8) (amounts : List Nat) :
    forall data, data ∈ sendPushes tokenId tokenType amounts -> ShortPush data := by
  have htokenId : ShortPush (fromHex tokenId.digits) := by
    unfold ShortPush
    rw [fromHex_tokenId_length]
    decide
  refine forall_mem_append.mpr ⟨?_, forall_mem_map.mpr fun amount _ => amountBytes_short amount⟩
  simp only [forall_mem_cons]
  exact ⟨(by decide : 1 ≤ 4 ∧ 4 ≤ 0x4b), (by decide : 1 ≤ 1 ∧ 1 ≤ 0x4b),
    (by decide : 1 ≤ 4 ∧ 4 ≤ 0x4b), htokenId, forall_mem_nil _⟩

theorem slpSend_eq {tokenType : Nat} (htype : verifyTokenType tokenType = .ok ())
    (tokenId : HexTxid) (hpos : 0 < amounts.length) (hmax : amounts.length ≤ 19)
    (h : forall amount, amount ∈ amounts -> amount < 2 ^ 64) :
    slpSend tokenId.digits tokenType (amounts.map fun amount : Nat => (amount : Int)) =
      .ok { bytecode := OP_RETURN ::
        (sendPushes tokenId (UInt8.ofNat tokenType) amounts).flatMap pushBytes } := by
  have hid : verifyTokenId tokenId.digits = .ok () := by
    unfold verifyTokenId
    rw [if_neg (not_not.mpr tokenId.length)]
  have hamounts : verifySendAmounts (amounts.map fun amount : Nat => (amount : Int)) = .ok () := by
    unfold verifySendAmounts
    rw [length_map, if_neg (by omega), if_neg (by omega)]
  have hidShort : ShortPush (fromHex tokenId.digits) := by
    unfold ShortPush
    rw [fromHex_tokenId_length]
    decide
  have hscript := fromOps_pushes (sendPushes_short tokenId (UInt8.ofNat tokenType) amounts)
  unfold slpSend
  rw [htype, hid, hamounts, pushdataOpSlp_short hidShort, mapM_slpAmountOp h]
  refine Eq.trans ?_ hscript
  rfl

/-!
## Reading the pushes back
-/

def indexedPush (data : Bytes) : Tokens.Op := .push (UInt8.ofNat data.length) data

theorem readOp_pushBytes {data : Bytes} (h : ShortPush data) (rest : Bytes) :
    Tokens.readOp (pushBytes data ++ rest) = .ok (indexedPush data, rest) := by
  unfold ShortPush at h
  have hnat := (short_opcode h.2).1
  have hrange : 0x01 ≤ UInt8.ofNat data.length ∧ UInt8.ofNat data.length ≤ 0x4b := by
    constructor
    · show 1 ≤ (UInt8.ofNat data.length).toNat
      omega
    · show (UInt8.ofNat data.length).toNat ≤ 0x4b
      omega
  have hbytes : Tokens.readBytes data.length (data ++ rest) = .ok (data, rest) := by
    unfold Tokens.readBytes
    rw [if_neg (by rw [length_append]; omega), take_left, drop_left]
  show Tokens.readOp (UInt8.ofNat data.length :: (data ++ rest)) = _
  simp only [Tokens.readOp, Tokens.readByte, bind, StateT.bind, Except.bind]
  rw [if_pos hrange]
  simp only [StateT.bind, hnat, hbytes, bind, Except.bind]
  rfl

theorem iterOpsFrom_pushes (h : forall data, data ∈ datas -> ShortPush data)
    {calls : Nat} (hcalls : (datas.flatMap pushBytes).length ≤ calls) :
    Tokens.iterOpsFrom calls (datas.flatMap pushBytes) = (datas.map indexedPush).map .ok := by
  induction datas generalizing calls with
  | nil => cases calls <;> rfl
  | cons data datas ih =>
    have hread := readOp_pushBytes (h data mem_cons_self) (datas.flatMap pushBytes)
    rw [flatMap_cons, length_append] at hcalls
    have hlength : (pushBytes data).length = data.length + 1 := rfl
    obtain ⟨calls, rfl⟩ : exists n, calls = n + 1 := ⟨calls - 1, by omega⟩
    have hrest := ih (forall_mem_cons.mp h).2 (by omega : _ ≤ calls)
    have hcons : pushBytes data ++ datas.flatMap pushBytes =
        UInt8.ofNat data.length :: (data ++ datas.flatMap pushBytes) := rfl
    rw [flatMap_cons, map_cons, map_cons]
    rw [hcons] at hread ⊢
    simp only [Tokens.iterOpsFrom, hread, hrest]

theorem iterOps_pushes (h : forall data, data ∈ datas -> ShortPush data) :
    Tokens.Script.iterOps ⟨OP_RETURN :: datas.flatMap pushBytes⟩ =
      (.code Tokens.opReturn :: datas.map indexedPush).map .ok := by
  have hrest := iterOpsFrom_pushes h le_rfl
  rw [map_cons, ← hrest]
  rfl

theorem mapM_id_ok {α ε : Type} (xs : List α) :
    (xs.map (.ok : α -> Except ε α)).mapM id = .ok xs := by
  induction xs with
  | nil => rfl
  | cons x xs ih =>
    rw [map_cons, mapM_cons, ih]
    rfl

theorem parsePushes_indexed (h : forall data, data ∈ datas -> ShortPush data) (opIdx : Nat) :
    Tokens.Slp.parsePushes opIdx (datas.map indexedPush) = .ok datas := by
  induction datas generalizing opIdx with
  | nil => rfl
  | cons data datas ih =>
    have hshort := h data mem_cons_self
    unfold ShortPush at hshort
    have hnat := (short_opcode hshort.2).1
    have hallowed : ¬ (UInt8.ofNat data.length = Tokens.op0 ∨
        UInt8.ofNat data.length > Tokens.opPushdata4) := by
      rintro (hzero | hgt)
      · have hzero' : (UInt8.ofNat data.length).toNat = 0 := by rw [hzero]; rfl
        omega
      · have hgt' : 0x4e < (UInt8.ofNat data.length).toNat := hgt
        omega
    have hrest := ih (forall_mem_cons.mp h).2 (opIdx + 1)
    rw [map_cons, indexedPush]
    unfold Tokens.Slp.parsePushes
    rw [if_neg hallowed, hrest]
    rfl

/-!
## The amounts
-/

theorem leNat_littleEndian {width n : Nat} (h : n < 256 ^ width) :
    Tokens.leNat (littleEndian width n) = n := by
  induction width generalizing n with
  | zero =>
    have hzero : n = 0 := by omega
    rw [hzero]
    rfl
  | succ width ih =>
    have hhigh : n / 256 < 256 ^ width := by
      rw [Nat.div_lt_iff_lt_mul (by decide)]
      exact h
    have hbyte : (UInt8.ofNat (n % 256)).toNat = n % 256 := by simp
    have hrest := ih hhigh
    unfold Tokens.leNat at hrest ⊢
    rw [littleEndian, foldr_cons]
    omega

theorem beNat_reverse (bytes : Bytes) : Tokens.beNat bytes.reverse = Tokens.leNat bytes := by
  unfold Tokens.beNat Tokens.leNat
  rw [foldl_reverse]
  congr 1
  funext byte value
  omega

theorem beNat_amountBytes {amount : Nat} (h : amount < 2 ^ 64) :
    Tokens.beNat (amountBytes amount) = amount := by
  unfold amountBytes
  rw [beNat_reverse]
  apply leNat_littleEndian
  omega

theorem parseQuantities_amountBytes (h : forall amount, amount ∈ amounts -> amount < 2 ^ 64)
    (name : String) (idx : Nat) :
    Tokens.Slp.parseQuantities name idx (amounts.map amountBytes) = .ok amounts := by
  induction amounts generalizing idx with
  | nil => rfl
  | cons amount amounts ih =>
    have hparse : Tokens.Slp.parseAmount (amountBytes amount) (name ++ toString (idx + 1)) =
        .ok amount := by
      unfold Tokens.Slp.parseAmount
      rw [if_pos (by unfold amountBytes; rw [length_reverse, littleEndian_length]),
        beNat_amountBytes (h amount mem_cons_self)]
    rw [map_cons]
    unfold Tokens.Slp.parseQuantities
    rw [hparse, ih (forall_mem_cons.mp h).2]
    rfl

def indexedTokenId (tokenId : HexTxid) : Tokens.TokenId :=
  Tokens.TokenId.fromBeBytes ⟨fromHex tokenId.digits, fromHex_tokenId_length tokenId⟩

theorem parse_slpSend (txid : Tokens.TxId) (tokenId : HexTxid) (hpos : 0 < amounts.length)
    (hmax : amounts.length ≤ 19) (h : forall amount, amount ∈ amounts -> amount < 2 ^ 64) :
    Tokens.Slp.parseWithIgnoredErr txid
        ⟨OP_RETURN :: (sendPushes tokenId 0x81 amounts).flatMap pushBytes⟩ =
      .ok
        { tokenMeta :=
            { tokenId := indexedTokenId tokenId,
              tokenType := .slp .nft1Group },
          txType := .send amounts } := by
  have hshort := sendPushes_short tokenId 0x81 amounts
  have hops := iterOps_pushes hshort
  have hlokad : Tokens.Slp.parseLokadId
      ⟨OP_RETURN :: (sendPushes tokenId 0x81 amounts).flatMap pushBytes⟩ = .ok () := by
    rfl
  have hpushes : Tokens.Slp.parseOpreturnOps (.code Tokens.opReturn ::
        (sendPushes tokenId 0x81 amounts).map indexedPush) =
      .ok (sendPushes tokenId 0x81 amounts) := by
    exact parsePushes_indexed hshort 1
  have hdata : Tokens.Slp.parseOpreturnData txid (sendPushes tokenId 0x81 amounts) =
      Tokens.Slp.parseSendData .nft1Group (sendPushes tokenId 0x81 amounts) := rfl
  have hid : Tokens.Slp.parseTokenId (fromHex tokenId.digits) = .ok (indexedTokenId tokenId) := by
    unfold Tokens.Slp.parseTokenId
    rw [dif_pos (fromHex_tokenId_length tokenId)]
    rfl
  have hlength : (sendPushes tokenId 0x81 amounts).length = 4 + amounts.length := by
    simp [sendPushes]
    omega
  have hfields : Tokens.Slp.parseIdAndQuantities "token_output_quantity"
      (sendPushes tokenId 0x81 amounts) = .ok (indexedTokenId tokenId, amounts) := by
    have hfew : ¬ (sendPushes tokenId 0x81 amounts).length < 5 := by omega
    have hmany : ¬ (sendPushes tokenId 0x81 amounts).length > 23 := by omega
    have hget : (sendPushes tokenId 0x81 amounts).getD 3 [] = fromHex tokenId.digits := rfl
    have hdrop : (sendPushes tokenId 0x81 amounts).drop 4 = amounts.map amountBytes := rfl
    unfold Tokens.Slp.parseIdAndQuantities
    rw [hget, hdrop, hid, parseQuantities_amountBytes h]
    simp only [rejectIf, hfew, hmany, if_false]
    rfl
  simp only [Tokens.Slp.parseWithIgnoredErr, hlokad, hops, mapM_id_ok, Except.mapError, hpushes,
    hdata, Tokens.Slp.parseSendData, hfields, bind, Except.bind, pure, Except.pure]

end ECash.Lib
