import ECash.Tokens.Conservation

/-!
# Colouring in place

The code colours through a mutable reference, so that a section that fails could leave half
of its work behind.  Every check comes before the first write: a method writes what the
transactional one of the same name returns, or nothing.
-/

namespace ECash.Tokens

open Foundation ColoredTx List

namespace InPlace

abbrev ColorM (value : Type) := InPlace Panic ColorError ColoredTx value

def colorMintData (tokenMeta : TokenMeta) (mintData : ParsedMintData) : ColorM Bool := do
  let outOfRangeIdx <- reading fun tx => tx.checkAmounts mintData.amountsRange none
  let outOfRangeIdx <- reading fun tx => tx.checkBatons mintData.batonsRange outOfRangeIdx
  reading fun tx => tx.checkOutOfRange tokenMeta outOfRangeIdx
  modify fun tx => { tx with
    outputs := colorMintAmounts tx.sections.length mintData.amountsRange tx.outputs }
  modify fun tx => { tx with
    outputs := colorMintBatons tx.sections.length mintData.batonsRange tx.outputs }
  return outOfRangeIdx.isSome

def pushSection (sec : ColoredTxSection) : ColorM Unit :=
  modify fun tx => { tx with sections := tx.sections ++ [sec] }

def colorGenesis (pushdataIdx : Nat) (tokenMeta : TokenMeta) (genesis : ParsedGenesis) :
    ColorM Unit :=
  if pushdataIdx ≠ 0 then
    throw .genesisMustBeFirst
  else do
    let hasColoredOutOfRange <- colorMintData tokenMeta genesis.mintData
    pushSection
      { tokenMeta
        txType := .genesis
        requiredInputSum := 0
        hasColoredOutOfRange
        genesisInfo := some genesis.info }

def colorMint (tokenMeta : TokenMeta) (mint : ParsedMintData) : ColorM Unit := do
  let hasColoredOutOfRange <- colorMintData tokenMeta mint
  pushSection
    { tokenMeta
      txType := .mint
      requiredInputSum := 0
      hasColoredOutOfRange
      genesisInfo := none }

def colorSend (tokenMeta : TokenMeta) (amounts : List Amount) : ColorM Unit := do
  let outOfRangeIdx <- reading fun tx => tx.checkAmounts (outputAmounts amounts) none
  reading fun tx => tx.checkOutOfRange tokenMeta outOfRangeIdx
  let tx <- get
  let (outputs, requiredInputSum) :=
    colorSendAmounts tx.sections.length (outputAmounts amounts) tx.outputs 0
  modify fun tx => { tx with outputs }
  pushSection
    { tokenMeta
      txType := .send
      requiredInputSum
      hasColoredOutOfRange := outOfRangeIdx.isSome
      genesisInfo := none }

def colorBurn (tokenMeta : TokenMeta) (amount : Amount) : ColorM Unit := do
  let tx <- get
  match tx.intentionalBurns.findIdx? fun prevBurn =>
      prevBurn.tokenMeta.tokenId = tokenMeta.tokenId with
  | some prevBurnIdx =>
    throw (.duplicateIntentionalBurnTokenId prevBurnIdx
      tx.intentionalBurns.length tokenMeta.tokenId)
  | none =>
    modify fun tx => { tx with
      intentionalBurns :=
        tx.intentionalBurns ++ [{ tokenMeta, amount }] }

def colorUnknown (tokenMeta : TokenMeta) : ColorM Unit := do
  modify fun tx => { tx with
    outputs := colorUnknownOutputs
      { tokenIdx := tx.sections.length
        variant := .unknown tokenMeta.tokenType.toU8 } tx.outputs }
  pushSection
    { tokenMeta
      txType := .unknown
      requiredInputSum := 0
      hasColoredOutOfRange := false
      genesisInfo := none }

def colorParsed (pushdataIdx : Nat) (parsed : ParsedData) : ColorM Unit := do
  reading fun tx => tx.checkDuplicateTokenId parsed
  match parsed.txType with
  | .genesis genesis => colorGenesis pushdataIdx parsed.tokenMeta genesis
  | .mint mint => colorMint parsed.tokenMeta mint
  | .send amounts => colorSend parsed.tokenMeta amounts
  | .burn amount => colorBurn parsed.tokenMeta amount
  | .unknown => colorUnknown parsed.tokenMeta

/-- The largest token type, the result, and the transaction as it is left. -/
def colorSection (pushdataIdx : Nat) (parsed : ParsedData) (maxTokenType : UInt8)
    (tx : ColoredTx) : Except Panic (UInt8 × Except ColorError Unit × ColoredTx) :=
  let tokenType := parsed.tokenMeta.tokenType.toU8
  if maxTokenType > tokenType then
    return (maxTokenType, .error (.descendingTokenType maxTokenType tokenType), tx)
  else do
    let result <- (colorParsed pushdataIdx parsed).run tx
    return (tokenType, result)

variable {tx : ColoredTx} {tokenMeta : TokenMeta} {pushdataIdx : Nat}

theorem colorMintData_commits {mintData : ParsedMintData} :
    Commits tx (colorMintData tokenMeta mintData) (tx.colorMintData tokenMeta mintData)
      fun written => (written.2, { tx with outputs := written.1 }) :=
  commits_reading fun _ => commits_reading fun _ => commits_reading fun _ => rfl

theorem colorGenesis_commits {genesis : ParsedGenesis} :
    Commits tx (colorGenesis pushdataIdx tokenMeta genesis)
      (tx.colorGenesis pushdataIdx tokenMeta genesis) fun colored => ((), colored) := by
  unfold colorGenesis ColoredTx.colorGenesis
  split
  · exact rfl
  · exact colorMintData_commits.write fun _ => rfl

theorem colorBurn_commits {amount : Amount} :
    Commits tx (colorBurn tokenMeta amount) (tx.colorBurn tokenMeta amount)
      fun colored => ((), colored) := by
  unfold colorBurn ColoredTx.colorBurn
  apply commits_get
  cases tx.intentionalBurns.findIdx? fun prevBurn =>
      prevBurn.tokenMeta.tokenId = tokenMeta.tokenId with
  | none => exact rfl
  | some prevBurnIdx => exact rfl

theorem colorParsed_commits {parsed : ParsedData} :
    Commits tx (colorParsed pushdataIdx parsed) (tx.colorParsed pushdataIdx parsed)
      fun colored => ((), colored) := by
  apply commits_reading
  intro _
  cases parsed.txType with
  | genesis genesis => exact colorGenesis_commits
  | mint mint => exact colorMintData_commits.write fun _ => rfl
  | send amounts => exact commits_reading fun _ => commits_reading fun _ => rfl
  | burn amount => exact colorBurn_commits
  | unknown => exact rfl

theorem colorSection_eq (pushdataIdx : Nat) (parsed : ParsedData) (maxTokenType : UInt8)
    (tx : ColoredTx) :
    colorSection pushdataIdx parsed maxTokenType tx =
      (fun r => (r.1, settle tx (fun colored => ((), colored)) r.2)) <$>
        tx.colorSection pushdataIdx parsed maxTokenType := by
  unfold colorSection ColoredTx.colorSection
  dsimp only
  split
  · rfl
  · rw [show (colorParsed pushdataIdx parsed).run tx = _ from colorParsed_commits]
    cases (tx.colorParsed pushdataIdx parsed).run <;> rfl

/-- The section is coloured, or it fails, nothing is written and the failure is reported. -/
def Recorded (pushdataIdx : Nat) (parsed : ParsedData) (s s' : AlpState) : Prop :=
  exists maxTokenType result written, colorSection pushdataIdx parsed s.maxTokenType s.colored =
        .ok (maxTokenType, result, written) ∧
      match result with
      | .ok _ => s'.colored = written
      | .error error =>
        written = s.colored ∧ s'.colored = { s.colored with
            failedColorings := s.colored.failedColorings ++ [{ pushdataIdx, parsed, error }] }

theorem recorded_of_pushdata {txid : TxId} {pushdata : Bytes} {parsed : ParsedData}
    {s s' : AlpState} (hparse : Alp.parseSection txid pushdata = .ok (some parsed))
    (hstep : colorAlpPushdata txid pushdataIdx pushdata s = .ok s') :
    Recorded pushdataIdx parsed s s' := by
  unfold colorAlpPushdata at hstep
  rw [hparse] at hstep
  rcases bind_eq_ok.mp hstep with ⟨⟨_, result⟩, hsection, hstep⟩
  unfold Recorded
  rw [colorSection_eq, hsection]
  cases result with
  | ok colored =>
    cases hstep
    exact ⟨_, _, _, rfl, rfl⟩
  | error error =>
    cases hstep
    exact ⟨_, _, _, rfl, rfl, rfl⟩

end InPlace

namespace ColoredTx

theorem colorAllAlpPushdata_append (txid : TxId) (pushdataIdx : Nat) (done rest : List Bytes)
    (s : AlpState) :
    colorAllAlpPushdata txid pushdataIdx (done ++ rest) s =
      (colorAllAlpPushdata txid pushdataIdx done s >>=
        colorAllAlpPushdata txid (pushdataIdx + done.length) rest) := by
  induction done generalizing pushdataIdx s with
  | nil => rfl
  | cons pushdata done ih =>
    rw [cons_append]
    unfold colorAllAlpPushdata
    cases colorAlpPushdata txid pushdataIdx pushdata s with
    | error p => rfl
    | ok mid =>
      refine (ih (pushdataIdx + 1) mid).trans ?_
      rw [length_cons, add_right_comm, add_assoc]
      rfl

theorem TxSound.distinct {txid : TxId} {numOutputs : Nat} {tx : ColoredTx}
    (h : TxSound txid numOutputs tx) {i j : Nat} {a b : ColoredTxSection}
    (ha : tx.sections[i]? = some a) (hb : tx.sections[j]? = some b)
    (hknown : a.txType ≠ .unknown) (hknown' : b.txType ≠ .unknown)
    (hid : a.tokenMeta.tokenId = b.tokenMeta.tokenId) : i = j := by
  rcases h.protocol with halp | _
  · have hstandard : forall sec, sec ∈ tx.sections -> sec.txType ≠ .unknown ->
        sec.tokenMeta.tokenType = .alp .standard := by
      intro sec hsec hknown
      have hsalp := halp sec hsec
      rw [Ne, (h.sound.sections sec hsec).unknown_iff] at hknown
      revert hsalp hknown
      rcases sec.tokenMeta.tokenType with _ | (_ | _) | _ <;>
        simp [TokenType.isAlp, TokenType.Unknown]
    have htype := (hstandard a (List.mem_of_getElem? ha) hknown).trans
      (hstandard b (List.mem_of_getElem? hb) hknown').symm
    have hmeta : TokenMeta.mk a.tokenMeta.tokenId a.tokenMeta.tokenType = b.tokenMeta := by
      rw [hid, htype]
    rcases h.sound.unique i j a b ha hb hmeta with hsame | ⟨hunknown, _⟩
    · exact hsame
    · exact absurd hunknown hknown
  · have hi := getElem?_lt ha
    have hj := getElem?_lt hb
    omega

def alpStart (tx : Tx) : AlpState :=
  { colored := uncolored tx, maxTokenType := 0, hasAnyAlp := false }

/-- Colouring never panics, every output points at a section and the tokens of the sections
are distinct; verification reports the sections at their own places.  Each pushdata is coloured
or left out as a whole, and leaves what is coloured already alone. -/
theorem colorTx_atomic {tx : Tx} (hcash : CashTokens.hasAnyPrefixToken tx = false) :
    (exists result, colorTx tx = .ok result ∧ forall colored, result = some colored ->
      (forall o, some o ∈ colored.outputs -> o.tokenIdx < colored.sections.length) ∧
      (forall (i j : Nat) a b, colored.sections[i]? = some a -> colored.sections[j]? = some b ->
        a.txType ≠ .unknown -> b.txType ≠ .unknown ->
        a.tokenMeta.tokenId = b.tokenMeta.tokenId -> i = j) ∧
      forall (ctx : VerifyContext) t, ctx.verify colored = .ok t ->
        forall (i : Nat) sec, colored.sections[i]? = some sec ->
          exists e e', ctx.verifySection colored sec = .ok e ∧ t.entries[i]? = some e' ∧
            VerifyContext.SameVerdict e e') ∧
    forall done pushdata rest, exists s s' last,
      colorAllAlpPushdata tx.txid 0 done (alpStart tx) = .ok s ∧
      colorAlpPushdata tx.txid done.length pushdata s = .ok s' ∧
      colorAllAlpPushdata tx.txid 0 (done ++ pushdata :: rest) (alpStart tx) = .ok last ∧
      Extends s.colored s'.colored ∧ Extends s'.colored last.colored ∧
      forall parsed, Alp.parseSection tx.txid pushdata = .ok (some parsed) ->
        InPlace.Recorded done.length parsed s s' := by
  constructor
  · rcases colorTx_sound hcash with ⟨result, hresult, hsound⟩
    refine ⟨result, hresult, fun colored hcolored => ⟨?_, ?_, ?_⟩⟩
    · intro o ho
      rcases (hsound colored hcolored).sound.outputs o ho with ⟨_, hsec, _⟩
      exact getElem?_lt hsec
    · intro i j a b
      exact (hsound colored hcolored).distinct
    · intro ctx t ht
      exact (VerifyContext.verified_of_verify ht).sections
  · intro done pushdata rest
    have hstart : AlpSound tx.txid tx.outputs.length (alpStart tx).colored :=
      sound_of_uncolored tx.txid tx rfl rfl
    rcases colorAllAlpPushdata_sound done hstart (fun _ => rfl) with ⟨s, hs, hsound, _⟩
    have hfirst : done.length = 0 -> s.colored.sections = [] := by
      intro hzero
      rw [List.length_eq_zero_iff.mp hzero] at hs
      cases hs
      rfl
    rcases colorAlpPushdata_sound hsound hfirst pushdata with ⟨s', hs', hsound', hextends⟩
    rcases colorAllAlpPushdata_sound rest hsound' (nofun : done.length + 1 = 0 -> _) with
      ⟨last, hlast, _, hextends'⟩
    refine ⟨s, s', last, hs, hs', ?_, hextends, hextends',
      fun parsed hparse => InPlace.recorded_of_pushdata hparse hs'⟩
    rw [colorAllAlpPushdata_append, hs, zero_add]
    show colorAllAlpPushdata tx.txid done.length (pushdata :: rest) s = _
    unfold colorAllAlpPushdata
    rw [hs']
    exact hlast

private def sentPushdata : Bytes :=
  [0x53, 0x4c, 0x50, 0x32, 0, 4, 0x53, 0x45, 0x4e, 0x44] ++ replicate 32 7 ++ [1, 5, 0, 0, 0, 0, 0]

private def sentTwice : Tx :=
  { txid := ⟨replicate 32 9, length_replicate⟩
    inputs := []
    outputs := [⟨[0x6a, 0x50, 49] ++ sentPushdata ++ [49] ++ sentPushdata⟩, ⟨[]⟩] }

/-- The second of two equal SENDs fails and leaves the first alone. -/
theorem colorTx_atomic_sentTwice :
    ((colorTx sentTwice).toOption.map fun colored => colored.map fun colored =>
      (colored.sections.length, colored.failedColorings.length)) = some (some (1, 1)) ∧
    exists result, colorTx sentTwice = .ok result :=
  ⟨by decide +kernel, (colorTx_atomic (by decide +kernel)).left.imp fun _ h => h.left⟩

end ColoredTx

end ECash.Tokens
