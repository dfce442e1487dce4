import ECash.Foundation.Unspent
import ECash.Tokens.Conservation

/-!
# Supply

Transactions are verified one after another, each with the tokens that the earlier ones put onto
the outputs it spends.  No token is then worth more than its GENESIS and MINT transactions have
issued.
-/

namespace ECash.Tokens

open Foundation VerifyContext ColoredTx List

/-!
## The ledger
-/

/-- A transaction with what the verification takes from elsewhere: the scripts that are spent, and
whether the GENESIS of its token is known already. -/
structure LedgerTx where
  tx : Tx
  spentScripts : List Script
  genesisKnown : Bool
  deriving DecidableEq

/-- The verified transactions, their outputs with the tokens, and the outputs that were spent. -/
structure Ledger where
  txs : List (TxId × TokenTx)
  outputs : List (OutPoint × Option SpentToken)
  spent : List OutPoint
  deriving DecidableEq

namespace Ledger

def empty : Ledger :=
  { txs := [], outputs := [], spent := [] }

def txids (ledger : Ledger) : List TxId :=
  ledger.txs.map Prod.fst

def tokenAt (ledger : Ledger) (prevOut : OutPoint) : Option SpentToken :=
  (ledger.outputs.lookup prevOut).join

def genesisInfos (ledger : Ledger) : List (TokenId × GenesisInfo) :=
  ledger.txs.flatMap fun verified => verified.2.entries.filterMap fun entry =>
    if entry.isInvalid then none
    else entry.genesisInfo.map fun info => (entry.tokenMeta.tokenId, info)

def genesisInfo (ledger : Ledger) (ledgerTx : LedgerTx) (colored : ColoredTx) :
    Option GenesisInfo :=
  if ledgerTx.genesisKnown then
    colored.sections.head?.bind fun sec => ledger.genesisInfos.lookup sec.tokenMeta.tokenId
  else none

def context (ledger : Ledger) (ledgerTx : LedgerTx) (colored : ColoredTx) : VerifyContext :=
  { spentTokens := ledgerTx.tx.inputs.map ledger.tokenAt
    spentScripts := some ledgerTx.spentScripts
    genesisInfo := ledger.genesisInfo ledgerTx colored
    overrideHasMintVault := none }

def outputToken (t : TokenTx) : Option TokenOutput -> Except Panic (Option SpentToken)
  | none => return none
  | some output => some <$> t.spentToken output

def outputsOf (txid : TxId) (tokens : List (Option SpentToken)) :
    List (OutPoint × Option SpentToken) :=
  tokens.zipIdx.map fun entry => ({ txid, outIdx := entry.2 }, entry.1)

def add (ledger : Ledger) (ledgerTx : LedgerTx) : Except Panic Ledger := do
  let tx := ledgerTx.tx
  let colored <- colorTx tx
  let colored := colored.getD (uncolored tx)
  let t <- (ledger.context ledgerTx colored).verify colored
  let tokens <- t.outputs.mapM (outputToken t)
  return {
    txs := ledger.txs ++ [(tx.txid, t)]
    outputs := ledger.outputs ++ outputsOf tx.txid tokens
    spent := ledger.spent ++ tx.inputs }

/-!
## Supply
-/

def tokenAmount (m : TokenMeta) : Option SpentToken -> Nat
  | some s => if s.token.tokenMeta = m then s.token.variant.amountOf else 0
  | none => 0

def circulating (ledger : Ledger) (m : TokenMeta) : Nat :=
  sumLeft (tokenAmount m) ledger.spent ledger.outputs

def issues (t : TokenTx) (m : TokenMeta) : Bool :=
  t.entries.any fun entry => decide (entry.tokenMeta = m) && !entry.isInvalid &&
    (decide (entry.txType = some .genesis) || decide (entry.txType = some .mint))

/-- The amount that the GENESIS and MINT transactions of a token put onto their outputs. -/
def issued (ledger : Ledger) (m : TokenMeta) : Nat :=
  (ledger.txs.map fun verified =>
    if issues verified.2 m then verified.2.outputSum m else 0).sum

def HasBaton (ledger : Ledger) (m : TokenMeta) : Prop :=
  exists o s, (o, some s) ∈ ledger.outputs ∧ o ∉ ledger.spent ∧ s.token.tokenMeta = m ∧
    s.token.variant = .mintBaton

end Ledger

/-- Ids are different, no output is spent twice, and there are no CashTokens. -/
structure ValidHistory (history : List LedgerTx) : Prop where
  txids : (history.map fun ledgerTx => ledgerTx.tx.txid).Nodup
  once : (history.flatMap fun ledgerTx => ledgerTx.tx.inputs).Nodup
  noCashTokens : forall ledgerTx, ledgerTx ∈ history ->
    CashTokens.hasAnyPrefixToken ledgerTx.tx = false

namespace Ledger

/-!
## Adding a transaction
-/

variable {t : TokenTx} {e : TokenTxEntry} {tokens : List (Option SpentToken)} {s : SpentToken}
  {colored : ColoredTx} {o : OutPoint} {m : TokenMeta} {ledgerTx : LedgerTx}
  {later : List LedgerTx}

variable {ledger : Ledger}

theorem outputToken_some {o : TokenOutput} (h : t.entries[o.tokenIdx]? = some e) :
    outputToken t (some o) = .ok (some
      { token := { tokenMeta := e.tokenMeta, variant := o.variant }
        groupTokenMeta := e.groupTokenMeta }) := by
  show some <$> t.spentToken o = _
  unfold TokenTx.spentToken
  rw [index_of_getElem? h]
  rfl

theorem tokenAmount_outputToken {output : Option TokenOutput} {token : Option SpentToken}
    (h : outputToken t output = .ok token) (m : TokenMeta) :
    tokenAmount m token = t.carriedAmount m output := by
  cases output with
  | none =>
    cases h
    rfl
  | some o =>
    cases hentry : t.entries[o.tokenIdx]? with
    | none =>
      unfold outputToken TokenTx.spentToken index at h
      simp only [hentry] at h
      cases h
    | some entry =>
      rw [outputToken_some hentry] at h
      cases h
      rw [TokenTx.carriedAmount_some, tokenMetaOf_eq hentry]
      simp [tokenAmount]

theorem sum_tokenAmount {outputs : Outputs} (h : outputs.mapM (outputToken t) = .ok tokens)
    (m : TokenMeta) : (tokens.map (tokenAmount m)).sum = (outputs.map (t.carriedAmount m)).sum := by
  rw [mapM_eq_ok] at h
  induction h with
  | nil => rfl
  | cons hfirst _ ih =>
    rw [map_cons, map_cons, sum_cons, sum_cons, ih, tokenAmount_outputToken hfirst]

theorem mem_of_tokenAt {prevOut : OutPoint} (h : ledger.tokenAt prevOut = some s) :
    (prevOut, some s) ∈ ledger.outputs := by
  rcases Option.join_eq_some_iff.mp h with hlookup
  rcases lookup_eq_some_iff.mp hlookup with ⟨_, _, heq, _⟩
  rw [heq]
  simp

theorem mem_of_spent (h : some s ∈ (ledger.context ledgerTx colored).spentTokens) :
    exists prevOut, prevOut ∈ ledgerTx.tx.inputs ∧ (prevOut, some s) ∈ ledger.outputs := by
  rcases mem_map.mp h with ⟨prevOut, hmem, htoken⟩
  exact ⟨prevOut, hmem, mem_of_tokenAt htoken⟩

/-- What holds of the ledger of every history. -/
structure Ok (ledger : Ledger) : Prop where
  keys : (ledger.outputs.map Prod.fst).Nodup
  created : forall o token, (o, token) ∈ ledger.outputs -> o.txid ∈ ledger.txids
  ids : forall o s, (o, some s) ∈ ledger.outputs ->
    s.token.tokenMeta.tokenId ∈ ledger.txids ∨ s.token.tokenMeta.tokenType.Unknown
  infos : forall id info, (id, info) ∈ ledger.genesisInfos -> id ∈ ledger.txids
  bounded : forall m, ledger.circulating m ≤ ledger.issued m
  childBaton : forall o s, (o, some s) ∈ ledger.outputs ->
    s.token.tokenMeta.tokenType = .slp .nft1Child ->
    s.token.variant ≠ .mintBaton
  childIssued : forall m, m.tokenType = .slp .nft1Child ->
    ledger.issued m ≤ 1 ∧ (m.tokenId ∉ ledger.txids -> ledger.issued m = 0)

/-- The ledger after a transaction. -/
structure Adds (ledger : Ledger) (ledgerTx : LedgerTx) (colored : ColoredTx) (t : TokenTx)
    (tokens : List (Option SpentToken)) (ledger' : Ledger) : Prop where
  sound : TxSound ledgerTx.tx.txid ledgerTx.tx.outputs.length colored
  report : Report (ledger.context ledgerTx colored) colored t
  returned : t.outputs.mapM (outputToken t) = .ok tokens
  result : ledger' =
    { txs := ledger.txs ++ [(ledgerTx.tx.txid, t)]
      outputs := ledger.outputs ++ outputsOf ledgerTx.tx.txid tokens
      spent := ledger.spent ++ ledgerTx.tx.inputs }

theorem add_returns (hok : Ok ledger) (hcash : CashTokens.hasAnyPrefixToken ledgerTx.tx = false)
    (hnew : ledgerTx.tx.txid ∉ ledger.txids) :
    exists ledger' colored t tokens, ledger.add ledgerTx = .ok ledger' ∧
      Adds ledger ledgerTx colored t tokens ledger' := by
  rcases colorTx_getD_sound hcash with ⟨colored, hcolored, hsound⟩
  have hown : forall s,
      some s ∈ (ledger.context ledgerTx (colored.getD (uncolored ledgerTx.tx))).spentTokens ->
      s.token.tokenMeta.tokenId = ledgerTx.tx.txid -> s.token.tokenMeta.tokenType.Unknown := by
    intro s hs hid
    rcases mem_of_spent hs with ⟨prevOut, _, hmem⟩
    rcases hok.ids prevOut s hmem with hearlier | hunknown
    · exact absurd (hid ▸ hearlier) hnew
    · exact hunknown
  rcases verify_report hsound.sound rfl (fun _ _ _ => ⟨ledgerTx.spentScripts, rfl⟩) hown with
    ⟨t, ht, hreport⟩
  have htokens : forall output, output ∈ t.outputs ->
      exists token, outputToken t output = .ok token := by
    intro output houtput
    cases output with
    | none => exact ⟨none, rfl⟩
    | some o =>
      rcases hreport.carried hsound.sound houtput with ⟨_, _, _, he, _⟩
      exact ⟨_, outputToken_some he⟩
  rcases mapM_succeeds htokens with ⟨tokens, htokens⟩
  refine ⟨_, colored.getD (uncolored ledgerTx.tx), t, tokens, ?_, hsound, hreport, htokens, rfl⟩
  unfold add
  simp only [hcolored, ht, htokens, bind, Except.bind, pure, Except.pure]

section Adds

variable {ledger' : Ledger} (hadds : Adds ledger ledgerTx colored t tokens ledger')

include hadds

theorem Adds.txids : ledger'.txids = ledger.txids ++ [ledgerTx.tx.txid] := by
  rw [hadds.result]
  exact map_append

theorem Adds.issued (m : TokenMeta) :
    ledger'.issued m = ledger.issued m + if issues t m then t.outputSum m else 0 := by
  rw [hadds.result]
  unfold Ledger.issued
  rw [map_append, sum_append, map_singleton, sum_singleton]

theorem Adds.carried (h : (o, some s) ∈ outputsOf ledgerTx.tx.txid tokens) :
    exists (i : Nat) (sec : ColoredTxSection) (e : TokenTxEntry),
      colored.sections[i]? = some sec ∧ t.entries[i]? = some e ∧ e.isInvalid = false ∧
      s.token.tokenMeta = sec.tokenMeta ∧
      MayCarry sec.txType sec.tokenMeta.tokenType s.token.variant ∧
      s.token.variant.amountOf ≤ t.outputSum sec.tokenMeta := by
  rcases mem_map.mp h with ⟨⟨_, _⟩, hentry, heq⟩
  have htoken : some s ∈ tokens := by
    cases heq
    exact mem_of_getElem? (mk_mem_zipIdx_iff_getElem?.mp hentry)
  rcases forall₂_exists_left (mapM_eq_ok.mp hadds.returned) htoken with ⟨output, houtput, hs⟩
  cases output with
  | none => cases hs
  | some output =>
    rcases hadds.report.carried hadds.sound.sound houtput with
      ⟨sec, e, hsec, he, hvalid, hmeta, hcarry⟩
    rw [outputToken_some he] at hs
    cases hs
    have hsame : e.tokenMeta = sec.tokenMeta := (hadds.report.keeps hsec he).tokenMeta
    have hone : t.carriedAmount sec.tokenMeta (some output) = output.variant.amountOf := by
      rw [TokenTx.carriedAmount_some, hmeta, if_pos rfl]
    refine ⟨output.tokenIdx, sec, e, hsec, he, hvalid, hsame, hcarry, ?_⟩
    rw [← hone]
    exact single_le_sum (fun _ _ => Nat.zero_le _) _ (mem_map_of_mem houtput)

theorem Adds.issues_section (h : issues t m = true) :
    exists (i : Nat) (sec : ColoredTxSection) (e : TokenTxEntry),
      colored.sections[i]? = some sec ∧ t.entries[i]? = some e ∧ e.isInvalid = false ∧
      sec.tokenMeta = m ∧ (sec.txType = .genesis ∨ sec.txType = .mint) := by
  rcases any_eq_true.mp h with ⟨e, he, hentry⟩
  simp only [Bool.and_eq_true, Bool.or_eq_true, decide_eq_true_eq, Bool.not_eq_true'] at hentry
  rcases hentry with ⟨⟨hmeta, hvalid⟩, htype⟩
  rcases htype with htype | htype <;>
    rcases hadds.report.section_of_entry he hvalid htype nofun with ⟨i, sec, hsec, hi, hkind⟩ <;>
    exact ⟨i, sec, e, hsec, hi, hvalid,
      (hadds.report.keeps hsec hi).tokenMeta.symm.trans hmeta, by simp [hkind]⟩

theorem Adds.mint_cases {i : Nat} {sec : ColoredTxSection}
    (hsec : colored.sections[i]? = some sec) (he : t.entries[i]? = some e)
    (hvalid : e.isInvalid = false) (hmint : sec.txType = .mint) :
    (sec.tokenMeta.tokenType ≠ TokenType.mintVault ∧
      exists prevOut s, prevOut ∈ ledgerTx.tx.inputs ∧ (prevOut, some s) ∈ ledger.outputs ∧
        s.token.tokenMeta = sec.tokenMeta ∧ s.token.variant = .mintBaton) ∨
    (sec.tokenMeta.tokenType = TokenType.mintVault ∧
      exists info, (sec.tokenMeta.tokenId, info) ∈ ledger.genesisInfos) := by
  rcases hadds.report.mintAllowed hsec he hvalid hmint with
    ⟨htype, s, hs, hmeta, hbaton⟩ | ⟨htype, info, _, _, hinfo, _⟩
  · rcases mem_of_spent hs with ⟨prevOut, hinput, hmem⟩
    exact .inl ⟨htype, prevOut, s, hinput, hmem, hmeta, hbaton⟩
  refine .inr ⟨htype, info, ?_⟩
  -- a mint vault is SLP, so its section is the only one
  have hhead : colored.sections.head? = some sec := by
    rcases hadds.sound.protocol with halp | _
    · have hslp := halp sec (mem_of_getElem? hsec)
      rw [htype] at hslp
      cases hslp
    · have hlt := getElem?_lt hsec
      have hi : i = 0 := by omega
      rw [head?_eq_getElem?, ← hi]
      exact hsec
  have hinfo : ledger.genesisInfo ledgerTx colored = some info := hinfo
  unfold Ledger.genesisInfo at hinfo
  split at hinfo
  · rw [hhead] at hinfo
    rcases lookup_eq_some_iff.mp hinfo with ⟨_, _, heq, _⟩
    rw [heq]
    simp
  · cases hinfo

namespace Adds

variable (hok : Ok ledger)

include hok

theorem child_issues (htype : m.tokenType = .slp .nft1Child) (h : issues t m = true) :
    m.tokenId = ledgerTx.tx.txid ∧ t.outputSum m ≤ 1 := by
  rcases hadds.issues_section h with ⟨i, sec, _, hsec, he, hvalid, hmeta, hkind⟩
  subst hmeta
  rcases hkind with hgenesis | hmint
  · have hsection := hadds.sound.sound.sections sec (mem_of_getElem? hsec)
    refine ⟨hsection.genesis_id hgenesis, ?_⟩
    rw [hadds.report.outputSum hadds.sound.sound.indexed hsec he hvalid (by rw [hgenesis]; nofun)]
    exact hadds.sound.sound.child i sec hsec hgenesis htype
  · rcases hadds.mint_cases hsec he hvalid hmint with
      ⟨_, prevOut, s, _, hmem, hmeta, hbaton⟩ | ⟨hvault, _⟩
    · exact absurd hbaton (hok.childBaton prevOut s hmem (by rw [hmeta]; exact htype))
    · rw [htype] at hvault
      cases hvault

/-- Inputs and outputs of a token balance with what circulates. -/
theorem balance (honce : (ledger.spent ++ ledgerTx.tx.inputs).Nodup) (m : TokenMeta) :
    ledger'.circulating m + (ledger.context ledgerTx colored).calcInputSum m ≤
      ledger.circulating m + t.outputSum m := by
  have hinputs : (ledger.context ledgerTx colored).calcInputSum m =
      (ledgerTx.tx.inputs.map (amountUnder (tokenAmount m) ledger.outputs)).sum := by
    show inputAmount m (ledgerTx.tx.inputs.map ledger.tokenAt) = _
    induction ledgerTx.tx.inputs with
    | nil => rfl
    | cons prevOut inputs ih =>
      rw [map_cons, map_cons, sum_cons, ← ih]
      unfold amountUnder tokenAt
      cases ledger.outputs.lookup prevOut with
      | none => exact (zero_add _).symm
      | some token =>
        cases token with
        | none => exact (zero_add _).symm
        | some s => exact inputAmount_some m s _
  have hnew : sumLeft (tokenAmount m) (ledger.spent ++ ledgerTx.tx.inputs)
      (outputsOf ledgerTx.tx.txid tokens) ≤ t.outputSum m := by
    refine sumLeft_le_sum.trans (Nat.le_of_eq ?_)
    unfold outputsOf TokenTx.outputSum
    rw [map_map, ← sum_tokenAmount hadds.returned m]
    have hfst : (tokens.zipIdx.map fun entry => tokenAmount m entry.1) =
        tokens.map (tokenAmount m) := by
      show tokens.zipIdx.map (tokenAmount m ∘ Prod.fst) = _
      rw [← map_map, zipIdx_map_fst]
    exact congrArg sum hfst
  have htake := sumLeft_take (f := tokenAmount m) hok.keys honce
  rw [hadds.result]
  show sumLeft (tokenAmount m) (ledger.spent ++ ledgerTx.tx.inputs)
    (ledger.outputs ++ outputsOf ledgerTx.tx.txid tokens) + _ ≤
      sumLeft (tokenAmount m) ledger.spent ledger.outputs + _
  rw [sumLeft_append]
  omega

theorem circulating_le (honce : (ledger.spent ++ ledgerTx.tx.inputs).Nodup)
    (h : issues t m = false) : ledger'.circulating m ≤ ledger.circulating m := by
  have hbalance := hadds.balance hok honce m
  have hle : t.outputSum m ≤ (ledger.context ledgerTx colored).calcInputSum m := by
    by_contra hmore
    rcases hadds.report.issued_conserves hadds.sound (not_le.mp hmore) with
      ⟨e, he, hmeta, hvalid, hkind⟩
    rw [← Bool.not_eq_true] at h
    apply h
    unfold issues
    rw [any_eq_true]
    refine ⟨e, he, ?_⟩
    rcases hkind with ⟨htype, _⟩ | ⟨htype, _⟩ <;> simp [hmeta, hvalid, htype]
  omega

/-- The token of a new output has had its GENESIS, unless its type is unknown. -/
theorem id_cases (h : (o, some s) ∈ outputsOf ledgerTx.tx.txid tokens) :
    s.token.tokenMeta.tokenId ∈ ledger'.txids ∨ s.token.tokenMeta.tokenType.Unknown := by
  rcases hadds.carried h with ⟨_, sec, _, hsec, he, hvalid, hmeta, hcarry, hamount⟩
  have hsection := hadds.sound.sound.sections sec (mem_of_getElem? hsec)
  have hkept := hadds.report.keeps hsec he
  rw [hadds.txids, hmeta]
  have hspent : forall prevOut s', (prevOut, some s') ∈ ledger.outputs ->
      s'.token.tokenMeta = sec.tokenMeta ->
      sec.tokenMeta.tokenId ∈ ledger.txids ++ [ledgerTx.tx.txid] ∨
        sec.tokenMeta.tokenType.Unknown := by
    intro prevOut s' hmem hsame
    rw [← hsame]
    exact (hok.ids prevOut s' hmem).imp_left (mem_append_left _)
  have hgenesis : sec.txType = .genesis ->
      sec.tokenMeta.tokenId ∈ ledger.txids ++ [ledgerTx.tx.txid] := by
    intro hkind
    rw [hsection.genesis_id hkind]
    simp
  have hmint : sec.txType = .mint -> sec.tokenMeta.tokenId ∈ ledger.txids ++ [ledgerTx.tx.txid] ∨
        sec.tokenMeta.tokenType.Unknown := by
    intro hkind
    rcases hadds.mint_cases hsec he hvalid hkind with
      ⟨_, prevOut, s', _, hmem, hsame, _⟩ | ⟨_, info, hinfo⟩
    · exact hspent prevOut s' hmem hsame
    · exact .inl (mem_append_left _ (hok.infos _ info hinfo))
  generalize s.token.variant = variant at hcarry hamount
  cases variant with
  | amount value =>
    rcases hcarry with ⟨hpos, hkind | hkind | hkind⟩
    · exact .inl (hgenesis hkind)
    · exact hmint hkind
    -- the inputs of a SEND have some of its token
    by_contra hnone
    have hzero : (ledger.context ledgerTx colored).calcInputSum sec.tokenMeta = 0 := by
      apply calcInputSum_eq_zero
      intro s' hs' hsame
      rcases mem_of_spent hs' with ⟨prevOut, _, hmem⟩
      exact hnone (hspent prevOut s' hmem hsame)
    have hbalance := hadds.report.send_conserves hadds.sound (mem_of_getElem? he)
      hvalid (by rw [hkept.txType, hkind])
    rw [hkept.tokenMeta] at hbalance
    have hsum : 0 < t.outputSum sec.tokenMeta := hpos.trans_le hamount
    omega
  | mintBaton =>
    rcases hcarry with ⟨hkind, _⟩ | ⟨hkind, _⟩
    · exact .inl (hgenesis hkind)
    · exact hmint hkind
  | unknown value => exact .inr (hsection.unknown_iff.mp hcarry.left)
  | commitment value => cases hcarry

theorem keys (hnew : ledgerTx.tx.txid ∉ ledger.txids) : (ledger'.outputs.map Prod.fst).Nodup := by
  rw [hadds.result]
  have hkeys : (outputsOf ledgerTx.tx.txid tokens).map Prod.fst =
      (range tokens.length).map fun outIdx =>
        { txid := ledgerTx.tx.txid, outIdx } := by
    unfold outputsOf
    rw [map_map, range_eq_range', ← zipIdx_map_snd, map_map]
    rfl
  rw [map_append, hkeys]
  refine Nodup.append hok.keys (nodup_range.map ?_) ?_
  · intro a b heq
    exact congrArg OutPoint.outIdx heq
  intro o hold hfresh
  rcases mem_map.mp hold with ⟨⟨o', token⟩, hmem, rfl⟩
  rcases mem_map.mp hfresh with ⟨_, _, heq⟩
  have hcreated := hok.created o' token hmem
  cases heq
  exact hnew hcreated

theorem infos {id : TokenId} {info : GenesisInfo}
    (h : (id, info) ∈ ledger'.genesisInfos) : id ∈ ledger'.txids := by
  rw [hadds.txids]
  rw [hadds.result] at h
  rcases mem_flatMap.mp h with ⟨verified, hverified, hinfo⟩
  rcases mem_append.mp hverified with hold | hnew
  · exact mem_append_left _ (hok.infos id info (mem_flatMap.mpr ⟨verified, hold, hinfo⟩))
  cases mem_singleton.mp hnew
  rcases mem_filterMap.mp hinfo with ⟨e, he, hentry⟩
  split at hentry
  · cases hentry
  · rename_i hvalid
    rcases Option.map_eq_some_iff.mp hentry with ⟨_, hsome, heq⟩
    cases heq
    rcases hadds.report.entries e he with ⟨_, sec, hsec, hi⟩ | hextra
    · have hkept := hadds.report.keeps hsec hi
      have hsection := hadds.sound.sound.sections sec (mem_of_getElem? hsec)
      have hgenesis : sec.txType = .genesis := by
        rw [hsection.genesis_iff, ← hkept.genesisInfo, hsome]
        rfl
      rw [hkept.tokenMeta, hsection.genesis_id hgenesis]
      simp
    · rw [(hextra.valid (Bool.not_eq_true _ ▸ hvalid)).right] at hsome
      cases hsome

end Adds

theorem Adds.baton_cases (h : (o, some s) ∈ outputsOf ledgerTx.tx.txid tokens)
    (hbaton : s.token.variant = .mintBaton) :
    (s.token.tokenMeta.tokenId = ledgerTx.tx.txid ∧ s.token.tokenMeta.tokenType ≠ .slp .nft1Child) ∨
    exists prevOut s', prevOut ∈ ledgerTx.tx.inputs ∧ (prevOut, some s') ∈ ledger.outputs ∧
      s'.token.tokenMeta = s.token.tokenMeta ∧ s'.token.variant = .mintBaton := by
  rcases hadds.carried h with ⟨_, sec, _, hsec, he, hvalid, hmeta, hcarry, _⟩
  rw [hmeta]
  rw [hbaton] at hcarry
  rcases hcarry with ⟨hgenesis, hchild⟩ | ⟨hmint, hvault⟩
  · have hsection := hadds.sound.sound.sections sec (mem_of_getElem? hsec)
    exact .inl ⟨hsection.genesis_id hgenesis, hchild⟩
  · rcases hadds.mint_cases hsec he hvalid hmint with ⟨_, hspent⟩ | ⟨htype, _⟩
    · exact .inr hspent
    · exact absurd htype hvault

theorem Adds.mem_outputs {token : Option SpentToken} :
    (o, token) ∈ ledger'.outputs <->
      (o, token) ∈ ledger.outputs ∨ (o, token) ∈ outputsOf ledgerTx.tx.txid tokens := by
  rw [hadds.result]
  exact mem_append

theorem Adds.ok (hok : Ok ledger) (hnew : ledgerTx.tx.txid ∉ ledger.txids)
    (honce : (ledger.spent ++ ledgerTx.tx.inputs).Nodup) : Ok ledger' where
  keys := hadds.keys hok hnew
  created := by
    intro o token hmem
    rw [hadds.txids]
    rcases hadds.mem_outputs.mp hmem with hold | hfresh
    · exact mem_append_left _ (hok.created o token hold)
    · rcases mem_map.mp hfresh with ⟨_, _, heq⟩
      cases heq
      simp
  ids := by
    intro o s hmem
    rcases hadds.mem_outputs.mp hmem with hold | hfresh
    · rw [hadds.txids]
      exact (hok.ids o s hold).imp_left (mem_append_left _)
    · exact hadds.id_cases hok hfresh
  infos := fun _ _ => hadds.infos hok
  bounded := by
    intro m
    have hbound := hok.bounded m
    rw [hadds.issued]
    cases hissues : issues t m with
    | true =>
      have hbalance := hadds.balance hok honce m
      rw [if_pos rfl]
      omega
    | false =>
      have hle := hadds.circulating_le hok honce hissues
      omega
  childBaton := by
    intro o s hmem hchild hbaton
    rcases hadds.mem_outputs.mp hmem with hold | hfresh
    · exact hok.childBaton o s hold hchild hbaton
    · rcases hadds.baton_cases hfresh hbaton with ⟨_, hne⟩ | ⟨prevOut, s', _, hold, hmeta, hspent⟩
      · exact hne hchild
      · exact hok.childBaton prevOut s' hold (by rw [hmeta]; exact hchild) hspent
  childIssued := by
    intro m hchild
    rcases hok.childIssued m hchild with ⟨hone, hzero⟩
    rw [hadds.issued, hadds.txids]
    cases hissues : issues t m with
    | true =>
      rcases hadds.child_issues hok hchild hissues with ⟨hid, hsum⟩
      rw [hzero (hid ▸ hnew), zero_add]
      exact ⟨hsum, fun hnone => absurd (by simp [hid]) hnone⟩
    | false => exact ⟨hone, fun hnone => hzero fun hmem => hnone (mem_append_left _ hmem)⟩

theorem Adds.without_baton (honce : (ledger.spent ++ ledgerTx.tx.inputs).Nodup)
    (hvault : m.tokenType ≠ TokenType.mintVault) (hid : ledgerTx.tx.txid ≠ m.tokenId)
    (hbaton : ¬ ledger.HasBaton m) : issues t m = false ∧ ¬ ledger'.HasBaton m := by
  have hunspent : forall prevOut s, prevOut ∈ ledgerTx.tx.inputs ->
      (prevOut, some s) ∈ ledger.outputs -> s.token.tokenMeta = m ->
      s.token.variant ≠ .mintBaton := by
    intro prevOut s hinput hmem hmeta hspent
    have hfree : prevOut ∉ ledger.spent := fun hspent =>
      disjoint_of_nodup_append honce hspent hinput
    exact hbaton ⟨prevOut, s, hmem, hfree, hmeta, hspent⟩
  constructor
  · rw [← Bool.not_eq_true]
    intro hissues
    rcases hadds.issues_section hissues with ⟨_, sec, _, hsec, he, hvalid, hmeta, hkind⟩
    subst hmeta
    rcases hkind with hgenesis | hmint
    · have hsection := hadds.sound.sound.sections sec (mem_of_getElem? hsec)
      exact hid (hsection.genesis_id hgenesis).symm
    · rcases hadds.mint_cases hsec he hvalid hmint with
        ⟨_, prevOut, s, hinput, hmem, hmeta, hspent⟩ | ⟨htype, _⟩
      · exact hunspent prevOut s hinput hmem hmeta hspent
      · exact hvault htype
  · rintro ⟨o, s, hmem, hfree, hmeta, hcarried⟩
    rcases hadds.mem_outputs.mp hmem with hold | hfresh
    · refine hbaton ⟨o, s, hold, ?_, hmeta, hcarried⟩
      rw [hadds.result] at hfree
      exact fun hspent => hfree (mem_append_left _ hspent)
    · rcases hadds.baton_cases hfresh hcarried with ⟨hgenesis, _⟩ | ⟨o', s', hinput, hold, hs⟩
      · exact hid (hmeta ▸ hgenesis).symm
      · exact hunspent o' s' hinput hold (hs.left.trans hmeta) hs.right

end Adds

/-!
## Histories
-/

/-- The ledger can be continued with these transactions. -/
structure Fits (ledger : Ledger) (later : List LedgerTx) : Prop where
  txids : (ledger.txids ++ later.map fun ledgerTx => ledgerTx.tx.txid).Nodup
  once : (ledger.spent ++ later.flatMap fun ledgerTx => ledgerTx.tx.inputs).Nodup
  noCashTokens : forall ledgerTx, ledgerTx ∈ later ->
    CashTokens.hasAnyPrefixToken ledgerTx.tx = false

/-- The supply of a token ends at `ledger`. -/
def Ends (ledger ledger' : Ledger) (m : TokenMeta) : Prop :=
  ¬ ledger'.HasBaton m ∧ ledger'.circulating m ≤ ledger.circulating m

theorem ok_empty : Ok empty where
  keys := nodup_nil
  created := nofun
  ids := nofun
  infos := nofun
  bounded := fun _ => Nat.le_refl 0
  childBaton := nofun
  childIssued := fun _ _ => ⟨Nat.zero_le 1, fun _ => rfl⟩

theorem Fits.head (h : ledger.Fits (ledgerTx :: later)) :
    ledgerTx.tx.txid ∉ ledger.txids ∧ (ledger.spent ++ ledgerTx.tx.inputs).Nodup := by
  constructor
  · intro hmem
    exact disjoint_of_nodup_append h.txids hmem mem_cons_self
  · have honce := h.once
    rw [flatMap_cons, ← append_assoc] at honce
    exact honce.of_append_left

theorem Fits.tail (h : ledger.Fits (ledgerTx :: later)) {ledger' : Ledger}
    (hadds : Adds ledger ledgerTx colored t tokens ledger') : ledger'.Fits later where
  txids := by
    rw [hadds.txids, append_assoc]
    exact h.txids
  once := by
    rw [hadds.result]
    rw [append_assoc]
    exact h.once
  noCashTokens := (forall_mem_cons.mp h.noCashTokens).2

theorem run_ok (hok : Ok ledger) (hfits : ledger.Fits later) :
    exists ledger', later.foldlM add ledger = .ok ledger' ∧ Ok ledger' ∧
      ledger'.txids = (ledger.txids ++ later.map fun ledgerTx => ledgerTx.tx.txid) ∧
      ledger'.spent = (ledger.spent ++ later.flatMap fun ledgerTx => ledgerTx.tx.inputs) ∧
      forall m, m.tokenType ≠ TokenType.mintVault -> ¬ ledger.HasBaton m ->
        (forall ledgerTx, ledgerTx ∈ later -> ledgerTx.tx.txid ≠ m.tokenId) ->
        Ends ledger ledger' m := by
  induction later generalizing ledger with
  | nil =>
    refine ⟨ledger, rfl, hok, by simp, by simp, ?_⟩
    intro m _ hbaton _
    exact ⟨hbaton, le_rfl⟩
  | cons ledgerTx later ih =>
    rcases hfits.head with ⟨hnew, honce⟩
    rcases add_returns hok (hfits.noCashTokens ledgerTx mem_cons_self) hnew with
      ⟨middle, colored, t, tokens, hadd, hadds⟩
    rcases ih (hadds.ok hok hnew honce) (hfits.tail hadds) with
      ⟨ledger', hrun, hok', htxids, hspent, hends⟩
    refine ⟨ledger', ?_, hok', ?_, ?_, ?_⟩
    · rw [foldlM_cons, hadd]
      exact hrun
    · rw [htxids, hadds.txids, append_assoc]
      rfl
    · rw [hspent, hadds.result, flatMap_cons, ← append_assoc]
    intro m hvault hbaton hids
    rcases hadds.without_baton honce hvault (hids ledgerTx mem_cons_self) hbaton with
      ⟨hissues, hbaton'⟩
    have hle := hadds.circulating_le hok honce hissues
    rcases hends m hvault hbaton' fun other hother =>
      hids other (mem_cons_of_mem _ hother) with ⟨hlast, hle'⟩
    exact ⟨hlast, hle'.trans hle⟩

/-- No more of a token circulates than its GENESIS and MINT transactions have issued. Of an NFT1
CHILD there is at most one, without a mint baton. Once the last mint baton of a token is gone, and
its GENESIS does not come later, its supply never increases again. -/
theorem supply {history : List LedgerTx} (hvalid : ValidHistory history) :
    exists ledger, history.foldlM add empty = .ok ledger ∧ forall m,
      ledger.circulating m ≤ ledger.issued m ∧
      (m.tokenType = .slp .nft1Child ->
        ledger.circulating m ≤ 1 ∧
          forall o s, (o, some s) ∈ ledger.outputs -> s.token.tokenMeta = m ->
            s.token.variant ≠ .mintBaton) ∧
      (m.tokenType ≠ TokenType.mintVault -> ¬ ledger.HasBaton m ->
        forall later, ValidHistory (history ++ later) ->
          (forall ledgerTx, ledgerTx ∈ later -> ledgerTx.tx.txid ≠ m.tokenId) ->
          exists ledger', later.foldlM add ledger = .ok ledger' ∧
            ¬ ledger'.HasBaton m ∧ ledger'.circulating m ≤ ledger.circulating m) := by
  have hfits : empty.Fits history :=
    { txids := hvalid.txids, once := hvalid.once, noCashTokens := hvalid.noCashTokens }
  rcases run_ok ok_empty hfits with ⟨ledger, hrun, hok, htxids, hspent, _⟩
  refine ⟨ledger, hrun, fun m => ⟨hok.bounded m, ?_, ?_⟩⟩
  · intro hchild
    refine ⟨(hok.bounded m).trans (hok.childIssued m hchild).left, ?_⟩
    intro o s hmem hmeta
    exact hok.childBaton o s hmem (by rw [hmeta]; exact hchild)
  · intro hvault hbaton later hlater hids
    have hfits' : ledger.Fits later := by
      refine ⟨?_, ?_, fun other hother => hlater.noCashTokens other (by simp [hother])⟩
      · rw [htxids]
        simpa [empty, Ledger.txids] using hlater.txids
      · rw [hspent]
        simpa [empty] using hlater.once
    rcases run_ok hok hfits' with ⟨ledger', hrun', _, _, _, hends⟩
    exact ⟨ledger', hrun', hends m hvault hbaton hids⟩

private def mintedTokenId : ByteArr 32 := ⟨replicate 32 5, length_replicate⟩

private def mintedToken : TokenMeta :=
  { tokenId := TokenId.fromBeBytes mintedTokenId
    tokenType := .slp .fungible }

/-- An SLP GENESIS of 10 tokens with a mint baton, a MINT of 5 that ends the baton, and a SEND
of 8 that burns the other 7. -/
private def mintHistory : List LedgerTx :=
  [{ tx :=
      { txid := ⟨replicate 32 5, length_replicate⟩
        inputs := []
        outputs := [⟨[0x6a, 4, 83, 76, 80, 0, 1, 1, 7, 71, 69, 78, 69, 83, 73, 83,
          0x4c, 0, 0x4c, 0, 0x4c, 0, 0x4c, 0, 1, 0, 1, 2, 8, 0, 0, 0, 0, 0, 0, 0, 10]⟩,
          ⟨[]⟩, ⟨[]⟩] }
     spentScripts := []
     genesisKnown := true },
   { tx :=
      { txid := ⟨replicate 32 8, rfl⟩
        inputs := [⟨⟨replicate 32 5, length_replicate⟩, 2⟩]
        outputs := [⟨[0x6a, 4, 83, 76, 80, 0, 1, 1, 4, 77, 73, 78, 84, 32] ++
          replicate 32 5 ++ [0x4c, 0, 8, 0, 0, 0, 0, 0, 0, 0, 5]⟩, ⟨[]⟩] }
     spentScripts := []
     genesisKnown := true },
   { tx :=
      { txid := ⟨replicate 32 7, rfl⟩
        inputs := [⟨⟨replicate 32 5, length_replicate⟩, 1⟩, ⟨⟨replicate 32 8, rfl⟩, 1⟩]
        outputs := [⟨[0x6a, 4, 83, 76, 80, 0, 1, 1, 4, 83, 69, 78, 68, 32] ++
          replicate 32 5 ++ [8, 0, 0, 0, 0, 0, 0, 0, 5, 8, 0, 0, 0, 0, 0, 0, 0, 3]⟩,
          ⟨[]⟩, ⟨[]⟩] }
     spentScripts := []
     genesisKnown := true }]

/-- What circulates and what was issued after the first transactions. -/
private def mintSupply (count : Nat) : Option (Nat × Nat) :=
  ((mintHistory.take count).foldlM add empty).toOption.map fun ledger =>
    (ledger.circulating mintedToken, ledger.issued mintedToken)

theorem supply_minted :
    mintSupply 1 = some (10, 10) ∧ mintSupply 2 = some (15, 15) ∧ mintSupply 3 = some (8, 15) ∧
    exists ledger, (mintHistory.take 2).foldlM add empty = .ok ledger ∧ forall m,
      ledger.circulating m ≤ ledger.issued m ∧
      (m.tokenType = .slp .nft1Child ->
        ledger.circulating m ≤ 1 ∧
          forall o s, (o, some s) ∈ ledger.outputs -> s.token.tokenMeta = m ->
            s.token.variant ≠ .mintBaton) ∧
      (m.tokenType ≠ TokenType.mintVault -> ¬ ledger.HasBaton m ->
        forall later, ValidHistory (mintHistory.take 2 ++ later) ->
          (forall ledgerTx, ledgerTx ∈ later -> ledgerTx.tx.txid ≠ m.tokenId) ->
          exists ledger', later.foldlM add ledger = .ok ledger' ∧
            ¬ ledger'.HasBaton m ∧ ledger'.circulating m ≤ ledger.circulating m) := by
  refine ⟨by decide +kernel, by decide +kernel, by decide +kernel, supply ?_⟩
  exact ⟨by decide, by decide, by decide +kernel⟩

end Ledger

end ECash.Tokens
