import ECash.Tokens.VerifyEntries

/-!
# Token conservation

Tokens are neither created nor lost: what the outputs of a verified transaction
carry comes from its inputs, except where a GENESIS or a MINT issues new tokens,
and what the outputs do not carry on is reported as burned.
-/

namespace ECash.Tokens

open Foundation List

/-!
## What the outputs carry and what the inputs allow
-/

namespace TokenTx

def tokenMetaOf (t : TokenTx) (o : TokenOutput) : Option TokenMeta :=
  (t.entries[o.tokenIdx]?).map TokenTxEntry.tokenMeta

def carriedAmount (t : TokenTx) (m : TokenMeta) : Option TokenOutput -> Nat
  | some o => if t.tokenMetaOf o = some m then o.variant.amountOf else 0
  | none => 0

theorem carriedAmount_some (t : TokenTx) (m : TokenMeta) (o : TokenOutput) :
    t.carriedAmount m (some o) =
      if t.tokenMetaOf o = some m then o.variant.amountOf else 0 := rfl

def outputSum (t : TokenTx) (m : TokenMeta) : Nat :=
  (t.outputs.map (t.carriedAmount m)).sum

end TokenTx

namespace VerifyContext

def SpendsBaton (ctx : VerifyContext) (m : TokenMeta) : Prop :=
  exists s, some s ∈ ctx.spentTokens ∧ s.token.tokenMeta = m ∧ s.token.variant = .mintBaton

/-- A spent script is the P2SH script of the recorded vault hash. -/
def SpendsVault (ctx : VerifyContext) : Prop :=
  exists info scripthash scripts, ctx.genesisInfo = some info ∧
    info.mintVaultScripthash = some scripthash ∧ ctx.spentScripts = some scripts ∧
    Script.p2sh scripthash ∈ scripts

def MintAllowed (ctx : VerifyContext) (m : TokenMeta) : Prop :=
  (m.tokenType ≠ TokenType.mintVault ∧ ctx.SpendsBaton m) ∨
    (m.tokenType = TokenType.mintVault ∧ ctx.SpendsVault)

variable {ctx : VerifyContext} {m : TokenMeta} {i : Nat} {sec : ColoredTxSection}
  {e : TokenTxEntry} {entries : List TokenTxEntry} {o : TokenOutput}

theorem spendsBaton_of_hasMintBaton (h : ctx.hasMintBaton m = true) : ctx.SpendsBaton m := by
  rcases any_eq_true.mp h with ⟨s, hs, htoken⟩
  have hboth := Bool.and_eq_true_iff.mp htoken
  exact ⟨s, reduceOption_mem_iff.mp hs, of_decide_eq_true hboth.left, of_decide_eq_true hboth.right⟩

theorem hasMintVault_returns {scripts : List Script} (hscripts : ctx.spentScripts = some scripts)
    (hoverride : ctx.overrideHasMintVault = none) :
    exists b, ctx.hasMintVault = .ok b ∧ (b = true -> ctx.SpendsVault) := by
  unfold hasMintVault
  rw [hoverride, hscripts]
  cases hinfo : ctx.genesisInfo with
  | none => exact ⟨false, rfl, nofun⟩
  | some info =>
    cases hhash : info.mintVaultScripthash with
    | none => exact ⟨false, by simp [hhash]; rfl, nofun⟩
    | some scripthash =>
      refine ⟨scripts.contains (Script.p2sh scripthash), by simp [hhash]; rfl, ?_⟩
      intro hcontains
      exact ⟨info, scripthash, scripts, hinfo, hhash, hscripts, contains_iff_mem.mp hcontains⟩

theorem calcInputSum_eq_zero (h : forall s, some s ∈ ctx.spentTokens -> s.token.tokenMeta ≠ m) :
    ctx.calcInputSum m = 0 := by
  unfold calcInputSum
  have hnone : (ctx.spentTokens.reduceOption.filter fun s => s.token.tokenMeta = m) = [] := by
    rw [filter_eq_nil_iff]
    intro s hs hmeta
    exact h s (reduceOption_mem_iff.mp hs) (of_decide_eq_true hmeta)
  rw [hnone]
  rfl

/-!
## The output sum of a section
-/

open ColoredTx

variable {txid : TxId} {tx : ColoredTx}

/-- The sum of the outputs of a SEND is what its own outputs carry, because no
other section has its token. -/
theorem sumOutputs_eq (h : Indexed tx) (hsec : tx.sections[i]? = some sec)
    (hkind : sec.txType ≠ .unknown) {outputs : Outputs}
    (hsub : forall o, some o ∈ outputs -> some o ∈ tx.outputs) :
    sumOutputs tx.sections sec.tokenMeta outputs.reduceOption = .ok (amountAt i outputs) := by
  induction outputs with
  | nil => rfl
  | cons output rest ih =>
    have hrest := ih (fun o ho => hsub o (mem_cons_of_mem output ho))
    cases output with
    | none => rw [reduceOption_cons_of_none, hrest, amountAt_none]
    | some o =>
      rcases h.outputs o (hsub o mem_cons_self) with ⟨s, hs⟩
      have hiff : s.tokenMeta = sec.tokenMeta <-> o.tokenIdx = i := by
        constructor
        · intro hmeta
          rcases h.unique _ _ _ _ hs hsec hmeta with hidx | ⟨_, hunknown⟩
          · exact hidx
          · exact absurd hunknown hkind
        · intro hidx
          rw [hidx, hsec] at hs
          rw [Option.some.inj hs]
      rw [reduceOption_cons_of_some, amountAt_some]
      unfold sumOutputs
      rw [index_of_getElem? hs, hrest]
      show Except.ok (if s.tokenMeta = sec.tokenMeta then
        o.variant.amountOf + amountAt i rest else amountAt i rest) = _
      by_cases hidx : o.tokenIdx = i
      · rw [if_pos (hiff.mpr hidx), if_pos hidx]
      · rw [if_neg (fun hmeta => hidx (hiff.mp hmeta)), if_neg hidx, zero_add]

/-!
## The verdict on a section
-/

def tooManyInputs (ctx : VerifyContext) (m : TokenMeta) : Prop :=
  m.tokenType.isAlp = true ∧ ctx.spentTokens.length > maxTxInputs

/-- What a valid entry of section `i` vouches for. -/
def Granted (ctx : VerifyContext) (tx : ColoredTx) (i : Nat) (m : TokenMeta) (burned : Nat) :
    TxType -> Prop
  | .genesis => m.tokenType = .slp .nft1Child -> exists group, ctx.firstNft1Group = some group
  | .mint => ctx.MintAllowed m
  | .send => ctx.calcInputSum m = amountAt i tx.outputs + burned
  | .unknown => ¬ ctx.tooManyInputs m
  | .burn => True

structure Verdict (ctx : VerifyContext) (tx : ColoredTx) (i : Nat) (sec : ColoredTxSection)
    (e : TokenTxEntry) : Prop where
  invalid : e.isInvalid = true -> e.actualBurnAmount = ctx.calcInputSum sec.tokenMeta ∧
    (sec.txType = .unknown -> ctx.tooManyInputs sec.tokenMeta)
  valid : e.isInvalid = false -> Granted ctx tx i sec.tokenMeta e.actualBurnAmount sec.txType

theorem verifyGenesis_verdict (hkind : sec.txType = .genesis)
    (hspent : ctx.calcInputSum sec.tokenMeta = 0) :
    Verdict ctx tx i sec (ctx.verifyGenesis sec (ctx.templateEntry tx sec)) := by
  unfold verifyGenesis
  split
  · cases hgroup : ctx.firstNft1Group with
    | none => exact ⟨fun _ => ⟨hspent.symm, by rw [hkind]; nofun⟩, nofun⟩
    | some group =>
      refine ⟨nofun, fun _ => ?_⟩
      rw [hkind]
      exact fun _ => ⟨group, hgroup⟩
  · rename_i hchild
    refine ⟨nofun, fun _ => ?_⟩
    rw [hkind]
    exact fun h => absurd h hchild

theorem verifyMint_verdict
    (hscripts : isMintVaultMint sec = true -> exists scripts, ctx.spentScripts = some scripts)
    (hoverride : ctx.overrideHasMintVault = none) (hkind : sec.txType = .mint) :
    exists e, ctx.verifyMint sec (ctx.templateEntry tx sec) = .ok e ∧ Verdict ctx tx i sec e := by
  have hunknown : sec.txType = .unknown -> ctx.tooManyInputs sec.tokenMeta := by
    rw [hkind]
    nofun
  have hinvalid : forall {e : TokenTxEntry}, e.isInvalid = true ->
      e.actualBurnAmount = ctx.calcInputSum sec.tokenMeta -> Verdict ctx tx i sec e :=
    fun htrue hburned => ⟨fun _ => ⟨hburned, hunknown⟩,
      fun hfalse => Bool.noConfusion (htrue.symm.trans hfalse)⟩
  have hvalid : forall {e : TokenTxEntry}, e.isInvalid = false ->
      ctx.MintAllowed sec.tokenMeta -> Verdict ctx tx i sec e := by
    intro e hfalse hallowed
    refine ⟨fun htrue => Bool.noConfusion (hfalse.symm.trans htrue), fun _ => ?_⟩
    rw [hkind]
    exact hallowed
  unfold verifyMint
  split
  · rename_i hvaultMint
    have hvault : sec.tokenMeta.tokenType = TokenType.mintVault :=
      of_decide_eq_true (Bool.and_eq_true_iff.mp hvaultMint).right
    rcases hscripts hvaultMint with ⟨_, hscripts⟩
    rcases hasMintVault_returns hscripts hoverride with ⟨b, hb, hspends⟩
    rw [hb]
    cases b with
    | true => exact ⟨_, rfl, hvalid rfl (.inr ⟨hvault, hspends rfl⟩)⟩
    | false => exact ⟨_, rfl, hinvalid rfl rfl⟩
  · rename_i hother
    have hne : sec.tokenMeta.tokenType ≠ TokenType.mintVault := by
      intro hvault
      apply hother
      unfold isMintVaultMint
      rw [hkind, hvault]
      rfl
    split
    · rename_i hbaton
      exact ⟨_, rfl, hvalid rfl (.inl ⟨hne, spendsBaton_of_hasMintBaton hbaton⟩)⟩
    · exact ⟨_, rfl, hinvalid rfl rfl⟩

theorem verifySend_eq (h : Indexed tx) (hsec : tx.sections[i]? = some sec)
    (hsend : sec.txType = .send) (entry : TokenTxEntry) :
    ctx.verifySend tx sec entry =
      if ctx.calcInputSum sec.tokenMeta < sec.requiredInputSum then
        .ok { entry with
          isInvalid := true
          actualBurnAmount := ctx.calcInputSum sec.tokenMeta
          burnsMintBatons := ctx.hasMintBaton sec.tokenMeta
          burnError := some (.insufficientInputSum sec.requiredInputSum
            (ctx.calcInputSum sec.tokenMeta)) }
      else if ctx.calcInputSum sec.tokenMeta < amountAt i tx.outputs then
        .error .subtractOverflow
      else
        .ok { entry with
          actualBurnAmount := ctx.calcInputSum sec.tokenMeta - amountAt i tx.outputs
          burnsMintBatons := ctx.hasMintBaton sec.tokenMeta } := by
  unfold verifySend
  rw [calcOutputSum, sumOutputs_eq h hsec (by rw [hsend]; nofun) fun _ ho => ho]
  rfl

theorem verifySend_verdict (h : Sound txid tx) (hsec : tx.sections[i]? = some sec)
    (hkind : sec.txType = .send) :
    exists e, ctx.verifySend tx sec (ctx.templateEntry tx sec) = .ok e ∧
      Verdict ctx tx i sec e := by
  rw [verifySend_eq h.indexed hsec hkind]
  split
  · exact ⟨_, rfl, fun _ => ⟨rfl, by rw [hkind]; nofun⟩, nofun⟩
  rename_i hpaid
  have hle : amountAt i tx.outputs ≤ ctx.calcInputSum sec.tokenMeta :=
    (h.covered i sec hsec hkind).trans (not_lt.mp hpaid)
  rw [if_neg (not_lt.mpr hle)]
  refine ⟨_, rfl, nofun, fun _ => ?_⟩
  rw [hkind]
  exact (Nat.add_sub_cancel' hle).symm

theorem verifySection_verdict (h : Sound txid tx) (hoverride : ctx.overrideHasMintVault = none)
    (hscripts : isMintVaultMint sec = true -> exists scripts, ctx.spentScripts = some scripts)
    (hown : forall s, some s ∈ ctx.spentTokens -> s.token.tokenMeta.tokenId = txid ->
      s.token.tokenMeta.tokenType.Unknown) (hsec : tx.sections[i]? = some sec) :
    exists e, ctx.verifySection tx sec = .ok e ∧ Verdict ctx tx i sec e := by
  have hok := h.sections sec (mem_of_getElem? hsec)
  unfold verifySection
  split
  · rename_i hmany
    exact ⟨_, rfl, fun _ => ⟨rfl, fun _ => hmany⟩, nofun⟩
  rename_i hfew
  cases hkind : sec.txType with
  | genesis =>
    refine ⟨_, rfl, verifyGenesis_verdict hkind (calcInputSum_eq_zero ?_)⟩
    intro s hs hmeta
    have hunknown := hown s hs (by rw [hmeta]; exact hok.genesis_id hkind)
    rw [hmeta, ← hok.unknown_iff, hkind] at hunknown
    cases hunknown
  | mint => exact verifyMint_verdict hscripts hoverride hkind
  | send => exact verifySend_verdict h hsec hkind
  | unknown =>
    refine ⟨_, rfl, nofun, fun _ => ?_⟩
    rw [hkind]
    exact hfew
  | burn => exact absurd hkind hok.not_burn

/-!
## The report on a transaction
-/

/-- An entry of a token without a section. -/
structure Extra (ctx : VerifyContext) (tx : ColoredTx) (entries : List TokenTxEntry)
    (e : TokenTxEntry) : Prop where
  noSection : NoSection tx e.tokenMeta
  burned : e.actualBurnAmount + ctx.exemptAmount entries e.tokenMeta = ctx.calcInputSum e.tokenMeta
  valid : e.isInvalid = false -> (e.txType = none ∨ e.txType = some .burn) ∧ e.genesisInfo = none

/-- What verification reports of any coloured transaction. -/
structure Verified (ctx : VerifyContext) (tx : ColoredTx) (t : TokenTx) : Prop where
  sections : forall (i : Nat) sec, tx.sections[i]? = some sec ->
    exists e e', ctx.verifySection tx sec = .ok e ∧ t.entries[i]? = some e' ∧ SameVerdict e e'
  entries : forall e, e ∈ t.entries -> (exists (i : Nat) (sec : ColoredTxSection),
      tx.sections[i]? = some sec ∧ t.entries[i]? = some e) ∨ Extra ctx tx t.entries e
  spent : forall s, some s ∈ ctx.spentTokens ->
    exists e, e ∈ t.entries ∧ e.tokenMeta = s.token.tokenMeta
  outputs : Forall₂ (fun old new => verifyOutput t.entries old = .ok new) tx.outputs t.outputs

structure Report (ctx : VerifyContext) (tx : ColoredTx) (t : TokenTx) : Prop extends
    Verified ctx tx t where
  verdicts : forall i sec, tx.sections[i]? = some sec ->
    exists e, t.entries[i]? = some e ∧ Verdict ctx tx i sec e

/-- Whether the first entry is a valid NFT1 CHILD GENESIS is settled by the
sections. -/
theorem Shape.isNft1ChildGenesis {verified : List TokenTxEntry} {burned : TokenMeta -> Nat}
    (h : Shape verified burned entries) :
    isNft1ChildGenesis entries = VerifyContext.isNft1ChildGenesis verified := by
  rcases h.split with ⟨head, extras, hentries, hhead, hextras⟩
  cases hhead with
  | nil =>
    rw [hentries]
    cases extras with
    | nil => rfl
    | cons e rest =>
      show (decide _ && decide _ && !e.isInvalid) = false
      cases hinvalid : e.isInvalid with
      | true => rw [Bool.not_true, Bool.and_false]
      | false =>
        rcases (hextras.valid e mem_cons_self hinvalid).left with htype | htype <;> simp [htype]
  | @cons a b as bs hab hrest =>
    rw [hentries]
    show (decide (b.tokenMeta.tokenType = _) && decide (b.txType = _) && !b.isInvalid) =
      (decide (a.tokenMeta.tokenType = _) && decide (a.txType = _) && !a.isInvalid)
    rw [hab]

theorem verifyOutput_some (he : entries[o.tokenIdx]? = some e) :
    verifyOutput entries (some o) = .ok (if e.isInvalid = true then none else some o) := by
  show (index entries o.tokenIdx >>= fun entry =>
    pure (if entry.isInvalid = true then none else some o)) = _
  rw [index_of_getElem? he]
  rfl

section Verified

variable {verified : List TokenTxEntry}
  (hverified : Forall₂ (fun sec e => ctx.verifySection tx sec = Except.ok e) tx.sections verified)

include hverified

theorem map_tokenMeta_verified : verified.map TokenTxEntry.tokenMeta =
    tx.sections.map ColoredTxSection.tokenMeta := by
  rw [← forall₂_eq_eq_eq, forall₂_map_left_iff, forall₂_map_right_iff]
  exact hverified.flip.imp fun _ _ hsec => (verifySection_keeps hsec).tokenMeta

theorem section_allEntries (hsec : tx.sections[i]? = some sec) :
    exists e e', ctx.verifySection tx sec = .ok e ∧
      (ctx.allEntries tx verified)[i]? = some e' ∧ SameVerdict e e' := by
  rcases shape_allEntries ctx (map_tokenMeta_verified hverified) with ⟨_, hshape, _⟩
  rcases hshape.split with ⟨_, _, hentries, hhead, _⟩
  rcases forall₂_getElem? hverified hsec with ⟨e, he, hverify⟩
  rcases forall₂_getElem? hhead he with ⟨e', he', hsame⟩
  refine ⟨e, e', hverify, ?_, hsame⟩
  rw [hentries]
  exact getElem?_append_of_some he' _

theorem mem_allEntries_cases (he : e ∈ ctx.allEntries tx verified) :
    (exists (i : Nat) (sec : ColoredTxSection), tx.sections[i]? = some sec ∧
      (ctx.allEntries tx verified)[i]? = some e) ∨ Extra ctx tx (ctx.allEntries tx verified) e := by
  have hmetas := map_tokenMeta_verified hverified
  rcases shape_allEntries ctx hmetas with ⟨burned, hshape, hsum⟩
  rcases hshape.split with ⟨head, _, hentries, hhead, hextras⟩
  rw [hentries] at he
  rcases mem_append.mp he with hmem | hmem
  · rcases List.getElem?_of_mem hmem with ⟨i, hi⟩
    have hlt : i < head.length := getElem?_lt hi
    have hsections : i < tx.sections.length := by
      rw [hverified.length_eq, hhead.length_eq]
      exact hlt
    refine .inl ⟨i, tx.sections[i], getElem?_eq_getElem hsections, ?_⟩
    rw [hentries, getElem?_append_left hlt]
    exact hi
  · have hno := noSection_of_notMem hmetas (hextras.fresh e hmem)
    refine .inr { noSection := hno, burned := ?_, valid := hextras.valid e hmem }
    have hexempt : ctx.exemptAmount (ctx.allEntries tx verified) e.tokenMeta =
        ctx.exemptAmount (burnEntries tx verified) e.tokenMeta := by
      unfold exemptAmount
      rw [hshape.isNft1ChildGenesis, (shape_burnEntries tx verified).isNft1ChildGenesis]
    rw [hexempt, hextras.burned e hmem]
    exact hsum e.tokenMeta hno

end Verified

theorem verified_of_verify {t : TokenTx} (h : ctx.verify tx = .ok t) : Verified ctx tx t := by
  rcases verify_eq_ok.mp h with ⟨_, hverified, hentries, houtputs, _⟩
  refine { sections := ?_, entries := ?_, spent := ?_, outputs := houtputs }
  · rw [hentries]
    exact fun i sec hsec => section_allEntries hverified hsec
  · rw [hentries]
    exact fun e he => mem_allEntries_cases hverified he
  · rw [hentries]
    exact fun s hs =>
      mem_map.mp (mem_allEntries ctx (map_tokenMeta_verified hverified) hs)

theorem verify_returns_iff (h : Indexed tx) :
    (exists t, ctx.verify tx = .ok t) <-> forall (i : Nat) sec, tx.sections[i]? = some sec ->
      exists e, ctx.verifySection tx sec = .ok e := by
  constructor
  · rintro ⟨t, ht⟩ i sec hsec
    rcases (verified_of_verify ht).sections i sec hsec with ⟨e, _, he, _⟩
    exact ⟨e, he⟩
  intro hsections
  rcases mapM_succeeds fun sec hmem => (getElem?_of_mem hmem).elim fun i => hsections i sec with
    ⟨verified, hmap⟩
  have hverified := mapM_eq_ok.mp hmap
  have houtputs : forall output, output ∈ tx.outputs ->
      exists new, verifyOutput (ctx.allEntries tx verified) output = .ok new := by
    intro output houtput
    cases output with
    | none => exact ⟨none, rfl⟩
    | some o =>
      rcases h.outputs o houtput with ⟨_, hsec⟩
      rcases section_allEntries hverified hsec with ⟨_, _, _, he, _⟩
      exact ⟨_, verifyOutput_some he⟩
  rcases mapM_succeeds houtputs with ⟨outputs, houtputsMap⟩
  exact ⟨{ entries := _, outputs, failedParsings := _ }, verify_eq_ok.mpr
    ⟨verified, hverified, rfl, mapM_eq_ok.mp houtputsMap, rfl⟩⟩

theorem verify_report (h : Sound txid tx) (hoverride : ctx.overrideHasMintVault = none)
    (hscripts : forall sec, sec ∈ tx.sections -> isMintVaultMint sec = true ->
      exists scripts, ctx.spentScripts = some scripts)
    (hown : forall s, some s ∈ ctx.spentTokens -> s.token.tokenMeta.tokenId = txid ->
      s.token.tokenMeta.tokenType.Unknown) : exists t, ctx.verify tx = .ok t ∧ Report ctx tx t := by
  have hverdict : forall i sec, tx.sections[i]? = some sec ->
      exists e, ctx.verifySection tx sec = .ok e ∧ Verdict ctx tx i sec e :=
    fun _ sec hsec => verifySection_verdict h hoverride
      (hscripts sec (mem_of_getElem? hsec)) hown hsec
  rcases (verify_returns_iff h.indexed).mpr fun i sec hsec =>
    (hverdict i sec hsec).imp fun _ => And.left with ⟨t, ht⟩
  refine ⟨t, ht, { verified_of_verify ht with verdicts := ?_ }⟩
  intro i sec hsec
  rcases (verified_of_verify ht).sections i sec hsec with ⟨_, e', he, he', hsame⟩
  rcases hverdict i sec hsec with ⟨_, hv, hverdictV⟩
  rw [he] at hv
  cases hv
  refine ⟨e', he', ?_⟩
  rw [hsame]
  exact ⟨hverdictV.invalid, hverdictV.valid⟩

/-!
## Reading the report
-/

section Reading

variable {t : TokenTx}

theorem Report.verdict (hr : Report ctx tx t) (hsec : tx.sections[i]? = some sec)
    (he : t.entries[i]? = some e) : Verdict ctx tx i sec e := by
  rcases hr.verdicts i sec hsec with ⟨_, he', hv⟩
  rw [he] at he'
  cases he'
  exact hv

theorem Verified.keeps (hr : Verified ctx tx t) (hsec : tx.sections[i]? = some sec)
    (he : t.entries[i]? = some e) : Keeps sec e := by
  rcases hr.sections i sec hsec with ⟨_, _, hv, he', hsame⟩
  rw [he] at he'
  cases he'
  rw [hsame]
  rcases verifySection_keeps hv with ⟨hmeta, htype, hinfo⟩
  exact ⟨hmeta, htype, hinfo⟩

/-- A valid entry of a kind other than a burn is that of a section. -/
theorem Verified.section_of_entry (hr : Verified ctx tx t) (he : e ∈ t.entries)
    (hvalid : e.isInvalid = false) {kind : TxType} (htype : e.txType = some kind)
    (hkind : kind ≠ .burn) :
    exists (i : Nat) (sec : ColoredTxSection), tx.sections[i]? = some sec ∧
      t.entries[i]? = some e ∧ sec.txType = kind := by
  rcases hr.entries e he with ⟨i, sec, hsec, hi⟩ | hextra
  · rw [(hr.keeps hsec hi).txType] at htype
    exact ⟨i, sec, hsec, hi, Option.some.inj htype⟩
  rcases (hextra.valid hvalid).left with hnone | hburn
  · rw [hnone] at htype
    cases htype
  · rw [hburn] at htype
    cases htype
    exact absurd rfl hkind

theorem tokenMetaOf_eq (he : t.entries[o.tokenIdx]? = some e) :
    t.tokenMetaOf o = some e.tokenMeta := by
  unfold TokenTx.tokenMetaOf
  rw [he]
  rfl

theorem Report.carried (hr : Report ctx tx t) (h : Sound txid tx) (ho : some o ∈ t.outputs) :
    exists sec e, tx.sections[o.tokenIdx]? = some sec ∧ t.entries[o.tokenIdx]? = some e ∧
      e.isInvalid = false ∧ t.tokenMetaOf o = some sec.tokenMeta ∧
      MayCarry sec.txType sec.tokenMeta.tokenType o.variant := by
  rcases forall₂_exists_left hr.outputs ho with ⟨old, hold, hnew⟩
  cases old with
  | none => cases hnew
  | some o' =>
    rcases h.outputs o' hold with ⟨sec, hsec, hcarry⟩
    rcases hr.verdicts _ sec hsec with ⟨e, he, _⟩
    rw [verifyOutput_some he] at hnew
    split at hnew
    · cases hnew
    · rename_i hvalid
      cases hnew
      refine ⟨sec, e, hsec, he, Bool.not_eq_true _ ▸ hvalid, ?_, hcarry⟩
      rw [tokenMetaOf_eq he, (hr.keeps hsec he).tokenMeta]

section Unique

variable (hr : Verified ctx tx t) (h : Indexed tx) (hsec : tx.sections[i]? = some sec)
  (he : t.entries[i]? = some e) (hvalid : e.isInvalid = false)
  (hkind : sec.txType ≠ TxType.unknown)

include hr h hsec he hvalid hkind

theorem Verified.carriedAmount (ho : some o ∈ tx.outputs) {new : Option TokenOutput}
    (hnew : verifyOutput t.entries (some o) = .ok new) :
    t.carriedAmount sec.tokenMeta new = if o.tokenIdx = i then o.variant.amountOf else 0 := by
  rcases h.outputs o ho with ⟨s, hs⟩
  rcases hr.sections _ s hs with ⟨_, e', _, he', _⟩
  rw [verifyOutput_some he'] at hnew
  by_cases hidx : o.tokenIdx = i
  · have heq : e' = e := by
      rw [hidx, he] at he'
      exact (Option.some.inj he').symm
    rw [heq, hvalid, if_neg Bool.false_ne_true] at hnew
    cases hnew
    rw [TokenTx.carriedAmount_some, tokenMetaOf_eq he', heq, (hr.keeps hsec he).tokenMeta,
      if_pos rfl, if_pos hidx]
  · rw [if_neg hidx]
    split at hnew
    · cases hnew
      rfl
    · cases hnew
      rw [TokenTx.carriedAmount_some, tokenMetaOf_eq he', (hr.keeps hs he').tokenMeta, if_neg]
      intro hmeta
      rcases h.unique _ _ _ _ hs hsec (Option.some.inj hmeta) with hsame | ⟨_, hunknown⟩
      · exact hidx hsame
      · exact hkind hunknown

theorem Verified.sum_carried {old new : Outputs}
    (hrelated : Forall₂ (fun a b => verifyOutput t.entries a = .ok b) old new)
    (hsub : forall o, some o ∈ old -> some o ∈ tx.outputs) :
    (new.map (t.carriedAmount sec.tokenMeta)).sum = amountAt i old := by
  induction hrelated with
  | nil => rfl
  | @cons a b as bs hab hrest ih =>
    rw [map_cons, sum_cons, ih fun o ho => hsub o (mem_cons_of_mem a ho)]
    cases a with
    | none =>
      cases hab
      rw [amountAt_none]
      exact zero_add _
    | some o =>
      rw [amountAt_some, hr.carriedAmount h hsec he hvalid hkind (hsub o mem_cons_self) hab]

theorem Verified.outputSum : t.outputSum sec.tokenMeta = amountAt i tx.outputs :=
  hr.sum_carried h hsec he hvalid hkind hr.outputs fun _ ho => ho

end Unique

/-- The amount at the first input, if the token is the NFT1 GROUP token there and
the transaction is a valid NFT1 CHILD GENESIS. -/
def groupAmount (ctx : VerifyContext) (t : TokenTx) (m : TokenMeta) : Nat :=
  if isNft1ChildGenesis t.entries = true ∧ ctx.firstNft1Group = some m then
    inputAmount m (ctx.spentTokens.take 1)
  else 0

theorem firstNft1Group_cases {group : TokenMeta} (h : ctx.firstNft1Group = some group) :
    exists s rest, ctx.spentTokens = some s :: rest ∧ s.token.tokenMeta = group := by
  unfold firstNft1Group at h
  split at h
  · rename_i s hhead
    rcases head?_eq_some_iff.mp hhead with ⟨rest, hinputs⟩
    split at h
    · cases h
      exact ⟨s, rest, hinputs, rfl⟩
    · cases h
  · cases h

theorem Report.child_section (hr : Report ctx tx t) (hchild : isNft1ChildGenesis t.entries = true) :
    exists (i : Nat) (sec : ColoredTxSection) (e : TokenTxEntry),
      tx.sections[i]? = some sec ∧ t.entries[i]? = some e ∧ e.isInvalid = false ∧
        sec.txType = .genesis ∧ sec.tokenMeta.tokenType = .slp .nft1Child := by
  unfold VerifyContext.isNft1ChildGenesis at hchild
  split at hchild
  · rename_i first hfirst
    simp only [Bool.and_eq_true, decide_eq_true_eq, Bool.not_eq_true'] at hchild
    rcases hchild with ⟨⟨htype, hgenesis⟩, hvalid⟩
    rcases hr.section_of_entry (mem_of_head? hfirst) hvalid hgenesis nofun with
      ⟨i, sec, hsec, hi, hkind⟩
    refine ⟨i, sec, first, hsec, hi, hvalid, hkind, ?_⟩
    rw [← (hr.keeps hsec hi).tokenMeta]
    exact htype
  · cases hchild

theorem Report.exemptAmount (hr : Report ctx tx t) (m : TokenMeta) :
    ctx.exemptAmount t.entries m = ctx.groupAmount t m := by
  unfold VerifyContext.exemptAmount groupAmount
  by_cases hchild : isNft1ChildGenesis t.entries = true
  · rcases hr.child_section hchild with ⟨_, _, _, hsec, he, hvalid, hgenesis, htype⟩
    have hgranted := (hr.verdict hsec he).valid hvalid
    rw [hgenesis] at hgranted
    rcases hgranted htype with ⟨group, hgroup⟩
    rcases firstNft1Group_cases hgroup with ⟨_, _, hinputs, hmeta⟩
    rw [if_pos hchild, hgroup, hinputs]
    by_cases hm : group = m
    · rw [if_pos ⟨hchild, congrArg some hm⟩]
    · simp [hmeta, hm]
  · rw [if_neg hchild, if_neg (fun hboth => hchild hboth.left)]

/-!
## Conservation
-/

variable (hr : Report ctx tx t) {numOutputs : Nat} (h : TxSound txid numOutputs tx)

include hr h

theorem Report.groupAmount_of_invalid (hsec : tx.sections[i]? = some sec)
    (he : t.entries[i]? = some e) (hinvalid : e.isInvalid = true) (m : TokenMeta) :
    ctx.groupAmount t m = 0 := by
  unfold groupAmount
  rw [if_neg]
  rintro ⟨hchild, _⟩
  rcases hr.child_section hchild with ⟨j, child, _, hchildSec, hfirst, hvalid, _, htype⟩
  rcases h.protocol with halp | _
  · have hslp := halp child (mem_of_getElem? hchildSec)
    rw [htype] at hslp
    cases hslp
  have hzero : forall (k : Nat) s, tx.sections[k]? = some s -> k = 0 := by
    intro k s hs
    have hlt := getElem?_lt hs
    omega
  rw [hzero i sec hsec] at he
  rw [hzero j child hchildSec, he] at hfirst
  cases hfirst
  rw [hinvalid] at hvalid
  cases hvalid

theorem Report.not_carried_of_invalid (hsec : tx.sections[i]? = some sec)
    (he : t.entries[i]? = some e) (hinvalid : e.isInvalid = true) (ho : some o ∈ t.outputs) :
    t.tokenMetaOf o ≠ some sec.tokenMeta := by
  intro hmeta
  rcases hr.carried h.sound ho with ⟨_, _, hs, he', hvalid, hmeta', _⟩
  rw [hmeta'] at hmeta
  have hsame := Option.some.inj hmeta
  rcases h.sound.unique _ _ _ _ hs hsec hsame with hidx | ⟨hunknown', hunknown⟩
  · rw [hidx, he] at he'
    cases he'
    rw [hinvalid] at hvalid
    cases hvalid
  · -- Sections of an unknown type stand or fall with the number of inputs.
    have hmany := ((hr.verdict hsec he).invalid hinvalid).right hunknown
    have hgranted := (hr.verdict hs he').valid hvalid
    rw [hunknown', hsame] at hgranted
    exact hgranted hmany

theorem Report.not_carried_of_extra (hno : NoSection tx m) (ho : some o ∈ t.outputs) :
    t.tokenMetaOf o ≠ some m := by
  intro hmeta
  rcases hr.carried h.sound ho with ⟨s, _, hs, _, _, hmeta', _⟩
  rw [hmeta'] at hmeta
  exact hno s (mem_of_getElem? hs) (Option.some.inj hmeta)

end Reading

/-- The entry that issues new tokens: a GENESIS of this transaction, or a MINT
that the inputs allow. -/
def Issues (txid : TxId) (allowed : Prop) (m : TokenMeta) (e : TokenTxEntry) : Prop :=
  e.tokenMeta = m ∧ e.isInvalid = false ∧
    ((e.txType = some .genesis ∧ m.tokenId = txid) ∨ (e.txType = some .mint ∧ allowed))

/-- The balance of one token in a verified transaction. -/
structure Conserves (txid : TxId) (ctx : VerifyContext) (tx : ColoredTx) (t : TokenTx)
    (m : TokenMeta) : Prop where
  send : forall e, e ∈ t.entries -> e.tokenMeta = m -> e.isInvalid = false ->
    e.txType = some .send ->
    ctx.calcInputSum m = t.outputSum m + e.actualBurnAmount
  burned : forall e, e ∈ t.entries -> e.tokenMeta = m ->
    (e.isInvalid = true ∨ forall sec, sec ∈ tx.sections -> sec.tokenMeta ≠ m) ->
    (forall o, some o ∈ t.outputs -> t.tokenMetaOf o ≠ some m) ∧
      e.actualBurnAmount + ctx.groupAmount t m = ctx.calcInputSum m
  reported : forall s, some s ∈ ctx.spentTokens -> s.token.tokenMeta = m ->
    exists e, e ∈ t.entries ∧ e.tokenMeta = m
  issued : ctx.calcInputSum m < t.outputSum m ->
    exists e, e ∈ t.entries ∧ Issues txid (ctx.MintAllowed m) m e
  baton : forall o, some o ∈ t.outputs -> t.tokenMetaOf o = some m -> o.variant = .mintBaton ->
    exists e, e ∈ t.entries ∧ Issues txid (ctx.SpendsBaton m) m e

section Conserves

variable {t : TokenTx} (hr : Report ctx tx t) {numOutputs : Nat} (h : TxSound txid numOutputs tx)

include hr h

theorem Report.send_conserves (he : e ∈ t.entries) (hvalid : e.isInvalid = false)
    (hsend : e.txType = some .send) :
    ctx.calcInputSum e.tokenMeta = t.outputSum e.tokenMeta + e.actualBurnAmount := by
  rcases hr.section_of_entry he hvalid hsend nofun with ⟨_, _, hsec, hi, hkind⟩
  rw [(hr.keeps hsec hi).tokenMeta,
    hr.outputSum h.sound.indexed hsec hi hvalid (by rw [hkind]; nofun)]
  have hgranted := (hr.verdict hsec hi).valid hvalid
  rw [hkind] at hgranted
  exact hgranted

theorem Report.burned_conserves (he : e ∈ t.entries)
    (hburned : e.isInvalid = true ∨ forall sec, sec ∈ tx.sections -> sec.tokenMeta ≠ e.tokenMeta) :
    (forall o, some o ∈ t.outputs -> t.tokenMetaOf o ≠ some e.tokenMeta) ∧
      e.actualBurnAmount + ctx.groupAmount t e.tokenMeta = ctx.calcInputSum e.tokenMeta := by
  rcases hr.entries e he with ⟨_, sec, hsec, hi⟩ | hextra
  · have hmeta := (hr.keeps hsec hi).tokenMeta
    have hinvalid : e.isInvalid = true := by
      rcases hburned with hinvalid | hnone
      · exact hinvalid
      · exact absurd hmeta.symm (hnone sec (mem_of_getElem? hsec))
    rw [hmeta, hr.groupAmount_of_invalid h hsec hi hinvalid]
    exact ⟨fun o ho => hr.not_carried_of_invalid h hsec hi hinvalid ho,
      ((hr.verdict hsec hi).invalid hinvalid).left⟩
  · rw [← hr.exemptAmount]
    exact ⟨fun o ho => hr.not_carried_of_extra h hextra.noSection ho, hextra.burned⟩

theorem Report.issues (hsec : tx.sections[o.tokenIdx]? = some sec)
    (he : t.entries[o.tokenIdx]? = some e) (hvalid : e.isInvalid = false) {allowed : Prop}
    (hkind : sec.txType = .genesis ∨ (sec.txType = .mint ∧ allowed)) :
    Issues txid allowed sec.tokenMeta e := by
  have hkept := hr.keeps hsec he
  refine ⟨hkept.tokenMeta, hvalid, ?_⟩
  rcases hkind with hgenesis | ⟨hmint, hallowed⟩
  · refine .inl ⟨by rw [hkept.txType, hgenesis], ?_⟩
    exact (h.sound.sections sec (mem_of_getElem? hsec)).genesis_id hgenesis
  · exact .inr ⟨by rw [hkept.txType, hmint], hallowed⟩

omit h in
theorem Report.mintAllowed (hsec : tx.sections[i]? = some sec) (he : t.entries[i]? = some e)
    (hvalid : e.isInvalid = false) (hmint : sec.txType = .mint) :
    ctx.MintAllowed sec.tokenMeta := by
  have hgranted := (hr.verdict hsec he).valid hvalid
  rw [hmint] at hgranted
  exact hgranted

theorem Report.baton_conserves (ho : some o ∈ t.outputs) (hmeta : t.tokenMetaOf o = some m)
    (hbaton : o.variant = .mintBaton) :
    exists e, e ∈ t.entries ∧ Issues txid (ctx.SpendsBaton m) m e := by
  rcases hr.carried h.sound ho with ⟨_, e, hsec, he, hvalid, hmeta', hcarry⟩
  rw [hmeta'] at hmeta
  cases hmeta
  refine ⟨e, mem_of_getElem? he, hr.issues h hsec he hvalid ?_⟩
  rw [hbaton] at hcarry
  rcases hcarry with ⟨hgenesis, _⟩ | ⟨hmint, hvault⟩
  · exact .inl hgenesis
  · rcases hr.mintAllowed hsec he hvalid hmint with ⟨_, hspends⟩ | ⟨htype, _⟩
    · exact .inr ⟨hmint, hspends⟩
    · exact absurd htype hvault

omit hr h in
theorem exists_carried (hpos : 0 < t.outputSum m) :
    exists o, some o ∈ t.outputs ∧ t.tokenMetaOf o = some m ∧ 0 < o.variant.amountOf := by
  by_contra hnone
  have hzero : t.outputSum m = 0 := by
    apply sum_eq_zero
    intro n hn
    rcases mem_map.mp hn with ⟨output, houtput, rfl⟩
    cases output with
    | none => rfl
    | some o =>
      rw [TokenTx.carriedAmount_some]
      split
      · rename_i hmeta
        by_contra hamount
        exact hnone ⟨o, houtput, hmeta, Nat.pos_of_ne_zero hamount⟩
      · rfl
  rw [hzero] at hpos
  exact Nat.lt_irrefl 0 hpos

theorem Report.issued_conserves (hmore : ctx.calcInputSum m < t.outputSum m) :
    exists e, e ∈ t.entries ∧ Issues txid (ctx.MintAllowed m) m e := by
  rcases exists_carried (Nat.lt_of_le_of_lt (Nat.zero_le _) hmore) with ⟨o, ho, hmeta, hamount⟩
  rcases hr.carried h.sound ho with ⟨sec, e, hsec, he, hvalid, hmeta', hcarry⟩
  rw [hmeta'] at hmeta
  cases hmeta
  have hkept := hr.keeps hsec he
  have hmem : e ∈ t.entries := mem_of_getElem? he
  have hkind : sec.txType = .genesis ∨ sec.txType = .mint ∨ sec.txType = .send := by
    generalize o.variant = variant at hcarry hamount
    cases variant with
    | amount value => exact hcarry.right
    | mintBaton => cases hamount
    | unknown value => cases hamount
    | commitment value => cases hcarry
  rcases hkind with hgenesis | hmint | hsend
  · exact ⟨e, hmem, hr.issues h hsec he hvalid (.inl hgenesis)⟩
  · exact ⟨e, hmem, hr.issues h hsec he hvalid (.inr ⟨hmint, hr.mintAllowed hsec he hvalid hmint⟩)⟩
  · -- The inputs of a SEND cover its outputs.
    have hbalance := hr.send_conserves h hmem hvalid (by rw [hkept.txType, hsend])
    rw [hkept.tokenMeta] at hbalance
    omega

theorem Report.conserves (m : TokenMeta) : Conserves txid ctx tx t m where
  send := by
    intro e he hmeta hvalid hsend
    rw [← hmeta]
    exact hr.send_conserves h he hvalid hsend
  burned := by
    intro e he hmeta hburned
    subst hmeta
    exact hr.burned_conserves h he hburned
  reported := by
    intro s hs hmeta
    rcases hr.spent s hs with ⟨e, he, hes⟩
    exact ⟨e, he, hes.trans hmeta⟩
  issued := hr.issued_conserves h
  baton := fun _ ho => hr.baton_conserves h ho

end Conserves

theorem colorTx_getD_sound {tx : Tx} (hcash : CashTokens.hasAnyPrefixToken tx = false) :
    exists colored, colorTx tx = .ok colored ∧
      TxSound tx.txid tx.outputs.length (colored.getD (uncolored tx)) := by
  rcases colorTx_sound hcash with ⟨colored, hcolored, hsound⟩
  refine ⟨colored, hcolored, ?_⟩
  cases colored with
  | none => exact (sound_of_uncolored tx.txid tx rfl rfl).txSound
  | some c => exact hsound c rfl

/-- Token conservation: colouring and verifying a transaction returns, and every
token balances. A transaction that `colorTx` leaves alone is verified as the
callers do, with no section and no coloured output. -/
theorem colorTx_verify_conserves {tx : Tx} {ctx : VerifyContext} {scripts : List Script}
    (hcash : CashTokens.hasAnyPrefixToken tx = false)
    (hscripts : ctx.spentScripts = some scripts) (hoverride : ctx.overrideHasMintVault = none)
    (hown : forall s, some s ∈ ctx.spentTokens -> s.token.tokenMeta.tokenId ≠ tx.txid) :
    exists colored, colorTx tx = .ok colored ∧
      exists t, ctx.verify (colored.getD (uncolored tx)) = .ok t ∧
        forall m, Conserves tx.txid ctx (colored.getD (uncolored tx)) t m := by
  rcases colorTx_getD_sound hcash with ⟨colored, hcolored, htx⟩
  refine ⟨colored, hcolored, ?_⟩
  rcases verify_report htx.sound hoverride (fun _ _ _ => ⟨scripts, hscripts⟩)
    (fun s hs heq => absurd heq (hown s hs)) with ⟨t, ht, hr⟩
  exact ⟨t, ht, hr.conserves htx⟩

/-- The id of the token that the example sends. -/
private def sentTokenId : ByteArr 32 := ⟨replicate 31 0 ++ [7], rfl⟩

/-- An SLP SEND of 5 and 3 tokens. -/
private def sendScript : Script :=
  ⟨[0x6a, 4, 83, 76, 80, 0, 1, 1, 4, 83, 69, 78, 68, 32] ++ sentTokenId.val ++
    [8, 0, 0, 0, 0, 0, 0, 0, 5] ++ [8, 0, 0, 0, 0, 0, 0, 0, 3]⟩

private def sendTx : Tx :=
  { txid := ⟨replicate 32 9, rfl⟩
    inputs := []
    outputs := [sendScript, ⟨[]⟩, ⟨[]⟩] }

private def sendToken : TokenMeta :=
  { tokenId := TokenId.fromBeBytes sentTokenId
    tokenType := .slp .fungible }

/-- The inputs of the SEND: 10 tokens. -/
private def sendContext : VerifyContext :=
  { spentTokens := [some ⟨⟨sendToken, .amount 10⟩, none⟩]
    spentScripts := some []
    genesisInfo := none
    overrideHasMintVault := none }

/-- The burned amounts of the entries and the sum of the outputs. -/
private def sendBalance : Except Panic (List Nat × Nat) := do
  let colored ← colorTx sendTx
  let t ← sendContext.verify (colored.getD (uncolored sendTx))
  return (t.entries.map TokenTxEntry.actualBurnAmount, t.outputSum sendToken)

/-- A SEND of 8 out of 10 tokens reports the other 2 as burned. -/
theorem colorTx_verify_conserves_send :
    sendBalance.toOption = some ([2], 8) ∧
    exists colored, colorTx sendTx = .ok colored ∧
      exists t, sendContext.verify (colored.getD (uncolored sendTx)) = .ok t ∧
        forall m, Conserves sendTx.txid sendContext (colored.getD (uncolored sendTx)) t m :=
  ⟨by decide +kernel,
    colorTx_verify_conserves (by decide +kernel) rfl rfl fun _ hs => by
      cases mem_singleton.mp hs
      decide⟩

end VerifyContext

end ECash.Tokens
