import ECash.Tokens.Conservation

/-!
# What a SEND burns

The burn of a valid SEND is what its inputs hold beyond its outputs, provided that the
section asked for what the outputs carry.  SLP and ALP sections do; a CashTokens section
asks for nothing, so its outputs may carry more than the inputs hold.
-/

namespace ECash.Tokens

open Foundation List

namespace ColoredTx

/-!
## Colouring with CashTokens
-/

/-- What a section recorded for a SEND; the burns are no sections. -/
structure Payable (tx : ColoredTx) : Prop extends Indexed tx where
  not_burn : forall sec, sec ∈ tx.sections -> sec.txType ≠ .burn
  required : forall i sec, tx.sections[i]? = some sec -> sec.txType = .send ->
    if sec.tokenMeta.tokenType = .cashTokens then sec.requiredInputSum = 0
    else amountAt i tx.outputs ≤ sec.requiredInputSum

theorem Sound.payable {txid : TxId} {tx : ColoredTx} (h : Sound txid tx) : Payable tx where
  toIndexed := h.indexed
  not_burn := fun sec hsec => (h.sections sec hsec).not_burn
  required := by
    intro i sec hsec hsend
    rw [if_neg (h.sections sec (mem_of_getElem? hsec)).opreturn]
    exact h.covered i sec hsec hsend

section CashTokens

variable {colored : ColoredTx} (h : Payable colored)

include h

theorem Payable.cashTokensSection {tokenMeta : TokenMeta}
    (hcash : tokenMeta.tokenType = .cashTokens) (pregenesisInputIdx : Option Nat)
    {result : Nat × ColoredTx}
    (hresult : colored.cashTokensSection tokenMeta pregenesisInputIdx = result) :
    Payable result.2 ∧ result.2.outputs = colored.outputs ∧
      exists sec, result.2.sections[result.1]? = some sec ∧
        sec.tokenMeta.tokenType = .cashTokens := by
  unfold ColoredTx.cashTokensSection at hresult
  split at hresult
  · rename_i tokenIdx hfound
    cases hresult
    rcases findIdx?_eq_some_iff_getElem.mp hfound with ⟨hlt, hmeta, _⟩
    refine ⟨h, rfl, _, getElem?_eq_getElem hlt, ?_⟩
    rw [of_decide_eq_true hmeta]
    exact hcash
  · rename_i hnone
    cases hresult
    refine ⟨?_, rfl, _, getElem?_concat_length, hcash⟩
    have hnew : forall prev, prev ∈ colored.sections -> prev.tokenMeta ≠ tokenMeta := by
      intro prev hprev
      simpa using findIdx?_eq_none_iff.mp hnone prev hprev
    refine { outputs := ?_, unique := ?_, not_burn := ?_, required := ?_ }
    · intro o ho
      rcases h.outputs o ho with ⟨sec, hsec⟩
      exact ⟨sec, getElem?_append_of_some hsec _⟩
    · exact h.unique.push fun prev hprev hmeta => absurd hmeta (hnew prev hprev)
    · refine forall_mem_append.mpr ⟨h.not_burn, forall_mem_singleton.mpr ?_⟩
      split <;> nofun
    · intro i sec hsec hsend
      rcases getElem?_concat hsec with hold | ⟨_, hlast⟩
      · exact h.required i sec hold hsend
      · rw [hlast, if_pos hcash]

theorem Payable.set {i : Nat} {o : TokenOutput} {sec : ColoredTxSection}
    (hsec : colored.sections[o.tokenIdx]? = some sec)
    (hcash : sec.tokenMeta.tokenType = .cashTokens) :
    Payable { colored with outputs := colored.outputs.set i (some o) } where
  unique := h.unique
  not_burn := h.not_burn
  outputs := by
    intro p hp
    rcases mem_or_eq_of_mem_set hp with hold | hnew
    · exact h.outputs p hold
    · cases hnew
      exact ⟨sec, hsec⟩
  required := by
    intro k s hs hsend
    have hrequired := h.required k s hs hsend
    split at hrequired
    · rename_i htype
      rw [if_pos htype]
      exact hrequired
    rename_i htype
    rw [if_neg htype]
    have hset := amountAt_set_le k i o colored.outputs
    -- The section that was paid for is not the one of the new output.
    rw [if_neg (fun hidx => htype (by
      rw [hidx, hs] at hsec
      rw [Option.some.inj hsec]
      exact hcash))] at hset
    exact hset.trans hrequired

theorem colorCashTokensOutput_payable (tx : Tx) (outIdx : Nat) (script : Script)
    (hidx : outIdx < colored.outputs.length) :
    exists colored', colorCashTokensOutput tx colored outIdx script = .ok colored' ∧
      Payable colored' ∧ colored'.outputs.length = colored.outputs.length := by
  unfold colorCashTokensOutput
  split
  · exact ⟨colored, rfl, h, rfl⟩
  · exact ⟨_, rfl, { h with }, rfl⟩
  dsimp only
  rcases hresult : colored.cashTokensSection _ _ with ⟨_, _⟩
  rcases h.cashTokensSection rfl _ hresult with ⟨hpayable, houtputs, _, hsec, hcash⟩
  rw [index_of_getElem? (getElem?_eq_getElem (houtputs ▸ hidx))]
  refine ⟨_, rfl, hpayable.set hsec hcash, ?_⟩
  rw [length_set, houtputs]

end CashTokens

theorem colorCashTokens_payable (tx : Tx) (scripts : List Script) {colored : ColoredTx}
    (h : Payable colored) (outIdx : Nat) (hidx : outIdx + scripts.length ≤ colored.outputs.length) :
    exists colored', colorCashTokens tx outIdx scripts colored = .ok colored' ∧
      Payable colored' := by
  induction scripts generalizing colored outIdx with
  | nil => exact ⟨colored, rfl, h⟩
  | cons script rest ih =>
    rw [length_cons] at hidx
    rcases colorCashTokensOutput_payable h tx outIdx script (by omega) with
      ⟨mid, hstep, hmid, hlength⟩
    rcases ih hmid (outIdx + 1) (by omega) with ⟨last, hrest, hlast⟩
    refine ⟨last, ?_, hlast⟩
    unfold colorCashTokens
    rw [hstep]
    exact hrest

theorem colorTx_payable (tx : Tx) :
    exists colored, colorTx tx = .ok colored ∧ Payable (colored.getD (uncolored tx)) := by
  rcases colorTxOpreturn_sound tx with ⟨opreturn, hopreturn, hsound⟩
  have hstart : TxSound tx.txid tx.outputs.length (opreturn.getD (uncolored tx)) := by
    cases opreturn with
    | none => exact (sound_of_uncolored tx.txid tx rfl rfl).txSound
    | some colored => exact hsound colored rfl
  unfold colorTx
  rw [hopreturn]
  cases CashTokens.hasAnyPrefixToken tx with
  | false => exact ⟨opreturn, rfl, hstart.sound.payable⟩
  | true =>
    rcases colorCashTokens_payable tx tx.outputs hstart.sound.payable 0
      (by rw [hstart.length]; omega) with ⟨colored, hcolored, hpayable⟩
    refine ⟨some colored, ?_, hpayable⟩
    show (colorCashTokens tx 0 tx.outputs (opreturn.getD (uncolored tx)) >>= _) = _
    rw [hcolored]
    rfl

end ColoredTx

namespace VerifyContext

open ColoredTx

/-!
## The burn of a SEND
-/

variable {ctx : VerifyContext} {tx : ColoredTx} {i : Nat} {sec : ColoredTxSection}

def Funded (ctx : VerifyContext) (tx : ColoredTx) : Prop :=
  forall i sec, tx.sections[i]? = some sec -> sec.txType = .send ->
    sec.tokenMeta.tokenType = .cashTokens ->
    amountAt i tx.outputs ≤ ctx.calcInputSum sec.tokenMeta

/-- The spent scripts are there if a mint-vault MINT asks for them. -/
def Scripted (ctx : VerifyContext) (tx : ColoredTx) : Prop :=
  forall sec, sec ∈ tx.sections -> isMintVaultMint sec = true ->
    exists hasVault, ctx.hasMintVault = .ok hasVault

/-- Verification returns, and a valid SEND burns what its inputs hold beyond the outputs
it keeps. -/
def BurnsDifference (ctx : VerifyContext) (tx : ColoredTx) : Prop :=
  exists t, ctx.verify tx = .ok t ∧
    forall e, e ∈ t.entries -> e.txType = some .send -> e.isInvalid = false ->
      t.outputSum e.tokenMeta ≤ ctx.calcInputSum e.tokenMeta ∧
        e.actualBurnAmount = ctx.calcInputSum e.tokenMeta - t.outputSum e.tokenMeta

section Send

variable (h : Payable tx) (hsec : tx.sections[i]? = some sec)

include h hsec

theorem verifySection_burn (hsend : sec.txType = .send) {e : TokenTxEntry}
    (hok : ctx.verifySection tx sec = .ok e) (hvalid : e.isInvalid = false) :
    amountAt i tx.outputs ≤ ctx.calcInputSum sec.tokenMeta ∧
      e.actualBurnAmount = ctx.calcInputSum sec.tokenMeta - amountAt i tx.outputs := by
  unfold verifySection at hok
  split at hok
  · cases hok
    cases hvalid
  rw [hsend] at hok
  dsimp only at hok
  rw [verifySend_eq h.toIndexed hsec hsend] at hok
  split at hok
  · cases hok
    cases hvalid
  split at hok
  · cases hok
  · rename_i hle
    cases hok
    exact ⟨not_lt.mp hle, rfl⟩

theorem verifySend_returns_iff (hsend : sec.txType = .send) (entry : TokenTxEntry) :
    (exists e, ctx.verifySend tx sec entry = .ok e) <->
      (sec.tokenMeta.tokenType = .cashTokens ->
        amountAt i tx.outputs ≤ ctx.calcInputSum sec.tokenMeta) := by
  have hrequired := h.required i sec hsec hsend
  rw [verifySend_eq h.toIndexed hsec hsend]
  by_cases hcash : sec.tokenMeta.tokenType = .cashTokens
  · rw [if_pos hcash] at hrequired
    rw [hrequired, if_neg (Nat.not_lt_zero (ctx.calcInputSum sec.tokenMeta))]
    split
    · rename_i hlt
      refine iff_of_false ?_ (fun hle => absurd (hle hcash) (Nat.not_le_of_lt hlt))
      rintro ⟨_, ⟨⟩⟩
    · rename_i hle
      exact ⟨fun _ _ => not_lt.mp hle, fun _ => ⟨_, rfl⟩⟩
  · rw [if_neg hcash] at hrequired
    refine iff_of_true ?_ (fun htype => absurd htype hcash)
    split
    · exact ⟨_, rfl⟩
    · rename_i hpaid
      rw [if_neg (by omega)]
      exact ⟨_, rfl⟩

end Send

theorem verifyMint_returns_iff (entry : TokenTxEntry) :
    (exists e, ctx.verifyMint sec entry = .ok e) <->
      (isMintVaultMint sec = true -> exists hasVault, ctx.hasMintVault = .ok hasVault) := by
  unfold verifyMint
  split
  · rename_i hvault
    constructor
    · rintro ⟨_, he⟩ _
      rcases bind_eq_ok.mp he with ⟨hasVault, hb, _⟩
      exact ⟨hasVault, hb⟩
    · intro hscripts
      rcases hscripts hvault with ⟨hasVault, hb⟩
      rw [hb]
      cases hasVault <;> exact ⟨_, rfl⟩
  · rename_i hvault
    refine iff_of_true ?_ (fun htrue => absurd htrue hvault)
    split <;> exact ⟨_, rfl⟩

theorem verifySection_returns_iff (h : Payable tx) (hsec : tx.sections[i]? = some sec) :
    (exists e, ctx.verifySection tx sec = .ok e) <->
      (sec.txType = .send -> sec.tokenMeta.tokenType = .cashTokens ->
        amountAt i tx.outputs ≤ ctx.calcInputSum sec.tokenMeta) ∧
      (isMintVaultMint sec = true -> exists hasVault, ctx.hasMintVault = .ok hasVault) := by
  have hvault : isMintVaultMint sec = true -> sec.txType = .mint ∧
      sec.tokenMeta.tokenType = TokenType.mintVault := by
    intro hmint
    simpa [isMintVaultMint] using hmint
  have hother : sec.txType ≠ .mint -> isMintVaultMint sec = true ->
      exists hasVault, ctx.hasMintVault = .ok hasVault :=
    fun hne hmint => absurd (hvault hmint).left hne
  unfold verifySection
  split
  · rename_i hmany
    refine iff_of_true ⟨_, rfl⟩ ⟨fun _ hcash => ?_, fun hmint => ?_⟩
    · rw [hcash] at hmany
      cases hmany.left
    · rw [(hvault hmint).right] at hmany
      cases hmany.left
  · cases hkind : sec.txType with
    | send =>
      simp only [verifySend_returns_iff h hsec hkind, forall_const]
      exact ⟨fun hle => ⟨hle, hother (by rw [hkind]; nofun)⟩, And.left⟩
    | mint =>
      simp only [verifyMint_returns_iff]
      exact ⟨fun hscripts => ⟨nofun, hscripts⟩, And.right⟩
    | burn => exact absurd hkind (h.not_burn sec (mem_of_getElem? hsec))
    | genesis => exact iff_of_true ⟨_, rfl⟩ ⟨nofun, hother (by rw [hkind]; nofun)⟩
    | unknown => exact iff_of_true ⟨_, rfl⟩ ⟨nofun, hother (by rw [hkind]; nofun)⟩

theorem burnsDifference_iff (h : Payable tx) :
    BurnsDifference ctx tx <-> Funded ctx tx ∧ Scripted ctx tx := by
  constructor
  · rintro ⟨t, ht, _⟩
    have hreturns := (verify_returns_iff h.toIndexed).mp ⟨t, ht⟩
    constructor
    · intro i sec hsec
      exact ((verifySection_returns_iff h hsec).mp (hreturns i sec hsec)).left
    · intro sec hmem
      rcases getElem?_of_mem hmem with ⟨i, hsec⟩
      exact ((verifySection_returns_iff h hsec).mp (hreturns i sec hsec)).right
  · rintro ⟨hfunded, hscripted⟩
    rcases (verify_returns_iff h.toIndexed).mpr fun i sec hsec =>
      (verifySection_returns_iff h hsec).mpr ⟨hfunded i sec hsec,
        hscripted sec (mem_of_getElem? hsec)⟩ with ⟨t, ht⟩
    have hverified := verified_of_verify ht
    refine ⟨t, ht, ?_⟩
    intro e he hsend hvalid
    rcases hverified.section_of_entry he hvalid hsend nofun with ⟨i, sec, hsec, hentry, hkind⟩
    rcases hverified.sections i sec hsec with ⟨_, _, hv, he', hsame⟩
    cases hentry.symm.trans he'
    rw [(hverified.keeps hsec hentry).tokenMeta,
      hverified.outputSum h.toIndexed hsec hentry hvalid (by rw [hkind]; nofun)]
    have hburn := verifySection_burn h hsec hkind hv (by rw [hsame] at hvalid; exact hvalid)
    rw [hsame]
    exact hburn

/-- Verification of any coloured transaction, with or without CashTokens. -/
theorem colorTx_burnsDifference_iff (tx : Tx) (ctx : VerifyContext) :
    exists colored, colorTx tx = .ok colored ∧
      (BurnsDifference ctx (colored.getD (uncolored tx)) <->
        Funded ctx (colored.getD (uncolored tx)) ∧ Scripted ctx (colored.getD (uncolored tx))) := by
  rcases colorTx_payable tx with ⟨colored, hcolored, hpayable⟩
  exact ⟨colored, hcolored, burnsDifference_iff hpayable⟩

/-- A CashTokens output of 5 tokens that no input pays for. -/
private def unfundedTx : Tx :=
  { txid := ⟨replicate 32 6, length_replicate⟩
    inputs := []
    outputs := [⟨0xef :: replicate 32 7 ++ [0x10, 5]⟩] }

private def noInputs : VerifyContext :=
  { spentTokens := [], spentScripts := some [], genesisInfo := none
    overrideHasMintVault := none }

theorem verify_unfunded_subtractOverflow :
    exists colored, colorTx unfundedTx = .ok (some colored) ∧
      noInputs.verify colored = .error .subtractOverflow :=
  ⟨_, rfl, rfl⟩

end VerifyContext

end ECash.Tokens
