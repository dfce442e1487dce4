import ECash.Cashtab.CoinSelection
import ECash.Lib.SlpSend

/-!
# Fanning out NFT parents

An NFT is minted by burning one of its parent token.  A fan-out makes utxos of one parent token
each, as many as an SLP SEND can have.
-/

namespace ECash.Cashtab

open Foundation List
open Lib
open Lib.TxBuilder (withoutScript)

def SLP1_SEND_MAX_OUTPUTS : Nat := 19
def SLP_1_NFT_COLLECTION_PROTOCOL_NUMBER : Nat := 129
def SLP1_NFT_CHILD_GENESIS_AMOUNT : Nat := 1

/-- What the indexer says of the token of a utxo; its amounts are 64 bits wide. -/
structure UtxoToken where
  tokenId : HexTxid
  amount : Nat
  amount_lt : amount < 2 ^ 64
  isMintBaton : Bool

structure SlpUtxo where
  utxo : Utxo
  token : Option UtxoToken

inductive FanError where
  | noEligibleInputs
  | noToken
  | lib (error : LibError)
  | send (error : SendError)

/-- Utxos of the token that are no mint batons and have not just the amount a mint burns. -/
def getNftParentFanInputs (tokenId : HexTxid) (slpUtxos : List SlpUtxo) : List SlpUtxo :=
  slpUtxos.filter fun slpUtxo =>
    match slpUtxo.token with
    | none => false
    | some token =>
      decide (token.tokenId.digits = tokenId.digits) &&
        decide (token.amount ≠ SLP1_NFT_CHILD_GENESIS_AMOUNT) && !token.isMintBaton

def TOKEN_DUST_CHANGE_OUTPUT : TargetOutput where
  value := dustSats
  script := none
  otherKeys := false

/-- Add up the amounts until there are enough for all outputs.  The inputs that were looked at
are not given to the caller. -/
def fanInputsLoop : List SlpUtxo -> Nat -> Except FanError (Nat × Bool)
  | [], totalInputAmount => .ok (totalInputAmount, false)
  | input :: inputs, totalInputAmount =>
    match input.token with
    | none => .error .noToken
    | some token =>
      if totalInputAmount + token.amount ≥ SLP1_SEND_MAX_OUTPUTS then
        .ok (totalInputAmount + token.amount, true)
      else fanInputsLoop inputs (totalInputAmount + token.amount)

/-- As many amounts of one as there can be, and the rest as the last amount. -/
def fanSendAmounts (totalInputAmount : Nat) (maxOutputs : Bool) : List Nat :=
  let fanOutputs := if maxOutputs then SLP1_SEND_MAX_OUTPUTS else totalInputAmount
  let change := if maxOutputs then totalInputAmount - (SLP1_SEND_MAX_OUTPUTS - 1) else 0
  let hasChange := decide (change > 0)
  replicate (if hasChange && maxOutputs then SLP1_SEND_MAX_OUTPUTS - 1 else fanOutputs) 1 ++
    (if hasChange then [change] else [])

def getNftParentFanTxTargetOutputs (fanInputs : List SlpUtxo) :
    Except FanError (List TargetOutput) :=
  match fanInputs with
  | [] => .error .noEligibleInputs
  | first :: _ => do
      let (totalInputAmount, maxOutputs) ← fanInputsLoop fanInputs 0
      let fanOutputs := if maxOutputs then SLP1_SEND_MAX_OUTPUTS else totalInputAmount
      match first.token with
      | none => .error .noToken
      | some token => do
          let script ← (slpSend token.tokenId.digits SLP_1_NFT_COLLECTION_PROTOCOL_NUMBER
            ((fanSendAmounts totalInputAmount maxOutputs).map fun amount : Nat =>
              (amount : Int))).mapError .lib
          .ok ({ value := 0, script := some script, otherKeys := false } ::
            replicate fanOutputs TOKEN_DUST_CHANGE_OUTPUT)

def fanRequiredInputs (nftFanInputs : List SlpUtxo) : List RequiredInput :=
  nftFanInputs.map fun slpUtxo => .wallet slpUtxo.utxo

def createNftMintInputs (sha256d : Bytes -> Bytes) (ecc : Ecc) (wallet : Wallet) (satsPerKb : ℚ)
    (chaintipBlockheight : Int) (nftFanInputs : List SlpUtxo) : Except FanError Broadcast := do
  let nftFanTargetOutputs ← getNftParentFanTxTargetOutputs nftFanInputs
  (sendXec sha256d ecc wallet nftFanTargetOutputs satsPerKb chaintipBlockheight
    (fanRequiredInputs nftFanInputs)).mapError .send

/-!
## The amounts
-/

def SlpUtxo.amount (slpUtxo : SlpUtxo) : Nat :=
  match slpUtxo.token with
  | none => 0
  | some token => token.amount

theorem SlpUtxo.amount_lt (slpUtxo : SlpUtxo) : slpUtxo.amount < 2 ^ 64 := by
  unfold SlpUtxo.amount
  cases slpUtxo.token with
  | none => decide
  | some token => exact token.amount_lt

def fanTotal : List Nat -> Nat -> Nat × Bool
  | [], total => (total, false)
  | amount :: amounts, total =>
    if total + amount ≥ SLP1_SEND_MAX_OUTPUTS then (total + amount, true)
    else fanTotal amounts (total + amount)

variable {inputs : List SlpUtxo} {amounts : List Nat} {total : Nat} {tokenId : HexTxid}
  {targetOutputs : List TargetOutput}

theorem fanInputsLoop_eq (h : forall input, input ∈ inputs -> input.token.isSome) (total : Nat) :
    fanInputsLoop inputs total = .ok (fanTotal (inputs.map SlpUtxo.amount) total) := by
  induction inputs generalizing total with
  | nil => rfl
  | cons input inputs ih =>
    rcases Option.isSome_iff_exists.mp (h input mem_cons_self) with ⟨token, htoken⟩
    have hamount : input.amount = token.amount := by
      unfold SlpUtxo.amount
      rw [htoken]
    have hrest := ih (forall_mem_cons.mp h).2 (total + token.amount)
    simp only [fanInputsLoop, htoken, map_cons, fanTotal, hamount, hrest]
    split <;> rfl

theorem fanTotal_spec (htotal : total < 19) :
    ((fanTotal amounts total).2 = false ∧
        (fanTotal amounts total).1 = total + amounts.sum ∧ total + amounts.sum < 19) ∨
      exists before amount after, amounts = before ++ amount :: after ∧
        (fanTotal amounts total).2 = true ∧
        (fanTotal amounts total).1 = total + before.sum + amount ∧
        19 ≤ total + before.sum + amount ∧ total + before.sum < 19 := by
  induction amounts generalizing total with
  | nil => exact .inl ⟨rfl, rfl, htotal⟩
  | cons amount amounts ih =>
    by_cases henough : total + amount ≥ 19
    · right
      have hfan : fanTotal (amount :: amounts) total = (total + amount, true) := if_pos henough
      refine ⟨[], amount, amounts, rfl, ?_⟩
      rw [hfan]
      exact ⟨rfl, rfl, henough, htotal⟩
    · have hfan : fanTotal (amount :: amounts) total = fanTotal amounts (total + amount) :=
        if_neg henough
      rw [hfan]
      rcases @ih (total + amount) (by omega) with ⟨hmax, hsum, hlt⟩ |
        ⟨before, last, after, heq, hmax, hsum, hge, hlt⟩
      · left
        rw [sum_cons]
        exact ⟨hmax, by omega, by omega⟩
      · right
        refine ⟨amount :: before, last, after, by rw [heq]; rfl, hmax, ?_⟩
        rw [sum_cons]
        exact ⟨by omega, by omega, by omega⟩

theorem fanSendAmounts_all (total : Nat) : fanSendAmounts total false = replicate total 1 := by
  simp [fanSendAmounts]

theorem fanSendAmounts_max (h : 19 ≤ total) :
    fanSendAmounts total true = replicate 18 1 ++ [total - 18] := by
  have hchange : total - 18 > 0 := by omega
  simp [fanSendAmounts, SLP1_SEND_MAX_OUTPUTS, hchange]

def fanAmounts (amounts : List Nat) : List Nat :=
  fanSendAmounts (fanTotal amounts 0).1 (fanTotal amounts 0).2

theorem fanAmounts_spec (hpos : 0 < amounts.sum)
    (hfit : forall amount, amount ∈ amounts -> amount < 2 ^ 64) :
    (fanAmounts amounts).length =
        (if (fanTotal amounts 0).2 then SLP1_SEND_MAX_OUTPUTS else (fanTotal amounts 0).1) ∧
      0 < (fanAmounts amounts).length ∧ (fanAmounts amounts).length ≤ 19 ∧
      (forall amount, amount ∈ (fanAmounts amounts).dropLast -> amount = 1) ∧
      (forall amount, amount ∈ fanAmounts amounts -> amount < 2 ^ 64) ∧
      (fanAmounts amounts).sum = (fanTotal amounts 0).1 := by
  unfold fanAmounts
  rcases @fanTotal_spec amounts 0 (by decide) with ⟨hmax, hsum, hlt⟩ |
    ⟨before, last, after, heq, hmax, hsum, hge, hlt⟩
  · rw [hmax, hsum, fanSendAmounts_all, length_replicate, zero_add]
    refine ⟨rfl, hpos, by omega, ?_, ?_, by simp⟩
    · intro amount hamount
      exact eq_of_mem_replicate (dropLast_subset _ hamount)
    · intro amount hamount
      rw [eq_of_mem_replicate hamount]
      decide
  · have hlast : last < 2 ^ 64 := hfit last (by rw [heq]; simp)
    rw [hmax, hsum, fanSendAmounts_max hge]
    refine ⟨by simp [SLP1_SEND_MAX_OUTPUTS], by simp, by simp, ?_, ?_, ?_⟩
    · intro amount hamount
      rw [dropLast_concat] at hamount
      exact eq_of_mem_replicate hamount
    · rw [forall_mem_append, forall_mem_singleton]
      refine ⟨fun amount hmem => ?_, by omega⟩
      rw [eq_of_mem_replicate hmem]
      decide
    · have hones : (replicate 18 1).sum = 18 := rfl
      rw [sum_append, sum_singleton]
      omega

theorem fanTotal_eq_sum_iff (hpos : forall amount, amount ∈ amounts -> 0 < amount) :
    (fanTotal amounts 0).1 = amounts.sum <-> amounts.dropLast.sum < 19 := by
  rcases @fanTotal_spec amounts 0 (by decide) with ⟨_, hsum, hlt⟩ |
    ⟨before, last, after, heq, _, hsum, hge, hlt⟩
  · have hle : amounts.dropLast.sum ≤ amounts.sum :=
      (dropLast_sublist amounts).sum_le_sum (fun _ _ => Nat.zero_le _)
    exact iff_of_true (by omega) (by omega)
  rw [hsum, Nat.zero_add]
  rw [Nat.zero_add] at hge hlt
  cases after with
  | nil =>
    refine iff_of_true ?_ ?_
    · rw [heq, sum_append, sum_singleton]
    · rw [heq, dropLast_concat]
      exact hlt
  | cons next after =>
    have hnext : 0 < next := hpos next (by rw [heq]; simp)
    refine iff_of_false ?_ ?_
    · rw [heq, sum_append, sum_cons, sum_cons]
      omega
    · rw [heq, dropLast_append_of_ne_nil (cons_ne_nil _ _),
        dropLast_cons_of_ne_nil (cons_ne_nil _ _), sum_append, sum_cons]
      omega

/-!
## Conserving the tokens
-/

/-- The outputs are a transfer of these amounts of the token, as the indexer reads it, with one
dust output for each amount. -/
def SendsAmounts (tokenId : HexTxid) (targetOutputs : List TargetOutput) (amounts : List Nat) :
    Prop :=
  exists script, targetOutputs = { value := 0, script := some script, otherKeys := false } ::
      replicate amounts.length TOKEN_DUST_CHANGE_OUTPUT ∧
    forall txid, Tokens.Slp.parseWithIgnoredErr txid ⟨script.bytecode⟩ = .ok
      { tokenMeta :=
          { tokenId := indexedTokenId tokenId,
            tokenType := .slp .nft1Group },
        txType := .send amounts }

theorem SendsAmounts.unique {amounts' : List Nat} (h : SendsAmounts tokenId targetOutputs amounts)
    (h' : SendsAmounts tokenId targetOutputs amounts') : amounts = amounts' := by
  rcases h with ⟨script, houtputs, hparse⟩
  rcases h' with ⟨script', houtputs', hparse'⟩
  rw [houtputs] at houtputs'
  have hscript : script = script' := by
    simp only [cons.injEq, TargetOutput.mk.injEq, Option.some.injEq] at houtputs'
    exact houtputs'.left.right.left
  subst hscript
  have hboth := (hparse Tokens.TxId.zero).symm.trans (hparse' Tokens.TxId.zero)
  simp only [Except.ok.injEq, Tokens.ParsedData.mk.injEq, Tokens.ParsedTxType.send.injEq] at hboth
  exact hboth.right

/-- All the tokens of the inputs are sent, in at most 19 amounts of one with the rest last. -/
def Conserving (tokenId : HexTxid) (fanInputs : List SlpUtxo) (targetOutputs : List TargetOutput) :
    Prop :=
  exists amounts, SendsAmounts tokenId targetOutputs amounts ∧
    amounts.sum = (fanInputs.map SlpUtxo.amount).sum ∧ amounts.length ≤ 19 ∧
    forall amount, amount ∈ amounts.dropLast -> amount = 1

theorem mem_getNftParentFanInputs {slpUtxos : List SlpUtxo} {input : SlpUtxo}
    (h : input ∈ getNftParentFanInputs tokenId slpUtxos) :
    exists token, input.token = some token ∧ token.tokenId.digits = tokenId.digits := by
  have hkept := (mem_filter.mp h).right
  cases htoken : input.token with
  | none => simp [htoken] at hkept
  | some token =>
    simp only [htoken, Bool.and_eq_true, decide_eq_true_eq] at hkept
    exact ⟨token, rfl, hkept.left.left⟩

theorem sum_amount_pos (hne : inputs ≠ [])
    (hpos : forall input, input ∈ inputs -> 0 < input.amount) :
    0 < (inputs.map SlpUtxo.amount).sum := by
  cases inputs with
  | nil => exact absurd rfl hne
  | cons input inputs =>
    have hfirst := hpos input mem_cons_self
    rw [map_cons, sum_cons]
    omega

theorem amounts_lt (inputs : List SlpUtxo) :
    forall amount, amount ∈ inputs.map SlpUtxo.amount -> amount < 2 ^ 64 :=
  forall_mem_map.mpr fun input _ => input.amount_lt

section FanOut

variable {slpUtxos : List SlpUtxo} (hne : getNftParentFanInputs tokenId slpUtxos ≠ [])
  (hpos : forall input, input ∈ getNftParentFanInputs tokenId slpUtxos -> 0 < input.amount)

include hne hpos

theorem fanOutputs_send :
    exists targetOutputs,
      getNftParentFanTxTargetOutputs (getNftParentFanInputs tokenId slpUtxos) = .ok targetOutputs ∧
      SendsAmounts tokenId targetOutputs
        (fanAmounts ((getNftParentFanInputs tokenId slpUtxos).map SlpUtxo.amount)) := by
  have htokens : forall input, input ∈ getNftParentFanInputs tokenId slpUtxos ->
      input.token.isSome := by
    intro input hinput
    rcases mem_getNftParentFanInputs hinput with ⟨token, htoken, _⟩
    rw [htoken]
    rfl
  have hloop := fanInputsLoop_eq htokens 0
  rcases fanAmounts_spec (sum_amount_pos hne hpos) (amounts_lt _) with
    ⟨hlength, hnonempty, hmax, _, hfits, _⟩
  have htype : verifyTokenType SLP_NFT1_GROUP = .ok () := rfl
  have hsend := slpSend_eq htype tokenId hnonempty hmax hfits
  cases hfan : getNftParentFanInputs tokenId slpUtxos with
  | nil => exact absurd hfan hne
  | cons first rest =>
    have hfirst : first ∈ getNftParentFanInputs tokenId slpUtxos := by
      rw [hfan]
      exact mem_cons_self
    rcases mem_getNftParentFanInputs hfirst with ⟨token, htoken, hdigits⟩
    rw [hfan] at hloop hlength hnonempty hmax hfits hsend
    rw [← hdigits] at hsend
    refine ⟨_, ?_, _, rfl, fun txid => parse_slpSend txid tokenId hnonempty hmax hfits⟩
    rw [hlength]
    simp only [getNftParentFanTxTargetOutputs, hloop, htoken, bind, Except.bind]
    unfold fanAmounts at hsend
    change slpSend token.tokenId.digits SLP_1_NFT_COLLECTION_PROTOCOL_NUMBER _ = _ at hsend
    simp only [hsend, Except.mapError]
    rfl

/-- A transfer of these amounts conserves the tokens exactly if the inputs before the last one
are not yet enough for all outputs. -/
theorem SendsAmounts.conserving_iff (hsends : SendsAmounts tokenId targetOutputs
      (fanAmounts ((getNftParentFanInputs tokenId slpUtxos).map SlpUtxo.amount))) :
    Conserving tokenId (getNftParentFanInputs tokenId slpUtxos) targetOutputs <->
      ((getNftParentFanInputs tokenId slpUtxos).dropLast.map SlpUtxo.amount).sum < 19 := by
  have hamounts : forall amount,
      amount ∈ (getNftParentFanInputs tokenId slpUtxos).map SlpUtxo.amount -> 0 < amount :=
    forall_mem_map.mpr hpos
  rcases fanAmounts_spec (sum_amount_pos hne hpos) (amounts_lt _) with
    ⟨_, _, hmax, hones, _, htotal⟩
  rw [map_dropLast, ← fanTotal_eq_sum_iff hamounts, ← htotal]
  constructor
  · intro hconserving
    rcases hconserving with ⟨_, hothers, hsum, _⟩
    rw [hsends.unique hothers]
    exact hsum
  · intro hsum
    exact ⟨_, hsends, hsum, hmax, hones⟩

end FanOut

/-!
## The transaction
-/

/-- All the fan inputs are spent, with utxos of the wallet that have no token, and the outputs
begin with the target outputs. -/
def SpendsFan (wallet : Wallet) (fanInputs : List SlpUtxo) (targetOutputs : List TargetOutput)
    (sent : Broadcast) : Prop :=
  exists (utxos : List Utxo) (change : List TxOutput), utxos.Sublist wallet.nonSlpUtxos ∧
    sent.tx.inputs.map TxInput.prevOut =
      fanInputs.map (fun input => input.utxo.outpoint) ++ utxos.map Utxo.outpoint ∧
    sent.tx.outputs = resolvedOutputs wallet targetOutputs ++ change

variable {sha256d : Bytes -> Bytes} {ecc : Ecc} {wallet : Wallet} {length : Nat -> Nat}
  {fanInputs : List SlpUtxo} {chaintipBlockheight satsPerKb : Int} {sent : Broadcast}

theorem resolvedOutputs_dust (wallet : Wallet) (n : Nat) :
    ((resolvedOutputs wallet (replicate n TOKEN_DUST_CHANGE_OUTPUT)).map
      TxOutput.value).sum = n * dustSats := by
  induction n with
  | zero => rfl
  | succ n ih =>
    have hcons : resolvedOutputs wallet (replicate (n + 1) TOKEN_DUST_CHANGE_OUTPUT) =
        ⟨dustSats, lockScript (wallet.paths 1899)⟩ ::
          resolvedOutputs wallet (replicate n TOKEN_DUST_CHANGE_OUTPUT) := rfl
    rw [hcons, map_cons, sum_cons, ih]
    push_cast
    ring

theorem SendsAmounts.dust_le (hsends : SendsAmounts tokenId targetOutputs amounts)
    (hpos : 0 < amounts.length) :
    dustSats ≤ ((resolvedOutputs wallet targetOutputs).map TxOutput.value).sum := by
  rcases hsends with ⟨script, houtputs, _⟩
  have hcons : resolvedOutputs wallet targetOutputs = ⟨0, script⟩ ::
        resolvedOutputs wallet (replicate amounts.length TOKEN_DUST_CHANGE_OUTPUT) := by
    rw [houtputs]
    rfl
  rw [hcons, map_cons, sum_cons, resolvedOutputs_dust]
  show dustSats ≤ 0 + _
  unfold dustSats
  omega

theorem createNftMintInputs_spends
    (h : Payable sha256d ecc wallet length (fanRequiredInputs fanInputs)
      (ignoreUnspendableUtxos wallet.nonSlpUtxos chaintipBlockheight)
      (resolvedOutputs wallet targetOutputs)) (hfee : 0 < satsPerKb)
    (hdust : dustSats ≤ ((resolvedOutputs wallet targetOutputs).map TxOutput.value).sum)
    (houtputs : getNftParentFanTxTargetOutputs fanInputs = .ok targetOutputs)
    (hsent : createNftMintInputs sha256d ecc wallet satsPerKb chaintipBlockheight fanInputs =
      .ok sent) : SpendsFan wallet fanInputs targetOutputs sent := by
  have hsend : sendXec sha256d ecc wallet targetOutputs satsPerKb chaintipBlockheight
      (fanRequiredInputs fanInputs) = .ok sent := by
    simp only [createNftMintInputs, houtputs, bind, Except.bind] at hsent
    cases hresult : sendXec sha256d ecc wallet targetOutputs satsPerKb chaintipBlockheight
        (fanRequiredInputs fanInputs) with
    | error error =>
      rw [hresult] at hsent
      cases hsent
    | ok result =>
      rw [hresult] at hsent
      cases hsent
      rfl
  rw [sendXec_eq h hfee hdust] at hsend
  cases hselected : selected length (fanRequiredInputs fanInputs)
      (resolvedOutputs wallet targetOutputs) satsPerKb
      (ignoreUnspendableUtxos wallet.nonSlpUtxos chaintipBlockheight) with
  | none =>
    rw [hselected] at hsend
    cases hsend
  | some utxos =>
    rcases selected_spec hselected with ⟨hsub, hpays⟩
    rw [hselected] at hsend
    by_cases hfits : changeValue wallet length (fanRequiredInputs fanInputs)
        (resolvedOutputs wallet targetOutputs) satsPerKb utxos < 2 ^ 64
    · rcases signSelected_ok h hsub hfee hpays hfits with ⟨tx, hsign, hsettled⟩
      rcases ser_settled h hsub hfits hsettled with ⟨_, hser⟩
      simp only [outcome, finish, hsign, broadcast, hser, Except.ok.injEq] at hsend
      subst hsend
      have hinputs : tx.inputs.map TxInput.prevOut =
          fanInputs.map (fun input => input.utxo.outpoint) ++ utxos.map Utxo.outpoint := by
        have hsame := congrArg (map TxInput.prevOut) hsettled.sameInputs
        simp only [chosenInputs, fanRequiredInputs, map_append, map_map] at hsame
        exact hsame
      have hspendable := hsub.trans filter_sublist
      rcases hsettled.outputs with ⟨_, hchange, _⟩ | ⟨_, hnone, _⟩
      · exact ⟨utxos, _, hspendable, hinputs, hchange⟩
      · exact ⟨utxos, [], hspendable, hinputs, hnone⟩
    · rw [outcome, finish_cannotFit h hfee hsub (Int.le_of_not_gt hfits)] at hsend
      cases hsend

/-- Fanning out parent tokens burns none of them exactly if the fan inputs before the last one
have not yet the tokens for all outputs, since the transaction spends all of them. -/
theorem fanOut_conserving_iff {tokenId : HexTxid} {slpUtxos : List SlpUtxo}
    (hne : getNftParentFanInputs tokenId slpUtxos ≠ [])
    (hpos : forall input, input ∈ getNftParentFanInputs tokenId slpUtxos -> 0 < input.amount) :
    exists targetOutputs,
      getNftParentFanTxTargetOutputs (getNftParentFanInputs tokenId slpUtxos) = .ok targetOutputs ∧
      (forall sha256d ecc wallet length, forall chaintipBlockheight satsPerKb : Int,
        forall sent, 0 < satsPerKb ->
        Payable sha256d ecc wallet length
          (fanRequiredInputs (getNftParentFanInputs tokenId slpUtxos))
          (ignoreUnspendableUtxos wallet.nonSlpUtxos chaintipBlockheight)
          (resolvedOutputs wallet targetOutputs) ->
        createNftMintInputs sha256d ecc wallet satsPerKb chaintipBlockheight
          (getNftParentFanInputs tokenId slpUtxos) = .ok sent ->
        SpendsFan wallet (getNftParentFanInputs tokenId slpUtxos) targetOutputs sent) ∧
      (Conserving tokenId (getNftParentFanInputs tokenId slpUtxos) targetOutputs <->
        ((getNftParentFanInputs tokenId slpUtxos).dropLast.map SlpUtxo.amount).sum < 19) := by
  rcases fanOutputs_send hne hpos with ⟨targetOutputs, houtputs, hsends⟩
  rcases fanAmounts_spec (sum_amount_pos hne hpos) (amounts_lt _) with ⟨_, hnonempty, _⟩
  refine ⟨targetOutputs, houtputs, ?_, hsends.conserving_iff hne hpos⟩
  intro sha256d ecc wallet length chaintipBlockheight satsPerKb sent hfee hpayable hsent
  exact createNftMintInputs_spends hpayable hfee (hsends.dust_le hnonempty) houtputs hsent

def exampleTokenId : HexTxid := ⟨replicate 64 ⟨1, by decide⟩, length_replicate⟩

def exampleParent (amount : Fin (2 ^ 64)) : SlpUtxo where
  utxo := { exampleUtxo 546 with outpoint := (exampleUtxo amount.val).outpoint }
  token := some
    { tokenId := exampleTokenId, amount := amount.val, amount_lt := amount.isLt,
      isMintBaton := false }

/-- Utxos of 7 and 20 parent tokens are fanned out without a loss. -/
theorem fanOut_conserving_iff_two :
    exists targetOutputs,
      getNftParentFanTxTargetOutputs (getNftParentFanInputs exampleTokenId
        [exampleParent 7, exampleParent 20]) = .ok targetOutputs ∧
      Conserving exampleTokenId (getNftParentFanInputs exampleTokenId
        [exampleParent 7, exampleParent 20]) targetOutputs := by
  have hfan : getNftParentFanInputs exampleTokenId [exampleParent 7, exampleParent 20] =
      [exampleParent 7, exampleParent 20] := rfl
  have hpos : forall input, input ∈ [exampleParent 7, exampleParent 20] -> 0 < input.amount :=
    forall_mem_cons.mpr ⟨by decide, forall_mem_singleton.mpr (by decide)⟩
  rw [← hfan] at hpos
  rcases fanOut_conserving_iff (by rw [hfan]; exact cons_ne_nil _ _) hpos with
    ⟨targetOutputs, houtputs, _, hiff⟩
  refine ⟨targetOutputs, houtputs, hiff.mpr ?_⟩
  decide

/-- Of utxos with 19 and 5 parent tokens only 19 tokens are sent, and 5 are burned. -/
theorem fanOut_burns_second :
    exists targetOutputs,
      getNftParentFanTxTargetOutputs (getNftParentFanInputs exampleTokenId
        [exampleParent 19, exampleParent 5]) = .ok targetOutputs ∧
      SendsAmounts exampleTokenId targetOutputs (replicate 19 1) ∧
      ((getNftParentFanInputs exampleTokenId [exampleParent 19, exampleParent 5]).map
        SlpUtxo.amount).sum = 24 ∧
      ¬ Conserving exampleTokenId (getNftParentFanInputs exampleTokenId
        [exampleParent 19, exampleParent 5]) targetOutputs := by
  have hpos : forall input, input ∈ [exampleParent 19, exampleParent 5] -> 0 < input.amount :=
    forall_mem_cons.mpr ⟨by decide, forall_mem_singleton.mpr (by decide)⟩
  have hne : getNftParentFanInputs exampleTokenId [exampleParent 19, exampleParent 5] ≠ [] := by
    exact cons_ne_nil _ _
  rcases fanOutputs_send hne hpos with ⟨targetOutputs, houtputs, hsends⟩
  have hburned := not_congr (hsends.conserving_iff hne hpos)
  refine ⟨targetOutputs, houtputs, hsends, rfl, hburned.mpr ?_⟩
  decide

end ECash.Cashtab
