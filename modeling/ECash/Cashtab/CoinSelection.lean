import ECash.Cashtab.Payments
import ECash.Foundation.Extension

/-!
# Which inputs a payment spends

Which of the inputs that pay `sendXec` comes to, and when these are the shortest ones.
-/

namespace ECash.Cashtab

open Foundation List
open Lib
open Lib.TxBuilder (FitInput FitOutput SteadyLength SameButScripts SignedLengths OneLeftover
  Fitting Settled sats withoutScript requiredFee signedSize leftoverFor)

/-!
## The selection
-/

def Sent (sha256d : Bytes -> Bytes) (ecc : Ecc) (wallet : Wallet) (required : List RequiredInput)
    (utxos : List Utxo) (result : Except SendError Broadcast) : Prop :=
  exists sent, result = .ok sent ∧ sent.tx.ser = .ok sent.bytes ∧ sent.tx.inputs.map withoutScript =
      ((chosenInputs sha256d ecc wallet required utxos).map ReadyInput.input).map withoutScript

def finish (sha256d : Bytes -> Bytes) (ecc : Ecc) (wallet : Wallet)
    (required : List RequiredInput) (outputs : List TxOutput) (satsPerKb : Int)
    (utxos : List Utxo) : Except SendError Broadcast :=
  match signSelected sha256d ecc outputs (lockScript (wallet.paths 1899)) satsPerKb
      (chosenInputs sha256d ecc wallet required utxos) with
  | .ok tx => broadcast tx
  | .error error => .error (.lib error)

def outcome (sha256d : Bytes -> Bytes) (ecc : Ecc) (wallet : Wallet)
    (required : List RequiredInput) (outputs : List TxOutput) (satsPerKb : Int) :
    Option (List Utxo) -> Except SendError Broadcast
  | none => .error .insufficientFunds
  | some utxos => finish sha256d ecc wallet required outputs satsPerKb utxos

section Selection

variable {sha256d : Bytes -> Bytes} {ecc : Ecc} {wallet : Wallet} {length : Nat -> Nat}
  {required : List RequiredInput} {spendable : List Utxo} {outputs : List TxOutput}
  (h : Payable sha256d ecc wallet length required spendable outputs) {satsPerKb : Int}
  (hfee : 0 < satsPerKb)

include h hfee

variable {utxos : List Utxo}

theorem finish_sent (hutxos : utxos.Sublist spendable)
    (hpays : Pays length required outputs satsPerKb utxos)
    (hfits : changeValue wallet length required outputs satsPerKb utxos < 2 ^ 64) :
    Sent sha256d ecc wallet required utxos
      (finish sha256d ecc wallet required outputs satsPerKb utxos) := by
  rcases signSelected_ok h hutxos hfee hpays hfits with ⟨tx, hsign, hsettled⟩
  rcases ser_settled h hutxos hfits hsettled with ⟨bytes, hser⟩
  refine ⟨⟨tx, bytes⟩, ?_, hser, hsettled.sameInputs⟩
  simp only [finish, hsign, broadcast, hser]

theorem finish_cannotFit (hutxos : utxos.Sublist spendable)
    (hwide : 2 ^ 64 ≤ changeValue wallet length required outputs satsPerKb utxos) :
    finish sha256d ecc wallet required outputs satsPerKb utxos =
      .error (.lib (.cannotFit
        (changeValue wallet length required outputs satsPerKb utxos) 8)) := by
  simp only [finish, signSelected_cannotFit h hutxos hfee hwide]

omit h in
theorem lt_of_pays (hpays : Pays length required outputs satsPerKb utxos) :
    (outputs.map TxOutput.value).sum <
      (required.map RequiredInput.value).sum + (utxos.map Utxo.value).sum := by
  have hpositive := TxBuilder.requiredFee_pos
    (TxBuilder.signedSize_pos (chosenLengths length required utxos) outputs) hfee
  unfold Pays at hpays
  omega

theorem tryPay (hutxos : utxos.Sublist spendable)
    (hpays : Pays length required outputs satsPerKb utxos) (next : Except SendError Broadcast) :
    (match signSelected sha256d ecc outputs (lockScript (wallet.paths 1899)) satsPerKb
        (chosenInputs sha256d ecc wallet required utxos) with
      | .ok tx => broadcast tx
      | .error (.insufficientInputValue _ _ _) => next
      | .error error => .error (.lib error)) =
      finish sha256d ecc wallet required outputs satsPerKb utxos := by
  by_cases hfits : changeValue wallet length required outputs satsPerKb utxos < 2 ^ 64
  · rcases signSelected_ok h hutxos hfee hpays hfits with ⟨_, hsign, _⟩
    simp only [finish, hsign]
  · have hsign := signSelected_cannotFit h hutxos hfee (Int.le_of_not_gt hfits)
    simp only [finish, hsign]

theorem selectLoop_eq {chosen rest : List Utxo} (hsub : (chosen ++ rest).Sublist spendable) :
    selectLoop sha256d ecc wallet outputs (lockScript (wallet.paths 1899)) satsPerKb
        (outputs.map TxOutput.value).sum rest
        { inputs := chosenInputs sha256d ecc wallet required chosen,
          inputSatoshis :=
            (required.map RequiredInput.value).sum + (chosen.map Utxo.value).sum,
          needsAnotherUtxo := true } =
      outcome sha256d ecc wallet required outputs satsPerKb
        (extendUntil (Pays length required outputs satsPerKb) chosen rest) := by
  induction rest generalizing chosen with
  | nil => rfl
  | cons utxo rest ih =>
    have hsub' : (chosen ++ [utxo] ++ rest).Sublist spendable := by rwa [append_assoc]
    have hchosen : (chosen ++ [utxo]).Sublist spendable := (sublist_append_left _ _).trans hsub'
    have hinputs : chosenInputs sha256d ecc wallet required chosen ++
        [walletReady sha256d ecc wallet utxo] =
        chosenInputs sha256d ecc wallet required (chosen ++ [utxo]) := by
      simp [chosenInputs]
    have hsum : (required.map RequiredInput.value).sum + (chosen.map Utxo.value).sum +
        utxo.value = (required.map RequiredInput.value).sum +
        ((chosen ++ [utxo]).map Utxo.value).sum := by
      simp [Int.add_assoc]
    have hrest := ih hsub'
    simp only [selectLoop, addIfNeeded, if_true, walletInput_eq, bind, Except.bind, hinputs, hsum]
    by_cases hpays : Pays length required outputs satsPerKb (chosen ++ [utxo])
    · have henough : ¬ (required.map RequiredInput.value).sum +
          ((chosen ++ [utxo]).map Utxo.value).sum ≤ (outputs.map TxOutput.value).sum :=
        Int.not_le.mpr (lt_of_pays hfee hpays)
      simp only [henough, decide_false, Bool.false_eq_true, if_false, extendUntil, hpays,
        if_true, outcome]
      exact tryPay h hfee hchosen hpays _
    · simp only [extendUntil, hpays, if_false]
      by_cases henough : (required.map RequiredInput.value).sum +
          ((chosen ++ [utxo]).map Utxo.value).sum ≤ (outputs.map TxOutput.value).sum
      · simp only [henough, decide_true, if_true]
        exact hrest
      · rcases signSelected_insufficient h hchosen hfee hpays with ⟨_, _, _, hsign⟩
        simp only [henough, decide_false, Bool.false_eq_true, if_false, hsign]
        exact hrest

/-- The utxos the search ends with.  If the required inputs have more value than the outputs,
the first round tries them alone and passes over its utxo for good. -/
def selected (length : Nat -> Nat) (required : List RequiredInput) (outputs : List TxOutput)
    (satsPerKb : Int) (spendable : List Utxo) : Option (List Utxo) :=
  if (required.map RequiredInput.value).sum ≤ (outputs.map TxOutput.value).sum then
    extendUntil (Pays length required outputs satsPerKb) [] spendable
  else
    match spendable with
    | [] => none
    | _ :: utxos =>
      if Pays length required outputs satsPerKb [] then some []
      else extendUntil (Pays length required outputs satsPerKb) [] utxos

theorem selectLoop_start :
    selectLoop sha256d ecc wallet outputs (lockScript (wallet.paths 1899)) satsPerKb
        (outputs.map TxOutput.value).sum spendable
        { inputs := required.map (requiredReady sha256d ecc wallet),
          inputSatoshis := (required.map RequiredInput.value).sum,
          needsAnotherUtxo := decide ((required.map RequiredInput.value).sum ≤
            (outputs.map TxOutput.value).sum) } =
      outcome sha256d ecc wallet required outputs satsPerKb
        (selected length required outputs satsPerKb spendable) := by
  have hinputs : required.map (requiredReady sha256d ecc wallet) =
      chosenInputs sha256d ecc wallet required [] := by
    simp [chosenInputs]
  have hsum : (required.map RequiredInput.value).sum =
      (required.map RequiredInput.value).sum + (([] : List Utxo).map Utxo.value).sum := by
    simp
  by_cases hmore : (required.map RequiredInput.value).sum ≤ (outputs.map TxOutput.value).sum
  · simp only [selected, hmore, decide_true, if_true]
    rw [hinputs, hsum]
    exact selectLoop_eq h hfee (Sublist.refl spendable)
  simp only [selected, hmore, decide_false, if_false]
  cases spendable with
  | nil => rfl
  | cons utxo utxos =>
    simp only [selectLoop, addIfNeeded, Bool.false_eq_true, if_false, hinputs]
    by_cases hpays : Pays length required outputs satsPerKb []
    · simp only [hpays, if_true, outcome]
      exact tryPay h hfee (nil_sublist _) hpays _
    · rcases signSelected_insufficient h (nil_sublist _) hfee hpays with ⟨_, _, _, hsign⟩
      simp only [hpays, if_false, hsign]
      rw [hsum]
      exact selectLoop_eq h hfee (sublist_cons_self utxo utxos)

end Selection

/-- The outputs of the transaction: those with a script, and those to the wallet itself. -/
def resolvedOutputs (wallet : Wallet) (targetOutputs : List TargetOutput) : List TxOutput :=
  targetOutputs.filterMap fun targetOutput =>
    match targetOutput.script with
    | some script => some { value := targetOutput.value, script }
    | none =>
      if isTokenDustChangeOutput targetOutput then
        some { value := targetOutput.value, script := lockScript (wallet.paths 1899) }
      else none

theorem changeScript_eq (wallet : Wallet) :
    changeScript wallet = .ok (lockScript (wallet.paths 1899)) :=
  (lockScript_eq (wallet.paths 1899)).left

theorem resolveOutputs_eq (wallet : Wallet) (targetOutputs : List TargetOutput) :
    resolveOutputs wallet targetOutputs = .ok (resolvedOutputs wallet targetOutputs) := by
  unfold resolvedOutputs
  induction targetOutputs with
  | nil => rfl
  | cons targetOutput targetOutputs ih =>
    cases hscript : targetOutput.script with
    | some script => simp only [resolveOutputs, hscript, ih, filterMap_cons, bind, Except.bind]
    | none =>
      by_cases htoken : isTokenDustChangeOutput targetOutput = true
      · simp only [resolveOutputs, hscript, htoken, if_true, changeScript_eq, ih,
          filterMap_cons, bind, Except.bind]
      · simp only [resolveOutputs, hscript, htoken, Bool.false_eq_true, if_false, ih,
          filterMap_cons]

variable {sha256d : Bytes -> Bytes} {ecc : Ecc} {wallet : Wallet} {length : Nat -> Nat}
  {required : List RequiredInput} {targetOutputs : List TargetOutput}
  {chaintipBlockheight satsPerKb : Int}

theorem sendXec_eq (h : Payable sha256d ecc wallet length required
      (ignoreUnspendableUtxos wallet.nonSlpUtxos chaintipBlockheight)
      (resolvedOutputs wallet targetOutputs)) (hfee : 0 < satsPerKb)
    (hdust : dustSats ≤ ((resolvedOutputs wallet targetOutputs).map TxOutput.value).sum) :
    sendXec sha256d ecc wallet targetOutputs satsPerKb chaintipBlockheight required =
      outcome sha256d ecc wallet required (resolvedOutputs wallet targetOutputs) satsPerKb
        (selected length required (resolvedOutputs wallet targetOutputs) satsPerKb
          (ignoreUnspendableUtxos wallet.nonSlpUtxos chaintipBlockheight)) := by
  rw [← selectLoop_start h hfee]
  simp only [sendXec, resolveOutputs_eq, Except.mapError, Int.not_lt.mpr hdust, if_false,
    changeScript_eq, mapM_readyInput, bind, Except.bind]

/-!
## The shortest selection that pays
-/

section Shortest

variable (wallet : Wallet) {utxos utxos' : List Utxo}

def SameInputs (utxos utxos' : List Utxo) : Prop :=
  utxos.map (txInputOf wallet) = utxos'.map (txInputOf wallet)

variable {wallet}

namespace SameInputs

variable (h : SameInputs wallet utxos utxos') (length : Nat -> Nat)
  (required : List RequiredInput) (outputs : List TxOutput) (satsPerKb : Int)

include h

theorem values : utxos.map Utxo.value = utxos'.map Utxo.value := by
  have hsats := congrArg (map sats) h
  simp only [map_map] at hsats
  exact hsats

theorem length_eq : utxos.length = utxos'.length := by
  have hlength := congrArg length h
  simpa using hlength

theorem take (k : Nat) : SameInputs wallet (utxos.take k) (utxos'.take k) := by
  unfold SameInputs at h ⊢
  rw [map_take, map_take, h]

theorem pays :
    Pays length required outputs satsPerKb utxos <->
      Pays length required outputs satsPerKb utxos' := by
  unfold Pays chosenLengths
  rw [h.values, h.length_eq]

theorem changeValue :
    changeValue wallet length required outputs satsPerKb utxos =
      changeValue wallet length required outputs satsPerKb utxos' := by
  unfold Cashtab.changeValue chosenLengths
  rw [h.values, h.length_eq]

end SameInputs

theorem chosenInputs_same (sha256d : Bytes -> Bytes) (ecc : Ecc) (required : List RequiredInput) :
    ((chosenInputs sha256d ecc wallet required utxos).map ReadyInput.input).map withoutScript =
        ((chosenInputs sha256d ecc wallet required utxos').map ReadyInput.input).map
          withoutScript <-> SameInputs wallet utxos utxos' := by
  have hwallet : forall utxos : List Utxo,
      ((utxos.map (walletReady sha256d ecc wallet)).map ReadyInput.input).map withoutScript =
        utxos.map (txInputOf wallet) := by
    intro utxos
    simp only [map_map]
    rfl
  unfold chosenInputs SameInputs
  simp only [map_append, hwallet, append_cancel_left_eq]

/-- The shortest number of utxos that pay. -/
structure Shortest (length : Nat -> Nat) (required : List RequiredInput)
    (outputs : List TxOutput) (satsPerKb : Int) (spendable : List Utxo) (k : Nat) : Prop where
  pays : Pays length required outputs satsPerKb (spendable.take k)
  least : forall j, j < k -> ¬ Pays length required outputs satsPerKb (spendable.take j)

variable {length : Nat -> Nat} {required : List RequiredInput} {outputs : List TxOutput}
  {satsPerKb : Int} {spendable : List Utxo} {k : Nat}

theorem exists_shortest (h : Pays length required outputs satsPerKb (spendable.take k)) :
    exists k, Shortest length required outputs satsPerKb spendable k := by
  have hex : exists k, Pays length required outputs satsPerKb (spendable.take k) := ⟨k, h⟩
  exact ⟨Nat.find hex, Nat.find_spec hex, fun j hj => Nat.find_min hex hj⟩

theorem Shortest.le_length
    (h : Shortest length required outputs satsPerKb spendable k) : k ≤ spendable.length := by
  apply not_lt.mp
  intro hlt
  have hpays := h.pays
  rw [take_of_length_le hlt.le, ← @take_length _ spendable] at hpays
  exact h.least spendable.length hlt hpays

/-- When the search finds the shortest selection: what is left for change can be written, and
either the required inputs alone have no more value than the outputs, or they pay alone and
there is a utxo to look at, or the utxos behind the first are spent by the same inputs. -/
def FindsShortest (wallet : Wallet) (length : Nat -> Nat) (required : List RequiredInput)
    (outputs : List TxOutput) (satsPerKb : Int) (spendable : List Utxo) : Prop :=
  forall k, Shortest length required outputs satsPerKb spendable k ->
    changeValue wallet length required outputs satsPerKb (spendable.take k) < 2 ^ 64 ∧
    ((required.map RequiredInput.value).sum ≤ (outputs.map TxOutput.value).sum ∨
      (k = 0 ∧ spendable ≠ []) ∨
      (0 < k ∧ SameInputs wallet (spendable.tail.take k) (spendable.take k)))

/-- The shortest selection that pays is sent, and funds are insufficient only if there is none. -/
def Complete (sha256d : Bytes -> Bytes) (ecc : Ecc) (wallet : Wallet) (length : Nat -> Nat)
    (required : List RequiredInput) (outputs : List TxOutput) (satsPerKb : Int)
    (spendable : List Utxo) (result : Except SendError Broadcast) : Prop :=
  (forall k, Shortest length required outputs satsPerKb spendable k ->
    Sent sha256d ecc wallet required (spendable.take k) result) ∧
  (result = .error .insufficientFunds ->
    forall k, ¬ Pays length required outputs satsPerKb (spendable.take k))

theorem Sent.not_insufficient {sha256d : Bytes -> Bytes} {ecc : Ecc}
    {result : Except SendError Broadcast} (h : Sent sha256d ecc wallet required utxos result) :
    result ≠ .error .insufficientFunds := by
  intro herror
  rcases h with ⟨_, hsent, _⟩
  rw [herror] at hsent
  cases hsent

theorem selected_of_le
    (h : (required.map RequiredInput.value).sum ≤ (outputs.map TxOutput.value).sum) :
    selected length required outputs satsPerKb spendable =
      extendUntil (Pays length required outputs satsPerKb) [] spendable := by
  unfold selected
  rw [if_pos h]

theorem selected_cons
    (h : ¬ (required.map RequiredInput.value).sum ≤ (outputs.map TxOutput.value).sum)
    (utxo : Utxo) (rest : List Utxo) :
    selected length required outputs satsPerKb (utxo :: rest) =
      if Pays length required outputs satsPerKb [] then some []
      else extendUntil (Pays length required outputs satsPerKb) [] rest := by
  unfold selected
  rw [if_neg h]

theorem selected_nil : selected length required outputs satsPerKb [] = none := by
  unfold selected
  split <;> rfl

theorem selected_spec {found : List Utxo}
    (hfound : selected length required outputs satsPerKb spendable = some found) :
    found.Sublist spendable ∧ Pays length required outputs satsPerKb found := by
  have hextend : forall rest : List Utxo, rest.Sublist spendable ->
      extendUntil (Pays length required outputs satsPerKb) [] rest = some found ->
      found.Sublist spendable ∧ Pays length required outputs satsPerKb found := by
    intro rest hrest hsome
    rcases extendUntil_eq_some.mp hsome with ⟨k, _, _, hresult, hpays, _⟩
    subst hresult
    exact ⟨(take_sublist k rest).trans hrest, hpays⟩
  by_cases hmore : (required.map RequiredInput.value).sum ≤ (outputs.map TxOutput.value).sum
  · rw [selected_of_le hmore] at hfound
    exact hextend spendable (Sublist.refl _) hfound
  cases spendable with
  | nil =>
    rw [selected_nil] at hfound
    cases hfound
  | cons utxo rest =>
    rw [selected_cons hmore] at hfound
    by_cases hpays : Pays length required outputs satsPerKb []
    · rw [if_pos hpays] at hfound
      cases hfound
      exact ⟨nil_sublist _, hpays⟩
    · rw [if_neg hpays] at hfound
      exact hextend rest (sublist_cons_self utxo rest) hfound

section Search

variable {sha256d : Bytes -> Bytes} {ecc : Ecc}
  (h : Payable sha256d ecc wallet length required spendable outputs) (hfee : 0 < satsPerKb)

include h hfee

theorem outcome_sent_iff :
    Sent sha256d ecc wallet required utxos
        (outcome sha256d ecc wallet required outputs satsPerKb
          (selected length required outputs satsPerKb spendable)) <->
      exists found, selected length required outputs satsPerKb spendable = some found ∧
        SameInputs wallet found utxos ∧
        changeValue wallet length required outputs satsPerKb found < 2 ^ 64 := by
  cases hselected : selected length required outputs satsPerKb spendable with
  | none =>
    constructor
    · intro hsent
      exact absurd rfl hsent.not_insufficient
    · intro hfound
      rcases hfound with ⟨found, hfound, _⟩
      cases hfound
  | some found =>
    rcases selected_spec hselected with ⟨hsub, hpays⟩
    simp only [outcome, Option.some.injEq, exists_eq_left']
    by_cases hfits : changeValue wallet length required outputs satsPerKb found < 2 ^ 64
    · rcases finish_sent h hfee hsub hpays hfits with ⟨sent, hsent, hser, hinputs⟩
      constructor
      · intro hother
        rcases hother with ⟨other, hother, _, hothers⟩
        rw [hsent] at hother
        cases hother
        rw [hinputs] at hothers
        exact ⟨(chosenInputs_same sha256d ecc required).mp hothers, hfits⟩
      · intro hsame
        refine ⟨sent, hsent, hser, ?_⟩
        rw [hinputs]
        exact (chosenInputs_same sha256d ecc required).mpr hsame.left
    · rw [finish_cannotFit h hfee hsub (Int.le_of_not_gt hfits)]
      constructor
      · intro hother
        rcases hother with ⟨_, hother, _⟩
        cases hother
      · intro hsame
        exact absurd hsame.right hfits

end Search

section

variable (h : Shortest length required outputs satsPerKb spendable k)
  (hnone : ¬ Pays length required outputs satsPerKb [])

include h hnone

theorem Shortest.pos : 0 < k := by
  apply Nat.pos_of_ne_zero
  intro hzero
  have hpays := h.pays
  rw [hzero] at hpays
  exact hnone hpays

theorem Shortest.extendUntil :
    Foundation.extendUntil (Pays length required outputs satsPerKb) [] spendable =
      some (spendable.take k) :=
  extendUntil_eq_some.mpr ⟨k, h.pos hnone, h.le_length, rfl, h.pays, fun j _ hj => h.least j hj⟩

end

theorem Shortest.same (h : Shortest length required outputs satsPerKb spendable k)
    {rest : List Utxo} (hsame : SameInputs wallet (rest.take k) (spendable.take k)) :
    Shortest length required outputs satsPerKb rest k where
  pays := (hsame.pays length required outputs satsPerKb).mpr h.pays
  least := by
    intro j hj
    have htake := hsame.take j
    rw [take_take, take_take, Nat.min_eq_left hj.le] at htake
    rw [htake.pays length required outputs satsPerKb]
    exact h.least j hj

theorem not_pays_nil (hfee : 0 < satsPerKb)
    (h : (required.map RequiredInput.value).sum ≤ (outputs.map TxOutput.value).sum) :
    ¬ Pays length required outputs satsPerKb [] := by
  intro hpays
  have hlt := lt_of_pays hfee hpays
  rw [map_nil, sum_nil] at hlt
  omega

theorem selected_shortest_iff (hfee : 0 < satsPerKb)
    (h : Shortest length required outputs satsPerKb spendable k) :
    (exists found, selected length required outputs satsPerKb spendable = some found ∧
        SameInputs wallet found (spendable.take k)) <->
      ((required.map RequiredInput.value).sum ≤ (outputs.map TxOutput.value).sum ∨
        (k = 0 ∧ spendable ≠ []) ∨
        (0 < k ∧ SameInputs wallet (spendable.tail.take k) (spendable.take k))) := by
  by_cases hmore : (required.map RequiredInput.value).sum ≤ (outputs.map TxOutput.value).sum
  · refine iff_of_true ?_ (.inl hmore)
    rw [selected_of_le hmore, h.extendUntil (not_pays_nil hfee hmore)]
    exact ⟨_, rfl, rfl⟩
  cases spendable with
  | nil =>
    refine iff_of_false ?_ ?_
    · rintro ⟨found, hfound, _⟩
      rw [selected_nil] at hfound
      cases hfound
    have hk := h.le_length
    rw [length_nil] at hk
    rintro (hle | ⟨_, hne⟩ | ⟨hpos, _⟩)
    · exact hmore hle
    · exact hne rfl
    · omega
  | cons utxo rest =>
    rw [selected_cons hmore]
    by_cases hpays : Pays length required outputs satsPerKb []
    · have hzero : k = 0 := by
        by_contra hne
        exact h.least 0 (Nat.pos_of_ne_zero hne) hpays
      subst hzero
      rw [if_pos hpays]
      exact iff_of_true ⟨[], rfl, rfl⟩ (.inr (.inl ⟨rfl, cons_ne_nil _ _⟩))
    · rw [if_neg hpays]
      have hpos := h.pos hpays
      constructor
      · rintro ⟨found, hfound, hsame⟩
        rcases extendUntil_eq_some.mp hfound with ⟨_, _, hj, hresult, _⟩
        rw [nil_append] at hresult
        subst hresult
        -- The selections have the same length, so they were found at the same number.
        have hlength := hsame.length_eq
        rw [length_take, length_take, Nat.min_eq_left hj, Nat.min_eq_left h.le_length] at hlength
        subst hlength
        exact .inr (.inr ⟨hpos, hsame⟩)
      · rintro (hle | ⟨hzero, _⟩ | ⟨_, hsame⟩)
        · exact absurd hle hmore
        · omega
        · exact ⟨rest.take k, (h.same hsame).extendUntil hpays, hsame⟩

end Shortest

/-- `sendXec` finds the shortest selection of utxos that pays exactly under the condition that
the search does not pass over a utxo it needs, and that the change can be written. -/
theorem sendXec_complete_iff {sha256d : Bytes -> Bytes} {ecc : Ecc} {wallet : Wallet}
    {length : Nat -> Nat} {required : List RequiredInput} {targetOutputs : List TargetOutput}
    {chaintipBlockheight satsPerKb : Int} (h : Payable sha256d ecc wallet length required
      (ignoreUnspendableUtxos wallet.nonSlpUtxos chaintipBlockheight)
      (resolvedOutputs wallet targetOutputs)) (hfee : 0 < satsPerKb)
    (hdust : dustSats ≤ ((resolvedOutputs wallet targetOutputs).map TxOutput.value).sum) :
    Complete sha256d ecc wallet length required (resolvedOutputs wallet targetOutputs) satsPerKb
        (ignoreUnspendableUtxos wallet.nonSlpUtxos chaintipBlockheight)
        (sendXec sha256d ecc wallet targetOutputs satsPerKb chaintipBlockheight required) <->
      FindsShortest wallet length required (resolvedOutputs wallet targetOutputs) satsPerKb
        (ignoreUnspendableUtxos wallet.nonSlpUtxos chaintipBlockheight) := by
  rw [sendXec_eq h hfee hdust]
  generalize resolvedOutputs wallet targetOutputs = outputs at *
  generalize ignoreUnspendableUtxos wallet.nonSlpUtxos chaintipBlockheight = spendable at *
  constructor
  · intro hcomplete k hshortest
    rcases (outcome_sent_iff h hfee).mp (hcomplete.left k hshortest) with
      ⟨found, hfound, hsame, hfits⟩
    rw [hsame.changeValue length required outputs satsPerKb] at hfits
    exact ⟨hfits, (selected_shortest_iff hfee hshortest).mp ⟨found, hfound, hsame⟩⟩
  · intro hfinds
    have hsent : forall k, Shortest length required outputs satsPerKb spendable k ->
        Sent sha256d ecc wallet required (spendable.take k)
          (outcome sha256d ecc wallet required outputs satsPerKb
            (selected length required outputs satsPerKb spendable)) := by
      intro k hshortest
      rcases hfinds k hshortest with ⟨hfits, hcases⟩
      rcases (selected_shortest_iff hfee hshortest).mpr hcases with ⟨found, hfound, hsame⟩
      rw [← hsame.changeValue length required outputs satsPerKb] at hfits
      exact (outcome_sent_iff h hfee).mpr ⟨found, hfound, hsame, hfits⟩
    refine ⟨hsent, ?_⟩
    intro herror k hpays
    rcases exists_shortest hpays with ⟨least, hshortest⟩
    exact (hsent least hshortest).not_insufficient herror

def exampleUtxo (value : Int) : Utxo where
  outpoint := { txid := .bytes (replicate 32 1) length_replicate, outIdx := value % 2 ^ 32 }
  value
  isCoinbase := false
  blockHeight := 1
  path := 1899

def exampleWallet (values : List Int) : Wallet where
  paths := fun _ =>
    { privateKey := replicate 32 2, hash := replicate 20 3,
      hash_length := length_replicate }
  nonSlpUtxos := values.map exampleUtxo

/-- Dust to the wallet itself. -/
def exampleTarget : TargetOutput where
  value := dustSats
  script := none
  otherKeys := false

theorem example_fit {value : Int} (h : FitsIn 8 value) : FitUtxo (exampleUtxo value) :=
  ⟨⟨Int.emod_nonneg _ (by decide), Int.emod_lt_of_pos _ (by decide)⟩, h⟩

theorem example_spendable (values : List Int) :
    ignoreUnspendableUtxos (exampleWallet values).nonSlpUtxos 0 = values.map exampleUtxo :=
  filter_eq_self.mpr (forall_mem_map.mpr fun _ _ => rfl)

theorem example_payable (sha256d : Bytes -> Bytes) {required values : List Int}
    (hrequired : forall value, value ∈ required -> FitsIn 8 value)
    (hvalues : forall value, value ∈ values -> FitsIn 8 value)
    (hcount : required.length + values.length < 2 ^ 64) :
    Payable sha256d EccDummy (exampleWallet values) (fun _ => 0)
      (required.map fun value => .wallet (exampleUtxo value))
      (ignoreUnspendableUtxos (exampleWallet values).nonSlpUtxos 0)
      (resolvedOutputs (exampleWallet values) [exampleTarget]) where
  fitRequired := forall_mem_map.mpr fun value hvalue => example_fit (hrequired value hvalue)
  fitSpendable := by
    rw [example_spendable]
    exact forall_mem_map.mpr fun value hvalue => example_fit (hvalues value hvalue)
  fitOutputs := by
    refine forall_mem_singleton.mpr ?_
    refine ⟨(by decide : FitsIn 8 546), ?_⟩
    rw [(lockScript_eq _).right.left]
    decide
  inputCount := by
    rw [example_spendable, length_map, length_map]
    exact hcount
  outputCount := (by decide : 1 + 1 < 2 ^ 64)
  fitLength := by
    intro _
    decide
  steady := by
    intro inputIdx input hinput
    rw [getElem?_map] at hinput
    rcases Option.map_eq_some_iff.mp hinput with ⟨_, _, heq⟩
    cases heq

theorem sendXec_complete_iff_dust :
    Complete (fun data => data) EccDummy (exampleWallet [10000]) (fun _ => 0) []
      (resolvedOutputs (exampleWallet [10000]) [exampleTarget]) 1000
      (ignoreUnspendableUtxos (exampleWallet [10000]).nonSlpUtxos 0)
      (sendXec (fun data => data) EccDummy (exampleWallet [10000]) [exampleTarget] (1000 : Int) 0
        []) := by
  have hpayable : Payable (fun data => data) EccDummy (exampleWallet [10000]) (fun _ => 0) []
      (ignoreUnspendableUtxos (exampleWallet [10000]).nonSlpUtxos 0)
      (resolvedOutputs (exampleWallet [10000]) [exampleTarget]) :=
    @example_payable _ [] [10000] (by simp) (by decide) (by decide)
  refine (sendXec_complete_iff hpayable (by decide) (by decide)).mpr ?_
  intro k _
  have hfee := TxBuilder.requiredFee_nonneg (signedSize
    (chosenLengths (fun _ => 0) [] ((ignoreUnspendableUtxos
      (exampleWallet [10000]).nonSlpUtxos 0).take k))
    (resolvedOutputs (exampleWallet [10000]) [exampleTarget] ++
      [⟨0, lockScript ((exampleWallet [10000]).paths 1899)⟩])) (by decide : (0 : Int) ≤ 1000)
  have hsum : (((ignoreUnspendableUtxos (exampleWallet [10000]).nonSlpUtxos 0).take k).map
      Utxo.value).sum ≤ 10000 := by
    cases k with
    | zero => decide
    | succ k =>
      have htake : (ignoreUnspendableUtxos (exampleWallet [10000]).nonSlpUtxos 0).take (k + 1) =
          [exampleUtxo 10000] := by
        apply take_of_length_le
        show 1 ≤ k + 1
        omega
      rw [htake]
      decide
  refine ⟨?_, .inl (by decide)⟩
  have hrequired : (([] : List RequiredInput).map RequiredInput.value).sum = 0 := rfl
  have houtputs : ((resolvedOutputs (exampleWallet [10000]) [exampleTarget]).map
      TxOutput.value).sum = 546 := rfl
  unfold changeValue
  omega

/-- A required input of 600 sats has more value than the outputs but does not pay the fee; with
the only utxo it would.  And a required input of 10000 sats pays alone, but there is no utxo. -/
theorem sendXec_passesOver_first :
    (Pays (fun _ => 0) [.wallet (exampleUtxo 600)]
        (resolvedOutputs (exampleWallet [10000]) [exampleTarget]) 1000 [exampleUtxo 10000] ∧
      sendXec (fun data => data) EccDummy (exampleWallet [10000]) [exampleTarget] (1000 : Int) 0
        [.wallet (exampleUtxo 600)] = .error .insufficientFunds) ∧
    (Pays (fun _ => 0) [.wallet (exampleUtxo 10000)]
        (resolvedOutputs (exampleWallet []) [exampleTarget]) 1000 [] ∧
      sendXec (fun data => data) EccDummy (exampleWallet []) [exampleTarget] (1000 : Int) 0
        [.wallet (exampleUtxo 10000)] = .error .insufficientFunds) := by
  have hpayable := @example_payable (fun data => data) [600] [10000] (by decide) (by decide)
    (by decide)
  have hshort : ¬ Pays (fun _ => 0) [.wallet (exampleUtxo 600)]
      (resolvedOutputs (exampleWallet [10000]) [exampleTarget]) 1000 [] := by
    unfold Pays
    rw [← TxBuilder.calcTxFee_eq _ (by decide)]
    decide
  refine ⟨⟨?_, ?_⟩, ?_, rfl⟩
  · unfold Pays
    rw [← TxBuilder.calcTxFee_eq _ (by decide)]
    decide
  · have hselected : selected (fun _ => 0) [.wallet (exampleUtxo 600)]
        (resolvedOutputs (exampleWallet [10000]) [exampleTarget]) 1000
        (ignoreUnspendableUtxos (exampleWallet [10000]).nonSlpUtxos 0) = none := by
      exact (selected_cons (by decide) (exampleUtxo 10000) []).trans (if_neg hshort)
    exact (sendXec_eq hpayable (by decide) (by decide)).trans
      (congrArg (outcome _ _ _ _ _ _) hselected)
  · unfold Pays
    rw [← TxBuilder.calcTxFee_eq _ (by decide)]
    decide

end ECash.Cashtab
