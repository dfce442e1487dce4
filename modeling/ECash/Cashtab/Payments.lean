import ECash.Cashtab.SendXec

/-!
# Inputs that pay

The inputs of a payment by value, whether they pay for the outputs and the fee, and what signing
them comes to.
-/

namespace ECash.Cashtab

open Foundation List
open Lib
open Lib.TxBuilder (FitInput FitOutput SteadyLength SameButScripts SignedLengths OneLeftover
  Fitting Settled sats withoutScript requiredFee signedSize leftoverFor)

/-!
## Inputs by value
-/

def lockScript (path : WalletPath) : Script :=
  match Script.p2pkh path.hash with
  | .ok script => script
  | .error _ => { bytecode := [] }

theorem lockScript_eq (path : WalletPath) :
    Script.p2pkh path.hash = .ok (lockScript path) ∧
      (lockScript path).bytecode.length = 25 ∧ (lockScript path).isP2sh = false := by
  rcases p2pkh_ok path.hash_length with ⟨_, hscript, hlength, hp2sh⟩
  unfold lockScript
  rw [hscript]
  exact ⟨rfl, hlength, hp2sh⟩

section Inputs

variable (sha256d : Bytes -> Bytes) (ecc : Ecc) (wallet : Wallet)

def txInputOf (utxo : Utxo) : TxInput where
  prevOut := utxo.outpoint
  script := none
  sequence := none
  signData := some
    { value := utxo.value, outputScript := some (lockScript (wallet.paths utxo.path)),
      redeemScript := none }

def walletReady (utxo : Utxo) : ReadyInput where
  input := txInputOf wallet utxo
  signatory := P2PKHSignatory sha256d (wallet.paths utxo.path).privateKey
    (ecc.derivePubkey (wallet.paths utxo.path).privateKey) ALL_BIP143

theorem walletInput_eq (utxo : Utxo) :
    walletInput sha256d ecc wallet utxo = .ok (walletReady sha256d ecc wallet utxo) := by
  unfold walletInput
  rw [(lockScript_eq (wallet.paths utxo.path)).left]
  rfl

def requiredReady : RequiredInput -> ReadyInput
  | .finalized input =>
    { input :=
        { prevOut := input.prevOut, script := input.script, sequence := input.sequence,
          signData := some input.signData },
      signatory := input.signatory }
  | .wallet utxo => walletReady sha256d ecc wallet utxo

theorem readyInput_eq (input : RequiredInput) :
    readyInput sha256d ecc wallet input = .ok (requiredReady sha256d ecc wallet input) := by
  cases input with
  | finalized input => rfl
  | wallet utxo => exact walletInput_eq sha256d ecc wallet utxo

theorem mapM_readyInput (required : List RequiredInput) :
    required.mapM (readyInput sha256d ecc wallet) =
      .ok (required.map (requiredReady sha256d ecc wallet)) := by
  induction required with
  | nil => rfl
  | cons input required ih =>
    rw [mapM_cons, readyInput_eq, ih]
    rfl

def chosenInputs (required : List RequiredInput) (utxos : List Utxo) : List ReadyInput :=
  required.map (requiredReady sha256d ecc wallet) ++ utxos.map (walletReady sha256d ecc wallet)

theorem sats_chosenInputs (required : List RequiredInput) (utxos : List Utxo) :
    (((chosenInputs sha256d ecc wallet required utxos).map ReadyInput.input).map sats).sum =
      (required.map RequiredInput.value).sum + (utxos.map Utxo.value).sum := by
  have hrequired : required.map (fun input => sats (requiredReady sha256d ecc wallet input).input) =
      required.map RequiredInput.value :=
    map_congr_left fun input _ => by cases input <;> rfl
  unfold chosenInputs
  rw [map_append, map_append, sum_append]
  congr 1
  · rw [← hrequired]
    simp only [map_map]
    rfl
  · simp only [map_map]
    rfl

end Inputs

/-!
## Payments
-/

/-- The lengths of the scripts of the required inputs, given those of the finalized ones at
their indexes. -/
def requiredLengths (length : Nat -> Nat) (required : List RequiredInput) : List Nat :=
  required.mapIdx fun inputIdx input =>
    match input with
    | .finalized _ => length inputIdx
    | .wallet _ => 100

def chosenLengths (length : Nat -> Nat) (required : List RequiredInput) (utxos : List Utxo) :
    List Nat :=
  requiredLengths length required ++ replicate utxos.length 100

def FitUtxo (utxo : Utxo) : Prop :=
  FitsIn 4 utxo.outpoint.outIdx ∧ FitsIn 8 utxo.value

def FitRequired : RequiredInput -> Prop
  | .finalized input =>
    FitsIn 4 input.prevOut.outIdx ∧ FitsIn 4 (input.sequence.getD DEFAULT_SEQUENCE)
  | .wallet utxo => FitUtxo utxo

/-- The data of a payment: numbers fit the fields they are written to, and the signatories of
finalized inputs make scripts of known lengths. -/
structure Payable (sha256d : Bytes -> Bytes) (ecc : Ecc) (wallet : Wallet)
    (length : Nat -> Nat) (required : List RequiredInput) (spendable : List Utxo)
    (outputs : List TxOutput) : Prop where
  fitRequired : forall input, input ∈ required -> FitRequired input
  fitSpendable : forall utxo, utxo ∈ spendable -> FitUtxo utxo
  fitOutputs : forall output, output ∈ outputs -> FitOutput output
  inputCount : required.length + spendable.length < 2 ^ 64
  outputCount : outputs.length + 1 < 2 ^ 64
  fitLength : forall inputIdx, length inputIdx < 2 ^ 64
  steady : forall inputIdx input, required[inputIdx]? = some (.finalized input) ->
    forall builder utxos, builder.version = DEFAULT_TX_VERSION -> builder.locktime = 0 ->
      SteadyLength builder
        ((chosenInputs sha256d ecc wallet required utxos).map ReadyInput.input) inputIdx
        input.signatory (length inputIdx)

def Pays (length : Nat -> Nat) (required : List RequiredInput)
    (outputs : List TxOutput) (satsPerKb : Int) (utxos : List Utxo) : Prop :=
  (outputs.map TxOutput.value).sum +
      requiredFee (signedSize (chosenLengths length required utxos) outputs) satsPerKb ≤
    (required.map RequiredInput.value).sum + (utxos.map Utxo.value).sum

instance (length : Nat -> Nat) (required : List RequiredInput)
    (outputs : List TxOutput) (satsPerKb : Int) :
    DecidablePred (Pays length required outputs satsPerKb) :=
  fun _ => inferInstanceAs (Decidable (_ ≤ _))

theorem signedLengths_zipIdx {builder : TxBuilder} {inputs : List TxInput} {start : Nat}
    {ready : List ReadyInput} {lengths : List Nat} (hlength : lengths.length = ready.length)
    (hsteady : forall i input length, ready[i]? = some input -> lengths[i]? = some length ->
      SteadyLength builder inputs (start + i) input.signatory length) :
    SignedLengths builder inputs start
      ((ready.zipIdx start).map fun entry => ⟨entry.2, some entry.1.signatory⟩)
      (ready.map ReadyInput.input) lengths := by
  induction ready generalizing start lengths with
  | nil =>
    rw [length_eq_zero_iff.mp hlength]
    exact .nil start
  | cons input ready ih =>
    cases lengths with
    | nil => cases hlength
    | cons length lengths =>
      apply SignedLengths.signed
      · exact hsteady 0 input length rfl rfl
      · apply ih (Nat.succ.inj hlength)
        intro i other otherLength hother hotherLength
        have hshift := hsteady (i + 1) other otherLength hother hotherLength
        rw [show start + 1 + i = start + (i + 1) by omega]
        exact hshift

def changeValue (wallet : Wallet) (length : Nat -> Nat) (required : List RequiredInput)
    (outputs : List TxOutput) (satsPerKb : Int) (utxos : List Utxo) : Int :=
  (required.map RequiredInput.value).sum + (utxos.map Utxo.value).sum -
    ((outputs.map TxOutput.value).sum + requiredFee (signedSize
      (chosenLengths length required utxos)
      (outputs ++ [⟨0, lockScript (wallet.paths 1899)⟩])) satsPerKb)

theorem leftoverFor_chosen (sha256d : Bytes -> Bytes) (ecc : Ecc) (wallet : Wallet)
    (length : Nat -> Nat) (required : List RequiredInput) (outputs : List TxOutput)
    (satsPerKb : Int) (utxos : List Utxo) :
    leftoverFor ((chosenInputs sha256d ecc wallet required utxos).map ReadyInput.input)
      (chosenLengths length required utxos) outputs [] (lockScript (wallet.paths 1899))
      satsPerKb = changeValue wallet length required outputs satsPerKb utxos := by
  unfold leftoverFor changeValue
  rw [sats_chosenInputs, append_nil]

/-- The transaction is that of a payment from the chosen inputs, with the fee settled. -/
abbrev SettledPayment (sha256d : Bytes -> Bytes) (ecc : Ecc) (wallet : Wallet)
    (length : Nat -> Nat) (required : List RequiredInput) (outputs : List TxOutput)
    (utxos : List Utxo) (satsPerKb : Int) : Tx -> Prop :=
  Settled (builderOf (chosenInputs sha256d ecc wallet required utxos) outputs
      (lockScript (wallet.paths 1899)))
    ((chosenInputs sha256d ecc wallet required utxos).map ReadyInput.input)
    (chosenLengths length required utxos) outputs [] (lockScript (wallet.paths 1899))
    satsPerKb (dustSats : ℚ)

theorem pays_of_changeValue {wallet : Wallet} {length : Nat -> Nat}
    {required : List RequiredInput} {outputs : List TxOutput} {satsPerKb : Int}
    (hfee : 0 < satsPerKb) {utxos : List Utxo}
    (h : 0 ≤ changeValue wallet length required outputs satsPerKb utxos) :
    Pays length required outputs satsPerKb utxos := by
  have hle := TxBuilder.requiredFee_without_le (chosenLengths length required utxos) outputs []
    ⟨0, lockScript (wallet.paths 1899)⟩ (Int.le_of_lt hfee)
  rw [append_nil] at hle
  unfold changeValue at h
  unfold Pays
  omega

section Payment

variable {sha256d : Bytes -> Bytes} {ecc : Ecc} {wallet : Wallet} {length : Nat -> Nat}
  {required : List RequiredInput} {spendable : List Utxo} {outputs : List TxOutput}
  {utxos : List Utxo}

theorem p2pkhInput_txInputOf (wallet : Wallet) {utxo : Utxo} (hfit : FitUtxo utxo) :
    P2pkhInput (txInputOf wallet utxo) where
  fits := by
    have hsequence : FitsIn 4 DEFAULT_SEQUENCE := by decide
    exact ⟨hfit.left, hsequence⟩
  locked := by
    have hlock := lockScript_eq (wallet.paths utxo.path)
    refine ⟨_, _, rfl, rfl, hlock.right.right, ?_, hfit.right⟩
    rw [hlock.right.left]
    decide

theorem steady_wallet {builder : TxBuilder} (hversion : builder.version = DEFAULT_TX_VERSION)
    (hlocktime : builder.locktime = 0) {inputIdx : Nat} {utxo : Utxo}
    (hat : ((chosenInputs sha256d ecc wallet required utxos).map ReadyInput.input)[inputIdx]? =
      some (txInputOf wallet utxo)) (hfit : FitUtxo utxo) :
    SteadyLength builder
      ((chosenInputs sha256d ecc wallet required utxos).map ReadyInput.input) inputIdx
      (walletReady sha256d ecc wallet utxo).signatory 100 := by
  apply p2pkhSignatory_steady sha256d hat (p2pkhInput_txInputOf wallet hfit)
  · rw [hversion]
    decide
  · rw [hlocktime]
    decide
  · exact ecc.derivePubkey_length _

theorem length_requiredLengths (length : Nat -> Nat) (required : List RequiredInput) :
    (requiredLengths length required).length = required.length :=
  length_mapIdx

theorem points_all {α : Type} (values : List α) : Points values (range values.length) values := by
  rw [range_eq_range']
  exact Points.fresh [] values

theorem builderOf_inputs (inputs : List ReadyInput) (outputs : List TxOutput) (change : Script) :
    (builderOf inputs outputs change).inputs.map TxBuilderInput.input = range inputs.length := by
  unfold builderOf
  rw [map_map, range_eq_range', ← zipIdx_map_snd 0 inputs]
  rfl

variable (h : Payable sha256d ecc wallet length required spendable outputs)
  (hutxos : utxos.Sublist spendable)

include h hutxos

theorem signedLengths_chosen (change : Script) :
    SignedLengths (builderOf (chosenInputs sha256d ecc wallet required utxos) outputs change)
      ((chosenInputs sha256d ecc wallet required utxos).map ReadyInput.input) 0
      (builderOf (chosenInputs sha256d ecc wallet required utxos) outputs change).inputs
      ((chosenInputs sha256d ecc wallet required utxos).map ReadyInput.input)
      (chosenLengths length required utxos) := by
  apply signedLengths_zipIdx
  · simp [chosenLengths, chosenInputs, length_requiredLengths]
  intro i input inputLength hinput hlength
  rw [zero_add]
  have hat : ((chosenInputs sha256d ecc wallet required utxos).map ReadyInput.input)[i]? =
      some input.input := by
    rw [getElem?_map, hinput]
    rfl
  by_cases hi : i < required.length
  · -- A required input: finalized, or a utxo of the wallet.
    rw [chosenInputs, getElem?_append_left (by rwa [length_map]), getElem?_map] at hinput
    rw [chosenLengths, getElem?_append_left (by rwa [length_requiredLengths]),
      requiredLengths, getElem?_mapIdx] at hlength
    rcases Option.map_eq_some_iff.mp hinput with ⟨source, hsource, heq⟩
    rw [hsource, Option.map_some, Option.some.injEq] at hlength
    subst heq
    subst hlength
    cases source with
    | finalized finalized => exact h.steady i finalized hsource _ utxos rfl rfl
    | wallet utxo => exact steady_wallet rfl rfl hat (h.fitRequired _ (mem_of_getElem? hsource))
  · -- A utxo that was added.
    have hle : required.length ≤ i := not_lt.mp hi
    rw [chosenInputs, getElem?_append_right (by rwa [length_map]), getElem?_map] at hinput
    rw [chosenLengths, getElem?_append_right (by rwa [length_requiredLengths])] at hlength
    rcases Option.map_eq_some_iff.mp hinput with ⟨utxo, hutxo, heq⟩
    have hlength' : inputLength = 100 := eq_of_mem_replicate (mem_of_getElem? hlength)
    subst heq
    subst hlength'
    have hmem := hutxos.subset (mem_of_getElem? hutxo)
    exact steady_wallet rfl rfl hat (h.fitSpendable utxo hmem)

theorem fitInput_chosen :
    forall input, input ∈ (chosenInputs sha256d ecc wallet required utxos).map ReadyInput.input ->
      FitInput input := by
  rw [forall_mem_map, chosenInputs, forall_mem_append, forall_mem_map, forall_mem_map]
  constructor
  · intro source hsource
    have hfit := h.fitRequired source hsource
    cases source with
    | finalized finalized => exact hfit
    | wallet utxo => exact (p2pkhInput_txInputOf wallet hfit).fits
  · intro utxo hutxo
    exact (p2pkhInput_txInputOf wallet (h.fitSpendable utxo (hutxos.subset hutxo))).fits

theorem oneLeftover_chosen (change : Script) :
    OneLeftover (heapOf (chosenInputs sha256d ecc wallet required utxos) outputs)
      (builderOf (chosenInputs sha256d ecc wallet required utxos) outputs change)
      ((chosenInputs sha256d ecc wallet required utxos).map ReadyInput.input)
      (chosenLengths length required utxos) outputs [] change where
  objects := by
    rw [builderOf_inputs]
    have hall := points_all ((chosenInputs sha256d ecc wallet required utxos).map ReadyInput.input)
    rw [length_map] at hall
    exact hall
  known := by
    rw [forall_mem_map, chosenInputs, forall_mem_append, forall_mem_map, forall_mem_map]
    refine ⟨fun source _ => ?_, fun _ _ => rfl⟩
    cases source with
    | finalized finalized => rfl
    | wallet utxo => rfl
  signed := signedLengths_chosen h hutxos change
  outputs := ⟨range outputs.length, [], rfl, points_all outputs, .nil⟩

section Sign

variable {satsPerKb : Int} (hfee : 0 < satsPerKb)

include hfee

theorem signSelected_insufficient (hpays : ¬ Pays length required outputs satsPerKb utxos) :
    exists inputSum canPay fee,
      signSelected sha256d ecc outputs (lockScript (wallet.paths 1899)) satsPerKb
        (chosenInputs sha256d ecc wallet required utxos) =
        .error (.insufficientInputValue inputSum canPay fee) := by
  have hone := oneLeftover_chosen h hutxos (lockScript (wallet.paths 1899))
  have hnegative : changeValue wallet length required outputs satsPerKb utxos < 0 :=
    Int.lt_of_not_ge fun hge => hpays (pays_of_changeValue hfee hge)
  have hdust : (changeValue wallet length required outputs satsPerKb utxos : ℚ) < dustSats := by
    exact_mod_cast Int.lt_trans hnegative (by decide)
  rw [← leftoverFor_chosen sha256d ecc] at hdust
  have hshort : (((chosenInputs sha256d ecc wallet required utxos).map ReadyInput.input).map
      sats).sum < ((outputs ++ []).map TxOutput.value).sum +
      requiredFee (signedSize (chosenLengths length required utxos) (outputs ++ []))
        satsPerKb := by
    rw [sats_chosenInputs, append_nil]
    exact Int.lt_of_not_ge hpays
  rcases TxBuilder.sign_insufficient hone sha256d ecc (Int.le_of_lt hfee) hdust hshort with
    ⟨canPay, fee, newInputs, newOutputs, hruns⟩
  exact ⟨_, canPay, fee, congrArg Prod.fst hruns⟩

/-- Inputs that pay give a transaction, unless the change is too much to be written. -/
theorem signSelected_ok (hpays : Pays length required outputs satsPerKb utxos)
    (hfits : changeValue wallet length required outputs satsPerKb utxos < 2 ^ 64) :
    exists tx, signSelected sha256d ecc outputs (lockScript (wallet.paths 1899)) satsPerKb
        (chosenInputs sha256d ecc wallet required utxos) = .ok tx ∧
      SettledPayment sha256d ecc wallet length required outputs utxos satsPerKb tx := by
  have hone := oneLeftover_chosen h hutxos (lockScript (wallet.paths 1899))
  have hinputs := fitInput_chosen h hutxos
  have houtputs : forall output, output ∈ outputs ++ [] -> FitOutput output := by
    rw [append_nil]
    exact h.fitOutputs
  have hscript : (lockScript (wallet.paths 1899)).bytecode.length < 2 ^ 64 := by
    rw [(lockScript_eq _).right.left]
    decide
  rw [← leftoverFor_chosen sha256d ecc] at hfits
  have hpaid : ((outputs ++ []).map TxOutput.value).sum +
      requiredFee (signedSize (chosenLengths length required utxos) (outputs ++ [])) satsPerKb ≤
      (((chosenInputs sha256d ecc wallet required utxos).map ReadyInput.input).map sats).sum := by
    rw [sats_chosenInputs, append_nil]
    exact hpays
  have hdust : (0 : ℚ) ≤ (dustSats : ℚ) := by norm_num [dustSats]
  rcases TxBuilder.sign_paid hone hinputs houtputs sha256d ecc (Int.le_of_lt hfee) hscript hdust
    hfits hpaid with ⟨tx, _, _, hruns, hsettled⟩
  exact ⟨tx, congrArg Prod.fst hruns, hsettled⟩

theorem signSelected_cannotFit
    (hwide : 2 ^ 64 ≤ changeValue wallet length required outputs satsPerKb utxos) :
    signSelected sha256d ecc outputs (lockScript (wallet.paths 1899)) satsPerKb
        (chosenInputs sha256d ecc wallet required utxos) =
      .error (.cannotFit (changeValue wallet length required outputs satsPerKb utxos) 8) := by
  have hone := oneLeftover_chosen h hutxos (lockScript (wallet.paths 1899))
  rw [← leftoverFor_chosen sha256d ecc] at hwide ⊢
  have hdust : (0 : ℚ) ≤ (dustSats : ℚ) := by norm_num [dustSats]
  have hleft := Int.le_trans (show dustSats ≤ 2 ^ 64 by decide) hwide
  rcases TxBuilder.sign_cannotFit hone (fitInput_chosen h hutxos) sha256d ecc
    (Int.le_of_lt hfee) h.fitOutputs hdust (by exact_mod_cast hleft) hwide with ⟨_, hruns⟩
  exact congrArg Prod.fst hruns

end Sign

omit hutxos in
theorem chosenLengths_lt : forall scriptLength,
    scriptLength ∈ chosenLengths length required utxos -> scriptLength < 2 ^ 64 := by
  intro scriptLength hmem
  rcases mem_append.mp hmem with hmem | hmem
  · rcases mem_mapIdx.mp hmem with ⟨inputIdx, _, heq⟩
    subst heq
    cases required[inputIdx] with
    | finalized input => exact h.fitLength inputIdx
    | wallet utxo => exact (by decide : 100 < 2 ^ 64)
  · rw [eq_of_mem_replicate hmem]
    decide

omit hutxos in
theorem fitOutput_settled {satsPerKb : Int} {tx : Tx}
    (hfits : changeValue wallet length required outputs satsPerKb utxos < 2 ^ 64)
    (hsettled : SettledPayment sha256d ecc wallet length required outputs utxos satsPerKb tx) :
    (forall output, output ∈ tx.outputs -> FitOutput output) ∧ tx.outputs.length < 2 ^ 64 := by
  have hcount := h.outputCount
  rcases hsettled.outputs with ⟨hdust, houtputs, _⟩ | ⟨_, houtputs, _⟩
  · rw [leftoverFor_chosen] at hdust houtputs
    have hpositive : dustSats ≤ changeValue wallet length required outputs satsPerKb utxos := by
      exact_mod_cast hdust
    rw [houtputs]
    constructor
    · refine forall_mem_append.mpr
        ⟨h.fitOutputs, forall_mem_singleton.mpr ⟨⟨?_, hfits⟩, ?_⟩⟩
      · unfold dustSats at hpositive
        show 0 ≤ changeValue wallet length required outputs satsPerKb utxos
        omega
      · rw [(lockScript_eq _).right.left]
        decide
    · rw [length_append, length_singleton]
      exact hcount
  · rw [houtputs, append_nil]
    exact ⟨h.fitOutputs, by omega⟩

theorem ser_settled {satsPerKb : Int} {tx : Tx}
    (hfits : changeValue wallet length required outputs satsPerKb utxos < 2 ^ 64)
    (hsettled : SettledPayment sha256d ecc wallet length required outputs utxos satsPerKb tx) :
    exists bytes, tx.ser = .ok bytes := by
  have houtputs := fitOutput_settled h hfits hsettled
  have hlength : tx.inputs.length = required.length + utxos.length := by
    rw [← length_map withoutScript, hsettled.sameInputs]
    simp [chosenInputs]
  have hcount : tx.inputs.length < 2 ^ 64 := by
    have hle := hutxos.length_le
    have htotal := h.inputCount
    omega
  have hinputs : forall input, input ∈ tx.inputs ->
      FitInput input ∧ input.scriptLength < 2 ^ 64 := by
    intro input hinput
    constructor
    · exact TxBuilder.fitInput_of_same hsettled.sameInputs (fitInput_chosen h hutxos) input hinput
    · apply chosenLengths_lt h
      rw [← hsettled.scriptLengths]
      exact mem_map_of_mem hinput
  have hversion : FitsIn 4 DEFAULT_TX_VERSION := by decide
  have hlocktime : FitsIn 4 0 := by decide
  exact TxBuilder.ser_fits (hsettled.version ▸ hversion) (hsettled.locktime ▸ hlocktime) hinputs
    houtputs.left hcount houtputs.right

end Payment

end ECash.Cashtab
