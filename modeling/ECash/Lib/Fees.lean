import Mathlib
import ECash.Lib.BuilderPasses

/-!
# Fees and leftover outputs

What signing a builder with one leftover output comes to: the fee that the returned
transaction pays, whether the leftover output stays, and that the objects of the caller are as
they were.
-/

namespace ECash.Lib

open Foundation List

namespace TxBuilder

/-!
## The fee that is paid
-/

/-- The fee for a size: so many sats for a thousand bytes, rounded up. -/
def requiredFee (size : Nat) (feePerKb : Int) : Int :=
  ⌈((size : ℚ) * (feePerKb : ℚ)) / 1000⌉

variable {feePerKb : Int}

theorem calcTxFee_eq (size : Nat) (h : 0 ≤ feePerKb) :
    calcTxFee size feePerKb = requiredFee size feePerKb := by
  have hnonneg : 0 ≤ (size : Int) * feePerKb := Int.mul_nonneg (Int.natCast_nonneg size) h
  unfold calcTxFee requiredFee
  generalize hn : (size : Int) * feePerKb = n at hnonneg
  have hcast : (size : ℚ) * (feePerKb : ℚ) = (n : ℚ) := by
    rw [← hn]
    push_cast
    rfl
  have hlow : 1000 * ((n + 999) / 1000) < n + 1000 := by omega
  have hhigh : n ≤ 1000 * ((n + 999) / 1000) := by omega
  have hlow' : (1000 : ℚ) * (((n + 999) / 1000 : Int) : ℚ) < n + 1000 := by exact_mod_cast hlow
  have hhigh' : (n : ℚ) ≤ 1000 * (((n + 999) / 1000 : Int) : ℚ) := by exact_mod_cast hhigh
  rw [Int.tdiv_eq_ediv_of_nonneg (by omega), eq_comm, Int.ceil_eq_iff]
  constructor
  · linarith
  · linarith

def signedSize (lengths : List Nat) (outputs : List TxOutput) : Nat :=
  txSize lengths (outputs.map TxOutput.scriptLength)

theorem feeFor_eq (lengths : List Nat) (outputs : List TxOutput) (h : 0 ≤ feePerKb) :
    feeFor lengths outputs feePerKb = requiredFee (signedSize lengths outputs) feePerKb :=
  calcTxFee_eq _ h

theorem requiredFee_nonneg (size : Nat) (h : 0 ≤ feePerKb) : 0 ≤ requiredFee size feePerKb := by
  apply Int.ceil_nonneg
  positivity

theorem requiredFee_pos {size : Nat} (hsize : 0 < size) (h : 0 < feePerKb) :
    0 < requiredFee size feePerKb := by
  apply Int.ceil_pos.mpr
  positivity

/-- A builder with known inputs and one leftover output between fixed ones. -/
structure OneLeftover (heap : Heap) (builder : TxBuilder) (inputs : List TxInput)
    (lengths : List Nat) (before after : List TxOutput) (script : Script) : Prop where
  objects : Points heap.inputs (builder.inputs.map TxBuilderInput.input) inputs
  known : forall input, input ∈ inputs -> input.signData.isSome
  signed : SignedLengths builder inputs 0 builder.inputs inputs lengths
  outputs : exists beforeRefs afterRefs,
    builder.outputs = beforeRefs.map .fixed ++ .leftover script :: afterRefs.map .fixed ∧
    Points heap.outputs beforeRefs before ∧ Points heap.outputs afterRefs after

/-- The numbers of the transaction fit the fields they are written to. -/
structure Fitting (inputs : List TxInput) (before after : List TxOutput) (script : Script) :
    Prop where
  fitInputs : forall input, input ∈ inputs -> FitInput input
  fitOutputs : forall output, output ∈ before ++ after -> FitOutput output
  fitScript : script.bytecode.length < 2 ^ 64

theorem signedSize_pos (lengths : List Nat) (outputs : List TxOutput) :
    0 < signedSize lengths outputs := by
  unfold signedSize txSize
  omega

theorem leftoverParams_eq (inputSum feePerKb : Int) (dustLimit : ℚ) :
    leftoverParams (some inputSum) (some (feePerKb : ℚ)) (some dustLimit) =
      .ok (inputSum, feePerKb, dustLimit) := by
  simp [leftoverParams, Rat.isInt]

def leftoverFor (inputs : List TxInput) (lengths : List Nat) (before after : List TxOutput)
    (script : Script) (feePerKb : Int) : Int :=
  (inputs.map sats).sum - (((before ++ after).map TxOutput.value).sum +
    requiredFee (signedSize lengths (before ++ ⟨0, script⟩ :: after)) feePerKb)

/-- The fixed outputs are there in their order, with the leftover output at its place if it is
not dust, and the inputs pay the fee: exactly if there is a leftover output. -/
structure Settled (builder : TxBuilder) (inputs : List TxInput) (lengths : List Nat)
    (before after : List TxOutput) (script : Script) (feePerKb : Int) (dustLimit : ℚ)
    (tx : Tx) : Prop where
  version : tx.version = builder.version
  locktime : tx.locktime = builder.locktime
  sameInputs : tx.inputs.map withoutScript = inputs.map withoutScript
  scriptLengths : tx.inputs.map TxInput.scriptLength = lengths
  outputs : (dustLimit ≤ leftoverFor inputs lengths before after script feePerKb ∧
      tx.outputs = before ++
        ⟨leftoverFor inputs lengths before after script feePerKb, script⟩ :: after ∧
      (inputs.map sats).sum - (tx.outputs.map TxOutput.value).sum =
        requiredFee tx.serSize feePerKb) ∨
    (leftoverFor inputs lengths before after script feePerKb < dustLimit ∧
      tx.outputs = before ++ after ∧
      requiredFee tx.serSize feePerKb ≤ (inputs.map sats).sum - (tx.outputs.map TxOutput.value).sum)

variable {heap : Heap} {builder : TxBuilder} {inputs : List TxInput} {lengths : List Nat}
  {before after : List TxOutput} {script : Script}

/-- The first pass: after it the leftover output is chosen with all inputs signed for size. -/
theorem OneLeftover.runs_settle (h : OneLeftover heap builder inputs lengths before after script)
    (feePerKb : Int) (dustLimit : ℚ) :
    exists values, values.map withoutScript = inputs.map withoutScript ∧
      values.map TxInput.scriptLength = lengths ∧
      SignedLengths builder inputs 0 builder.inputs values lengths ∧
      forall r t,
        Runs (builder.chooseLeftover (preparedFor heap before after script) before.length
            (range' heap.inputs.length values.length) (inputs.map sats).sum feePerKb
            dustLimit)
          ⟨heap.inputs ++ values, heap.outputs ++ (before ++ ⟨0, script⟩ :: after)⟩ r t ->
        Runs (builder.settleLeftover (some (feePerKb : ℚ)) (some dustLimit)
            (preparedFor heap before after script) before.length
            (range' heap.inputs.length values.length))
          ⟨heap.inputs ++ inputs, heap.outputs ++ (before ++ ⟨0, script⟩ :: after)⟩ r t := by
  have hcopies : Points (heap.outputs ++ (before ++ ⟨0, script⟩ :: after))
      (preparedFor heap before after script).outputs (before ++ ⟨0, script⟩ :: after) :=
    Points.fresh _ _
  have hread := @runs_readTx
    ⟨heap.inputs ++ inputs, heap.outputs ++ (before ++ ⟨0, script⟩ :: after)⟩
    (builder.txObject (range' heap.inputs.length inputs.length)
      (preparedFor heap before after script).outputs) inputs
    (before ++ ⟨0, script⟩ :: after) (Points.fresh _ _) hcopies
  rcases @runs_signAll builder inputs lengths heap inputs
    (heap.outputs ++ (before ++ ⟨0, script⟩ :: after)) h.signed rfl EccDummy
    ((UnsignedTx.dummyFromTx _).toObject (builder.txObject (range' heap.inputs.length inputs.length)
      (preparedFor heap before after script).outputs))
    _ _ rfl hcopies with ⟨values, hruns, hkept, hlengths, hsigned⟩
  refine ⟨values, hkept, hlengths, hsigned, ?_⟩
  intro r t hchoice
  rw [length_of_same hkept] at hchoice ⊢
  have hsum := @runs_inputSumLoop
    ⟨heap.inputs ++ inputs, heap.outputs ++ (before ++ ⟨0, script⟩ :: after)⟩ builder.inputs inputs
    (Points.mono h.objects inputs) h.known 0
  rw [Int.zero_add] at hsum
  apply Runs.bind hsum
  apply Runs.bind (Runs.ofExcept (leftoverParams_eq _ _ _) _)
  apply Runs.bind hread
  apply Runs.bind hruns
  exact hchoice

theorem OneLeftover.runs_sign (h : OneLeftover heap builder inputs lengths before after script)
    (sha256d : Bytes -> Bytes) (ecc : Ecc) {feePerKb dustLimit : Option ℚ}
    {r : Except LibError Tx} {t : Heap} (hrest : Runs
      (builder.settleLeftover feePerKb dustLimit (preparedFor heap before after script)
          before.length (range' heap.inputs.length inputs.length) >>=
        builder.signOutputs sha256d ecc (range' heap.inputs.length inputs.length))
      ⟨heap.inputs ++ inputs, heap.outputs ++ (before ++ ⟨0, script⟩ :: after)⟩ r t) :
    Runs (builder.sign sha256d ecc feePerKb dustLimit) heap r t := by
  rcases h.outputs with ⟨_, _, hbuilder, hbefore, hafter⟩
  apply Runs.bind (runs_prepareOutputs hbuilder hbefore hafter)
  apply Runs.bind (@runs_copyInputs
    ⟨heap.inputs, heap.outputs ++ (before ++ ⟨0, script⟩ :: after)⟩ builder.inputs inputs h.objects)
  exact hrest

theorem leftoverValue_eq (inputs : List TxInput) (lengths : List Nat)
    (before after : List TxOutput) (script : Script) (hfee : 0 ≤ feePerKb) :
    leftoverValue lengths before after script (inputs.map sats).sum feePerKb =
      leftoverFor inputs lengths before after script feePerKb := by
  unfold leftoverValue leftoverFor
  rw [feeFor_eq lengths _ hfee]

theorem requiredFee_without_le (lengths : List Nat) (before after : List TxOutput)
    (output : TxOutput) (hfee : 0 ≤ feePerKb) :
    requiredFee (signedSize lengths (before ++ after)) feePerKb ≤
      requiredFee (signedSize lengths (before ++ output :: after)) feePerKb := by
  unfold requiredFee signedSize
  gcongr
  rw [map_append, map_append]
  exact txSize_insert lengths _ _ _

theorem signedSize_eq {values : List TxInput} (hlengths : values.map TxInput.scriptLength = lengths)
    (version locktime : Int) (outputs : List TxOutput) :
    (Tx.mk version values outputs locktime).serSize = signedSize lengths outputs := by
  rw [Tx.serSize_eq, hlengths]
  rfl

/-- The leftover output stays: the second pass has it with its value. -/
theorem OneLeftover.runs_kept (h : OneLeftover heap builder inputs lengths before after script)
    (sha256d : Bytes -> Bytes) (ecc : Ecc) (hfee : 0 ≤ feePerKb) {dustLimit : ℚ}
    (hdust : 0 ≤ dustLimit)
    (hleft : dustLimit ≤ leftoverFor inputs lengths before after script feePerKb) :
    exists values, values.map withoutScript = inputs.map withoutScript ∧
      SignedLengths builder inputs 0 builder.inputs values lengths ∧
      forall r t,
        Runs (builder.signOutputs sha256d ecc (range' heap.inputs.length values.length)
            (preparedFor heap before after script).outputs)
          ⟨heap.inputs ++ values, heap.outputs ++ (before ++
            ⟨leftoverFor inputs lengths before after script feePerKb, script⟩ :: after)⟩ r t ->
        Runs (builder.sign sha256d ecc (some (feePerKb : ℚ)) (some dustLimit)) heap r t := by
  rcases h.runs_settle feePerKb dustLimit with ⟨values, hkept, hlengths, hsigned, hsettle⟩
  have hvalue := leftoverValue_eq inputs lengths before after script hfee
  have hleft' : ¬ (leftoverValue lengths before after script (inputs.map sats).sum
      feePerKb : ℚ) < dustLimit := by
    rw [hvalue]
    exact not_lt.mpr hleft
  have hchoice := hsettle _ _ (runs_chooseLeftover_kept hlengths hdust hleft')
  rw [hvalue] at hchoice
  refine ⟨values, hkept, hsigned, ?_⟩
  intro r t hruns
  rw [length_of_same hkept] at hchoice hruns
  exact h.runs_sign sha256d ecc (Runs.bind hchoice hruns)

theorem points_withLeftover (heap : Heap) (before after : List TxOutput) (script : Script)
    (value : Int) (objects : List TxInput) :
    Points (Heap.mk objects (heap.outputs ++ (before ++ ⟨value, script⟩ :: after))).outputs
      (preparedFor heap before after script).outputs (before ++ ⟨value, script⟩ :: after) := by
  have hpoints := Points.fresh heap.outputs (before ++ ⟨value, script⟩ :: after)
  have hrefs : (before ++ (⟨value, script⟩ : TxOutput) :: after).length =
      (before ++ (⟨0, script⟩ : TxOutput) :: after).length := by
    simp
  rw [hrefs] at hpoints
  exact hpoints

/-- A transaction with the fee settled is returned, and objects are only added. -/
def Signs (sha256d : Bytes -> Bytes) (ecc : Ecc) (heap : Heap) (builder : TxBuilder)
    (inputs : List TxInput) (lengths : List Nat) (before after : List TxOutput) (script : Script)
    (feePerKb : Int) (dustLimit : ℚ) : Prop :=
  exists tx newInputs newOutputs,
    Runs (builder.sign sha256d ecc (some (feePerKb : ℚ)) (some dustLimit)) heap
      (.ok tx) ⟨heap.inputs ++ newInputs, heap.outputs ++ newOutputs⟩ ∧
    Settled builder inputs lengths before after script feePerKb dustLimit tx

section Cases

variable (h : OneLeftover heap builder inputs lengths before after script)
  (hinputs : forall input, input ∈ inputs -> FitInput input)
  (houtputs : forall output, output ∈ before ++ after -> FitOutput output)
  (sha256d : Bytes -> Bytes) (ecc : Ecc) (hfee : 0 ≤ feePerKb) {dustLimit : ℚ}

include h hfee

theorem sign_insufficient
    (hleft : (leftoverFor inputs lengths before after script feePerKb : ℚ) < dustLimit)
    (hshort : (inputs.map sats).sum < ((before ++ after).map TxOutput.value).sum +
      requiredFee (signedSize lengths (before ++ after)) feePerKb) :
    exists canPay required newInputs newOutputs,
      Runs (builder.sign sha256d ecc (some (feePerKb : ℚ)) (some dustLimit)) heap
        (.error (.insufficientInputValue (inputs.map sats).sum canPay required))
        ⟨heap.inputs ++ newInputs, heap.outputs ++ newOutputs⟩ := by
  rcases h.runs_settle feePerKb dustLimit with ⟨values, hkept, hlengths, _, hsettle⟩
  rw [← leftoverValue_eq inputs lengths before after script hfee] at hleft
  rw [← feeFor_eq _ _ hfee] at hshort
  have hchoice := hsettle _ _ (runs_chooseLeftover_dust hlengths hleft)
  rw [if_pos hshort, length_of_same hkept] at hchoice
  exact ⟨_, _, _, _, h.runs_sign sha256d ecc (Runs.bind_error hchoice)⟩

include hinputs

theorem sign_cannotFit (hbefore : forall output, output ∈ before -> FitOutput output)
    (hdust : 0 ≤ dustLimit)
    (hleft : dustLimit ≤ leftoverFor inputs lengths before after script feePerKb)
    (hwide : 2 ^ 64 ≤ leftoverFor inputs lengths before after script feePerKb) :
    exists t, Runs (builder.sign sha256d ecc (some (feePerKb : ℚ)) (some dustLimit)) heap
      (.error (.cannotFit (leftoverFor inputs lengths before after script feePerKb) 8)) t := by
  rcases h.runs_kept sha256d ecc hfee hdust hleft with ⟨values, hkept, _, hsign⟩
  generalize hvalue : leftoverFor inputs lengths before after script feePerKb = value at *
  have hread := @runs_readTx
    ⟨heap.inputs ++ values, heap.outputs ++ (before ++ ⟨value, script⟩ :: after)⟩
    (builder.txObject (range' heap.inputs.length values.length)
      (preparedFor heap before after script).outputs) values
    (before ++ ⟨value, script⟩ :: after) (Points.fresh _ _)
    (points_withLeftover heap before after script value _)
  have hfit : ¬ FitsIn 8 value := by
    unfold FitsIn
    omega
  have hfrom := @fromTx_cannotFit
    ⟨builder.version, values, before ++ ⟨value, script⟩ :: after, builder.locktime⟩ sha256d
    (fitInput_of_same hkept hinputs) before after ⟨value, script⟩ rfl hbefore hfit
  exact ⟨_, hsign _ _ (Runs.bind hread (Runs.bind_error (Runs.ofExcept hfrom _)))⟩

include houtputs

theorem sign_removed
    (hleft : (leftoverFor inputs lengths before after script feePerKb : ℚ) < dustLimit)
    (hpays : ((before ++ after).map TxOutput.value).sum +
      requiredFee (signedSize lengths (before ++ after)) feePerKb ≤ (inputs.map sats).sum) :
    Signs sha256d ecc heap builder inputs lengths before after script feePerKb dustLimit := by
  rcases h.runs_settle feePerKb dustLimit with ⟨values, hkept, hlengths, hsigned, hsettle⟩
  have hleft' := hleft
  rw [← leftoverValue_eq inputs lengths before after script hfee] at hleft'
  have hpays' := not_lt.mpr hpays
  rw [← feeFor_eq _ _ hfee] at hpays'
  have hchoice := hsettle _ _ (runs_chooseLeftover_dust hlengths hleft')
  rcases runs_signOutputs sha256d hsigned hkept ecc hinputs
    (points_withoutLeftover heap before after script []) houtputs with
    ⟨signed, hruns, hsame, hlengths'⟩
  rw [length_of_same hkept] at hchoice hruns
  rw [if_neg hpays'] at hchoice
  refine ⟨_, _, _, h.runs_sign sha256d ecc (Runs.bind hchoice hruns), rfl, rfl, hsame,
    hlengths', .inr ⟨hleft, rfl, ?_⟩⟩
  rw [signedSize_eq hlengths']
  show _ ≤ (inputs.map sats).sum - ((before ++ after).map TxOutput.value).sum
  omega

theorem sign_kept (hscript : script.bytecode.length < 2 ^ 64) (hdust : 0 ≤ dustLimit)
    (hleft : dustLimit ≤ leftoverFor inputs lengths before after script feePerKb)
    (hvalue : leftoverFor inputs lengths before after script feePerKb < 2 ^ 64) :
    Signs sha256d ecc heap builder inputs lengths before after script feePerKb dustLimit := by
  rcases h.runs_kept sha256d ecc hfee hdust hleft with ⟨_, hkept, hsigned, hsign⟩
  have hnonneg : 0 ≤ leftoverFor inputs lengths before after script feePerKb :=
    Int.cast_nonneg_iff.mp (hdust.trans hleft)
  have hall : forall output, output ∈ before ++
      ⟨leftoverFor inputs lengths before after script feePerKb, script⟩ :: after ->
      FitOutput output := by
    rcases forall_mem_append.mp houtputs with ⟨hbefore, hafter⟩
    exact forall_mem_append.mpr
      ⟨hbefore, forall_mem_cons.mpr ⟨⟨⟨hnonneg, hvalue⟩, hscript⟩, hafter⟩⟩
  rcases runs_signOutputs sha256d hsigned hkept ecc hinputs
    (points_withLeftover heap before after script _ []) hall with
    ⟨signed, hruns, hsame, hlengths'⟩
  refine ⟨_, _, _, hsign _ _ hruns, rfl, rfl, hsame, hlengths', .inl ⟨hleft, rfl, ?_⟩⟩
  have hsize : forall value, signedSize lengths (before ++ ⟨value, script⟩ :: after) =
      signedSize lengths (before ++ ⟨0, script⟩ :: after) := by
    intro value
    simp [signedSize, TxOutput.scriptLength]
  rw [signedSize_eq hlengths', hsize]
  unfold leftoverFor
  simp only [map_append, map_cons, sum_append, sum_cons]
  omega

theorem sign_paid (hscript : script.bytecode.length < 2 ^ 64) (hdust : 0 ≤ dustLimit)
    (hvalue : leftoverFor inputs lengths before after script feePerKb < 2 ^ 64)
    (hpays : ((before ++ after).map TxOutput.value).sum +
      requiredFee (signedSize lengths (before ++ after)) feePerKb ≤ (inputs.map sats).sum) :
    Signs sha256d ecc heap builder inputs lengths before after script feePerKb dustLimit := by
  rcases lt_or_ge (leftoverFor inputs lengths before after script feePerKb : ℚ) dustLimit with
    hleft | hleft
  · exact sign_removed h hinputs houtputs sha256d ecc hfee hleft hpays
  · exact sign_kept h hinputs houtputs sha256d ecc hfee hscript hdust hleft hvalue

end Cases

/-- Signing a builder with one leftover output fails for want of input value exactly if the
inputs do not pay for the transaction without it, and otherwise returns the transaction with the
fee settled.  The objects there were before are as they were. -/
theorem sign_oneLeftover (h : OneLeftover heap builder inputs lengths before after script)
    (hfit : Fitting inputs before after script) (sha256d : Bytes -> Bytes) (ecc : Ecc)
    {feePerKb : Int} (hfee : 0 ≤ feePerKb) {dustLimit : ℚ} (hdust : 0 ≤ dustLimit)
    (hvalue : leftoverFor inputs lengths before after script feePerKb < 2 ^ 64) :
    exists result heap',
      Runs (builder.sign sha256d ecc (some (feePerKb : ℚ)) (some dustLimit)) heap result heap' ∧
      heap.inputs <+: heap'.inputs ∧ heap.outputs <+: heap'.outputs ∧
      ((exists inputSum canPay required,
          result = .error (.insufficientInputValue inputSum canPay required)) <->
        (inputs.map sats).sum < ((before ++ after).map TxOutput.value).sum +
          requiredFee (signedSize lengths (before ++ after)) feePerKb) ∧
      (((before ++ after).map TxOutput.value).sum +
          requiredFee (signedSize lengths (before ++ after)) feePerKb ≤ (inputs.map sats).sum ->
        exists tx, result = .ok tx ∧
          Settled builder inputs lengths before after script feePerKb dustLimit tx) := by
  have hle := requiredFee_without_le lengths before after ⟨0, script⟩ hfee
  by_cases hshort : (inputs.map sats).sum < ((before ++ after).map TxOutput.value).sum +
      requiredFee (signedSize lengths (before ++ after)) feePerKb
  · have hnegative : leftoverFor inputs lengths before after script feePerKb < 0 := by
      unfold leftoverFor
      omega
    rcases sign_insufficient h sha256d ecc hfee
      (lt_of_lt_of_le (Int.cast_lt_zero.mpr hnegative) hdust) hshort with
      ⟨canPay, required, newInputs, newOutputs, hruns⟩
    refine ⟨_, _, hruns, prefix_append _ _, prefix_append _ _, ?_, ?_⟩
    · exact iff_of_true ⟨_, _, _, rfl⟩ hshort
    · intro hpays
      exact absurd hshort (not_lt.mpr hpays)
  · rcases sign_paid h hfit.fitInputs hfit.fitOutputs sha256d ecc hfee hfit.fitScript hdust
      hvalue (not_lt.mp hshort) with ⟨tx, newInputs, newOutputs, hruns, hsettled⟩
    refine ⟨_, _, hruns, prefix_append _ _, prefix_append _ _, ?_, ?_⟩
    · refine iff_of_false ?_ hshort
      rintro ⟨_, _, _, herror⟩
      cases herror
    · intro _
      exact ⟨tx, rfl, hsettled⟩

theorem length_zeros : (replicate 32 (0 : UInt8)).length = 32 := length_replicate

def exampleInput (value : Int) : TxInput where
  prevOut := { txid := .bytes (replicate 32 0) length_zeros, outIdx := 0 }
  script := none
  sequence := none
  signData := some { value, outputScript := none, redeemScript := none }

def exampleBuilder (signatory : Option Signatory) : TxBuilder where
  version := 2
  inputs := [⟨0, signatory⟩]
  outputs := [.leftover ⟨[]⟩]
  locktime := 0

def exampleHeap (value : Int) : Heap where
  inputs := [exampleInput value]
  outputs := []

def fixedBuilder : TxBuilder :=
  { exampleBuilder (some fun _ _ => .ok ⟨[0]⟩) with outputs := [.fixed 0, .leftover ⟨[]⟩] }

def fixedHeap : Heap := { exampleHeap 2000 with outputs := [⟨600, ⟨[1]⟩⟩] }

theorem example_oneLeftover :
    OneLeftover fixedHeap fixedBuilder [exampleInput 2000] [1] [⟨600, ⟨[1]⟩⟩] [] ⟨[]⟩ where
  objects := .cons rfl .nil
  known := forall_mem_singleton.mpr rfl
  signed := .signed (fun _ _ _ _ => ⟨_, rfl, rfl⟩) (.nil 1)
  outputs := ⟨[0], [], rfl, .cons rfl .nil, .nil⟩

theorem example_fitting : Fitting [exampleInput 2000] [⟨600, ⟨[1]⟩⟩] [] ⟨[]⟩ where
  fitInputs := forall_mem_singleton.mpr (by unfold FitInput; decide)
  fitOutputs := forall_mem_singleton.mpr (by unfold FitOutput; decide)
  fitScript := by decide

theorem sign_oneLeftover_example :
    exists tx heap', Runs (fixedBuilder.sign (fun data => data) EccDummy (some ((1000 : Int) : ℚ))
        (some 546)) fixedHeap (.ok tx) heap' ∧
      Settled fixedBuilder [exampleInput 2000] [1] [⟨600, ⟨[1]⟩⟩] [] ⟨[]⟩ 1000 546 tx := by
  have hvalue : leftoverFor [exampleInput 2000] [1] [⟨600, ⟨[1]⟩⟩] [] ⟨[]⟩ 1000 < 2 ^ 64 := by
    rw [leftoverFor, ← calcTxFee_eq _ (by decide)]
    decide
  rcases @sign_oneLeftover _ _ _ _ _ _ _ example_oneLeftover example_fitting (fun data => data)
    EccDummy 1000 (by decide) 546 (by norm_num) hvalue with ⟨_, heap', hruns, _, _, _, hsettled⟩
  rcases hsettled (by rw [← calcTxFee_eq _ (by decide)]; decide) with ⟨tx, rfl, hfinal⟩
  exact ⟨tx, heap', hruns, hfinal⟩

/-- A signatory that makes a longer script for an input that already has one. -/
def growingSignatory : Signatory := fun _ input =>
  match input.unsignedTx.tx.inputs.map TxInput.script with
  | [none] => .ok ⟨[0]⟩
  | _ => .ok ⟨[0, 0]⟩

/-- Inputs of more than 64 bits pay for the transaction, but the leftover value cannot be
written.  And scripts that depend on those made to measure the size make the fee too small. -/
theorem sign_wideSum_growingScript :
    (requiredFee (signedSize [0] []) 0 ≤ sats (exampleInput (2 ^ 64)) ∧
      exists heap', Runs ((exampleBuilder none).sign (fun data => data) EccDummy
        (some ((0 : Int) : ℚ)) (some 0)) (exampleHeap (2 ^ 64))
        (.error (.cannotFit (2 ^ 64) 8)) heap') ∧
    ((forall (ecc ecc' : Ecc) (input input' : UnsignedTxInput),
        input.unsignedTx.tx.inputs = input'.unsignedTx.tx.inputs ->
        growingSignatory ecc input = growingSignatory ecc' input') ∧
      exists tx heap', Runs ((exampleBuilder (some growingSignatory)).sign (fun data => data)
          EccDummy (some ((1000 : Int) : ℚ)) (some 546)) (exampleHeap 2000) (.ok tx) heap' ∧
        2000 - (tx.outputs.map TxOutput.value).sum < requiredFee tx.serSize 1000) := by
  constructor
  · constructor
    · rw [← calcTxFee_eq _ (by decide)]
      decide
    · exact ⟨_, rfl⟩
  · constructor
    · intro ecc ecc' input input' hinputs
      unfold growingSignatory
      rw [hinputs]
    · refine ⟨⟨2, [{ exampleInput 2000 with script := some ⟨[0, 0]⟩ }], [⟨1939, ⟨[]⟩⟩], 0⟩, _, rfl,
        ?_⟩
      rw [← calcTxFee_eq _ (by decide)]
      decide

end TxBuilder

end ECash.Lib
