import ECash.Lib.TxBuilder

/-!
# The passes of the builder

What each part of signing does to the objects: the copies of inputs and outputs, a pass that
signs the inputs, and the choice of the leftover output.
-/

namespace ECash.Lib

open Foundation List

/-!
## References
-/

variable {α : Type}

def Points (objects : List α) (refs : List Nat) (values : List α) : Prop :=
  Forall₂ (fun ref value => objects[ref]? = some value) refs values

namespace Points

variable {objects : List α} {refs refs' : List Nat} {values values' : List α}

theorem mono (h : Points objects refs values) (others : List α) :
    Points (objects ++ others) refs values := by
  refine List.Forall₂.imp ?_ h
  intro ref value hvalue
  have hlt : ref < objects.length := (List.getElem?_eq_some_iff.mp hvalue).choose
  rw [List.getElem?_append_left hlt]
  exact hvalue

theorem eraseIdx (h : Points objects refs values) (i : Nat) :
    Points objects (refs.eraseIdx i) (values.eraseIdx i) := by
  induction h generalizing i with
  | nil => exact .nil
  | cons hvalue hrest ih =>
    cases i with
    | zero => exact hrest
    | succ i => exact .cons hvalue (ih i)

theorem fresh (before values : List α) :
    Points (before ++ values) (range' before.length values.length) values := by
  induction values generalizing before with
  | nil => exact .nil
  | cons value values ih =>
    refine .cons ?_ ?_
    · simp
    · have hrest := ih (before ++ [value])
      simp only [length_append, length_singleton, append_assoc, singleton_append] at hrest
      exact hrest

end Points

/-!
## Reading and writing objects
-/

variable {heap : Heap} {ref : Nat} {input : TxInput}

theorem runs_readInput (h : heap.inputs[ref]? = some input) :
    Runs (readInput ref) heap (.ok input) heap := by
  apply Runs.read_bind
  rw [h]
  exact Runs.pure input heap

theorem runs_readOutput {output : TxOutput} (h : heap.outputs[ref]? = some output) :
    Runs (readOutput ref) heap (.ok output) heap := by
  apply Runs.read_bind
  rw [h]
  exact Runs.pure output heap

theorem runs_newInput (input : TxInput) (heap : Heap) :
    Runs (newInput input) heap (.ok heap.inputs.length)
      { heap with inputs := heap.inputs ++ [input] } := by
  apply Runs.read_bind
  apply Runs.bind (Runs.write _ _)
  exact Runs.pure _ _

theorem runs_newOutput (output : TxOutput) (heap : Heap) :
    Runs (newOutput output) heap (.ok heap.outputs.length)
      { heap with outputs := heap.outputs ++ [output] } := by
  apply Runs.read_bind
  apply Runs.bind (Runs.write _ _)
  exact Runs.pure _ _

theorem runs_setScript (h : heap.inputs[ref]? = some input) (script : Script) :
    Runs (setScript ref script) heap (.ok ())
      { heap with inputs := heap.inputs.set ref { input with script := some script } } := by
  apply Runs.bind (runs_readInput h)
  apply Runs.read_bind
  exact Runs.write _ _

theorem runs_setValue {output : TxOutput} (h : heap.outputs[ref]? = some output) (value : Int) :
    Runs (setValue ref value) heap (.ok ())
      { heap with outputs := heap.outputs.set ref { output with value } } := by
  apply Runs.bind (runs_readOutput h)
  apply Runs.read_bind
  exact Runs.write _ _

variable {refs : List Nat} {outputs : List TxOutput}

theorem runs_readInputs {inputs : List TxInput} (h : Points heap.inputs refs inputs) :
    Runs (readInputs refs) heap (.ok inputs) heap := by
  induction h with
  | nil => exact Runs.pure [] heap
  | cons hinput _ ih =>
    apply Runs.bind (runs_readInput hinput)
    apply Runs.bind ih
    exact Runs.pure _ _

theorem runs_readOutputs (h : Points heap.outputs refs outputs) :
    Runs (readOutputs refs) heap (.ok outputs) heap := by
  induction h with
  | nil => exact Runs.pure [] heap
  | cons houtput _ ih =>
    apply Runs.bind (runs_readOutput houtput)
    apply Runs.bind ih
    exact Runs.pure _ _

theorem runs_readTx {tx : TxObject} {inputs : List TxInput} {outputs : List TxOutput}
    (hinputs : Points heap.inputs tx.inputs inputs)
    (houtputs : Points heap.outputs tx.outputs outputs) :
    Runs tx.read heap
      (.ok
        { version := tx.version, inputs, outputs,
          locktime := tx.locktime })
      heap := by
  apply Runs.bind (runs_readInputs hinputs)
  apply Runs.bind (runs_readOutputs houtputs)
  exact Runs.pure _ _

namespace TxBuilder

/-!
## Copies
-/

theorem runs_copyInputs {inputs : List TxBuilderInput} {values : List TxInput}
    (h : Points heap.inputs (inputs.map TxBuilderInput.input) values) :
    Runs (copyInputs inputs) heap
      (.ok (range' heap.inputs.length values.length))
      { heap with inputs := heap.inputs ++ values } := by
  induction inputs generalizing values heap with
  | nil =>
    cases h
    rw [append_nil]
    exact Runs.pure [] heap
  | cons builderInput inputs ih =>
    cases h with
    | cons hvalue hrest =>
      rename_i value values
      have hcopy : Runs (copyTxInput builderInput.input) heap (.ok heap.inputs.length)
          { heap with inputs := heap.inputs ++ [value] } :=
        Runs.bind (runs_readInput hvalue) (runs_newInput value heap)
      have htail := @ih { heap with inputs := heap.inputs ++ [value] } values
        (Points.mono hrest [value])
      apply Runs.bind hcopy
      apply Runs.bind htail
      simp only [length_append, append_assoc, singleton_append, length_cons, range'_succ]
      exact Runs.pure _ _

theorem runs_prepareOutput_fixed {ref : Nat} {value : TxOutput}
    (h : heap.outputs[ref]? = some value) (prepared : Prepared) :
    Runs (prepareOutput prepared (.fixed ref)) heap
      (.ok
        { prepared with
          fixedOutputSum := prepared.fixedOutputSum + value.value,
          outputs := prepared.outputs ++ [heap.outputs.length] })
      { heap with outputs := heap.outputs ++ [value] } := by
  apply Runs.bind (runs_readOutput h)
  apply Runs.bind (Runs.bind (runs_readOutput h) (runs_newOutput value heap))
  exact Runs.pure _ _

theorem runs_prepareOutput_leftover {prepared : Prepared} (h : prepared.leftoverIdx = none)
    (script : Script) (heap : Heap) :
    Runs (prepareOutput prepared (.leftover script)) heap
      (.ok
        { prepared with
          leftoverIdx := some prepared.outputs.length,
          outputs := prepared.outputs ++ [heap.outputs.length] })
      { heap with outputs := heap.outputs ++ [⟨0, script⟩] } := by
  unfold prepareOutput
  simp only [h]
  exact Runs.bind (runs_newOutput ⟨0, script⟩ heap) (Runs.pure _ _)

/-- What is known of the outputs after some more fixed ones. -/
def Prepared.extend (prepared : Prepared) (first : Nat) (values : List TxOutput) : Prepared where
  fixedOutputSum := prepared.fixedOutputSum + (values.map TxOutput.value).sum
  leftoverIdx := prepared.leftoverIdx
  outputs := prepared.outputs ++ range' first values.length

theorem runs_prepareFixed {refs : List Nat} {values : List TxOutput}
    (h : Points heap.outputs refs values) {rest : List TxBuilderOutput} {prepared : Prepared}
    {r : Except LibError Prepared} {t : Heap}
    (hrest : Runs (prepareOutputsLoop rest (prepared.extend heap.outputs.length values))
      { heap with outputs := heap.outputs ++ values } r t) :
    Runs (prepareOutputsLoop (refs.map .fixed ++ rest) prepared) heap r t := by
  induction refs generalizing values heap prepared with
  | nil =>
    cases h
    simpa [Prepared.extend] using hrest
  | cons ref refs ih =>
    cases h with
    | cons hvalue hvalues =>
      rename_i value values
      apply Runs.bind (runs_prepareOutput_fixed hvalue prepared)
      apply ih (Points.mono hvalues [value])
      simpa [Prepared.extend, range'_succ, Int.add_assoc] using hrest

theorem runs_prepareOutputs {builder : TxBuilder} {before after : List Nat}
    {script : Script} {beforeValues afterValues : List TxOutput}
    (hbuilder : builder.outputs = before.map .fixed ++ .leftover script :: after.map .fixed)
    (hbefore : Points heap.outputs before beforeValues)
    (hafter : Points heap.outputs after afterValues) :
    Runs builder.prepareOutputs heap
      (.ok
        { fixedOutputSum := ((beforeValues ++ afterValues).map TxOutput.value).sum,
          leftoverIdx := some beforeValues.length,
          outputs := range' heap.outputs.length
            (beforeValues ++ ⟨0, script⟩ :: afterValues).length })
      { heap with outputs := heap.outputs ++ (beforeValues ++ ⟨0, script⟩ :: afterValues) } := by
  unfold prepareOutputs
  rw [hbuilder]
  apply runs_prepareFixed hbefore
  apply Runs.bind (runs_prepareOutput_leftover rfl script _)
  rw [← append_nil (after.map TxBuilderOutput.fixed)]
  have hobjects := Points.mono hafter (beforeValues ++ [⟨0, script⟩])
  rw [← append_assoc] at hobjects
  refine @runs_prepareFixed ⟨heap.inputs, heap.outputs ++ beforeValues ++ [⟨0, script⟩]⟩ after
    afterValues hobjects [] _ _ _ ?_
  have hcount : (beforeValues ++ ⟨0, script⟩ :: afterValues).length =
      beforeValues.length + (1 + afterValues.length) := by
    simp only [length_append, length_cons]
    omega
  rw [hcount, ← range'_append_1, ← range'_append_1]
  simp only [prepareOutputsLoop, Prepared.extend, map_append, sum_append,
    length_append, length_singleton, nil_append, length_range',
    append_assoc, singleton_append, Int.zero_add, range'_one, add_assoc]
  exact Runs.pure _ _

/-!
## Values of inputs
-/

def sats (input : TxInput) : Int :=
  match input.signData with
  | none => 0
  | some signData => signData.value

theorem runs_inputSumLoop {inputs : List TxBuilderInput} {values : List TxInput}
    (h : Points heap.inputs (inputs.map TxBuilderInput.input) values)
    (hknown : forall value, value ∈ values -> value.signData.isSome) (inputSum : Int) :
    Runs (inputSumLoop inputs inputSum) heap
      (.ok (some (inputSum + (values.map sats).sum))) heap := by
  induction inputs generalizing values inputSum with
  | nil =>
    cases h
    simpa [inputSumLoop] using Runs.pure (some inputSum) heap
  | cons builderInput inputs ih =>
    cases h with
    | cons hvalue hvalues =>
      rename_i value values
      have hsome := hknown value mem_cons_self
      rcases Option.isSome_iff_exists.mp hsome with ⟨signData, hsign⟩
      have hrest := ih hvalues (forall_mem_cons.mp hknown).2 (inputSum + signData.value)
      apply Runs.bind (runs_readInput hvalue)
      simp only [hsign]
      have hsats : sats value = signData.value := by
        unfold sats
        rw [hsign]
      rw [map_cons, sum_cons, hsats, ← Int.add_assoc]
      exact hrest

/-!
## Signing inputs
-/

def withoutScript (input : TxInput) : TxInput := { input with script := none }

/-- A transaction of the builder with these inputs, whatever scripts they have by now and
whatever the outputs are. -/
structure SameButScripts (builder : TxBuilder) (inputs : List TxInput) (tx : Tx) : Prop where
  version : tx.version = builder.version
  locktime : tx.locktime = builder.locktime
  inputs : tx.inputs.map withoutScript = inputs.map withoutScript

/-- The signatory makes scripts of one length for an input of the builder: it depends neither on
the curve, nor on the outputs and the hashes, nor on the scripts the inputs have by now. -/
def SteadyLength (builder : TxBuilder) (inputs : List TxInput) (inputIdx : Nat)
    (signatory : Signatory) (length : Nat) : Prop :=
  forall ecc input, input.inputIdx = inputIdx ->
    SameButScripts builder inputs input.unsignedTx.tx ->
    exists script, signatory ecc input = .ok script ∧ script.bytecode.length = length

/-- The lengths of the scripts of the inputs from an index on, when they are signed. -/
inductive SignedLengths (builder : TxBuilder) (inputs : List TxInput) :
    Nat -> List TxBuilderInput -> List TxInput -> List Nat -> Prop
  | nil (inputIdx : Nat) : SignedLengths builder inputs inputIdx [] [] []
  | unsigned {inputIdx ref : Nat} {builderInputs : List TxBuilderInput} {value : TxInput}
      {values : List TxInput} {lengths : List Nat}
      (rest : SignedLengths builder inputs (inputIdx + 1) builderInputs values lengths) :
      SignedLengths builder inputs inputIdx (⟨ref, none⟩ :: builderInputs) (value :: values)
        (value.scriptLength :: lengths)
  | signed {inputIdx ref : Nat} {signatory : Signatory} {builderInputs : List TxBuilderInput}
      {value : TxInput} {values : List TxInput} {length : Nat} {lengths : List Nat}
      (steady : SteadyLength builder inputs inputIdx signatory length)
      (rest : SignedLengths builder inputs (inputIdx + 1) builderInputs values lengths) :
      SignedLengths builder inputs inputIdx (⟨ref, some signatory⟩ :: builderInputs)
        (value :: values) (length :: lengths)

def valueOf (unsignedTx : UnsignedTxObject) (inputs : List TxInput) (outputs : List TxOutput) :
    UnsignedTx where
  tx :=
    { version := unsignedTx.tx.version, inputs, outputs,
      locktime := unsignedTx.tx.locktime }
  prevoutsHash := unsignedTx.prevoutsHash
  sequencesHash := unsignedTx.sequencesHash
  outputsHash := unsignedTx.outputsHash

theorem runs_readUnsigned {unsignedTx : UnsignedTxObject} {inputs : List TxInput}
    (hinputs : Points heap.inputs unsignedTx.tx.inputs inputs)
    (houtputs : Points heap.outputs unsignedTx.tx.outputs outputs) :
    Runs unsignedTx.read heap (.ok (valueOf unsignedTx inputs outputs)) heap :=
  Runs.bind (runs_readTx hinputs houtputs) (Runs.pure _ _)

theorem runs_signInputs {builder : TxBuilder} {inputs : List TxInput} {inputIdx : Nat}
    {builderInputs : List TxBuilderInput} {rest : List TxInput} {lengths : List Nat}
    (h : SignedLengths builder inputs inputIdx builderInputs rest lengths) (ecc : Ecc)
    {old done : List TxInput} {objects outputs : List TxOutput} {unsignedTx : UnsignedTxObject}
    (hversion : unsignedTx.tx.version = builder.version)
    (hlocktime : unsignedTx.tx.locktime = builder.locktime)
    (hrefs : unsignedTx.tx.inputs = range' old.length (done ++ rest).length)
    (houtputs : Points objects unsignedTx.tx.outputs outputs) (hidx : inputIdx = done.length)
    (hsame : (done ++ rest).map withoutScript = inputs.map withoutScript) :
    exists rest', Runs
        (signInputs ecc unsignedTx inputIdx builderInputs (range' (old ++ done).length rest.length))
        ⟨old ++ (done ++ rest), objects⟩ (.ok ()) ⟨old ++ (done ++ rest'), objects⟩ ∧
      rest'.map withoutScript = rest.map withoutScript ∧
      rest'.map TxInput.scriptLength = lengths ∧
      SignedLengths builder inputs inputIdx builderInputs rest' lengths := by
  induction h generalizing done with
  | nil inputIdx => exact ⟨[], Runs.pure () _, rfl, rfl, .nil inputIdx⟩
  | @unsigned inputIdx ref builderInputs value values lengths hrest ih =>
    have hdone : done ++ value :: values = done ++ [value] ++ values := by simp
    rw [hdone] at hrefs hsame
    rcases ih hrefs (by rw [hidx]; simp) hsame with ⟨rest', hruns, hkept, hlengths, hsigned⟩
    refine ⟨value :: rest', ?_, ?_, ?_, .unsigned hsigned⟩
    · rw [length_cons, range'_succ]
      simpa [signInputs, add_assoc] using hruns
    · rw [map_cons, map_cons, hkept]
    · rw [map_cons, hlengths]
  | @signed inputIdx ref signatory builderInputs value values length lengths hsteady hrest ih =>
    have hread : Points (old ++ (done ++ value :: values)) unsignedTx.tx.inputs
        (done ++ value :: values) := by
      rw [hrefs]
      exact Points.fresh old (done ++ value :: values)
    rcases hsteady ecc ⟨inputIdx, valueOf unsignedTx (done ++ value :: values) outputs⟩ rfl
      ⟨hversion, hlocktime, hsame⟩ with ⟨script, hscript, hlength⟩
    have hat : (old ++ (done ++ value :: values))[(old ++ done).length]? = some value := by
      rw [← append_assoc, getElem?_append_right le_rfl, Nat.sub_self]
      rfl
    have hkeeps : (done ++ [{ value with script := some script }] ++ values).map
        withoutScript = inputs.map withoutScript := by
      rw [← hsame]
      simp [withoutScript]
    have hcount : (done ++ [{ value with script := some script }] ++ values).length =
        (done ++ value :: values).length := by
      simp
    rw [← hcount] at hrefs
    rcases ih hrefs (by rw [hidx]; simp) hkeeps with ⟨rest', hruns, hkept, hlengths, hsigned⟩
    refine ⟨{ value with script := some script } :: rest', ?_, ?_, ?_, .signed hsteady hsigned⟩
    · apply Runs.bind (runs_readUnsigned hread houtputs)
      apply Runs.bind (Runs.ofExcept hscript _)
      apply Runs.bind (@runs_setScript ⟨old ++ (done ++ value :: values), objects⟩ _ _ hat script)
      simpa [add_assoc] using hruns
    · rw [map_cons, hkept]
      rfl
    · rw [map_cons, hlengths, ← hlength]
      rfl

/-!
## Values that fit
-/

def FitInput (input : TxInput) : Prop :=
  FitsIn 4 input.prevOut.outIdx ∧ FitsIn 4 input.sequenceOrDefault

def FitOutput (output : TxOutput) : Prop :=
  FitsIn 8 output.value ∧ output.script.bytecode.length < 2 ^ 64

variable {tx : Tx}

theorem writePrevouts_fits (hinputs : forall input, input ∈ tx.inputs -> FitInput input) :
    forall put, put ∈ writePrevouts tx -> put.Fits := by
  refine forall_mem_flatMap.mpr ?_
  intro input hinput
  exact forall_mem_cons.mpr ⟨trivial, forall_mem_singleton.mpr (hinputs input hinput).left⟩

theorem writeSequences_fits (hinputs : forall input, input ∈ tx.inputs -> FitInput input) :
    forall put, put ∈ writeSequences tx -> put.Fits := by
  refine forall_mem_flatMap.mpr ?_
  intro input hinput
  exact forall_mem_singleton.mpr (hinputs input hinput).right

theorem writeWithSize_fits {script : Script} (h : script.bytecode.length < 2 ^ 64) :
    forall put, put ∈ script.writeWithSize -> put.Fits := by
  exact forall_mem_append.mpr ⟨writeVarSize_fits h, forall_mem_singleton.mpr trivial⟩

theorem flatMap_writeTxOutput_fits
    (houtputs : forall output, output ∈ outputs -> FitOutput output) :
    forall put, put ∈ outputs.flatMap writeTxOutput -> put.Fits := by
  refine forall_mem_flatMap.mpr ?_
  intro output houtput
  have hfit := houtputs output houtput
  exact forall_mem_append.mpr ⟨forall_mem_singleton.mpr hfit.left, writeWithSize_fits hfit.right⟩

theorem fromTx_fits (sha256d : Bytes -> Bytes)
    (hinputs : forall input, input ∈ tx.inputs -> FitInput input)
    (houtputs : forall output, output ∈ tx.outputs -> FitOutput output) :
    exists unsignedTx, UnsignedTx.fromTx sha256d tx = .ok unsignedTx := by
  have hwritten : forall put, put ∈ writeOutputs tx -> put.Fits :=
    flatMap_writeTxOutput_fits houtputs
  simp only [UnsignedTx.fromTx, txWriterHash, write_fits (writePrevouts_fits hinputs),
    write_fits (writeSequences_fits hinputs), write_fits hwritten, bind, Except.bind,
    Except.ok.injEq, exists_eq']

theorem fromTx_cannotFit (sha256d : Bytes -> Bytes)
    (hinputs : forall input, input ∈ tx.inputs -> FitInput input)
    {before after : List TxOutput} {output : TxOutput}
    (houtputs : tx.outputs = before ++ output :: after)
    (hbefore : forall other, other ∈ before -> FitOutput other) (hvalue : ¬ FitsIn 8 output.value) :
    UnsignedTx.fromTx sha256d tx = .error (.cannotFit output.value 8) := by
  have hputs : writeOutputs tx = before.flatMap writeTxOutput ++
      .u64 output.value :: (output.script.writeWithSize ++ after.flatMap writeTxOutput) := by
    unfold writeOutputs
    rw [houtputs, flatMap_append]
    rfl
  have hwrite : write (writeOutputs tx) = .error (.cannotFit output.value 8) := by
    rw [hputs]
    exact write_error (flatMap_writeTxOutput_fits hbefore) (putNumber_error hvalue)
  simp only [UnsignedTx.fromTx, txWriterHash, write_fits (writePrevouts_fits hinputs),
    write_fits (writeSequences_fits hinputs), hwrite, bind, Except.bind]

theorem writeTxInput_fits {input : TxInput} (h : FitInput input)
    (hscript : input.scriptLength < 2 ^ 64) : forall put, put ∈ writeTxInput input -> put.Fits := by
  simp only [writeTxInput, writeOutPoint, forall_mem_append, forall_mem_cons]
  exact ⟨⟨⟨trivial, h.left, forall_mem_nil _⟩, writeWithSize_fits hscript⟩, h.right,
    forall_mem_nil _⟩

theorem ser_fits (hversion : FitsIn 4 tx.version) (hlocktime : FitsIn 4 tx.locktime)
    (hinputs : forall input, input ∈ tx.inputs -> FitInput input ∧ input.scriptLength < 2 ^ 64)
    (houtputs : forall output, output ∈ tx.outputs -> FitOutput output)
    (hinputCount : tx.inputs.length < 2 ^ 64) (houtputCount : tx.outputs.length < 2 ^ 64) :
    exists bytes, tx.ser = .ok bytes := by
  refine ⟨_, write_fits ?_⟩
  have hwritten : forall put, put ∈ tx.inputs.flatMap writeTxInput -> put.Fits :=
    forall_mem_flatMap.mpr fun input hinput =>
      writeTxInput_fits (hinputs input hinput).left (hinputs input hinput).right
  simp only [Tx.puts, forall_mem_append, forall_mem_singleton]
  exact ⟨⟨⟨⟨⟨hversion, writeVarSize_fits hinputCount⟩, hwritten⟩,
    writeVarSize_fits houtputCount⟩, flatMap_writeTxOutput_fits houtputs⟩, hlocktime⟩

theorem fitInput_of_same {inputs inputs' : List TxInput}
    (hsame : inputs'.map withoutScript = inputs.map withoutScript)
    (h : forall input, input ∈ inputs -> FitInput input) :
    forall input, input ∈ inputs' -> FitInput input := by
  intro input hinput
  have hmem : withoutScript input ∈ inputs.map withoutScript := by
    rw [← hsame]
    exact mem_map_of_mem hinput
  rcases mem_map.mp hmem with ⟨other, hother, heq⟩
  show FitInput (withoutScript input)
  rw [← heq]
  exact h other hother

theorem length_of_same {inputs inputs' : List TxInput}
    (hsame : inputs'.map withoutScript = inputs.map withoutScript) :
    inputs'.length = inputs.length := by
  rw [← length_map withoutScript, hsame, length_map]

/-!
## Signing in two passes
-/

variable {builder : TxBuilder} {inputs : List TxInput} {lengths : List Nat} {old : Heap}
  {values : List TxInput} {objects : List TxOutput}

theorem runs_signAll (h : SignedLengths builder inputs 0 builder.inputs values lengths)
    (hsame : values.map withoutScript = inputs.map withoutScript) (ecc : Ecc)
    {unsignedTx : UnsignedTxObject} {refs : List Nat} {outputs : List TxOutput}
    (htx : unsignedTx.tx = builder.txObject (range' old.inputs.length values.length) refs)
    (houtputs : Points objects refs outputs) :
    exists values', Runs
        (signInputs ecc unsignedTx 0 builder.inputs (range' old.inputs.length values.length))
        ⟨old.inputs ++ values, objects⟩ (.ok ()) ⟨old.inputs ++ values', objects⟩ ∧
      values'.map withoutScript = values.map withoutScript ∧
      values'.map TxInput.scriptLength = lengths ∧
      SignedLengths builder inputs 0 builder.inputs values' lengths := by
  have hall := @runs_signInputs builder inputs 0 builder.inputs values lengths h ecc
    old.inputs [] objects outputs unsignedTx (by rw [htx]; rfl) (by rw [htx]; rfl)
    (by rw [htx]; rfl) (by rw [htx]; exact houtputs) rfl hsame
  rw [append_nil] at hall
  exact hall

/-- The second pass returns the transaction with scripts of the same lengths. -/
theorem runs_signOutputs (sha256d : Bytes -> Bytes)
    (h : SignedLengths builder inputs 0 builder.inputs values lengths)
    (hsame : values.map withoutScript = inputs.map withoutScript) (ecc : Ecc)
    (hinputs : forall input, input ∈ inputs -> FitInput input) {refs : List Nat}
    {outputs : List TxOutput} (houtputs : Points objects refs outputs)
    (hfit : forall output, output ∈ outputs -> FitOutput output) :
    exists values', Runs
        (builder.signOutputs sha256d ecc (range' old.inputs.length values.length) refs)
        ⟨old.inputs ++ values, objects⟩
        (.ok
          { version := builder.version, inputs := values', outputs,
            locktime := builder.locktime })
        ⟨old.inputs ++ values', objects⟩ ∧
      values'.map withoutScript = inputs.map withoutScript ∧
      values'.map TxInput.scriptLength = lengths := by
  have hread := @runs_readTx ⟨old.inputs ++ values, objects⟩
    (builder.txObject (range' old.inputs.length values.length) refs) values outputs
    (Points.fresh _ _) houtputs
  rcases @fromTx_fits ⟨builder.version, values, outputs, builder.locktime⟩ sha256d
    (fitInput_of_same hsame hinputs) hfit with ⟨unsignedTx, hunsigned⟩
  rcases @runs_signAll builder inputs lengths old values objects h hsame ecc
    (unsignedTx.toObject (builder.txObject (range' old.inputs.length values.length) refs))
    refs outputs rfl houtputs with ⟨values', hruns, hkept, hlengths, _⟩
  have hread' := @runs_readTx ⟨old.inputs ++ values', objects⟩
    (builder.txObject (range' old.inputs.length values.length) refs) values' outputs
    (by rw [← length_of_same hkept]; exact Points.fresh old.inputs values') houtputs
  refine ⟨values', ?_, by rw [hkept, hsame], hlengths⟩
  apply Runs.bind hread
  apply Runs.bind (Runs.ofExcept hunsigned _)
  apply Runs.bind hruns
  exact hread'

def feeFor (lengths : List Nat) (outputs : List TxOutput) (feePerKb : Int) : Int :=
  calcTxFee (txSize lengths (outputs.map TxOutput.scriptLength)) feePerKb

theorem calcTxFee_serSize (h : tx.inputs.map TxInput.scriptLength = lengths)
    (feePerKb : Int) : calcTxFee tx.serSize feePerKb = feeFor lengths tx.outputs feePerKb := by
  unfold feeFor
  rw [Tx.serSize_eq, h]

def preparedFor (old : Heap) (before after : List TxOutput) (script : Script) : Prepared where
  fixedOutputSum := ((before ++ after).map TxOutput.value).sum
  leftoverIdx := some before.length
  outputs := range' old.outputs.length (before ++ ⟨0, script⟩ :: after).length

variable {before after : List TxOutput} {script : Script} {inputSum feePerKb : Int}
  {dustLimit : ℚ}

theorem points_withoutLeftover (old : Heap) (before after : List TxOutput) (script : Script)
    (objects : List TxInput) :
    Points (Heap.mk objects (old.outputs ++ (before ++ ⟨0, script⟩ :: after))).outputs
      ((preparedFor old before after script).outputs.eraseIdx before.length) (before ++ after) := by
  have h := (Points.fresh old.outputs (before ++ ⟨0, script⟩ :: after)).eraseIdx before.length
  rw [eraseIdx_append_of_length_le le_rfl, Nat.sub_self] at h
  exact h

def leftoverValue (lengths : List Nat) (before after : List TxOutput) (script : Script)
    (inputSum feePerKb : Int) : Int :=
  inputSum - (((before ++ after).map TxOutput.value).sum +
    feeFor lengths (before ++ ⟨0, script⟩ :: after) feePerKb)

section Choice

variable (hlengths : values.map TxInput.scriptLength = lengths)

include hlengths

theorem runs_chooseLeftover_dust
    (hdust : (leftoverValue lengths before after script inputSum feePerKb : ℚ) < dustLimit) :
    Runs (builder.chooseLeftover (preparedFor old before after script) before.length
        (range' old.inputs.length values.length) inputSum feePerKb dustLimit)
      ⟨old.inputs ++ values, old.outputs ++ (before ++ ⟨0, script⟩ :: after)⟩
      (if inputSum < ((before ++ after).map TxOutput.value).sum +
          feeFor lengths (before ++ after) feePerKb then
        .error (.insufficientInputValue inputSum
          (inputSum - ((before ++ after).map TxOutput.value).sum)
          (feeFor lengths (before ++ after) feePerKb))
      else .ok ((preparedFor old before after script).outputs.eraseIdx before.length))
      ⟨old.inputs ++ values, old.outputs ++ (before ++ ⟨0, script⟩ :: after)⟩ := by
  apply Runs.bind (@runs_readTx _ (builder.txObject _ _) values
    (before ++ ⟨0, script⟩ :: after) (Points.fresh _ _) (Points.fresh _ _))
  rw [calcTxFee_serSize hlengths]
  apply Runs.ite_pos hdust
  apply Runs.bind (@runs_readTx _ (builder.txObject _ _) values (before ++ after)
    (Points.fresh _ _) (points_withoutLeftover old before after script _))
  rw [calcTxFee_serSize hlengths]
  split
  · rename_i hshort
    apply Runs.ite_pos hshort
    exact Runs.fail _ _
  · rename_i hpays
    apply Runs.ite_neg hpays
    exact Runs.pure _ _

theorem runs_chooseLeftover_kept (hnonneg : 0 ≤ dustLimit)
    (hdust : ¬ (leftoverValue lengths before after script inputSum feePerKb : ℚ) < dustLimit) :
    Runs (builder.chooseLeftover (preparedFor old before after script) before.length
        (range' old.inputs.length values.length) inputSum feePerKb dustLimit)
      ⟨old.inputs ++ values, old.outputs ++ (before ++ ⟨0, script⟩ :: after)⟩
      (.ok (preparedFor old before after script).outputs)
      ⟨old.inputs ++ values, old.outputs ++ (before ++
        ⟨leftoverValue lengths before after script inputSum feePerKb, script⟩ :: after)⟩ := by
  have hat : (old.outputs ++ (before ++ (⟨0, script⟩ : TxOutput) :: after))[
      old.outputs.length + before.length]? = some ⟨0, script⟩ := by
    rw [getElem?_append_right (by omega), Nat.add_sub_cancel_left,
      getElem?_append_right le_rfl, Nat.sub_self]
    rfl
  have hset : forall value, (old.outputs ++ (before ++ (⟨0, script⟩ : TxOutput) :: after)).set
      (old.outputs.length + before.length) ⟨value, script⟩ =
      old.outputs ++ (before ++ ⟨value, script⟩ :: after) := by
    intro value
    rw [set_append_right _ _ (by omega), Nat.add_sub_cancel_left,
      set_append_right _ _ le_rfl, Nat.sub_self, set_cons_zero]
  have hleftover : (preparedFor old before after script).outputs[before.length]? =
      some (old.outputs.length + before.length) := by
    unfold preparedFor
    simp
  have hpays : ¬ inputSum < ((before ++ after).map TxOutput.value).sum +
      feeFor lengths (before ++ ⟨0, script⟩ :: after) feePerKb := by
    have hvalue : 0 ≤ leftoverValue lengths before after script inputSum feePerKb :=
      Int.cast_nonneg_iff.mp (hnonneg.trans (not_lt.mp hdust))
    unfold leftoverValue at hvalue
    omega
  apply Runs.bind (@runs_readTx _ (builder.txObject _ _) values
    (before ++ ⟨0, script⟩ :: after) (Points.fresh _ _) (Points.fresh _ _))
  rw [calcTxFee_serSize hlengths]
  apply Runs.ite_neg hdust
  simp only [hleftover]
  apply Runs.bind (@runs_setValue
    ⟨old.inputs ++ values, old.outputs ++ (before ++ ⟨0, script⟩ :: after)⟩ _ _ hat _)
  rw [hset]
  apply Runs.ite_neg hpays
  exact Runs.pure _ _

end Choice

end TxBuilder

end ECash.Lib
