import Mathlib
import ECash.Foundation.Extension

/-!
# Accumulative coin selection

`coinSelect` adds utxos in their order until the inputs pay for the outputs and the fee.  Sizes
are counted in half bytes here, since a hex string may have an odd number of digits.
-/

namespace ECash.Coinselect

open Foundation List

/-- What the source recognizes as a script; for another one it throws. -/
inductive ScriptKey where
  | undefined
  | hex (digits : Nat)
  | buffer (length : Nat)
deriving DecidableEq

/-- A utxo or an output, with what `parseInt` makes of its value.  The numbers of the code are
exact, as they are here, while values, sums and products with the fee rate are below 2^53. -/
structure Entry where
  value : Int
  script : ScriptKey := .undefined
  slpToken : Bool := false
  token : Bool := false
deriving DecidableEq

inductive SelectError where
  | feeRateBelowOne
  | belowDust
  | insufficientFunds
  | nothingToSend
deriving DecidableEq

def isToken (utxo : Entry) : Bool :=
  utxo.slpToken || utxo.token

def sumValues (utxos : List Entry) : Int :=
  (utxos.map Entry.value).sum

def scriptBytes (base pubkeyHash : Nat) : ScriptKey -> Nat
  | .undefined => 2 * (base + pubkeyHash)
  | .hex digits => 2 * base + digits
  | .buffer length => 2 * (base + length)

def inputBytes (input : Entry) : Nat :=
  scriptBytes (32 + 4 + 1 + 4) 107 input.script

def outputBytes (output : Entry) : Nat :=
  scriptBytes (8 + 1) 25 output.script

def transactionBytes (inputs outputs : List Entry) : Nat :=
  2 * (4 + 1 + 1 + 4) + (inputs.map inputBytes).sum + (outputs.map outputBytes).sum

def BLANK_OUTPUT : Nat := 2 * 34

def DUST_SATOSHIS : Int := 546

structure Selected where
  inputs : List Entry
  outputs : List Entry
  fee : Int
deriving DecidableEq

def finalize (inputs outputs : List Entry) (feeRate : Int) : Selected :=
  let bytesAccum := transactionBytes inputs outputs
  -- The product is rounded up to whole satoshis.
  let feeAfterExtraOutput := (feeRate * (bytesAccum + BLANK_OUTPUT) + 1) / 2
  let remainderAfterExtraOutput := sumValues inputs - (sumValues outputs + feeAfterExtraOutput)
  let outputs := if remainderAfterExtraOutput > DUST_SATOSHIS then
      outputs ++ [{ value := remainderAfterExtraOutput }]
    else outputs
  { inputs, outputs, fee := sumValues inputs - sumValues outputs }

def selectLoop (targetOutputs : List Entry) (feeRate outAccum : Int) :
    List Entry -> Int -> Int -> List Entry -> Except SelectError Selected
  | [], _, _, _ => .error .insufficientFunds
  | utxo :: utxos, bytesAccum, inAccum, inputs =>
    if isToken utxo then selectLoop targetOutputs feeRate outAccum utxos bytesAccum inAccum inputs
    else
      let bytesAccum := bytesAccum + inputBytes utxo
      let inAccum := inAccum + utxo.value
      if 2 * inAccum < 2 * outAccum + feeRate * bytesAccum then
        selectLoop targetOutputs feeRate outAccum utxos bytesAccum inAccum (inputs ++ [utxo])
      else .ok (finalize (inputs ++ [utxo]) targetOutputs feeRate)

def coinSelect (utxos targetOutputs : List Entry) (feeRate : Int) (tokenInputs : List Entry) :
    Except SelectError Selected :=
  if feeRate < 1 then .error .feeRateBelowOne
  else if sumValues targetOutputs < DUST_SATOSHIS then .error .belowDust
  else
    selectLoop targetOutputs feeRate (sumValues targetOutputs) utxos
      (transactionBytes tokenInputs targetOutputs) (sumValues tokenInputs) tokenInputs

def nonTokenUtxos (utxos : List Entry) : List Entry :=
  utxos.filter fun utxo => !isToken utxo

def getMaxSendAmountSatoshis (utxos : List Entry) (txFee : Int)
    (otherTargetOutputs : List Entry) : Except SelectError Int :=
  let totalSatsInWallet := sumValues (nonTokenUtxos utxos)
  let byteCount := transactionBytes (nonTokenUtxos utxos)
    ({ value := totalSatsInWallet } :: otherTargetOutputs)
  let maxSendAmountSatoshis := totalSatsInWallet - (txFee * byteCount + 1) / 2
  if maxSendAmountSatoshis < DUST_SATOSHIS then .error .nothingToSend
  else .ok maxSendAmountSatoshis

/-!
## The prefix that is found
-/

/-- The inputs have the value of the outputs and of the fee for their own size. -/
def Covers (targetOutputs : List Entry) (feeRate : Int) (inputs : List Entry) : Prop :=
  2 * sumValues targetOutputs + feeRate * transactionBytes inputs targetOutputs ≤
    2 * sumValues inputs

instance (targetOutputs : List Entry) (feeRate : Int) :
    DecidablePred (Covers targetOutputs feeRate) :=
  fun _ => inferInstanceAs (Decidable (_ ≤ _))

/-- There is at most one output more, and the fee pays for the size. -/
def Selected.Pays (selected : Selected) (targetOutputs : List Entry) (feeRate : Int) : Prop :=
  (selected.outputs = targetOutputs ∨ exists change : Int, DUST_SATOSHIS < change ∧
    selected.outputs = targetOutputs ++ [{ value := change }]) ∧
  sumValues selected.inputs = sumValues selected.outputs + selected.fee ∧
  feeRate * transactionBytes selected.inputs selected.outputs ≤ 2 * selected.fee

variable {utxos targetOutputs inputs tokenInputs : List Entry} {feeRate : Int}

theorem selectLoop_eq (utxos inputs : List Entry) :
    selectLoop targetOutputs feeRate (sumValues targetOutputs) utxos
        (transactionBytes inputs targetOutputs) (sumValues inputs) inputs =
      match extendUntil (Covers targetOutputs feeRate) inputs (nonTokenUtxos utxos) with
      | some chosen => .ok (finalize chosen targetOutputs feeRate)
      | none => .error .insufficientFunds := by
  induction utxos generalizing inputs with
  | nil => rfl
  | cons utxo utxos ih =>
    unfold selectLoop nonTokenUtxos
    by_cases htoken : isToken utxo = true
    · rw [if_pos htoken, filter_cons_of_neg (by simp [htoken])]
      exact ih inputs
    rw [if_neg htoken, filter_cons_of_pos (by simp [htoken])]
    have hsum : sumValues inputs + utxo.value = sumValues (inputs ++ [utxo]) := by simp [sumValues]
    have hbytes : (transactionBytes inputs targetOutputs : Int) + inputBytes utxo =
        transactionBytes (inputs ++ [utxo]) targetOutputs := by
      simp [transactionBytes]
      omega
    simp only [hsum, hbytes, extendUntil]
    by_cases hcovers : Covers targetOutputs feeRate (inputs ++ [utxo])
    · rw [if_pos hcovers, if_neg (Int.not_lt.mpr hcovers)]
    · rw [if_neg hcovers, if_pos (Int.not_le.mp hcovers)]
      exact ih _

theorem coinSelect_eq (hrate : 1 ≤ feeRate) (hdust : DUST_SATOSHIS ≤ sumValues targetOutputs) :
    coinSelect utxos targetOutputs feeRate tokenInputs =
      match extendUntil (Covers targetOutputs feeRate) tokenInputs (nonTokenUtxos utxos) with
      | some chosen => .ok (finalize chosen targetOutputs feeRate)
      | none => .error .insufficientFunds := by
  unfold coinSelect
  rw [if_neg (by omega), if_neg (by omega)]
  exact selectLoop_eq utxos tokenInputs

theorem finalize_pays (h : Covers targetOutputs feeRate inputs) :
    (finalize inputs targetOutputs feeRate).Pays targetOutputs feeRate := by
  unfold Covers at h
  unfold finalize Selected.Pays
  dsimp only
  split
  · rename_i hmore
    refine ⟨.inr ⟨_, hmore, rfl⟩, by omega, ?_⟩
    have hbytes : forall change : Int,
        transactionBytes inputs (targetOutputs ++ [{ value := change }]) =
          transactionBytes inputs targetOutputs + BLANK_OUTPUT := by
      intro change
      simp [transactionBytes, outputBytes, scriptBytes, BLANK_OUTPUT, add_assoc]
    simp only [hbytes, sumValues, map_append, sum_append, map_singleton, sum_singleton,
      Int.natCast_add]
    omega
  · exact ⟨.inl rfl, by omega, by omega⟩

/-- The inputs are the token inputs and the shortest non-empty prefix of the utxos that pays. -/
theorem coinSelect_sound {utxos targetOutputs tokenInputs : List Entry} {feeRate : Int}
    {selected : Selected} (h : coinSelect utxos targetOutputs feeRate tokenInputs = .ok selected) :
    (exists k, 1 ≤ k ∧ k ≤ (nonTokenUtxos utxos).length ∧
      selected.inputs = tokenInputs ++ (nonTokenUtxos utxos).take k ∧
      forall j, 1 ≤ j -> j < k ->
        ¬ Covers targetOutputs feeRate (tokenInputs ++ (nonTokenUtxos utxos).take j)) ∧
    selected.Pays targetOutputs feeRate := by
  have hguards : 1 ≤ feeRate ∧ DUST_SATOSHIS ≤ sumValues targetOutputs := by
    unfold coinSelect at h
    split at h
    · cases h
    · split at h
      · cases h
      · omega
  rw [coinSelect_eq hguards.left hguards.right] at h
  split at h
  · rename_i hfound
    cases h
    rcases extendUntil_eq_some.mp hfound with ⟨k, hpos, hle, hchosen, hcovers, hleast⟩
    exact ⟨⟨k, hpos, hle, hchosen, hleast⟩, finalize_pays hcovers⟩
  · cases h

theorem coinSelect_sound_change :
    Selected.Pays ⟨[{ value := 1000 }, { value := 2000 }], [{ value := 1000 }, { value := 1626 }],
      374⟩ [{ value := 1000 }] 1 :=
  (@coinSelect_sound [{ value := 1000 }, { value := 2000 }, { value := 3000 }] [{ value := 1000 }]
    [] 1 _ rfl).right

/-!
## Insufficient funds
-/

def NoPrefixCovers (utxos targetOutputs : List Entry) (feeRate : Int) (tokenInputs : List Entry) :
    Prop :=
  forall k, 1 ≤ k -> k ≤ (nonTokenUtxos utxos).length ->
    ¬ Covers targetOutputs feeRate (tokenInputs ++ (nonTokenUtxos utxos).take k)

/-- What a utxo adds to the inputs beyond its own fee, in half satoshis. -/
def gain (feeRate : Int) (utxo : Entry) : Int :=
  2 * utxo.value - feeRate * inputBytes utxo

theorem coinSelect_cases (hrate : 1 ≤ feeRate) (hdust : DUST_SATOSHIS ≤ sumValues targetOutputs) :
    (coinSelect utxos targetOutputs feeRate tokenInputs = .error .insufficientFunds ∧
      NoPrefixCovers utxos targetOutputs feeRate tokenInputs) ∨
    (exists selected, coinSelect utxos targetOutputs feeRate tokenInputs = .ok selected) ∧
      ¬ NoPrefixCovers utxos targetOutputs feeRate tokenInputs := by
  rw [coinSelect_eq hrate hdust, NoPrefixCovers, ← extendUntil_eq_none]
  split
  · rename_i hfound
    rw [hfound]
    exact .inr ⟨⟨_, rfl⟩, by simp⟩
  · rename_i hnone
    exact .inl ⟨rfl, hnone⟩

theorem covers_append (inputs chosen : List Entry) :
    Covers targetOutputs feeRate (inputs ++ chosen) <->
      2 * sumValues targetOutputs + feeRate * transactionBytes inputs targetOutputs -
        2 * sumValues inputs ≤ (chosen.map (gain feeRate)).sum := by
  have hgain : (chosen.map (gain feeRate)).sum =
      2 * sumValues chosen - feeRate * ((chosen.map inputBytes).sum : Nat) := by
    induction chosen with
    | nil => simp [sumValues]
    | cons utxo chosen ih =>
      simp only [map_cons, sum_cons, ih, gain, sumValues, Int.natCast_add, Int.mul_add]
      omega
  unfold Covers
  rw [hgain]
  simp only [transactionBytes, sumValues, map_append, sum_append, Int.natCast_add, Int.mul_add]
  omega

theorem NoPrefixCovers.sublist (h : NoPrefixCovers utxos targetOutputs feeRate tokenInputs)
    (hsome : nonTokenUtxos utxos ≠ [])
    (hgain : forall utxo, utxo ∈ nonTokenUtxos utxos -> 0 ≤ gain feeRate utxo)
    {chosen : List Entry} (hsub : chosen.Sublist (nonTokenUtxos utxos)) :
    ¬ Covers targetOutputs feeRate (tokenInputs ++ chosen) := by
  intro hcovers
  have hall := h _ (length_pos_iff.mpr hsome) le_rfl
  rw [take_length, covers_append] at hall
  rw [covers_append] at hcovers
  have hle := (hsub.map (gain feeRate)).sum_le_sum (forall_mem_map.mpr hgain)
  exact hall (hcovers.trans hle)

theorem getMaxSendAmountSatoshis_covers {others : List Entry} {amount : Int}
    (hrate : 1 ≤ feeRate) (hothers : sumValues others = 0)
    (h : getMaxSendAmountSatoshis utxos feeRate others = .ok amount) :
    DUST_SATOSHIS ≤ amount ∧ sumValues ({ value := amount } :: others) = amount ∧
      ¬ NoPrefixCovers utxos ({ value := amount } :: others) feeRate [] := by
  unfold getMaxSendAmountSatoshis at h
  dsimp only at h
  split at h
  · cases h
  rename_i hdust
  have hamount := Except.ok.inj h
  rw [hamount] at hdust
  have hbytes : transactionBytes (nonTokenUtxos utxos)
      ({ value := sumValues (nonTokenUtxos utxos) } :: others) =
        transactionBytes (nonTokenUtxos utxos) ({ value := amount } :: others) := rfl
  rw [hbytes] at hamount
  have hsum : sumValues ({ value := amount } :: others) = amount := by
    rw [sumValues, map_cons, sum_cons, ← sumValues, hothers, Int.add_zero]
  refine ⟨by omega, hsum, fun hnone => hnone _ (length_pos_iff.mpr ?_) le_rfl ?_⟩
  · intro hnil
    have hfee := Int.mul_nonneg (Int.le_of_lt hrate) (Int.natCast_nonneg
      (transactionBytes (nonTokenUtxos utxos) ({ value := amount } :: others)))
    have hzero : sumValues (nonTokenUtxos utxos) = 0 := by
      rw [hnil]
      rfl
    unfold DUST_SATOSHIS at hdust
    omega
  · rw [take_length, nil_append, Covers, hsum]
    omega

/-- Funds are insufficient if no non-empty prefix covers.  If there are utxos and all pay for
themselves, then no other choice covers either.  The whole wallet can be sent if the other
outputs have no value. -/
theorem coinSelect_insufficient {utxos : List Entry} {feeRate : Int} (hrate : 1 ≤ feeRate) :
    (forall targetOutputs tokenInputs, DUST_SATOSHIS ≤ sumValues targetOutputs ->
      (coinSelect utxos targetOutputs feeRate tokenInputs = .error .insufficientFunds <->
        NoPrefixCovers utxos targetOutputs feeRate tokenInputs) ∧
      (coinSelect utxos targetOutputs feeRate tokenInputs = .error .insufficientFunds ->
        nonTokenUtxos utxos ≠ [] ->
        (forall utxo, utxo ∈ nonTokenUtxos utxos -> 0 ≤ gain feeRate utxo) ->
        forall chosen, chosen.Sublist (nonTokenUtxos utxos) ->
          ¬ Covers targetOutputs feeRate (tokenInputs ++ chosen))) ∧
    forall others amount, sumValues others = 0 ->
      getMaxSendAmountSatoshis utxos feeRate others = .ok amount ->
      exists selected, coinSelect utxos ({ value := amount } :: others) feeRate [] =
        .ok selected := by
  constructor
  · intro targetOutputs tokenInputs hdust
    rcases @coinSelect_cases utxos _ tokenInputs _ hrate hdust with ⟨herror, hnone⟩ | ⟨hok, hsome⟩
    · exact ⟨iff_of_true herror hnone, fun _ hne hgain chosen => hnone.sublist hne hgain⟩
    · rcases hok with ⟨_, hok⟩
      rw [hok]
      exact ⟨iff_of_false nofun hsome, nofun⟩
  · intro others amount hothers hmax
    rcases getMaxSendAmountSatoshis_covers hrate hothers hmax with ⟨hdust, hsum, hcovers⟩
    rcases coinSelect_cases hrate (hdust.trans_eq hsum.symm) with ⟨_, hnone⟩ | ⟨hok, _⟩
    · exact absurd hnone hcovers
    · exact hok

theorem coinSelect_insufficient_single :
    NoPrefixCovers [{ value := 1100 }] [{ value := 1000 }] 1 [] :=
  ((@coinSelect_insufficient _ 1 (by decide)).left _ _ (by decide)).left.mp rfl

/-- Token inputs that suffice alone, a utxo worth less than its fee before one that suffices, and
another output with a value. -/
theorem coinSelect_insufficient_funded :
    (coinSelect [] [{ value := 1000 }] 1 [{ value := 10000 }] = .error .insufficientFunds ∧
      Covers [{ value := 1000 }] 1 [{ value := 10000 }]) ∧
    (coinSelect [{ value := 100 }, { value := 1200 }] [{ value := 1000 }] 1 [] =
        .error .insufficientFunds ∧
      Covers [{ value := 1000 }] 1 [{ value := 1200 }]) ∧
    getMaxSendAmountSatoshis [{ value := 10000 }] 1 [{ value := 1000 }] = .ok 9774 ∧
    coinSelect [{ value := 10000 }] [{ value := 9774 }, { value := 1000 }] 1 [] =
      .error .insufficientFunds := by
  decide

end ECash.Coinselect
