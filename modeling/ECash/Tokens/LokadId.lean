import ECash.Foundation.Iterator
import ECash.Tokens.Alp

/-!
# LOKAD ids

A LOKAD id is a prefix of four bytes that names a protocol.  A transaction can have them in its
`OP_RETURN`, in the pushes of an eMPP script, and at the start of the scripts of its inputs.
-/

namespace ECash.Tokens

open Foundation

abbrev LokadId := ByteArr 4

structure TxInput where
  script : Script
  deriving DecidableEq

structure TxOutput where
  script : Script
  deriving DecidableEq

/-- The parts of a transaction that have LOKAD ids. -/
structure TxMut where
  inputs : List TxInput
  outputs : List TxOutput
  deriving DecidableEq

namespace LokadId

def tryFrom (data : Bytes) : Option LokadId :=
  if h : data.length = 4 then some ⟨data, h⟩ else none

def parseLokadIdPushopPrefix : Op -> Option LokadId
  | .push _ data => tryFrom data
  | .code _ => none

def parseOpreturnLokadId (script : Script) : Option LokadId :=
  match script.iterOps with
  | .ok (.code opcode) :: .ok op :: _ =>
    if opcode = opReturn then parseLokadIdPushopPrefix op else none
  | _ => none

def emppLokadId (pushdata : Bytes) : Option LokadId :=
  if pushdata.length < 4 then none else tryFrom (pushdata.take 4)

def parseInputScriptLokadId (input : TxInput) : Option LokadId :=
  match input.script.iterOps with
  | .ok op :: _ => parseLokadIdPushopPrefix op
  | _ => none

def emppLokadIdIter : Iter (List Bytes) LokadId :=
  Iter.ofElements emppLokadId

def txInputLokadIdIter : Iter (List TxInput) LokadId :=
  Iter.ofElements parseInputScriptLokadId

def opreturnLokadId (tx : TxMut) : Option LokadId :=
  tx.outputs.head?.bind fun output => parseOpreturnLokadId output.script

def emppPushdata (tx : TxMut) : List Bytes :=
  match tx.outputs.head? with
  | some output =>
    match Empp.parse output.script with
    | .ok (some pushdata) => pushdata
    | _ => []
  | none => []

/-- What a caller gets that iterates over the LOKAD ids of a transaction. -/
def parseTxLokadIds (tx : TxMut) : List LokadId :=
  (Iter.chain (Iter.chain Iter.ofOption emppLokadIdIter) txInputLokadIdIter).collect
    (some (some (opreturnLokadId tx), emppPushdata tx), tx.inputs)

/-!
## The ids that are found
-/

def allLokadIds (tx : TxMut) : List LokadId :=
  (opreturnLokadId tx).toList ++ (emppPushdata tx).filterMap emppLokadId ++
    tx.inputs.filterMap parseInputScriptLokadId

theorem parseTxLokadIds_eq (tx : TxMut) :
    parseTxLokadIds tx = (opreturnLokadId tx).toList ++
      Iter.untilNone emppLokadId (emppPushdata tx) ++
      Iter.untilNone parseInputScriptLokadId tx.inputs := by
  unfold parseTxLokadIds emppLokadIdIter txInputLokadIdIter
  rw [Iter.collect_chain, Iter.collect_chain, Iter.collect_ofOption, Iter.collect_ofElements,
    Iter.collect_ofElements]

/-- The ids are found exactly if no push and no input without one comes before a push or an input
that has one. -/
theorem parseTxLokadIds_eq_allLokadIds_iff (tx : TxMut) :
    parseTxLokadIds tx = allLokadIds tx <->
      Iter.NoneHidden emppLokadId (emppPushdata tx) ∧
        Iter.NoneHidden parseInputScriptLokadId tx.inputs := by
  have hpushes := Iter.untilNone_isPrefix (f := emppLokadId) (emppPushdata tx)
  have hinputs := Iter.untilNone_isPrefix (f := parseInputScriptLokadId) tx.inputs
  rw [parseTxLokadIds_eq, ← Iter.untilNone_eq_iff, ← Iter.untilNone_eq_iff]
  unfold allLokadIds
  constructor
  · intro heq
    -- neither part is longer than it should be, so both have their length
    have hlength := congrArg List.length heq
    simp only [List.length_append] at hlength
    have hpushesLe := hpushes.length_le
    have hinputsLe := hinputs.length_le
    exact ⟨hpushes.eq_of_length (by omega), hinputs.eq_of_length (by omega)⟩
  · rintro ⟨hpushesEq, hinputsEq⟩
    rw [hpushesEq, hinputsEq]

/-- The second input starts with a LOKAD id. -/
private def hiddenInput : TxMut :=
  { inputs := [⟨⟨[0x51]⟩⟩, ⟨⟨[4, 97, 98, 99, 100]⟩⟩], outputs := [] }

/-- An input without a LOKAD id hides the one of the next input. -/
theorem parseTxLokadIds_hiddenInput :
    parseTxLokadIds hiddenInput = [] ∧ allLokadIds hiddenInput = [⟨[97, 98, 99, 100], rfl⟩] := by
  decide

end LokadId

end ECash.Tokens
