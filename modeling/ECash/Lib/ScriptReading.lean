import ECash.Interpreter.ScriptOps
import ECash.Lib.Script

/-!
# Reading scripts

The library and the node read the operations of a script with code of their own.  Both go on at
the same places, and fail at the same places.
-/

namespace ECash.Lib

open Foundation Interpreter

/-- The operation the library has for one of the node. -/
def Op.ofNode (opcode : UInt8) (data : Bytes) : Op :=
  if 0x01 ≤ opcode ∧ opcode ≤ OP_PUSHDATA4 then .push opcode data else .code opcode

def pushAfter (push : Bytes -> Op) (size : Nat × Bytes) : Option (Op × Bytes) :=
  if size.2.length < size.1 then none else some (push (size.2.take size.1), size.2.drop size.1)

theorem toOption_readBytes (push : Bytes -> Op) (numBytes : Nat) (bytes : Bytes) :
    (do
      let (data, bytes) ← readBytes numBytes bytes
      .ok (push data, bytes) : Except LibError (Op × Bytes)).toOption =
      pushAfter push (numBytes, bytes) := by
  unfold readBytes pushAfter
  by_cases h : bytes.length < numBytes
  · rw [if_pos h, if_pos h]
    rfl
  · rw [if_neg h, if_neg h]
    rfl

theorem toOption_readNumber (push : Bytes -> Op) (width : Nat) (bytes : Bytes) :
    (do
      let (numBytes, bytes) ← readNumber width bytes
      let (data, bytes) ← readBytes numBytes bytes
      .ok (push data, bytes) : Except LibError (Op × Bytes)).toOption =
      (readLittleEndian width bytes).bind (pushAfter push) := by
  unfold readNumber
  cases readLittleEndian width bytes with
  | none => rfl
  | some size => exact toOption_readBytes push size.1 size.2

/-- What the library makes of the operation that the node reads. -/
def nodeOp (pc : Bytes) : Option (Op × Bytes) :=
  (Interpreter.getScriptOp pc).1.map fun op =>
    (Op.ofNode op.1 op.2, (Interpreter.getScriptOp pc).2)

theorem nodeOp_push {opcode : UInt8} (h : opcode ≤ OP_PUSHDATA4) (pc : Bytes) :
    nodeOp (opcode :: pc) =
      (Interpreter.immediateSize opcode pc).bind (pushAfter (Op.ofNode opcode)) := by
  have hle : opcode ≤ Interpreter.OP_PUSHDATA4 := h
  unfold nodeOp getScriptOp
  simp only [if_pos hle]
  cases immediateSize opcode pc with
  | none => rfl
  | some size =>
    simp only [Option.bind_some, pushAfter]
    split <;> rfl

theorem readOp_eq (pc : Bytes) : (readOp pc).toOption = nodeOp pc := by
  cases pc with
  | nil => rfl
  | cons opcode pc =>
    by_cases h1 : opcode = OP_PUSHDATA1
    · rw [h1, nodeOp_push (by decide)]
      exact toOption_readNumber _ 1 pc
    by_cases h2 : opcode = OP_PUSHDATA2
    · rw [h2, nodeOp_push (by decide)]
      exact toOption_readNumber _ 2 pc
    by_cases h4 : opcode = OP_PUSHDATA4
    · rw [h4, nodeOp_push (by decide)]
      exact toOption_readNumber _ 4 pc
    simp only [readOp, if_neg h1, if_neg h2, if_neg h4]
    -- The other operations are told apart by their numbers.
    have hnat : forall other : UInt8, opcode ≠ other -> opcode.toNat ≠ other.toNat :=
      fun _ hne heq => hne (UInt8.toNat_inj.mp heq)
    have hn1 : opcode.toNat ≠ 0x4c := hnat _ h1
    have hn2 : opcode.toNat ≠ 0x4d := hnat _ h2
    have hn4 : opcode.toNat ≠ 0x4e := hnat _ h4
    by_cases hlow : opcode.toNat ≤ 0x4b
    · have hsize : immediateSize opcode pc = some (opcode.toNat, pc) :=
        if_pos (show opcode.toNat < 0x4c by omega)
      rw [nodeOp_push (show opcode.toNat ≤ 0x4e by omega), hsize, Option.bind_some]
      by_cases hzero : opcode.toNat = 0
      · have hop : opcode = 0 := UInt8.toNat_inj.mp hzero
        rw [hop]
        rfl
      have hpush : ¬ (opcode < 0x01 ∨ opcode > 0x4b) := by
        show ¬ (opcode.toNat < 1 ∨ 0x4b < opcode.toNat)
        omega
      have hop : Op.ofNode opcode = .push opcode := by
        funext data
        exact if_pos ⟨show 1 ≤ opcode.toNat by omega, show opcode.toNat ≤ 0x4e by omega⟩
      rw [if_neg hpush, hop]
      exact toOption_readBytes _ _ pc
    · have hcode : opcode < 0x01 ∨ opcode > 0x4b := .inr (not_le.mp hlow)
      have hhigh : ¬ opcode ≤ Interpreter.OP_PUSHDATA4 := by
        show ¬ opcode.toNat ≤ 0x4e
        omega
      have hop : Op.ofNode opcode [] = .code opcode := if_neg fun h => hhigh h.2
      simp only [if_pos hcode, nodeOp, getScriptOp, if_neg hhigh, Option.map_some, hop]
      rfl

theorem readOp_length {pc rest : Bytes} {op : Op} (h : readOp pc = .ok (op, rest)) :
    rest.length < pc.length := by
  have hnode := readOp_eq pc
  rw [h] at hnode
  rcases Option.map_eq_some_iff.mp hnode.symm with ⟨_, hread, heq⟩
  cases heq
  exact getScriptOp_length (Prod.ext hread rfl)

/-- An operation the node reads is read by the library, which goes on at the same place. -/
theorem readOp_of_getScriptOp {pc rest data : Bytes} {opcode : UInt8}
    (h : Interpreter.getScriptOp pc = (some (opcode, data), rest)) :
    readOp pc = .ok (Op.ofNode opcode data, rest) := by
  have hnode := readOp_eq pc
  unfold nodeOp at hnode
  rw [h] at hnode
  cases hread : readOp pc with
  | error error =>
    rw [hread] at hnode
    cases hnode
  | ok result =>
    rw [hread] at hnode
    cases hnode
    rfl

end ECash.Lib
