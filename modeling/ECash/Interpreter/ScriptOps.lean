import ECash.Foundation.ByteFormat

/-!
# Operations of a script

The node reads a script through an iterator that is moved past each operation.  The iterator
is modelled as the bytes from it to the end of the script.
-/

namespace ECash.Interpreter

open Foundation List

def OP_PUSHDATA1 : UInt8 := 0x4c
def OP_PUSHDATA2 : UInt8 := 0x4d
def OP_PUSHDATA4 : UInt8 := 0x4e
def OP_CODESEPARATOR : UInt8 := 0xab

/-- The size of what an operation pushes, and the iterator after it. -/
def immediateSize (opcode : UInt8) (pc : Bytes) : Option (Nat × Bytes) :=
  if opcode < OP_PUSHDATA1 then some (opcode.toNat, pc)
  else if opcode = OP_PUSHDATA1 then readLittleEndian 1 pc
  else if opcode = OP_PUSHDATA2 then readLittleEndian 2 pc
  else readLittleEndian 4 pc

/-- The operation and what it pushes, if there is one, and the iterator afterwards.  A failed
read leaves the iterator where it stopped. -/
def getScriptOp : Bytes -> Option (UInt8 × Bytes) × Bytes
  | [] => (none, [])
  | opcode :: pc =>
    if opcode ≤ OP_PUSHDATA4 then
      match immediateSize opcode pc with
      | none => (none, pc)
      | some (nSize, pc) =>
        if pc.length < nSize then (none, pc)
        else (some (opcode, pc.take nSize), pc.drop nSize)
    else (some (opcode, []), pc)

theorem readLittleEndian_length {width n : Nat} {bytes rest : Bytes}
    (h : readLittleEndian width bytes = some (n, rest)) : rest.length + width = bytes.length := by
  induction width generalizing n bytes rest with
  | zero =>
    simp only [readLittleEndian, Option.some.injEq, Prod.mk.injEq] at h
    rw [h.2, add_zero]
  | succ width ih =>
    cases bytes with
    | nil => simp [readLittleEndian] at h
    | cons byte bytes =>
      cases hread : readLittleEndian width bytes with
      | none => simp [readLittleEndian, hread] at h
      | some result =>
        have hlength := ih hread
        simp only [readLittleEndian, hread, Option.bind_eq_bind, Option.bind_some,
          Option.some.injEq, Prod.mk.injEq] at h
        rw [length_cons, ← h.2]
        omega

theorem immediateSize_length {opcode : UInt8} {pc rest : Bytes} {nSize : Nat}
    (h : immediateSize opcode pc = some (nSize, rest)) : rest.length ≤ pc.length := by
  unfold immediateSize at h
  split_ifs at h
  · simp only [Option.some.injEq, Prod.mk.injEq] at h
    rw [h.2]
  all_goals
    have hlength := readLittleEndian_length h
    omega

theorem getScriptOp_length {pc rest : Bytes} {op : UInt8 × Bytes}
    (h : getScriptOp pc = (some op, rest)) : rest.length < pc.length := by
  cases pc with
  | nil => simp [getScriptOp] at h
  | cons opcode pc =>
    simp only [getScriptOp] at h
    split_ifs at h
    · cases hsize : immediateSize opcode pc with
      | none => simp [hsize] at h
      | some size =>
        have hle := immediateSize_length hsize
        simp only [hsize] at h
        split_ifs at h
        · simp at h
        · simp only [Prod.mk.injEq] at h
          rw [← h.2, length_drop, length_cons]
          omega
    · simp only [Prod.mk.injEq] at h
      rw [h.2, length_cons]
      omega

/-!
## The code that is signed

While a script is run, the interpreter remembers where the code after the last executed
separator begins.
-/

/-- The iterators of a run, with the number of separators read so far and the number of the
last one that was executed. -/
structure Reading where
  pc : Bytes
  pbegincodehash : Bytes
  separators : Nat
  lastExecuted : Option Nat
deriving DecidableEq, Repr

def Reading.start (script : Bytes) : Reading where
  pc := script
  pbegincodehash := script
  separators := 0
  lastExecuted := none

/-- Read one operation; it is executed if all the conditions around it are true. -/
def Reading.next (reading : Reading) (fExec : Bool) : Option Reading :=
  match getScriptOp reading.pc with
  | (none, _) => none
  | (some (opcode, _), pc) =>
    if opcode = OP_CODESEPARATOR then
      if fExec then
        some
          { pc, pbegincodehash := pc, separators := reading.separators + 1,
            lastExecuted := some reading.separators }
      else some { reading with pc, separators := reading.separators + 1 }
    else some { reading with pc }

/-- The iterators after some operations, given which of them were executed. -/
def readOperations (script : Bytes) (fExecs : List Bool) : Option Reading :=
  fExecs.foldlM Reading.next (Reading.start script)

end ECash.Interpreter
