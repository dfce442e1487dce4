import Mathlib.Data.List.Basic

/-!
# Byte readers and script operations

The readers of the core crate take bytes off the front of a buffer, so a reader
is a state transformer over the remaining bytes that may fail.  A script is
read operation by operation; the iterator stops after the first operation it
cannot read.
-/

namespace ECash.Tokens

abbrev Bytes := List UInt8

abbrev ByteArr (n : Nat) := { bytes : Bytes // bytes.length = n }

def leNat (bytes : Bytes) : Nat :=
  bytes.foldr (fun b acc => b.toNat + 256 * acc) 0

def beNat (bytes : Bytes) : Nat :=
  bytes.foldl (fun acc b => 256 * acc + b.toNat) 0

inductive DataError where
  | invalidLength (expected actual : Nat)
  deriving DecidableEq, Repr

abbrev Reader (error value : Type) := StateT Bytes (Except error) value

def readBytes (numBytes : Nat) : Reader DataError Bytes := fun bytes =>
  if bytes.length < numBytes then
    .error (.invalidLength numBytes bytes.length)
  else
    .ok (bytes.take numBytes, bytes.drop numBytes)

def readArray (n : Nat) : Reader DataError (ByteArr n) := fun bytes =>
  if h : bytes.length < n then
    .error (.invalidLength n bytes.length)
  else
    .ok (⟨bytes.take n, by rw [List.length_take]; omega⟩, bytes.drop n)

def readByte : Reader DataError UInt8
  | [] => .error (.invalidLength 1 0)
  | b :: rest => .ok (b, rest)

def readCompactSize : Reader DataError Nat := do
  let firstByte <- readByte
  if firstByte ≤ 0xfc then
    return firstByte.toNat
  else if firstByte = 0xfd then
    return leNat (<- readArray 2).val
  else if firstByte = 0xfe then
    return leNat (<- readArray 4).val
  else
    return leNat (<- readArray 8).val

/-!
## Opcodes and operations
-/

abbrev Opcode := UInt8

def op0 : Opcode := 0x00
def opPushdata1 : Opcode := 0x4c
def opPushdata2 : Opcode := 0x4d
def opPushdata4 : Opcode := 0x4e
def op1Negate : Opcode := 0x4f
def opReserved : Opcode := 0x50
def op16 : Opcode := 0x60
def opReturn : Opcode := 0x6a
def opEqual : Opcode := 0x87
def opHash160 : Opcode := 0xa9

inductive Op where
  | code (opcode : Opcode)
  | push (opcode : Opcode) (data : Bytes)
  deriving DecidableEq, Repr

def readOp : Reader DataError Op := do
  let opcodeNum <- readByte
  if 0x01 ≤ opcodeNum ∧ opcodeNum ≤ 0x4b then
    return .push opcodeNum (<- readBytes opcodeNum.toNat)
  else if opcodeNum = opPushdata1 then
    let size <- readByte
    return .push opcodeNum (<- readBytes size.toNat)
  else if opcodeNum = opPushdata2 then
    let size <- readArray 2
    return .push opcodeNum (<- readBytes (leNat size.val))
  else if opcodeNum = opPushdata4 then
    let size <- readArray 4
    return .push opcodeNum (<- readBytes (leNat size.val))
  else
    return .code opcodeNum

/-- The iterator over a script's operations.  Every operation takes at least one
byte, so the length of the bytecode bounds the number of calls. -/
def iterOpsFrom : Nat -> Bytes -> List (Except DataError Op)
  | 0, _ => []
  | _ + 1, [] => []
  | calls + 1, b :: rest =>
    match readOp (b :: rest) with
    | .ok (op, remaining) => .ok op :: iterOpsFrom calls remaining
    | .error err => [.error err]

structure Script where
  bytecode : Bytes
  deriving DecidableEq, Repr

namespace Script

def iterOps (script : Script) : List (Except DataError Op) :=
  iterOpsFrom script.bytecode.length script.bytecode

def isOpreturn (script : Script) : Bool :=
  match script.bytecode.head? with
  | some byte => byte = opReturn
  | none => false

def p2sh (hash : ByteArr 20) : Script :=
  { bytecode := opHash160 :: 20 :: hash.val ++ [opEqual] }

/-- The byte the parsers report for the operation at `idx`; they only ask for a
byte that the iterator has already seen. -/
def opcodeAt (script : Script) (idx : Nat) : Opcode :=
  script.bytecode.getD idx 0

end Script

end ECash.Tokens
