import ECash.Lib.Writer

/-!
# Scripts of the library

A script is read operation by operation; what follows an operation is the rest of the bytes.
-/

namespace ECash.Lib

open Foundation

abbrev Opcode := UInt8

def OP_PUSHDATA1 : Opcode := 0x4c
def OP_PUSHDATA2 : Opcode := 0x4d
def OP_PUSHDATA4 : Opcode := 0x4e
def OP_DUP : Opcode := 0x76
def OP_EQUAL : Opcode := 0x87
def OP_EQUALVERIFY : Opcode := 0x88
def OP_HASH160 : Opcode := 0xa9
def OP_CODESEPARATOR : Opcode := 0xab
def OP_CHECKSIG : Opcode := 0xac

inductive Op where
  | code (opcode : Opcode)
  | push (opcode : Opcode) (data : Bytes)
deriving DecidableEq, Repr

structure Script where
  bytecode : Bytes
deriving DecidableEq, Repr

/-!
## Reading operations
-/

def readBytes (numBytes : Nat) (bytes : Bytes) : Except LibError (Bytes × Bytes) :=
  if bytes.length < numBytes then
    .error (.notEnoughBytes numBytes bytes.length)
  else .ok (bytes.take numBytes, bytes.drop numBytes)

def readNumber (width : Nat) (bytes : Bytes) : Except LibError (Nat × Bytes) :=
  match readLittleEndian width bytes with
  | none => .error (.notEnoughBytes width bytes.length)
  | some (value, rest) => .ok (value, rest)

def readOp : Bytes -> Except LibError (Op × Bytes)
  | [] => .error (.notEnoughBytes 1 0)
  | opcode :: bytes =>
    if opcode = OP_PUSHDATA1 then do
      let (numBytes, bytes) ← readNumber 1 bytes
      let (data, bytes) ← readBytes numBytes bytes
      .ok (.push opcode data, bytes)
    else if opcode = OP_PUSHDATA2 then do
      let (numBytes, bytes) ← readNumber 2 bytes
      let (data, bytes) ← readBytes numBytes bytes
      .ok (.push opcode data, bytes)
    else if opcode = OP_PUSHDATA4 then do
      let (numBytes, bytes) ← readNumber 4 bytes
      let (data, bytes) ← readBytes numBytes bytes
      .ok (.push opcode data, bytes)
    else if opcode < 0x01 ∨ opcode > 0x4b then .ok (.code opcode, bytes)
    else do
      let (data, bytes) ← readBytes opcode.toNat bytes
      .ok (.push opcode data, bytes)

/-!
## Writing scripts
-/

namespace Script

def writeWithSize (script : Script) : List Put :=
  writeVarSize script.bytecode.length ++ [.bytes script.bytecode]

@[simp] theorem writerLength_writeWithSize (script : Script) :
    writerLength script.writeWithSize =
      writerLength (writeVarSize script.bytecode.length) + script.bytecode.length := by
  simp [writeWithSize, Put.length]

/-- Walk over the operations; each takes a byte at least. -/
def cutOutCodesepLoop (nCodesep : Nat) : Nat -> Nat -> Bytes -> Except LibError Script
  | _, _, [] => .error .codeseparatorNotFound
  | 0, _, _ :: _ => .error .codeseparatorNotFound
  | rounds + 1, nCodesepsFound, byte :: bytes => do
      let (op, rest) ← readOp (byte :: bytes)
      if op = .code OP_CODESEPARATOR then
        if nCodesepsFound = nCodesep then .ok { bytecode := rest }
        else cutOutCodesepLoop nCodesep rounds (nCodesepsFound + 1) rest
      else cutOutCodesepLoop nCodesep rounds nCodesepsFound rest

def cutOutCodesep (script : Script) (nCodesep : Nat) : Except LibError Script :=
  cutOutCodesepLoop nCodesep script.bytecode.length 0 script.bytecode

def isP2sh (script : Script) : Bool :=
  script.bytecode.length = 23 ∧ script.bytecode[0]? = some OP_HASH160 ∧
    script.bytecode[1]? = some 20 ∧ script.bytecode[22]? = some OP_EQUAL

end Script

end ECash.Lib
