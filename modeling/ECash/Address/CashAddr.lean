import Mathlib

/-!
# Cash addresses

An address is a prefix, a separator and a payload of characters that stand for five bits each.  The
last eight characters are a checksum of all others.  A hash is packed into the payload after a byte
that has its type and its size.
-/

namespace ECash.Address

abbrev Chars := List UInt8
abbrev Data := List UInt8

/-- Undefined behaviour, or the error that is thrown for a hash of an unknown size. -/
inductive Fault where
  | undefined
  | invalidAddressLength
deriving DecidableEq

/-!
## The checksum
-/

/-- `qpzry9x8gf2tvdw0s3jn54khce6mua7l` -/
def charset : Chars :=
  [113, 112, 122, 114, 121, 57, 120, 56, 103, 102, 50, 116, 118, 100, 119, 48,
   115, 51, 106, 110, 53, 52, 107, 104, 99, 101, 54, 109, 117, 97, 55, 108]

def charsetRev : List Int8 :=
  [-1, -1, -1, -1, -1, -1, -1, -1, -1, -1, -1, -1, -1, -1, -1, -1, -1, -1, -1,
   -1, -1, -1, -1, -1, -1, -1, -1, -1, -1, -1, -1, -1, -1, -1, -1, -1, -1, -1,
   -1, -1, -1, -1, -1, -1, -1, -1, -1, -1, 15, -1, 10, 17, 21, 20, 26, 30, 7,
   5,  -1, -1, -1, -1, -1, -1, -1, 29, -1, 24, 13, 25, 9,  8,  23, -1, 18, 22,
   31, 27, 19, -1, 1,  0,  3,  16, 11, 28, 12, 14, 6,  4,  2,  -1, -1, -1, -1,
   -1, -1, 29, -1, 24, 13, 25, 9,  8,  23, -1, 18, 22, 31, 27, 19, -1, 1,  0,
   3,  16, 11, 28, 12, 14, 6,  4,  2,  -1, -1, -1, -1, -1]

def charValue (c : UInt8) : Option UInt8 :=
  if c > 127 then none
  else
    match charsetRev[c.toNat]? with
    | some value => if value = -1 then none else some value.toUInt8
    | none => none

def addGenerator (c0 flag : UInt8) (generator c : UInt64) : UInt64 :=
  if c0 &&& flag ≠ 0 then c ^^^ generator else c

def polyModStep (c : UInt64) (d : UInt8) : UInt64 :=
  let c0 := (c >>> 35).toUInt8
  let c := ((c &&& 0x07ffffffff) <<< 5) ^^^ d.toUInt64
  let c := addGenerator c0 0x01 0x98f2bc8e61 c
  let c := addGenerator c0 0x02 0x79b76d99e2 c
  let c := addGenerator c0 0x04 0xf33e5fb3c4 c
  let c := addGenerator c0 0x08 0xae2eabe2a8 c
  addGenerator c0 0x10 0x1e4f43e470 c

def polyMod (v : Data) : UInt64 :=
  v.foldl polyModStep 1 ^^^ 1

def lowerCase (c : UInt8) : UInt8 := c ||| 0x20

def expandPrefix (pre : Chars) : Data :=
  pre.map (fun c => c &&& 0x1f) ++ [0]

def verifyChecksum (pre : Chars) (payload : Data) : Bool :=
  polyMod (expandPrefix pre ++ payload) == 0

def createChecksum (pre : Chars) (payload : Data) : Data :=
  let mod := polyMod (expandPrefix pre ++ payload ++ List.replicate 8 0)
  (List.range 8).map fun i => ((mod >>> UInt64.ofNat (5 * (7 - i))) &&& 0x1f).toUInt8

/-!
## Strings
-/

def colon : UInt8 := 58

def isLower (c : UInt8) : Bool := decide (97 ≤ c ∧ c ≤ 122)
def isUpper (c : UInt8) : Bool := decide (65 ≤ c ∧ c ≤ 90)
def isDigit (c : UInt8) : Bool := decide (48 ≤ c ∧ c ≤ 57)

/-- A value beyond the character set would read behind it. -/
def charOf (c : UInt8) : Except Fault UInt8 :=
  match charset[c.toNat]? with
  | some char => .ok char
  | none => .error .undefined

def encode (pre : Chars) (payload : Data) : Except Fault Chars := do
  let chars ← (payload ++ createChecksum pre payload).mapM charOf
  return pre ++ colon :: chars

structure Scan where
  lower : Bool
  upper : Bool
  hasNumber : Bool
  prefixSize : Nat
deriving DecidableEq

def scanChar (scan : Scan) (entry : UInt8 × Nat) : Option Scan :=
  let c := entry.1
  if isLower c then some { scan with lower := true }
  else if isUpper c then some { scan with upper := true }
  else if isDigit c then some { scan with hasNumber := true }
  else if c = colon then
    -- not first, only once, and no numbers before
    if scan.hasNumber ∨ entry.2 = 0 ∨ scan.prefixSize ≠ 0 then none
    else some { scan with prefixSize := entry.2 }
  else none

def scanString (str : Chars) : Option Scan :=
  str.zipIdx.foldlM scanChar { lower := false, upper := false, hasNumber := false, prefixSize := 0 }

def splitPrefix (str defaultPrefix : Chars) (prefixSize : Nat) : Chars × Chars :=
  if prefixSize = 0 then (defaultPrefix, str)
  else ((str.take prefixSize).map lowerCase, str.drop (prefixSize + 1))

/-- An empty prefix means failure. Without eight values the result would end before it begins. -/
def decode (str defaultPrefix : Chars) : Except Fault (Chars × Data) :=
  match scanString str with
  | none => .ok ([], [])
  | some scan =>
    if scan.upper ∧ scan.lower then .ok ([], [])
    else
      let (pre, chars) := splitPrefix str defaultPrefix scan.prefixSize
      match chars.mapM charValue with
      | none => .ok ([], [])
      | some values =>
        if verifyChecksum pre values = false then .ok ([], [])
        else if values.length < 8 then .error .undefined
        else .ok (pre, values.take (values.length - 8))

/-!
## Packing
-/

def drainBits (toBits acc : Nat) : Nat -> Nat -> List Nat × Nat
  | 0, bits => ([], bits)
  | rounds + 1, bits =>
    if bits ≥ toBits then
      let (out, left) := drainBits toBits acc rounds (bits - toBits)
      (((acc >>> (bits - toBits)) &&& (2 ^ toBits - 1)) :: out, left)
    else ([], bits)

structure Regroup where
  acc : Nat
  bits : Nat
  out : List Nat

def regroupStep (fromBits toBits : Nat) (state : Regroup) (v : Nat) : Regroup :=
  let acc := ((state.acc <<< fromBits) ||| v) &&& (2 ^ (fromBits + toBits - 1) - 1)
  let bits := state.bits + fromBits
  let (out, left) := drainBits toBits acc bits bits
  { acc, bits := left, out := state.out ++ out }

def convertBits (fromBits toBits : Nat) (pad : Bool) (values : List Nat) : Bool × List Nat :=
  let state := values.foldl (regroupStep fromBits toBits) { acc := 0, bits := 0, out := [] }
  let last := (state.acc <<< (toBits - state.bits)) &&& (2 ^ toBits - 1)
  if pad then
    if state.bits ≠ 0 then (true, state.out ++ [last]) else (true, state.out)
  else if state.bits ≥ fromBits ∨ last ≠ 0 then (false, state.out)
  else (true, state.out)

structure CashAddrContent where
  type : UInt8
  hash : Data
deriving DecidableEq

def encodedSize (size : Nat) : Option UInt8 :=
  match size * 8 with
  | 160 => some 0
  | 192 => some 1
  | 224 => some 2
  | 256 => some 3
  | 320 => some 4
  | 384 => some 5
  | 448 => some 6
  | 512 => some 7
  | _ => none

def packAddrData (id : Data) (type : UInt8) : Except Fault Data :=
  match encodedSize id.length with
  | none => .error .invalidAddressLength
  | some size =>
    let versionByte := (type <<< 3) ||| size
    let converted := (convertBits 8 5 true ((versionByte :: id).map UInt8.toNat)).2
    .ok (converted.map UInt8.ofNat)

def encodeCashAddr (pre : Chars) (content : CashAddrContent) : Except Fault Chars := do
  let data ← packAddrData content.hash content.type
  encode pre data

def noContent : CashAddrContent := { type := 0, hash := [] }

def hashSize (version : UInt8) : Nat :=
  let size := 20 + 4 * (version &&& 0x03).toNat
  if version &&& 0x04 ≠ 0 then size * 2 else size

def unpackContent : Data -> Except Fault CashAddrContent
  | [] => .error .undefined
  | version :: hash =>
    if version &&& 0x80 ≠ 0 then .ok noContent
    else if (version :: hash).length ≠ hashSize version + 1 then .ok noContent
    else .ok { type := (version >>> 3) &&& 0x1f, hash }

/-- An empty hash means failure. -/
def decodeCashAddrContent (addr expectedPrefix : Chars) : Except Fault CashAddrContent := do
  let (pre, payload) ← decode addr expectedPrefix
  if pre ≠ expectedPrefix then return noContent
  else if payload = [] then return noContent
  else
    let (complete, data) := convertBits 5 8 false (payload.map UInt8.toNat)
    if complete then unpackContent (data.map UInt8.ofNat)
    else return noContent

end ECash.Address
