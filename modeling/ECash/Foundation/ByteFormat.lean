import Mathlib.Data.List.GetD
import Mathlib.Tactic.IntervalCases

/-!
# Byte formats

Values written to a stream of bytes and read back from the front of one: numbers with
the least significant byte first, lists of a known length, and bits packed into bytes.
-/

namespace ECash.Foundation

open List

abbrev Bytes := List UInt8

/-!
## Numbers
-/

def littleEndian : Nat -> Nat -> Bytes
  | 0, _ => []
  | width + 1, n => UInt8.ofNat (n % 256) :: littleEndian width (n / 256)

def readLittleEndian : Nat -> Bytes -> Option (Nat × Bytes)
  | 0, bytes => some (0, bytes)
  | _ + 1, [] => none
  | width + 1, byte :: bytes => do
      let (high, rest) ← readLittleEndian width bytes
      some (byte.toNat + 256 * high, rest)

theorem readLittleEndian_littleEndian {width n : Nat} (h : n < 256 ^ width) (rest : Bytes) :
    readLittleEndian width (littleEndian width n ++ rest) = some (n, rest) := by
  induction width generalizing n with
  | zero =>
    have hzero : n = 0 := by simpa using h
    rw [hzero]
    rfl
  | succ width ih =>
    have hhigh : n / 256 < 256 ^ width := by
      rw [Nat.div_lt_iff_lt_mul (by decide)]
      exact h
    have hbyte : (UInt8.ofNat (n % 256)).toNat = n % 256 := by simp
    simp only [littleEndian, cons_append, readLittleEndian, ih hhigh, hbyte]
    show some (n % 256 + 256 * (n / 256), rest) = _
    rw [Nat.mod_add_div]

theorem littleEndian_length (width n : Nat) : (littleEndian width n).length = width := by
  induction width generalizing n with
  | zero => rfl
  | succ width ih =>
    unfold littleEndian
    rw [length_cons, ih]

/-- Numbers with the most significant byte first. -/
def bigEndian (width n : Nat) : Bytes :=
  (littleEndian width n).reverse

def readBigEndian (bytes : Bytes) : Nat :=
  match readLittleEndian bytes.length bytes.reverse with
  | some (n, _) => n
  | none => 0

theorem bigEndian_length (width n : Nat) : (bigEndian width n).length = width := by
  unfold bigEndian
  rw [length_reverse, littleEndian_length]

theorem readBigEndian_bigEndian {width n : Nat} (h : n < 256 ^ width) :
    readBigEndian (bigEndian width n) = n := by
  have hread := readLittleEndian_littleEndian h []
  rw [append_nil] at hread
  unfold readBigEndian
  rw [bigEndian_length, bigEndian, reverse_reverse, hread]

theorem bigEndian_inj {width n m : Nat} (hn : n < 256 ^ width) (hm : m < 256 ^ width)
    (h : bigEndian width n = bigEndian width m) : n = m := by
  rw [← readBigEndian_bigEndian hn, h, readBigEndian_bigEndian hm]

/-!
## Numbers of any size
-/

/-- Digits to the base 128, the least significant first, with a mark on all but the last. -/
def varintLoop : Nat -> Nat -> Bytes
  | 0, n => [UInt8.ofNat n]
  | rounds + 1, n =>
    if n < 128 then [UInt8.ofNat n]
    else UInt8.ofNat (n % 128 + 128) :: varintLoop rounds (n / 128)

def varint (n : Nat) : Bytes :=
  varintLoop n n

def readVarint : Bytes -> Option (Nat × Bytes)
  | [] => none
  | byte :: bytes =>
    if byte.toNat < 128 then some (byte.toNat, bytes)
    else do
      let (high, rest) ← readVarint bytes
      some (byte.toNat - 128 + 128 * high, rest)

theorem readVarint_varintLoop {rounds n : Nat} (h : n ≤ rounds) (rest : Bytes) :
    readVarint (varintLoop rounds n ++ rest) = some (n, rest) := by
  have hlast : forall m, m < 128 -> readVarint ([UInt8.ofNat m] ++ rest) = some (m, rest) := by
    intro m hm
    have hbyte : (UInt8.ofNat m).toNat = m := by
      rw [UInt8.toNat_ofNat']
      omega
    show readVarint (UInt8.ofNat m :: rest) = _
    unfold readVarint
    rw [hbyte, if_pos hm]
  induction rounds generalizing n with
  | zero => exact hlast n (by omega)
  | succ rounds ih =>
    unfold varintLoop
    by_cases hsmall : n < 128
    · rw [if_pos hsmall]
      exact hlast n hsmall
    have hbyte : (UInt8.ofNat (n % 128 + 128)).toNat = n % 128 + 128 := by
      rw [UInt8.toNat_ofNat']
      omega
    have hhigh := @ih (n / 128) (by omega)
    rw [if_neg hsmall, cons_append]
    unfold readVarint
    rw [hbyte, hhigh]
    show some (n % 128 + 128 - 128 + 128 * (n / 128), rest) = _
    rw [Nat.add_sub_cancel, Nat.mod_add_div]

/-!
## Lists
-/

/-- How the values of a type are written, and read back whatever follows them. -/
structure Format (α : Type) where
  write : α -> Bytes
  read : Bytes -> Option (α × Bytes)
  read_write : forall x rest, read (write x ++ rest) = some (x, rest)

def byteFormat : Format UInt8 where
  write := fun byte => [byte]
  read
    | [] => none
    | byte :: rest => some (byte, rest)
  read_write := fun _ _ => rfl

namespace Format

variable {α : Type} (format : Format α)

def writeAll (xs : List α) : Bytes :=
  xs.flatMap format.write

def readMany : Nat -> Bytes -> Option (List α × Bytes)
  | 0, bytes => some ([], bytes)
  | n + 1, bytes => do
      let (x, bytes) ← format.read bytes
      let (xs, rest) ← readMany n bytes
      some (x :: xs, rest)

theorem readMany_writeAll (xs : List α) (rest : Bytes) :
    format.readMany xs.length (format.writeAll xs ++ rest) = some (xs, rest) := by
  induction xs with
  | nil => rfl
  | cons x xs ih =>
    have happend : format.writeAll (x :: xs) ++ rest =
        format.write x ++ (format.writeAll xs ++ rest) := by
      simp [writeAll]
    simp only [length_cons, readMany, happend, format.read_write]
    show (do
      let (xs, rest) ← format.readMany xs.length (format.writeAll xs ++ rest)
      some (x :: xs, rest)) = _
    rw [ih]
    rfl

/-- Read values until the bytes are used up. -/
def readAll : Nat -> Bytes -> Option (List α)
  | _, [] => some []
  | 0, _ :: _ => none
  | rounds + 1, byte :: bytes => do
      let (x, rest) ← format.read (byte :: bytes)
      let xs ← readAll rounds rest
      some (x :: xs)

end Format

def varintFormat : Format Nat where
  write := varint
  read := readVarint
  read_write := fun _ rest => readVarint_varintLoop le_rfl rest

/-!
## Bits
-/

/-- The byte with the bits `f 0` to `f 7`, the least significant first. -/
def byteOf (f : Nat -> Bool) : UInt8 :=
  (range 8).foldl (fun byte j => byte ||| (if f j then 1 <<< UInt8.ofNat j else 0)) 0

def testByte (byte : UInt8) (j : Nat) : Bool :=
  (byte &&& (1 <<< UInt8.ofNat j)) != 0

theorem testByte_byteOf (f : Nat -> Bool) {j : Nat} (h : j < 8) : testByte (byteOf f) j = f j := by
  have hall : forall b0 b1 b2 b3 b4 b5 b6 b7 : Bool, forall i : Fin 8,
      testByte (byteOf fun k => [b0, b1, b2, b3, b4, b5, b6, b7].getD k false) i =
        [b0, b1, b2, b3, b4, b5, b6, b7].getD i false := by
    decide +kernel
  have hsame : byteOf f =
      byteOf fun k => [f 0, f 1, f 2, f 3, f 4, f 5, f 6, f 7].getD k false := by
    rfl
  rw [hsame, hall _ _ _ _ _ _ _ _ ⟨j, h⟩]
  interval_cases j <;> rfl

def packBits (bits : List Bool) : Bytes :=
  (range ((bits.length + 7) / 8)).map fun i => byteOf fun j => bits.getD (8 * i + j) false

def unpackBits (bytes : Bytes) : List Bool :=
  (range (bytes.length * 8)).map fun p => testByte (bytes.getD (p / 8) 0) (p % 8)

theorem length_packBits (bits : List Bool) : (packBits bits).length = (bits.length + 7) / 8 := by
  simp [packBits]

theorem unpackBits_packBits (bits : List Bool) :
    unpackBits (packBits bits) =
      bits ++ replicate ((bits.length + 7) / 8 * 8 - bits.length) false := by
  apply ext_getElem
  · simp [unpackBits, length_packBits]
    omega
  intro p hleft _
  have hp : p < (bits.length + 7) / 8 * 8 := by simpa [unpackBits, length_packBits] using hleft
  have hbyte : p / 8 < (bits.length + 7) / 8 := by omega
  have hindex : 8 * (p / 8) + p % 8 = p := Nat.div_add_mod p 8
  have hget : (unpackBits (packBits bits))[p] = bits.getD p false := by
    simp only [unpackBits, packBits, getElem_map, getElem_range]
    rw [getD_eq_getElem _ _ (by simpa using hbyte)]
    simp only [getElem_map, getElem_range]
    rw [testByte_byteOf _ (Nat.mod_lt p (by decide)), hindex]
  rw [hget]
  by_cases hin : p < bits.length
  · rw [getD_eq_getElem _ _ hin, getElem_append_left hin]
  · rw [getD_eq_default _ _ (by omega), getElem_append_right (by omega), getElem_replicate]

end ECash.Foundation
