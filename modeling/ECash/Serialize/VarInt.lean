import ECash.Foundation.ByteFormat

/-!
# Variable-length integers

Seven bits a byte, the highest first, with the high bit set in all bytes but the last.  One is
taken off after every byte, so that no number has two encodings.
-/

namespace ECash.Serialize

open Foundation List

/-- An integer type; of a signed one only the numbers from zero on are written. -/
structure IntType where
  size : Nat
  signed : Bool
  pos : 0 < size

def IntType.bits (I : IntType) : Nat :=
  I.size * 8 - I.signed.toNat

/-- `std::numeric_limits<I>::max()` -/
def IntType.max (I : IntType) : Nat :=
  2 ^ I.bits - 1

def varIntByte (len n : Nat) : UInt8 :=
  UInt8.ofNat (n % 128 + if len = 0 then 0x00 else 0x80)

/-- What the loop of `WriteVarInt` stores in `tmp`, from the index `len` on. -/
def fillTmp (len n : Nat) : Bytes :=
  if n ≤ 0x7F then [varIntByte len n] else varIntByte len n :: fillTmp (len + 1) (n / 128 - 1)
termination_by n
decreasing_by omega

/-- Fails if `tmp` is too small. -/
def writeVarInt (I : IntType) (n : Nat) : Option Bytes :=
  if (fillTmp 0 n).length ≤ (I.size * 8 + 6) / 7 then some (fillTmp 0 n).reverse else none

inductive VarIntError where
  | endOfData
  | sizeTooLarge
deriving DecidableEq

/-- The loop of `ReadVarInt`, with the number so far. -/
def readLoop (I : IntType) : Nat -> Bytes -> Except VarIntError (Nat × Bytes)
  | _, [] => .error .endOfData
  | n, chData :: is =>
    if n > I.max / 128 then .error .sizeTooLarge
    else
      let n := n * 128 + chData.toNat % 128
      if chData.toNat < 0x80 then .ok (n, is)
      else if n = I.max then .error .sizeTooLarge
      else readLoop I (n + 1) is

def readVarInt (I : IntType) (is : Bytes) : Except VarIntError (Nat × Bytes) :=
  readLoop I 0 is

/-!
## Reading what was written
-/

variable {I : IntType} {len n acc : Nat} {bytes rest : Bytes} {chData : UInt8}

theorem IntType.bits_bounds (I : IntType) : 7 ≤ I.bits ∧ I.bits ≤ I.size * 8 := by
  have hpos := I.pos
  have hsign := I.signed.toNat_le
  unfold bits
  omega

theorem IntType.lt_iff_div (I : IntType) (n : Nat) : I.max < n <-> I.max / 128 < n / 128 := by
  have hpow := pow_sub_mul_pow 2 I.bits_bounds.left
  have hpos := Nat.two_pow_pos (I.bits - 7)
  unfold max
  omega

/-- A byte and the number above it stand for a number. -/
theorem varIntByte_eq_iff : varIntByte len n = chData <->
    chData.toNat % 128 = n % 128 ∧ (chData.toNat < 128 <-> len = 0) := by
  have hlt := chData.toNat_lt
  unfold varIntByte
  rw [← UInt8.toNat_inj, UInt8.toNat_ofNat']
  split <;> omega

theorem readLoop_byte (h : varIntByte len n = chData) (hacc : acc = n / 128) :
    readLoop I acc (chData :: rest) =
      if I.max < n then .error .sizeTooLarge
      else if len = 0 then .ok (n, rest)
      else if n = I.max then .error .sizeTooLarge
      else readLoop I (n + 1) rest := by
  rcases varIntByte_eq_iff.mp h with ⟨hlow, hflag⟩
  rw [readLoop, hlow, hacc, Nat.div_add_mod']
  simp only [gt_iff_lt, ← I.lt_iff_div, hflag]

theorem readLoop_fillTmp : readLoop I 0 ((fillTmp len n).reverse ++ rest) =
    readLoop I (n / 128) (varIntByte len n :: rest) := by
  fun_induction fillTmp len n generalizing rest with
  | case1 len n hsmall =>
    rw [Nat.div_eq_of_lt (by omega)]
    rfl
  | case2 len n hlarge ih =>
    rw [reverse_cons, append_assoc, ih, readLoop_byte rfl rfl, Nat.sub_add_cancel (by omega),
      singleton_append, readLoop_byte rfl rfl]
    grind

theorem length_fillTmp {room : Nat} (hroom : 0 < room) (h : n < 128 ^ room) :
    (fillTmp len n).length ≤ room := by
  fun_induction fillTmp len n generalizing room with
  | case1 len n hsmall => exact hroom
  | case2 len n hlarge ih =>
    rcases Nat.exists_eq_add_one.mpr hroom with ⟨room, rfl⟩
    have hpos : room ≠ 0 := by
      rintro rfl
      omega
    exact Nat.succ_le_succ (ih (Nat.pos_of_ne_zero hpos) (by omega))

theorem writeVarInt_eq (h : n ≤ I.max) : writeVarInt I n = some (fillTmp 0 n).reverse := by
  have hpos := I.pos
  apply if_pos
  apply length_fillTmp (by omega)
  calc n < 2 ^ I.bits := Nat.lt_of_le_sub_one (Nat.two_pow_pos _) h
    _ ≤ 2 ^ (7 * ((I.size * 8 + 6) / 7)) := by
        have hle := I.bits_bounds.right
        exact Nat.pow_le_pow_right two_pos (by omega)
    _ = 128 ^ ((I.size * 8 + 6) / 7) := pow_mul 2 7 _

/-!
## Writing what was read
-/

/-- What is stored from an index on for the number above the byte before it. -/
def fillAbove (len : Nat) : Nat -> Bytes
  | 0 => []
  | n + 1 => fillTmp len n

theorem fillTmp_eq (h : varIntByte len n = chData) (hacc : acc = n / 128) :
    fillTmp len n = chData :: fillAbove (len + 1) acc := by
  rw [fillTmp, h]
  split
  · rw [hacc, Nat.div_eq_of_lt (by omega)]
    rfl
  · rw [← hacc]
    cases acc with
    | zero => omega
    | succ acc => rfl

theorem readLoop_eq_ok (h : readLoop I acc bytes = .ok (n, rest)) :
    n ≤ I.max ∧ exists code, code ≠ [] ∧ bytes = code ++ rest ∧
      fillTmp 0 n = code.reverse ++ fillAbove code.length acc := by
  induction bytes generalizing acc with
  | nil => cases h
  | cons chData bytes ih =>
    have hbyte : forall len, (chData.toNat < 128 <-> len = 0) ->
        varIntByte len (acc * 128 + chData.toNat % 128) = chData :=
      fun len hflag => varIntByte_eq_iff.mpr ⟨by omega, hflag⟩
    have hacc : acc = (acc * 128 + chData.toNat % 128) / 128 := by omega
    by_cases hlast : chData.toNat < 128
    · rw [readLoop_byte (hbyte 0 (by simpa using hlast)) hacc, if_pos rfl] at h
      split at h
      · cases h
      · rename_i hmax
        cases h
        exact ⟨not_lt.mp hmax, [chData], cons_ne_nil _ _, rfl,
          fillTmp_eq (hbyte 0 (by simpa using hlast)) hacc⟩
    · rw [readLoop_byte (hbyte 1 (by simpa using hlast)) hacc, if_neg one_ne_zero] at h
      split at h
      · cases h
      split at h
      · cases h
      rcases ih h with ⟨hle, code, hne, hbytes, hfill⟩
      refine ⟨hle, chData :: code, cons_ne_nil _ _, congrArg (cons chData) hbytes, ?_⟩
      have hlength := length_pos_iff.mpr hne
      rw [hfill, reverse_cons, append_assoc]
      exact congrArg (code.reverse ++ ·) (fillTmp_eq (hbyte code.length (by omega)) hacc)

/-- Writing and reading are inverse to each other, with any data behind the number: every number
of the type has one encoding, what is read as a number is its encoding, and the encoding of a
number above the type, by a wider one, is refused. -/
theorem varInt_inverse (I : IntType) :
    (forall n, n ≤ I.max -> exists code, writeVarInt I n = some code ∧
      forall rest, readVarInt I (code ++ rest) = .ok (n, rest)) ∧
    (forall bytes n rest, readVarInt I bytes = .ok (n, rest) ->
      n ≤ I.max ∧ exists code, writeVarInt I n = some code ∧ bytes = code ++ rest) ∧
    forall (J : IntType) n code rest, I.max < n -> writeVarInt J n = some code ->
      readVarInt I (code ++ rest) = .error .sizeTooLarge := by
  refine ⟨?_, ?_, ?_⟩
  · intro n hle
    refine ⟨_, writeVarInt_eq hle, fun rest => ?_⟩
    rw [readVarInt, readLoop_fillTmp, readLoop_byte rfl rfl, if_neg (not_lt.mpr hle), if_pos rfl]
  · intro bytes n rest h
    rcases readLoop_eq_ok h with ⟨hle, code, _, hbytes, hfill⟩
    refine ⟨hle, _, writeVarInt_eq hle, ?_⟩
    rw [hfill, fillAbove, append_nil, reverse_reverse]
    exact hbytes
  · intro J n code rest hlarge hcode
    unfold writeVarInt at hcode
    split at hcode
    · cases hcode
      rw [readVarInt, readLoop_fillTmp, readLoop_byte rfl rfl, if_pos hlarge]
    · cases hcode

end ECash.Serialize
