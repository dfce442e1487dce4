import ECash.Foundation.ByteFormat

/-!
# Writers

Objects are serialized by a sequence of puts.  A first writer measures the length of the
result, and a second one writes it to an array of that size.
-/

namespace ECash.Lib

open Foundation List

inductive LibError where
  | cannotFit (value : Int) (width : Nat)
  | notEnoughBytes (tried left : Nat)
  | legacySigHash
  | noSignData
  | outputScriptIsP2sh
  | noScript
  | codeseparatorNotFound
  | multipleLeftover
  | noInputValue
  | noFeePerKb
  | feePerKbNotInteger
  | noDustLimit
  | insufficientInputValue (inputSum canPay required : Int)
  | other (message : String)
deriving DecidableEq, Repr

/-- One call of a writer. -/
inductive Put where
  | u8 (value : Int)
  | u16 (value : Int)
  | u32 (value : Int)
  | u64 (value : Int)
  | bytes (data : Bytes)
deriving DecidableEq, Repr

/-!
## Measuring
-/

def Put.length : Put -> Nat
  | u8 _ => 1
  | u16 _ => 2
  | u32 _ => 4
  | u64 _ => 8
  | bytes data => data.length

def writerLength (puts : List Put) : Nat :=
  puts.foldl (fun length put => length + put.length) 0

theorem writerLength_eq (puts : List Put) : writerLength puts = (puts.map Put.length).sum := by
  have hfold : forall length, puts.foldl (fun length put => length + put.length) length =
      length + (puts.map Put.length).sum := by
    induction puts with
    | nil =>
      intro length
      rfl
    | cons put puts ih =>
      intro length
      rw [foldl_cons, ih, map_cons, sum_cons, add_assoc]
  unfold writerLength
  rw [hfold, zero_add]

@[simp] theorem writerLength_nil : writerLength [] = 0 := rfl

@[simp] theorem writerLength_cons (put : Put) (puts : List Put) :
    writerLength (put :: puts) = put.length + writerLength puts := by
  rw [writerLength_eq, writerLength_eq, map_cons, sum_cons]

@[simp] theorem writerLength_append (puts others : List Put) :
    writerLength (puts ++ others) = writerLength puts + writerLength others := by
  rw [writerLength_eq, writerLength_eq, writerLength_eq, map_append, sum_append]

/-!
## Writing
-/

/-- A number must fit the width it is written with. -/
def putNumber (width : Nat) (value : Int) : Except LibError Bytes :=
  if value < 0 ∨ value > 256 ^ width - 1 then .error (.cannotFit value width)
  else .ok (littleEndian width value.toNat)

def Put.encode : Put -> Except LibError Bytes
  | u8 value => putNumber 1 value
  | u16 value => putNumber 2 value
  | u32 value => putNumber 4 value
  | u64 value => putNumber 8 value
  | bytes data => .ok data

def ensureSize (size idx extraBytes : Nat) : Except LibError Unit :=
  if size < idx + extraBytes then
    .error (.notEnoughBytes extraBytes (size - idx))
  else .ok ()

/-- The bytes so far, and those of a put if the array has room for them. -/
def putBytes (size : Nat) (data : Bytes) (put : Put) : Except LibError Bytes := do
  let bytes ← put.encode
  ensureSize size data.length put.length
  .ok (data ++ bytes)

/-- The array is zero where nothing is written. -/
def writerBytes (size : Nat) (puts : List Put) : Except LibError Bytes := do
  let data ← puts.foldlM (putBytes size) []
  .ok (data ++ replicate (size - data.length) 0)

def write (puts : List Put) : Except LibError Bytes :=
  writerBytes (writerLength puts) puts

/-!
## Numbers that fit
-/

def FitsIn (width : Nat) (value : Int) : Prop :=
  0 ≤ value ∧ value < 256 ^ width

instance (width : Nat) (value : Int) : Decidable (FitsIn width value) := by
  unfold FitsIn
  infer_instance

def Put.Fits : Put -> Prop
  | u8 value => FitsIn 1 value
  | u16 value => FitsIn 2 value
  | u32 value => FitsIn 4 value
  | u64 value => FitsIn 8 value
  | bytes _ => True

def Put.encoded : Put -> Bytes
  | u8 value => littleEndian 1 value.toNat
  | u16 value => littleEndian 2 value.toNat
  | u32 value => littleEndian 4 value.toNat
  | u64 value => littleEndian 8 value.toNat
  | bytes data => data

theorem putNumber_fits {width : Nat} {value : Int} (h : FitsIn width value) :
    putNumber width value = .ok (littleEndian width value.toNat) := by
  unfold putNumber
  rw [if_neg]
  unfold FitsIn at h
  omega

theorem putNumber_error {width : Nat} {value : Int} (h : ¬ FitsIn width value) :
    putNumber width value = .error (.cannotFit value width) := by
  unfold putNumber
  rw [if_pos]
  unfold FitsIn at h
  omega

theorem Put.encode_fits {put : Put} (h : put.Fits) : put.encode = .ok put.encoded := by
  cases put with
  | u8 value => exact putNumber_fits h
  | u16 value => exact putNumber_fits h
  | u32 value => exact putNumber_fits h
  | u64 value => exact putNumber_fits h
  | bytes data => rfl

theorem Put.encoded_length (put : Put) : put.encoded.length = put.length := by
  cases put with
  | u8 value => exact littleEndian_length 1 _
  | u16 value => exact littleEndian_length 2 _
  | u32 value => exact littleEndian_length 4 _
  | u64 value => exact littleEndian_length 8 _
  | bytes data => rfl

theorem foldlM_putBytes {size : Nat} (puts : List Put) (hfits : forall put, put ∈ puts -> put.Fits)
    (data : Bytes) (hsize : data.length + writerLength puts ≤ size) :
    puts.foldlM (putBytes size) data = .ok (data ++ puts.flatMap Put.encoded) := by
  induction puts generalizing data with
  | nil =>
    rw [flatMap_nil, append_nil]
    rfl
  | cons put puts ih =>
    rw [writerLength_cons] at hsize
    have hput : putBytes size data put = .ok (data ++ put.encoded) := by
      have hroom : ¬ size < data.length + put.length := by omega
      simp only [putBytes, Put.encode_fits (hfits put mem_cons_self), ensureSize, hroom,
        if_false, bind, Except.bind]
    have hrest := ih (forall_mem_cons.mp hfits).2
      (data ++ put.encoded) (by rw [length_append, Put.encoded_length]; omega)
    rw [foldlM_cons, hput, flatMap_cons, ← append_assoc]
    exact hrest

theorem flatMap_encoded_length (puts : List Put) :
    (puts.flatMap Put.encoded).length = writerLength puts := by
  induction puts with
  | nil => rfl
  | cons put puts ih => rw [flatMap_cons, length_append, ih, Put.encoded_length, writerLength_cons]

theorem write_fits {puts : List Put} (hfits : forall put, put ∈ puts -> put.Fits) :
    write puts = .ok (puts.flatMap Put.encoded) := by
  unfold write writerBytes
  rw [foldlM_putBytes puts hfits [] (by simp)]
  simp only [bind, Except.bind, nil_append, flatMap_encoded_length, Nat.sub_self,
    replicate_zero, append_nil]

/-- Puts that fit and write these bytes. -/
def Writes (puts : List Put) (bytes : Bytes) : Prop :=
  (forall put, put ∈ puts -> put.Fits) ∧ puts.flatMap Put.encoded = bytes

namespace Writes

variable {puts : List Put}

theorem write_eq {bytes : Bytes} (h : Writes puts bytes) : write puts = .ok bytes := by
  rw [write_fits h.left, h.right]

theorem length {bytes : Bytes} (h : Writes puts bytes) : bytes.length = writerLength puts := by
  rw [← h.right, flatMap_encoded_length]

theorem nil : Writes [] [] := ⟨nofun, rfl⟩

theorem append {others : List Put} {bytes rest : Bytes} (h : Writes puts bytes)
    (hrest : Writes others rest) : Writes (puts ++ others) (bytes ++ rest) := by
  refine ⟨forall_mem_append.mpr ⟨h.left, hrest.left⟩, ?_⟩
  rw [flatMap_append, h.right, hrest.right]

theorem cons {put : Put} {bytes rest : Bytes} (h : Writes [put] bytes)
    (hrest : Writes puts rest) : Writes (put :: puts) (bytes ++ rest) :=
  h.append hrest

theorem single {put : Put} (hfits : put.Fits) : Writes [put] put.encoded :=
  ⟨forall_mem_singleton.mpr hfits, flatMap_singleton ..⟩

theorem bytes (data : Bytes) : Writes [.bytes data] data :=
  @single (.bytes data) trivial

theorem byte (value : UInt8) : Writes [Put.u8 value.toNat] [value] := by
  have hlt := value.toNat_lt
  have hfits : (Put.u8 value.toNat).Fits := by
    simp only [Put.Fits, FitsIn]
    omega
  have hwrites := single hfits
  simp only [Put.encoded, littleEndian, Int.toNat_natCast, Nat.mod_eq_of_lt hlt] at hwrites
  rw [UInt8.ofNat_toNat] at hwrites
  exact hwrites

theorem flatMap {α β : Type} {same : α -> β -> Prop} {f : α -> List Put} {g : β -> Bytes}
    (hsame : forall x y, same x y -> Writes (f x) (g y)) {xs : List α} {ys : List β}
    (h : Forall₂ same xs ys) : Writes (xs.flatMap f) (ys.flatMap g) := by
  induction h with
  | nil => exact nil
  | cons hxy _ ih => exact (hsame _ _ hxy).append ih

end Writes

theorem write_error {before after : List Put} {put : Put} {error : LibError}
    (hbefore : forall other, other ∈ before -> other.Fits) (hput : put.encode = .error error) :
    write (before ++ put :: after) = .error error := by
  have hsize : ([] : Bytes).length + writerLength before ≤
      writerLength (before ++ put :: after) := by
    rw [writerLength_append, length_nil]
    omega
  unfold write writerBytes
  rw [foldlM_append, foldlM_putBytes before hbefore [] hsize]
  simp only [foldlM_cons, putBytes, hput, bind, Except.bind]

/-!
## Sizes
-/

/-- Lengths of arrays are below 2^53, so that the widest form fits every length. -/
def writeVarSize (size : Nat) : List Put :=
  if size ≤ 0xfc then [.u8 size]
  else if size ≤ 0xffff then [.u8 0xfd, .u16 size]
  else if size ≤ 0xffffffff then [.u8 0xfe, .u32 size]
  else [.u8 0xff, .u64 size]

theorem writerLength_writeVarSize_mono {size size' : Nat} (h : size ≤ size') :
    writerLength (writeVarSize size) ≤ writerLength (writeVarSize size') := by
  unfold writeVarSize
  split_ifs <;> simp [Put.length] <;> omega

theorem writeVarSize_fits {size : Nat} (h : size < 2 ^ 64) :
    forall put, put ∈ writeVarSize size -> put.Fits := by
  intro put hput
  unfold writeVarSize at hput
  split_ifs at hput
  all_goals
    simp only [mem_cons, not_mem_nil, or_false] at hput
  · subst hput
    simp only [Put.Fits, FitsIn]
    omega
  all_goals
    rcases hput with hput | hput
    all_goals
      subst hput
      simp only [Put.Fits, FitsIn]
      omega

end ECash.Lib
