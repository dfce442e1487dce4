import Mathlib.Data.List.Basic
import Mathlib.Data.Nat.ModEq

/-!
# The last items of a history

A shift register keeps the last flags of a history as bits, and a ring keeps its last items.  The
histories here have the newest item first.
-/

namespace ECash.Foundation

/-!
## Shift registers
-/

section ShiftRegister

def flagBit (flag : Bool) : UInt8 := if flag then 1 else 0

/-- The register of a history of flags, to which each flag was shifted in. -/
def shiftedIn : List Bool -> UInt8
  | [] => 0
  | flag :: older => (shiftedIn older <<< 1) ||| flagBit flag

def flagAt (flags : List Bool) (i : Nat) : Bool :=
  flags[i]?.getD false

def countBits (v : UInt8) : Nat :=
  (List.range 8).countP v.toNat.testBit

theorem testBit_flagBit (flag : Bool) (i : Nat) :
    (flagBit flag).toNat.testBit i = (decide (i = 0) && flag) := by
  cases flag with
  | false => simp [flagBit]
  | true =>
    show Nat.testBit (2 ^ 0) i = _
    rw [Nat.testBit_two_pow, Bool.and_true, decide_eq_decide]
    exact eq_comm

theorem testBit_shiftedIn (flags : List Bool) (i : Nat) :
    (shiftedIn flags).toNat.testBit i = (decide (i < 8) && flagAt flags i) := by
  induction flags generalizing i with
  | nil => simp [shiftedIn, flagAt]
  | cons flag older ih =>
    unfold shiftedIn
    rw [UInt8.toNat_or, Nat.testBit_or, testBit_flagBit, UInt8.toNat_shiftLeft,
      Nat.testBit_mod_two_pow]
    show (_ && (Nat.testBit (_ <<< 1) i) || _) = _
    rw [Nat.testBit_shiftLeft, ih]
    cases i with
    | zero => simp [flagAt]
    | succ i =>
      have hflag : flagAt (flag :: older) (i + 1) = flagAt older i := rfl
      rw [hflag]
      by_cases hlt : i + 1 < 8
      · simp [hlt, Nat.lt_of_succ_lt hlt]
      · simp [hlt]

theorem countP_range_flagAt (flags : List Bool) (n : Nat) :
    (List.range n).countP (flagAt flags) = (flags.take n).countP id := by
  induction n with
  | zero => rw [List.range_zero, List.take_zero, List.countP_nil, List.countP_nil]
  | succ n ih =>
    rw [List.range_succ, List.countP_append, List.take_add_one, List.countP_append]
    congr 1
    unfold flagAt
    cases h : flags[n]? with
    | none => simp [h]
    | some flag => simp [h, List.countP_singleton]

theorem countBits_eq {v : UInt8} {flags : List Bool}
    (h : forall i, i < 8 -> v.toNat.testBit i = flagAt flags i) :
    countBits v = (flags.take 8).countP id := by
  rw [← countP_range_flagAt]
  unfold countBits
  apply List.countP_congr
  intro i hi
  rw [h i (List.mem_range.mp hi)]

variable {item : Type} (p q : item -> Bool) (items : List item)

theorem countBits_combine {v : UInt8} (combine : Bool -> Bool -> Bool)
    (hempty : combine false false = false)
    (h : forall i, i < 8 -> v.toNat.testBit i = combine ((shiftedIn (items.map p)).toNat.testBit i)
      ((shiftedIn (items.map q)).toNat.testBit i)) :
    countBits v = (items.take 8).countP fun x => combine (p x) (q x) := by
  have hflags : forall i, i < 8 ->
      v.toNat.testBit i = flagAt (items.map fun x => combine (p x) (q x)) i := by
    intro i hi
    rw [h i hi, testBit_shiftedIn, testBit_shiftedIn]
    unfold flagAt
    rw [List.getElem?_map, List.getElem?_map, List.getElem?_map]
    cases items[i]? with
    | none => simp [hempty]
    | some x => simp [hi]
  rw [countBits_eq hflags, ← List.map_take, List.countP_map]
  rfl

theorem countBits_and :
    countBits (shiftedIn (items.map p) &&& shiftedIn (items.map q)) =
      (items.take 8).countP fun x => p x && q x := by
  refine countBits_combine p q items (· && ·) rfl fun i _ => ?_
  rw [UInt8.toNat_and, Nat.testBit_and]

theorem countBits_not_and :
    countBits (~~~ shiftedIn (items.map p) &&& shiftedIn (items.map q)) =
      (items.take 8).countP fun x => !p x && q x := by
  refine countBits_combine p q items (!· && ·) rfl fun i hi => ?_
  have hsize : UInt8.size - 1 - (shiftedIn (items.map p)).toNat =
      2 ^ 8 - ((shiftedIn (items.map p)).toNat + 1) := by
    show 256 - 1 - _ = 256 - (_ + 1)
    omega
  rw [UInt8.toNat_and, Nat.testBit_and, UInt8.toNat_not, hsize,
    Nat.testBit_two_pow_sub_succ (UInt8.toNat_lt _)]
  simp [hi]

end ShiftRegister

/-!
## Rings
-/

variable {item : Type} {size : Nat}

/-- The ring has the last items of the history, each at the place it was written to. -/
def RingHolds (ring : Vector item size) (empty : item) (items : List item) : Prop :=
  forall i, i < size -> ring[(items.length + (size - 1 - i)) % size]? = some (items.getD i empty)

theorem ringHolds_replicate (empty : item) : RingHolds (Vector.replicate size empty) empty [] := by
  intro i hi
  have hlt : (([] : List item).length + (size - 1 - i)) % size < size :=
    Nat.mod_lt _ (Nat.zero_lt_of_lt hi)
  rw [Vector.getElem?_replicate, if_pos hlt]
  rfl

theorem RingHolds.push {ring : Vector item size} {empty : item} {items : List item}
    (h : RingHolds ring empty items) (x : item) (hlt : items.length % size < size) :
    RingHolds (ring.set (items.length % size) x hlt) empty (x :: items) := by
  intro i _
  rw [Vector.getElem?_set, List.length_cons]
  cases i with
  | zero =>
    have hplace : items.length + 1 + (size - 1 - 0) = items.length + size := by omega
    rw [hplace, Nat.add_mod_right, if_pos rfl]
    rfl
  | succ i =>
    have hplace : items.length + 1 + (size - 1 - (i + 1)) = items.length + (size - 1 - i) := by
      omega
    rw [hplace, if_neg]
    · exact h i (by omega)
    -- the places of the last `size` items differ
    intro heq
    have hmod : (items.length + 0) % size = (items.length + (size - 1 - i)) % size := heq
    have hzero : 0 % size = (size - 1 - i) % size := Nat.ModEq.add_left_cancel' _ hmod
    rw [Nat.zero_mod, Nat.mod_eq_of_lt (by omega)] at hzero
    omega

end ECash.Foundation
