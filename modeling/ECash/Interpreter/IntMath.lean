import ECash.Pow.Asert

/-!
# Sums and differences of 63 bits and a sign

The emulated variants look for an overflow before they add or subtract; the built-in ones wrap
around and report it.  The least number of 64 bits counts as an overflow for both.
-/

namespace ECash.Interpreter

open ECash.Pow (Fault IsInt64 int64)

def int64Min : Int := -2 ^ 63

def int64Max : Int := 2 ^ 63 - 1

/-- A guard `applies && fires(bound)`: the bound is computed only if the first part holds. -/
def overflowGuard (applies : Bool) (bound : Int) (fires : Int -> Bool) : Except Fault Bool :=
  if applies then (int64 bound).map fires else .ok false

/-- The value that is returned, and what `result` holds then. -/
def emulatedInt63 (overflow underflow : Except Fault Bool) (exact result : Int) :
    Except Fault (Bool × Int) := do
  if ← overflow then return (true, result)
  if ← underflow then return (true, result)
  let result ← int64 exact
  return (result = int64Min, result)

def addInt63OverflowEmulated (a b result : Int) : Except Fault (Bool × Int) :=
  emulatedInt63 (overflowGuard (a > 0) (int64Max - a) (b > ·))
    (overflowGuard (a < 0) (int64Min - a) (b ≤ ·)) (a + b) result

def subInt63OverflowEmulated (a b result : Int) : Except Fault (Bool × Int) :=
  emulatedInt63 (overflowGuard (a < 0) (int64Max + a) (b > ·))
    (overflowGuard (a > 0) (int64Min + a) (b ≤ ·)) (a - b) result

/-- `__builtin_saddll_overflow` and `__builtin_ssubll_overflow` store the wrapped result. -/
def builtinOverflow (exact : Int) : Bool × Int :=
  (¬ IsInt64 exact, exact.bmod (2 ^ 64))

def builtinInt63 (exact : Int) : Bool × Int :=
  let (overflow, result) := builtinOverflow exact
  (overflow || result = int64Min, result)

def addInt63Overflow (a b : Int) : Bool × Int :=
  builtinInt63 (a + b)

def subInt63Overflow (a b : Int) : Bool × Int :=
  builtinInt63 (a - b)

def Fits63 (x : Int) : Prop :=
  -(2 ^ 63 - 1) ≤ x ∧ x ≤ 2 ^ 63 - 1

/-- No operation overflows, and the exact number is stored with `false` returned exactly if it
has 63 bits and a sign, as by the built-in variant. -/
def Int63Right (exact : Int) (emulated : Except Fault (Bool × Int)) (builtin : Bool × Int) : Prop :=
  exists flag stored, emulated = .ok (flag, stored) ∧ builtin.1 = flag ∧
    (flag = false <-> Fits63 exact) ∧ (flag = false -> stored = exact ∧ builtin.2 = exact)

variable {exact : Int}

theorem int63Right_ok {flag : Bool} {stored : Int} :
    Int63Right exact (.ok (flag, stored)) (builtinInt63 exact) <->
      (flag = false <-> Fits63 exact) ∧ (flag = false -> stored = exact) := by
  have hwrap : IsInt64 exact -> exact.bmod (2 ^ 64) = exact :=
    fun h => Int.bmod_eq_of_le h.left h.right
  unfold Int63Right builtinInt63 builtinOverflow int64Min Fits63
  grind

theorem overflowGuard_eq {applies : Bool} {bound : Int} (h : applies = true -> IsInt64 bound)
    (fires : Int -> Bool) : overflowGuard applies bound fires = .ok (applies && fires bound) := by
  unfold overflowGuard int64
  cases applies with
  | false => rfl
  | true =>
    rw [if_pos rfl, if_pos (h rfl)]
    rfl

/-- Guards are right if they fire only on numbers that do not fit, and on all without 64 bits. -/
theorem int63Right_iff {overflow underflow : Bool} {result : Int} :
    Int63Right exact (emulatedInt63 (.ok overflow) (.ok underflow) exact result)
        (builtinInt63 exact) <->
      if overflow || underflow then ¬ Fits63 exact else IsInt64 exact := by
  have hrun : emulatedInt63 (.ok overflow) (.ok underflow) exact result =
      if overflow || underflow then .ok (true, result)
      else (int64 exact).map fun r => (decide (r = int64Min), r) := by
    cases overflow <;> cases underflow <;> rfl
  rw [hrun]
  split
  · simp [int63Right_ok]
  · unfold int64
    split
    · rename_i h
      apply int63Right_ok.trans
      unfold Fits63 int64Min
      grind
    · rename_i h
      exact iff_of_false nofun h

theorem addInt63_right {a b : Int} (ha : IsInt64 a) (hb : IsInt64 b) (result : Int) :
    Int63Right (a + b) (addInt63OverflowEmulated a b result) (addInt63Overflow a b) := by
  unfold addInt63OverflowEmulated int64Max int64Min
  rw [overflowGuard_eq (by grind), overflowGuard_eq (by grind)]
  apply int63Right_iff.mpr
  unfold Fits63
  grind

theorem subInt63_right_iff {a b : Int} (ha : IsInt64 a) (hb : IsInt64 b) (result : Int) :
    Int63Right (a - b) (subInt63OverflowEmulated a b result) (subInt63Overflow a b) <->
      ¬ (a = 0 ∧ b = int64Min) := by
  unfold subInt63OverflowEmulated int64Max int64Min
  rw [overflowGuard_eq (by grind), overflowGuard_eq (by grind)]
  apply int63Right_iff.trans
  unfold Fits63
  grind

theorem int63_right_iff (a b : Int64) (result : Int) :
    (Int63Right (a.toInt + b.toInt) (addInt63OverflowEmulated a.toInt b.toInt result)
        (addInt63Overflow a.toInt b.toInt) ∧
      Int63Right (a.toInt - b.toInt) (subInt63OverflowEmulated a.toInt b.toInt result)
        (subInt63Overflow a.toInt b.toInt)) <-> ¬ (a.toInt = 0 ∧ b.toInt = int64Min) := by
  have ha : IsInt64 a.toInt := ⟨a.le_toInt, a.toInt_lt⟩
  have hb : IsInt64 b.toInt := ⟨b.le_toInt, b.toInt_lt⟩
  exact (and_iff_right (addInt63_right ha hb result)).trans (subInt63_right_iff ha hb result)

/-- Neither guard looks at zero, and zero minus the least number is not one of 64 bits. -/
theorem subInt63OverflowEmulated_zero :
    (0 : Int64).toInt = 0 ∧ Int64.minValue.toInt = int64Min ∧
      forall result, subInt63OverflowEmulated 0 int64Min result = .error .undefined :=
  ⟨rfl, rfl, fun _ => rfl⟩

end ECash.Interpreter
