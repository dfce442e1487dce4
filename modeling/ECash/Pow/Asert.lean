import Mathlib
import ECash.Foundation.Computation

/-!
# The difficulty of the next block

The target of the next block is the target of an anchor block times a power of two whose
exponent says how far the chain is behind its schedule.  The node computes it with 64-bit and
256-bit integers; here the result is compared with the exact one.
-/

namespace ECash.Pow

open Foundation

/-!
## Multiplication by a power of two

Shifts to the left and to the right are one operation with a signed exponent that rounds
down.
-/

def scaled (n : Nat) (k : Int) : Nat :=
  n * 2 ^ k.toNat / 2 ^ (-k).toNat

theorem scaled_of_nonneg (n : Nat) {k : Int} (h : 0 ≤ k) : scaled n k = n <<< k.toNat := by
  unfold scaled
  rw [Int.toNat_of_nonpos (by omega : -k ≤ 0), Nat.shiftLeft_eq, pow_zero, Nat.div_one]

theorem scaled_of_nonpos (n : Nat) {k : Int} (h : k ≤ 0) : scaled n k = n >>> (-k).toNat := by
  unfold scaled
  rw [Int.toNat_of_nonpos h, Nat.shiftRight_eq_div_pow, pow_zero, mul_one]

theorem scaled_mono {m n : Nat} (h : m ≤ n) (k : Int) : scaled m k ≤ scaled n k :=
  Nat.div_le_div_right (Nat.mul_le_mul_right _ h)

theorem scaled_succ (n : Nat) (k : Int) : scaled n (k + 1) = scaled (n * 2) k := by
  by_cases h : 0 ≤ k
  · rw [scaled_of_nonneg n (by omega), scaled_of_nonneg _ h,
      (by omega : (k + 1).toNat = k.toNat + 1), Nat.shiftLeft_eq, Nat.shiftLeft_eq, pow_succ',
      mul_assoc]
  · rw [scaled_of_nonpos n (by omega), scaled_of_nonpos _ (by omega),
      (by omega : (-k).toNat = (-(k + 1)).toNat + 1), Nat.shiftRight_eq_div_pow,
      Nat.shiftRight_eq_div_pow, pow_succ, Nat.mul_div_mul_right _ _ (by decide)]

/-!
## Integers of the node
-/

inductive Fault where
  | assertion
  | undefined
deriving DecidableEq, Repr

/-- A failed assertion ends the program. -/
def assert (p : Prop) [Decidable p] : Except Fault Unit :=
  rejectIf (¬ p) .assertion

abbrev IsInt64 (x : Int) : Prop :=
  -2 ^ 63 ≤ x ∧ x < 2 ^ 63

/-- A signed result; an overflow is undefined. -/
def int64 (x : Int) : Except Fault Int :=
  if IsInt64 x then .ok x else .error .undefined

/-- The shifts of 256-bit numbers take an unsigned 32-bit amount. -/
def shiftAmount (shifts : Int) : Nat :=
  (shifts % 2 ^ 32).toNat

/-- `65536 * 2 ^ (frac / 65536)`, approximated by a cubic polynomial. -/
def factor (frac : Nat) : Nat :=
  (65536 + ((195766423245049 * frac + 971821376 * frac * frac + 5127 * frac * frac * frac +
    2 ^ 47) % 2 ^ 64) >>> 48) % 2 ^ 32

/-- The high bits that a shift to the left discards do not come back. -/
def shiftOverflows (nextTarget amount : Nat) : Prop :=
  ((nextTarget <<< amount) % 2 ^ 256) >>> amount ≠ nextTarget

instance (nextTarget amount : Nat) : Decidable (shiftOverflows nextTarget amount) :=
  inferInstanceAs (Decidable (_ ≠ _))

/-- The multiplication by the power of two and the limits of the result. -/
def adaptTarget (nextTarget : Nat) (shifts : Int) (powLimit : Nat) : Nat :=
  let nextTarget :=
    if shifts ≤ 0 then nextTarget >>> shiftAmount (-shifts)
    else if shiftOverflows nextTarget (shiftAmount shifts) then powLimit
    else (nextTarget <<< shiftAmount shifts) % 2 ^ 256
  if nextTarget = 0 then 1 else if nextTarget > powLimit then powLimit else nextTarget

def calculateASERT (refTarget : Nat) (nPowTargetSpacing nTimeDiff nHeightDiff : Int)
    (powLimit : Nat) (nHalfLife : Int) : Except Fault Nat := do
  assert (refTarget > 0 ∧ refTarget ≤ powLimit)
  assert (powLimit >>> 224 = 0)
  assert (nHeightDiff ≥ 0)
  let scheduled <- int64 (nPowTargetSpacing * nHeightDiff)
  let behind <- int64 (nTimeDiff - scheduled)
  let distance <- int64 behind.natAbs
  assert (distance < 2 ^ (63 - 16))
  let blocks <- int64 (nHeightDiff + 1)
  let scheduled <- int64 (nPowTargetSpacing * blocks)
  let behind <- int64 (nTimeDiff - scheduled)
  let behind <- int64 (behind * 65536)
  rejectIf (nHalfLife = 0) .undefined
  let exponent <- int64 (behind.tdiv nHalfLife)
  let shifts := exponent >>> (16 : Nat)
  let frac := (exponent % 65536).toNat
  assert (exponent = shifts * 65536 + frac)
  let nextTarget := (refTarget * factor frac) % 2 ^ 256
  return adaptTarget nextTarget (shifts - 16) powLimit

structure Params where
  powLimit : Nat
  nPowTargetSpacing : Int
  nDAAHalfLife : Int

def mainParams : Params where
  powLimit := 0x00000000ffffffffffffffffffffffffffffffffffffffffffffffffffffffff
  nPowTargetSpacing := 10 * 60
  nDAAHalfLife := 2 * 24 * 60 * 60

/-!
## The exact target
-/

def polynomial (frac : Nat) : Nat :=
  195766423245049 * frac + 971821376 * frac ^ 2 + 5127 * frac ^ 3 + 2 ^ 47

def exactFactor (frac : Nat) : Nat :=
  65536 + polynomial frac / 2 ^ 48

/-- How far the chain is behind its schedule, in half lives with 16 fractional bits. -/
def exactExponent (spacing time height halfLife : Int) : Int :=
  ((time - spacing * (height + 1)) * 65536).tdiv halfLife

def exactTarget (refTarget : Nat) (exponent : Int) : Nat :=
  scaled (refTarget * exactFactor (exponent % 65536).toNat) (exponent / 65536 - 16)

theorem polynomial_mono {m n : Nat} (h : m ≤ n) : polynomial m ≤ polynomial n := by
  have hsquare : m ^ 2 ≤ n ^ 2 := Nat.pow_le_pow_left h 2
  have hcube : m ^ 3 ≤ n ^ 3 := Nat.pow_le_pow_left h 3
  unfold polynomial
  omega

theorem polynomial_lt {frac : Nat} (h : frac < 65536) : polynomial frac < 2 ^ 64 :=
  (polynomial_mono (Nat.le_of_lt_succ h)).trans_lt (by decide)

theorem exactFactor_le {frac : Nat} (h : frac < 65536) : exactFactor frac ≤ 131071 := by
  have hlt := polynomial_lt h
  unfold exactFactor
  omega

theorem factor_eq {frac : Nat} (h : frac < 65536) : factor frac = exactFactor frac := by
  have heq : 195766423245049 * frac + 971821376 * frac * frac + 5127 * frac * frac * frac +
      2 ^ 47 = polynomial frac := by
    unfold polynomial
    rw [pow_succ frac 2, Nat.pow_two, mul_assoc 971821376, mul_assoc 5127, mul_assoc 5127]
  have hle := exactFactor_le h
  unfold factor
  rw [heq, Nat.mod_eq_of_lt (polynomial_lt h), Nat.shiftRight_eq_div_pow]
  exact Nat.mod_eq_of_lt (hle.trans_lt (by decide))

/-- Where the fraction wraps around, the factor has not yet doubled. -/
theorem exactTarget_mono (refTarget : Nat) : Monotone (exactTarget refTarget) := by
  apply monotone_int_of_le_succ
  intro e
  unfold exactTarget
  by_cases hwrap : e % 65536 = 65535
  · rw [(by omega : (e + 1) % 65536 = 0), (by omega : (e + 1) / 65536 - 16 = e / 65536 - 16 + 1),
      hwrap, scaled_succ, mul_assoc]
    exact scaled_mono (Nat.mul_le_mul_left _ (by decide)) _
  rw [(by omega : (e + 1) % 65536 = e % 65536 + 1), (by omega : (e + 1) / 65536 = e / 65536)]
  have hpolynomial : polynomial (e % 65536).toNat ≤ polynomial (e % 65536 + 1).toNat :=
    polynomial_mono (by omega)
  apply scaled_mono
  apply Nat.mul_le_mul_left
  exact Nat.add_le_add_left (Nat.div_le_div_right hpolynomial) 65536

/-!
## The computed target
-/

theorem assert_eq_ok {p : Prop} [Decidable p] {u : Unit} : assert p = .ok u <-> p := by
  unfold assert
  rw [rejectIf_eq_ok, Decidable.not_not]

theorem int64_eq_ok {x y : Int} : int64 x = .ok y <-> IsInt64 x ∧ y = x := by
  unfold int64
  split
  · rename_i h
    rw [Except.ok.injEq, and_iff_right h, eq_comm]
  · rename_i h
    exact ⟨nofun, fun hboth => absurd hboth.left h⟩

theorem shiftOverflows_iff (nextTarget amount : Nat) :
    shiftOverflows nextTarget amount <-> 2 ^ 256 ≤ nextTarget * 2 ^ amount := by
  unfold shiftOverflows
  rw [Nat.shiftLeft_eq, Nat.shiftRight_eq_div_pow]
  constructor
  · intro hne
    by_contra hlt
    rw [Nat.mod_eq_of_lt (not_le.mp hlt), Nat.mul_div_cancel _ (Nat.two_pow_pos amount)] at hne
    exact hne rfl
  · intro _ heq
    have hback := Nat.div_mul_le_self (nextTarget * 2 ^ amount % 2 ^ 256) (2 ^ amount)
    rw [heq] at hback
    omega

theorem shiftAmount_eq {x : Int} (hnonneg : 0 ≤ x) (hlt : x < 2 ^ 32) :
    shiftAmount x = x.toNat := by
  unfold shiftAmount
  rw [Int.emod_eq_of_lt hnonneg hlt]

theorem adaptTarget_eq (n : Nat) {k : Int} (hk : k.natAbs < 2 ^ 32) {powLimit : Nat}
    (hpos : 0 < powLimit) (hlt : powLimit < 2 ^ 256) :
    adaptTarget n k powLimit = max 1 (min (scaled n k) powLimit) := by
  unfold adaptTarget
  dsimp only
  by_cases hneg : k ≤ 0
  · rw [if_pos hneg, shiftAmount_eq (by omega) (by omega), scaled_of_nonpos n hneg]
    grind
  rw [if_neg hneg, shiftAmount_eq (by omega) (by omega), scaled_of_nonneg n (by omega)]
  by_cases hover : shiftOverflows n k.toNat
  · have hle := (shiftOverflows_iff n k.toNat).mp hover
    rw [if_pos hover, Nat.shiftLeft_eq]
    grind
  · have hfits : n <<< k.toNat < 2 ^ 256 := by
      rw [Nat.shiftLeft_eq]
      exact not_le.mp fun hle => hover ((shiftOverflows_iff n k.toNat).mpr hle)
    rw [if_neg hover, Nat.mod_eq_of_lt hfits]
    grind

/-- The asserted bound on the differences. -/
structure Asserted (spacing time height : Int) : Prop where
  nonneg : 0 ≤ height
  scheduled : IsInt64 (spacing * height)
  distance : (time - spacing * height).natAbs < 2 ^ 47

/-- The signed intermediates of the exponent are 64-bit numbers. -/
structure ExponentFits (spacing time height : Int) : Prop where
  blocks : IsInt64 (height + 1)
  scheduled : IsInt64 (spacing * (height + 1))
  behind : IsInt64 (time - spacing * (height + 1))
  exponent : IsInt64 ((time - spacing * (height + 1)) * 65536)

section Target

variable {refTarget powLimit target : Nat} {spacing time height halfLife : Int}

theorem ExponentFits.natAbs_le (h : ExponentFits spacing time height) (hhalf : 2 ^ 15 < halfLife) :
    (exactExponent spacing time height halfLife).natAbs ≤ 2 ^ 63 / (2 ^ 15 + 1) := by
  have hexponent := h.exponent
  unfold exactExponent
  rw [Int.natAbs_tdiv]
  exact Nat.div_le_div (by omega) (by omega) (by decide)

theorem adaptTarget_exact {e : Int} (he : e.natAbs ≤ 2 ^ 63 / (2 ^ 15 + 1))
    (href : 0 < refTarget ∧ refTarget ≤ powLimit) (hlimit : powLimit < 2 ^ 224) :
    adaptTarget (refTarget * factor (e % 65536).toNat % 2 ^ 256) (e >>> (16 : Nat) - 16)
      powLimit = max 1 (min (exactTarget refTarget e) powLimit) := by
  have hfrac : (e % 65536).toNat < 65536 := by omega
  have hshifts : e >>> (16 : Nat) = e / 65536 := Int.shiftRight_eq_div_pow e 16
  have hproduct : refTarget * exactFactor (e % 65536).toNat ≤ 2 ^ 224 * 131071 :=
    Nat.mul_le_mul (by omega) (exactFactor_le hfrac)
  rw [factor_eq hfrac, Nat.mod_eq_of_lt (hproduct.trans_lt (by decide)), hshifts]
  exact adaptTarget_eq _ (by omega) (by omega) (by omega)

theorem calculateASERT_eq_ok (hhalf : 2 ^ 15 < halfLife) :
    calculateASERT refTarget spacing time height powLimit halfLife = .ok target <->
    (0 < refTarget ∧ refTarget ≤ powLimit) ∧ powLimit < 2 ^ 224 ∧ Asserted spacing time height ∧
    ExponentFits spacing time height ∧ target = max 1 (min (exactTarget refTarget
      (exactExponent spacing time height halfLife)) powLimit) := by
  unfold calculateASERT
  simp only [bind_eq_ok, assert_eq_ok, int64_eq_ok, rejectIf_eq_ok]
  constructor
  · rintro ⟨_, href, _, hlimit, _, hheight, _, ⟨hscheduled, rfl⟩, _, ⟨_, rfl⟩,
      _, ⟨_, rfl⟩, _, hdistance, _, ⟨hblocks, rfl⟩, _, ⟨hnext, rfl⟩, _,
      ⟨hlate, rfl⟩, _, ⟨hproduct, rfl⟩, _, _, _, ⟨_, rfl⟩, _, _, hresult⟩
    have hfits : ExponentFits spacing time height := ⟨hblocks, hnext, hlate, hproduct⟩
    rw [Nat.shiftRight_eq_div_pow] at hlimit
    have hpow : powLimit < 2 ^ 224 := by omega
    refine ⟨href, hpow, ⟨hheight, hscheduled, by omega⟩, hfits, ?_⟩
    rw [← adaptTarget_exact (hfits.natAbs_le hhalf) href hpow]
    exact (Except.ok.inj hresult).symm
  · rintro ⟨href, hpow, hasserted, hfits, rfl⟩
    have hexponent := hfits.natAbs_le hhalf
    have hint64 : IsInt64 (exactExponent spacing time height halfLife) := by omega
    have hlimit : powLimit >>> 224 = 0 := by
      rw [Nat.shiftRight_eq_div_pow]
      omega
    have hdistance := hasserted.distance
    refine ⟨(), href, (), hlimit, (), hasserted.nonneg, _, ⟨hasserted.scheduled, rfl⟩, _,
      ⟨by omega, rfl⟩, _, ⟨by omega, rfl⟩, (), by omega, _, ⟨hfits.blocks, rfl⟩, _,
      ⟨hfits.scheduled, rfl⟩, _, ⟨hfits.behind, rfl⟩, _, ⟨hfits.exponent, rfl⟩, (), by omega,
      _, ⟨hint64, rfl⟩, (), ?_, congrArg Except.ok (adaptTarget_exact hexponent href hpow)⟩
    rw [Int.shiftRight_eq_div_pow]
    omega

/-!
## Exactness, overflow and monotonicity
-/

/-- With the parameters of the main chain the target is exact wherever the exponent is. -/
theorem calculateASERT_exact (refTarget : Nat) (spacing time height : Int) :
    (forall target,
      calculateASERT refTarget spacing time height mainParams.powLimit mainParams.nDAAHalfLife =
        .ok target <->
      (0 < refTarget ∧ refTarget ≤ mainParams.powLimit) ∧ Asserted spacing time height ∧
      ExponentFits spacing time height ∧ target = max 1 (min (exactTarget refTarget
        (exactExponent spacing time height mainParams.nDAAHalfLife)) mainParams.powLimit)) ∧
    (forall frac, frac < 65536 -> polynomial frac ≤ 2 ^ 64 - 1 ∧ factor frac = exactFactor frac ∧
      65536 ≤ exactFactor frac ∧ exactFactor frac ≤ 131071) ∧
    forall nextTarget amount,
      shiftOverflows nextTarget amount <-> 2 ^ 256 ≤ nextTarget * 2 ^ amount := by
  refine ⟨fun target => ?_,
    fun frac hfrac => ⟨Nat.le_sub_one_of_lt (polynomial_lt hfrac), factor_eq hfrac,
      Nat.le_add_right _ _, exactFactor_le hfrac⟩, shiftOverflows_iff⟩
  have hlimit : mainParams.powLimit < 2 ^ 224 := by decide
  rw [calculateASERT_eq_ok (by decide), and_iff_right hlimit]

theorem calculateASERT_inexact :
    Asserted 600 (599 - 2 ^ 47) 0 ∧ 0 < 1 ∧ 1 ≤ mainParams.powLimit ∧
    calculateASERT 1 600 (599 - 2 ^ 47) 0 mainParams.powLimit mainParams.nDAAHalfLife ≠
      .ok (max 1 (min (exactTarget 1 (exactExponent 600 (599 - 2 ^ 47) 0 mainParams.nDAAHalfLife))
        mainParams.powLimit)) :=
  ⟨⟨by decide, by decide, by decide⟩, by decide, by decide, by decide⟩

/-- The assertion bounds the time without the next block, the exponent counts that block. -/
theorem calculateASERT_defined_iff (href : 0 < refTarget ∧ refTarget ≤ powLimit)
    (hlimit : powLimit < 2 ^ 224) (hasserted : Asserted 600 time height) :
    (ExponentFits 600 time height <->
      600 * (height + 1) < 2 ^ 63 ∧ 600 ≤ time - 600 * height + 2 ^ 47) ∧
    ((exists target, calculateASERT refTarget 600 time height powLimit 172800 = .ok target) <->
      ExponentFits 600 time height) := by
  refine ⟨?_, ?_⟩
  · rcases hasserted with ⟨_, _, _⟩
    constructor
    · rintro ⟨_, hnext, _, _⟩
      omega
    · rintro ⟨_, _⟩
      exact ⟨by omega, by omega, by omega, by omega⟩
  · simp only [calculateASERT_eq_ok (show 2 ^ 15 < (172800 : Int) by decide)]
    constructor
    · rintro ⟨_, _, _, _, hfits, _⟩
      exact hfits
    · intro hfits
      exact ⟨_, href, hlimit, hasserted, hfits, rfl⟩

theorem calculateASERT_defined_iff_anchor :
    exists target, calculateASERT 1 600 600 0 mainParams.powLimit 172800 = .ok target := by
  have hiff := @calculateASERT_defined_iff 1 mainParams.powLimit 600 0 (by decide) (by decide)
    ⟨by decide, by decide, by decide⟩
  exact hiff.right.mpr (hiff.left.mpr (by decide))

theorem calculateASERT_overflow :
    Asserted 600 (1 - 2 ^ 47) 0 ∧
    calculateASERT 1 600 (1 - 2 ^ 47) 0 mainParams.powLimit 172800 = .error .undefined :=
  ⟨⟨by decide, by decide, by decide⟩, by decide⟩

/-- A later block and a lower one do not have a harder target. -/
theorem calculateASERT_monotone {time' height' : Int} {target' : Nat} (hspacing : 0 ≤ spacing)
    (hhalf : 2 ^ 15 < halfLife) (htime : time ≤ time') (hheight : height' ≤ height)
    (hfrom : calculateASERT refTarget spacing time height powLimit halfLife = .ok target)
    (hto : calculateASERT refTarget spacing time' height' powLimit halfLife = .ok target') :
    target ≤ target' := by
  rcases (calculateASERT_eq_ok hhalf).mp hfrom with ⟨_, _, _, _, rfl⟩
  rcases (calculateASERT_eq_ok hhalf).mp hto with ⟨_, _, _, _, rfl⟩
  have hscheduled : spacing * (height' + 1) ≤ spacing * (height + 1) :=
    Int.mul_le_mul_of_nonneg_left (by omega) hspacing
  have hexponent : exactExponent spacing time height halfLife ≤
      exactExponent spacing time' height' halfLife :=
    Int.tdiv_le_tdiv (by omega) (by omega)
  have hexact := exactTarget_mono refTarget hexponent
  exact max_le_max_left 1 (min_le_min_right powLimit hexact)

end Target

theorem calculateASERT_monotone_day :
    1000 ≤ 1414 ∧ calculateASERT 1000 600 87000 0 mainParams.powLimit 172800 = .ok 1414 := by
  have hto : calculateASERT 1000 600 87000 0 mainParams.powLimit 172800 = .ok 1414 := by decide
  exact ⟨@calculateASERT_monotone 1000 mainParams.powLimit 1000 600 600 0 172800 87000 0 1414
    (by decide) (by decide) (by decide) (by decide) (by decide) hto, hto⟩

/-- With a short half life the amount of a shift wraps around. -/
theorem calculateASERT_wraps :
    calculateASERT 1 600 (616 - 2 ^ 32) 0 mainParams.powLimit 1 = .ok 65536 ∧
    calculateASERT 1 600 600 0 mainParams.powLimit 1 = .ok 1 := by
  decide

end ECash.Pow
