import Mathlib

/-!
# Groups of bits

A list of numbers of a fixed width stands for a list of bits, the highest first.  Numbers of one
width are regrouped into numbers of another width that stand for the same bits.
-/

namespace ECash.Foundation

open List

def toBits : Nat -> Nat -> List Bool
  | 0, _ => []
  | width + 1, n => n.testBit width :: toBits width n

def groupBits (width : Nat) (values : List Nat) : List Bool :=
  values.flatMap (toBits width)

@[simp] theorem length_toBits (width n : Nat) : (toBits width n).length = width := by
  induction width with
  | zero => rfl
  | succ width ih => rw [toBits, length_cons, ih]

variable {width : Nat}

theorem toBits_congr {n m : Nat} (h : forall i, i < width -> n.testBit i = m.testBit i) :
    toBits width n = toBits width m := by
  induction width with
  | zero => rfl
  | succ width ih =>
    rw [toBits, toBits, h width (lt_add_one width), ih fun i hi => h i (Nat.lt_succ_of_lt hi)]

theorem testBit_of_toBits {n m : Nat} (h : toBits width n = toBits width m) {i : Nat}
    (hi : i < width) : n.testBit i = m.testBit i := by
  induction width with
  | zero => cases hi
  | succ width ih =>
    rw [toBits, toBits, cons.injEq] at h
    rcases Nat.lt_succ_iff_lt_or_eq.mp hi with hlt | heq
    · exact ih h.right hlt
    · rw [heq]
      exact h.left

theorem toBits_inj {n m : Nat} (hn : n < 2 ^ width) (hm : m < 2 ^ width)
    (h : toBits width n = toBits width m) : n = m := by
  apply Nat.eq_of_testBit_eq
  intro i
  by_cases hi : i < width
  · exact testBit_of_toBits h hi
  · have hle : 2 ^ width ≤ 2 ^ i := Nat.pow_le_pow_right Nat.two_pos (not_lt.mp hi)
    rw [Nat.testBit_lt_two_pow (hn.trans_le hle), Nat.testBit_lt_two_pow (hm.trans_le hle)]

theorem toBits_add (high low n : Nat) :
    toBits (high + low) n = toBits high (n >>> low) ++ toBits low n := by
  induction high with
  | zero => rw [zero_add, toBits, nil_append]
  | succ high ih =>
    rw [Nat.succ_add, toBits, ih, toBits, cons_append, Nat.testBit_shiftRight, add_comm low high]

theorem toBits_eq_replicate {n : Nat} (h : forall i, i < width -> n.testBit i = false) :
    toBits width n = replicate width false := by
  induction width with
  | zero => rfl
  | succ width ih =>
    rw [toBits, replicate_succ, h width (lt_add_one width),
      ih fun i hi => h i (Nat.lt_succ_of_lt hi)]

theorem length_groupBits (width : Nat) (values : List Nat) :
    (groupBits width values).length = width * values.length := by
  induction values with
  | nil => rfl
  | cons v values ih =>
    unfold groupBits at ih ⊢
    rw [flatMap_cons, length_append, length_toBits, length_cons, Nat.mul_succ]
    omega

theorem groupBits_inj {values values' : List Nat}
    (hlt : forall v, v ∈ values -> v < 2 ^ width) (hlt' : forall v, v ∈ values' -> v < 2 ^ width)
    (hlength : values.length = values'.length)
    (h : groupBits width values = groupBits width values') : values = values' := by
  induction values generalizing values' with
  | nil =>
    cases values' with
    | nil => rfl
    | cons v values' => cases hlength
  | cons v values ih =>
    cases values' with
    | nil => cases hlength
    | cons v' values' =>
      rcases append_inj h (by rw [length_toBits, length_toBits]) with ⟨hfirst, hrest⟩
      rw [toBits_inj (hlt v mem_cons_self) (hlt' v' mem_cons_self) hfirst,
        ih (forall_mem_cons.mp hlt).2 (forall_mem_cons.mp hlt').2 (Nat.succ.inj hlength) hrest]

/-!
## Groups in one number
-/

/-- The number whose groups these are, after those of `acc`. -/
def packFrom (width acc : Nat) (values : List Nat) : Nat :=
  values.foldl (fun acc v => 2 ^ width * acc + v) acc

def groupOf (width n i : Nat) : Nat := n / 2 ^ (width * i) % 2 ^ width

theorem packFrom_lt {acc k : Nat} {values : List Nat}
    (hlt : forall v, v ∈ values -> v < 2 ^ width) (hacc : acc < 2 ^ (width * k)) :
    packFrom width acc values < 2 ^ (width * (k + values.length)) := by
  induction values generalizing acc k with
  | nil => exact hacc
  | cons v values ih =>
    have hv := hlt v mem_cons_self
    have hnext : 2 ^ width * acc + v < 2 ^ (width * (k + 1)) := by
      rw [Nat.mul_succ, Nat.pow_add, mul_comm (2 ^ (width * k))]
      calc 2 ^ width * acc + v < 2 ^ width * acc + 2 ^ width := by omega
        _ = 2 ^ width * (acc + 1) := by rw [Nat.mul_succ]
        _ ≤ 2 ^ width * 2 ^ (width * k) := Nat.mul_le_mul_left _ hacc
    have hrest := ih (forall_mem_cons.mp hlt).2 hnext
    rw [length_cons, add_comm values.length 1, ← add_assoc]
    exact hrest

theorem le_packFrom (width acc : Nat) (values : List Nat) : acc ≤ packFrom width acc values := by
  induction values generalizing acc with
  | nil => exact Nat.le_refl acc
  | cons v values ih =>
    have hmul : acc ≤ 2 ^ width * acc := Nat.le_mul_of_pos_left acc (Nat.two_pow_pos width)
    exact (Nat.le_add_right_of_le hmul).trans (ih _)

theorem packFrom_inj {acc acc' : Nat} {values values' : List Nat}
    (hlt : forall v, v ∈ values -> v < 2 ^ width) (hlt' : forall v, v ∈ values' -> v < 2 ^ width)
    (hlength : values.length = values'.length)
    (h : packFrom width acc values = packFrom width acc' values') :
    acc = acc' ∧ values = values' := by
  induction values generalizing acc acc' values' with
  | nil =>
    cases values' with
    | nil => exact ⟨h, rfl⟩
    | cons v values' => cases hlength
  | cons v values ih =>
    cases values' with
    | nil => cases hlength
    | cons v' values' =>
      rcases ih (forall_mem_cons.mp hlt).2 (forall_mem_cons.mp hlt').2 (Nat.succ.inj hlength) h with
        ⟨hsum, hrest⟩
      have hv := hlt v mem_cons_self
      have hv' := hlt' v' mem_cons_self
      have hmod := congrArg (fun n => n % 2 ^ width) hsum
      simp only [Nat.mul_add_mod, Nat.mod_eq_of_lt hv, Nat.mod_eq_of_lt hv'] at hmod
      have hdiv := congrArg (fun n => n / 2 ^ width) hsum
      simp only [Nat.mul_add_div (Nat.two_pow_pos width), Nat.div_eq_of_lt hv,
        Nat.div_eq_of_lt hv', add_zero] at hdiv
      exact ⟨hdiv, by rw [hmod, hrest]⟩

theorem packFrom_groups (width n k : Nat) :
    packFrom width (n / 2 ^ (width * k)) ((range k).reverse.map (groupOf width n)) = n := by
  induction k with
  | zero => simp [packFrom]
  | succ k ih =>
    rw [range_succ, reverse_append]
    show packFrom width (2 ^ width * (n / 2 ^ (width * (k + 1))) + groupOf width n k) _ = n
    have hsplit : 2 ^ width * (n / 2 ^ (width * (k + 1))) + groupOf width n k =
        n / 2 ^ (width * k) := by
      rw [Nat.mul_succ, Nat.pow_add, ← Nat.div_div_eq_div_mul]
      exact Nat.div_add_mod _ _
    rw [hsplit]
    exact ih

end ECash.Foundation
