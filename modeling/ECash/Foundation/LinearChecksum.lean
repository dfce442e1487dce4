import Mathlib.Data.List.Basic

/-!
# Linear checksums

A register takes in one datum after another.  Its step is linear, so two runs differ by a run of
their differences.  If nothing but zero becomes zero without data, two registers that differ once
differ after every common continuation.
-/

namespace ECash.Foundation

/-- A step that is linear with respect to the differences of registers and of data. -/
structure LinearStep (reg datum : Type) where
  step : reg -> datum -> reg
  zero : reg
  none : datum
  diff : reg -> reg -> reg
  diffData : datum -> datum -> datum
  linear : forall a b d e, step (diff a b) (diffData d e) = diff (step a d) (step b e)
  diff_eq_zero : forall a b, diff a b = zero <-> a = b
  diffData_self : forall d, diffData d d = none

namespace LinearStep

section Run

variable {reg datum : Type} (s : LinearStep reg datum)

def run (c : reg) (data : List datum) : reg :=
  data.foldl s.step c

theorem run_append (c : reg) (data more : List datum) :
    s.run c (data ++ more) = s.run (s.run c data) more :=
  List.foldl_append

theorem run_diff {a b : reg} {data data' : List datum} (hlength : data.length = data'.length) :
    s.run (s.diff a b) (List.zipWith s.diffData data data') =
      s.diff (s.run a data) (s.run b data') := by
  induction data generalizing a b data' with
  | nil =>
    cases data' with
    | nil => rfl
    | cons d rest => cases hlength
  | cons d data ih =>
    cases data' with
    | nil => cases hlength
    | cons e data' =>
      show s.run (s.step (s.diff a b) (s.diffData d e)) _ = _
      rw [s.linear]
      exact ih (Nat.succ.inj hlength)

variable {s} (kept : reg -> Prop)

theorem run_none_ne_zero (hstep : forall c, kept c -> kept (s.step c s.none))
    (hkernel : forall c, kept c -> s.step c s.none = s.zero -> c = s.zero) {c : reg}
    (hkept : kept c) (hne : c ≠ s.zero) (n : Nat) : s.run c (List.replicate n s.none) ≠ s.zero := by
  induction n generalizing c with
  | zero => exact hne
  | succ n ih =>
    refine ih (hstep c hkept) ?_
    intro hzero
    exact hne (hkernel c hkept hzero)

theorem zipWith_self (data : List datum) :
    List.zipWith s.diffData data data = List.replicate data.length s.none := by
  induction data with
  | nil => rfl
  | cons d data ih =>
    rw [List.zipWith_cons_cons, ih, s.diffData_self, List.length_cons, List.replicate_succ]

/-- Two registers that differ once differ after every common continuation. -/
theorem run_ne_of_ne (hstep : forall c, kept c -> kept (s.step c s.none))
    (hkernel : forall c, kept c -> s.step c s.none = s.zero -> c = s.zero) {a b : reg}
    (hkept : kept (s.diff a b)) (hne : a ≠ b) (data : List datum) :
    s.run a data ≠ s.run b data := by
  intro heq
  have hdiff := s.run_diff (a := a) (b := b) (Eq.refl data.length)
  rw [zipWith_self, (s.diff_eq_zero _ _).mpr heq] at hdiff
  refine run_none_ne_zero kept hstep hkernel hkept ?_ data.length hdiff
  intro hzero
  exact hne ((s.diff_eq_zero a b).mp hzero)

end Run

end LinearStep

end ECash.Foundation
