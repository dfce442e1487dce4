import Mathlib.Data.List.Basic

/-!
# Runs and simulations

A run performs a list of operations one after another and stops at the first
error.  Two rules carry facts from single steps to runs: an invariant that every
step establishes and keeps, and a relation to an abstract machine that every
allowed step preserves.
-/

namespace ECash.Foundation

variable {state abs op error : Type*}

theorem foldlM_preserves {tryStep : state -> op -> Option state} {inv : state -> Prop}
    (hstep : forall s o s', inv s -> tryStep s o = some s' -> inv s')
    {ops : List op} {s s' : state} (hs : inv s) (hrun : ops.foldlM tryStep s = some s') :
    inv s' := by
  induction ops generalizing s with
  | nil =>
    cases hrun
    exact hs
  | cons o rest ih =>
    rcases Option.bind_eq_some_iff.mp hrun with ⟨t, ht, hrest⟩
    exact ih (hstep s o t hs ht) hrest

/-- Every operation of the list is allowed in the abstract state it meets. -/
def AllowedRun (absStep : abs -> op -> abs) (allowed : abs -> op -> Prop) :
    abs -> List op -> Prop
  | _, [] => True
  | a, o :: rest => allowed a o ∧ AllowedRun absStep allowed (absStep a o) rest

variable {absStep : abs -> op -> abs}

/-- Two conditions that agree in the states of an invariant agree over whole runs. -/
theorem AllowedRun.iff {allowed good good' : abs -> op -> Prop} (inv : abs -> Prop)
    (hstep : forall a o, inv a -> allowed a o ->
      (good a o <-> good' a o) ∧ (good a o -> inv (absStep a o)))
    {ops : List op} {a : abs} (ha : inv a) (h : AllowedRun absStep allowed a ops) :
    AllowedRun absStep good a ops <-> AllowedRun absStep good' a ops := by
  induction ops generalizing a with
  | nil => exact Iff.rfl
  | cons o rest ih =>
    rcases hstep a o ha h.left with ⟨hsame, hkeep⟩
    unfold AllowedRun
    rw [← hsame]
    exact and_congr_right fun hfirst => ih (hkeep hfirst) h.right

theorem foldlM_simulates {step : state -> op -> Except error state} {allowed : abs -> op -> Prop}
    (related : state -> abs -> Prop) (hstep : forall s a o, related s a -> allowed a o ->
      exists s', step s o = .ok s' ∧ related s' (absStep a o))
    (ops : List op) {s : state} {a : abs} (hrel : related s a)
    (hallowed : AllowedRun absStep allowed a ops) :
    exists s', ops.foldlM step s = .ok s' ∧ related s' (ops.foldl absStep a) := by
  induction ops generalizing s a with
  | nil => exact ⟨s, rfl, hrel⟩
  | cons o rest ih =>
    rcases hstep s a o hrel hallowed.left with ⟨_, ht, hnext⟩
    rcases ih hnext hallowed.right with ⟨s', hrest, hfinal⟩
    refine ⟨s', ?_, hfinal⟩
    rw [List.foldlM_cons, ht]
    exact hrest

end ECash.Foundation
