import Mathlib.Data.List.Basic

/-!
# Free slots

The positions of the free slots of a list, in order, and a search for the first of them.
-/

namespace ECash.Foundation

variable {item : Type}

def freeFrom : Nat -> List (Option item) -> List Nat
  | _, [] => []
  | pos, none :: slots => pos :: freeFrom (pos + 1) slots
  | pos, some _ :: slots => freeFrom (pos + 1) slots

def skipTaken : List (Option item) -> Nat -> Option Nat
  | [], _ => none
  | none :: _, offset => some offset
  | some _ :: slots, offset => skipTaken slots (offset + 1)

theorem length_freeFrom (pos : Nat) (slots : List (Option item)) :
    (freeFrom pos slots).length + slots.countP Option.isSome = slots.length := by
  induction slots generalizing pos with
  | nil => rfl
  | cons slot slots ih =>
    have hrest := ih (pos + 1)
    cases slot with
    | none =>
      simp [freeFrom]
      omega
    | some x =>
      simp [freeFrom]
      omega

theorem freeFrom_eq (pos : Nat) (slots : List (Option item)) :
    freeFrom pos slots =
      ((List.range slots.length).filter fun i => (slots[i]?.getD none).isNone).map (pos + ·) := by
  induction slots generalizing pos with
  | nil => rfl
  | cons slot slots ih =>
    have hshift : forall ps : List Nat, ps.map (pos + 1 + ·) = (ps.map Nat.succ).map (pos + ·) := by
      intro ps
      rw [List.map_map]
      exact List.map_congr_left fun i _ => by simp only [Function.comp_apply]; omega
    cases slot with
    | none =>
      simp [freeFrom, ih, hshift, List.range_succ_eq_map, List.filter_map, Function.comp_def]
    | some x =>
      simp [freeFrom, ih, hshift, List.range_succ_eq_map, List.filter_map, Function.comp_def]

theorem skipTaken_of_free {pos first : Nat} {slots : List (Option item)} {others : List Nat}
    (h : freeFrom pos slots = first :: others) (offset : Nat) :
    pos <= first ∧ skipTaken slots offset = some (offset + (first - pos)) ∧
      freeFrom (first + 1) (slots.drop (first + 1 - pos)) = others := by
  induction slots generalizing pos offset with
  | nil => cases h
  | cons slot slots ih =>
    cases slot with
    | none =>
      cases h
      simp [skipTaken]
    | some x =>
      rcases ih h (offset + 1) with ⟨_, hskip, hothers⟩
      refine ⟨by omega, ?_, ?_⟩
      · rw [skipTaken, hskip]
        congr 1
        omega
      · rw [show first + 1 - pos = first + 1 - (pos + 1) + 1 by omega]
        exact hothers

end ECash.Foundation
