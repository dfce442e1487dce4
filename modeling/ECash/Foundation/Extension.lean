import Mathlib.Data.List.Basic
import Mathlib.Data.Nat.Find

/-!
# Growing a list until it suffices

Elements are taken from the front of a list and added to those chosen before, one at least,
until the chosen ones satisfy a predicate.
-/

namespace ECash.Foundation

variable {α : Type} (p : List α -> Prop) [DecidablePred p]

def extendUntil : List α -> List α -> Option (List α)
  | _, [] => none
  | chosen, x :: xs =>
    if p (chosen ++ [x]) then some (chosen ++ [x]) else extendUntil (chosen ++ [x]) xs

variable {p}

theorem extendUntil_eq_some {chosen xs result : List α} :
    extendUntil p chosen xs = some result <->
      exists k, 1 ≤ k ∧ k ≤ xs.length ∧ result = chosen ++ xs.take k ∧ p result ∧
        forall j, 1 ≤ j -> j < k -> ¬ p (chosen ++ xs.take j) := by
  induction xs generalizing chosen with
  | nil =>
    constructor
    · nofun
    · rintro ⟨k, hpos, hle, _⟩
      rw [List.length_nil] at hle
      omega
  | cons x xs ih =>
    by_cases hx : p (chosen ++ [x])
    · simp only [extendUntil, hx, if_true, Option.some.injEq]
      constructor
      · rintro rfl
        exact ⟨1, Nat.le_refl 1, by simp, rfl, hx, fun j _ _ => by omega⟩
      rintro ⟨k, hpos, _, hresult, _, hleast⟩
      by_cases hone : k = 1
      · rw [hresult, hone]
        rfl
      · exact absurd hx (hleast 1 (Nat.le_refl 1) (by omega))
    · simp only [extendUntil, hx, if_false, ih]
      constructor
      · rintro ⟨k, hpos, hle, hresult, hp, hleast⟩
        refine ⟨k + 1, by omega, by simpa using hle, ?_, hp, ?_⟩
        · rw [hresult, List.append_assoc]
          rfl
        intro j hj hlt
        by_cases hone : j = 1
        · rw [hone]
          exact hx
        · have hrest := hleast (j - 1) (by omega) (by omega)
          obtain ⟨i, rfl⟩ : exists i, j = i + 1 := ⟨j - 1, by omega⟩
          rw [List.append_assoc] at hrest
          exact hrest
      · rintro ⟨k, hpos, hle, hresult, hp, hleast⟩
        obtain ⟨k, rfl⟩ : exists i, k = i + 1 := ⟨k - 1, by omega⟩
        have hk : k ≠ 0 := by
          intro hzero
          rw [hresult, hzero] at hp
          exact hx hp
        refine ⟨k, by omega, by simpa using hle, ?_, hp, ?_⟩
        · rw [hresult, List.append_assoc]
          rfl
        · intro j _ _
          have hrest := hleast (j + 1) (by omega) (by omega)
          rw [List.append_assoc]
          exact hrest

theorem extendUntil_eq_none {chosen xs : List α} :
    extendUntil p chosen xs = none <->
      forall k, 1 ≤ k -> k ≤ xs.length -> ¬ p (chosen ++ xs.take k) := by
  classical
  constructor
  · intro hnone k hpos hle hk
    have hfound : exists k, 1 ≤ k ∧ k ≤ xs.length ∧ p (chosen ++ xs.take k) := ⟨k, hpos, hle, hk⟩
    rcases Nat.find_spec hfound with ⟨hpos, hle, hp⟩
    have hsome := extendUntil_eq_some.mpr ⟨_, hpos, hle, rfl, hp, fun j hj hlt hearlier =>
      Nat.find_min hfound hlt ⟨hj, by omega, hearlier⟩⟩
    cases hnone.symm.trans hsome
  · intro hall
    rw [Option.eq_none_iff_forall_ne_some]
    intro result hsome
    rcases extendUntil_eq_some.mp hsome with ⟨k, hpos, hle, rfl, hp, _⟩
    exact hall k hpos hle hp

end ECash.Foundation
