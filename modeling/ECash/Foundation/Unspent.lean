import Mathlib

/-!
# Sums over what is left

Values are kept under keys, and some of the keys are taken.  Taking more keys lowers the sum over
the values that are left by what is found under these keys.
-/

namespace ECash.Foundation

open List

section Unspent

variable {key value : Type} [DecidableEq key] (f : value -> Nat)

def sumLeft (taken : List key) (entries : List (key × value)) : Nat :=
  ((entries.filter fun entry => decide (entry.1 ∉ taken)).map fun entry => f entry.2).sum

def amountUnder (entries : List (key × value)) (target : key) : Nat :=
  ((entries.lookup target).map f).getD 0

variable {f} {taken : List key} {entries : List (key × value)}

theorem sumLeft_append (entries new : List (key × value)) :
    sumLeft f taken (entries ++ new) = sumLeft f taken entries + sumLeft f taken new := by
  unfold sumLeft
  rw [filter_append, map_append, sum_append]

theorem sumLeft_cons (entry : key × value) :
    sumLeft f taken (entry :: entries) =
      (if entry.1 ∈ taken then 0 else f entry.2) + sumLeft f taken entries := by
  unfold sumLeft
  by_cases h : entry.1 ∈ taken
  · rw [filter_cons_of_neg (by simpa using h), if_pos h, zero_add]
  · rw [filter_cons_of_pos (by simpa using h), if_neg h, map_cons, sum_cons]

theorem sumLeft_le_sum : sumLeft f taken entries ≤ (entries.map fun entry => f entry.2).sum := by
  induction entries with
  | nil => exact le_rfl
  | cons entry entries ih =>
    rw [sumLeft_cons, map_cons, sum_cons]
    split
    · omega
    · omega

theorem sumLeft_congr {taken' : List key}
    (h : forall entry, entry ∈ entries -> (entry.1 ∈ taken <-> entry.1 ∈ taken')) :
    sumLeft f taken entries = sumLeft f taken' entries := by
  unfold sumLeft
  congr 2
  apply filter_congr
  intro entry hentry
  rw [decide_eq_decide, h entry hentry]

theorem sumLeft_take_one (hnodup : (entries.map Prod.fst).Nodup) {target : key}
    (hnew : target ∉ taken) :
    sumLeft f (taken ++ [target]) entries + amountUnder f entries target =
      sumLeft f taken entries := by
  induction entries with
  | nil => rfl
  | cons entry entries ih =>
    rw [map_cons, nodup_cons] at hnodup
    rw [sumLeft_cons, sumLeft_cons]
    by_cases heq : entry.1 = target
    · have hrest : sumLeft f (taken ++ [target]) entries = sumLeft f taken entries := by
        apply sumLeft_congr
        intro other hother
        rw [mem_append, mem_singleton, or_iff_left]
        intro hsame
        exact hnodup.left (heq ▸ hsame ▸ mem_map_of_mem hother)
      have hunder : amountUnder f (entry :: entries) target = f entry.2 := by
        unfold amountUnder
        rw [lookup_cons, heq, beq_self_eq_true]
        rfl
      rw [heq, if_pos (by simp), if_neg hnew]
      omega
    · have hunder : amountUnder f (entry :: entries) target = amountUnder f entries target := by
        unfold amountUnder
        rw [lookup_cons, beq_false_of_ne (Ne.symm heq)]
      have hsame : entry.1 ∈ taken ++ [target] <-> entry.1 ∈ taken := by
        rw [mem_append, mem_singleton, or_iff_left heq]
      simp only [hsame]
      have hrest := ih hnodup.right
      omega

theorem sumLeft_take (hnodup : (entries.map Prod.fst).Nodup) {targets : List key}
    (hdistinct : (taken ++ targets).Nodup) :
    sumLeft f (taken ++ targets) entries + (targets.map (amountUnder f entries)).sum =
      sumLeft f taken entries := by
  induction targets generalizing taken with
  | nil => simp
  | cons target targets ih =>
    rw [append_cons] at hdistinct ⊢
    have hnew : target ∉ taken := by
      intro hmem
      rw [append_assoc] at hdistinct
      exact disjoint_of_nodup_append hdistinct hmem mem_cons_self
    rw [map_cons, sum_cons, ← sumLeft_take_one hnodup hnew, ← ih hdistinct]
    omega

end Unspent

end ECash.Foundation
