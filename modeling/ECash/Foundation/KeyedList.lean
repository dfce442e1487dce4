import Mathlib.Data.List.Nodup

/-!
# Lists searched by key

A list of records is often used as a small map: a loop looks for the first
record with a key, changes it, and appends a new record when there is none.
-/

namespace ECash.Foundation

open List

section UpdateOrPush

variable {key record : Type} [DecidableEq key]

/-- Change the first record with key `k`, or append a new one. -/
def updateOrPush (keyOf : record -> key) (k : key) (update : record -> record)
    (new : record) : List record -> List record
  | [] => [new]
  | x :: rest =>
    if keyOf x = k then
      update x :: rest
    else
      x :: updateOrPush keyOf k update new rest

variable {keyOf : record -> key} {k : key} {update : record -> record} {new : record}

theorem updateOrPush_cons_ne {x : record} (h : keyOf x ≠ k) (rest : List record) :
    updateOrPush keyOf k update new (x :: rest) = x :: updateOrPush keyOf k update new rest :=
  if_neg h

variable {xs ys : List record}

theorem updateOrPush_of_notMem (h : k ∉ xs.map keyOf) :
    updateOrPush keyOf k update new xs = xs ++ [new] := by
  induction xs with
  | nil => rfl
  | cons x rest ih =>
    rw [map_cons, mem_cons, not_or] at h
    rw [updateOrPush_cons_ne (Ne.symm h.left), ih h.right]
    rfl

theorem updateOrPush_append_of_notMem (h : k ∉ xs.map keyOf) :
    updateOrPush keyOf k update new (xs ++ ys) = xs ++ updateOrPush keyOf k update new ys := by
  induction xs with
  | nil => rfl
  | cons x rest ih =>
    rw [map_cons, mem_cons, not_or] at h
    rw [cons_append, updateOrPush_cons_ne (Ne.symm h.left), ih h.right]
    rfl

theorem updateOrPush_append_of_mem (h : k ∈ xs.map keyOf) :
    updateOrPush keyOf k update new (xs ++ ys) = updateOrPush keyOf k update new xs ++ ys := by
  induction xs with
  | nil => cases h
  | cons x rest ih =>
    show updateOrPush keyOf k update new (x :: (rest ++ ys)) = _
    unfold updateOrPush
    split
    · rfl
    · rename_i hne
      rw [ih (mem_of_ne_of_mem (Ne.symm hne) h)]
      rfl

theorem updateOrPush_forall₂ {related : record -> record -> Prop} (h : k ∈ xs.map keyOf)
    (hupdate : forall x, related x (update x)) (hsame : forall x, related x x) :
    Forall₂ related xs (updateOrPush keyOf k update new xs) := by
  induction xs with
  | nil => cases h
  | cons x rest ih =>
    unfold updateOrPush
    split
    · exact .cons (hupdate x) (forall₂_same.mpr fun y _ => hsame y)
    · rename_i hne
      exact .cons (hsame x) (ih (mem_of_ne_of_mem (Ne.symm hne) h))

theorem mem_updateOrPush (hnodup : (xs.map keyOf).Nodup) (h : k ∈ xs.map keyOf) {y : record}
    (hy : y ∈ updateOrPush keyOf k update new xs) :
    (y ∈ xs ∧ keyOf y ≠ k) ∨ exists x, x ∈ xs ∧ keyOf x = k ∧ y = update x := by
  induction xs with
  | nil => cases h
  | cons x rest ih =>
    rw [map_cons, nodup_cons] at hnodup
    unfold updateOrPush at hy
    split at hy
    · rename_i heq
      rcases mem_cons.mp hy with hhead | htail
      · exact .inr ⟨x, mem_cons_self, heq, hhead⟩
      · refine .inl ⟨mem_cons_of_mem x htail, ?_⟩
        intro hk
        exact hnodup.left (heq ▸ hk ▸ mem_map_of_mem htail)
    · rename_i hne
      rcases mem_cons.mp hy with hhead | htail
      · rw [hhead]
        exact .inl ⟨mem_cons_self, hne⟩
      have hrest : k ∈ rest.map keyOf := mem_of_ne_of_mem (Ne.symm hne) h
      rcases ih hnodup.right hrest htail with ⟨hmem, hk⟩ | ⟨z, hz, hk, hyz⟩
      · exact .inl ⟨mem_cons_of_mem x hmem, hk⟩
      · exact .inr ⟨z, mem_cons_of_mem x hz, hk, hyz⟩

theorem map_updateOrPush_of_mem (h : k ∈ xs.map keyOf)
    (hupdate : forall x, keyOf (update x) = keyOf x) :
    (updateOrPush keyOf k update new xs).map keyOf = xs.map keyOf := by
  have hrel : Forall₂ (fun x y => keyOf y = keyOf x) xs (updateOrPush keyOf k update new xs) :=
    updateOrPush_forall₂ h hupdate fun _ => rfl
  clear h
  generalize updateOrPush keyOf k update new xs = ys at hrel
  induction hrel with
  | nil => rfl
  | cons hxy _ ih => rw [map_cons, map_cons, hxy, ih]

theorem mem_map_updateOrPush (hnew : keyOf new = k)
    (hupdate : forall x, keyOf (update x) = keyOf x) (j : key) :
    j ∈ (updateOrPush keyOf k update new xs).map keyOf <-> j = k ∨ j ∈ xs.map keyOf := by
  by_cases h : k ∈ xs.map keyOf
  · rw [map_updateOrPush_of_mem h hupdate]
    constructor
    · exact .inr
    · rintro (hj | hj)
      · exact hj ▸ h
      · exact hj
  · rw [updateOrPush_of_notMem h, map_append, mem_append, map_singleton,
      mem_singleton, hnew, or_comm]

end UpdateOrPush

/-!
## Records with distinct keys

A record is changed or removed wherever it is in the list.
-/

section Distinct

variable {key record : Type} {keyOf : record -> key} {xs : List record} {x : record}

variable [DecidableEq key]

end Distinct

end ECash.Foundation
