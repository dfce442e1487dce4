import Mathlib

/-!
# Lists sorted by key

Lists of records in strictly ascending order of their keys, which are searched by bisection.  The
search finds the record with a key, or the place where one has to be inserted.
-/

namespace ECash.Foundation

open List

variable {idx : Nat} {error : Type}

section Search

variable {record key : Type} [LinearOrder key] (keyOf : record -> key)

def searchLoop (xs : List record) (k : key) : Nat -> Nat -> Nat -> Except Nat Nat
  | 0, left, _ => .error left
  | rounds + 1, left, right =>
    if left < right then
      match xs[left + (right - left) / 2]? with
      | none => .error left
      | some x =>
        match compare (keyOf x) k with
        | Ordering.lt => searchLoop xs k rounds (left + (right - left) / 2 + 1) right
        | Ordering.gt => searchLoop xs k rounds left (left + (right - left) / 2)
        | Ordering.eq => .ok (left + (right - left) / 2)
    else .error left

/-- The index of the record with the key, or as an error the index where it would be. -/
def binarySearchByKey (xs : List record) (k : key) : Except Nat Nat :=
  searchLoop keyOf xs k xs.length 0 xs.length

def SortedBy (xs : List record) : Prop :=
  xs.Pairwise fun x y => keyOf x < keyOf y

def insertAt (xs : List record) (idx : Nat) (x : record) : List record :=
  xs.take idx ++ x :: xs.drop idx

variable {keyOf} {xs : List record} {k : key}

/-- All records before an index have a smaller key, and all those from another one on a larger
one. -/
def Brackets (keyOf : record -> key) (xs : List record) (k : key) (left right : Nat) : Prop :=
  (forall j x, xs[j]? = some x -> j < left -> keyOf x < k) ∧
    forall j x, xs[j]? = some x -> right ≤ j -> k < keyOf x

variable {x y : record}

theorem SortedBy.lt_of_lt (h : SortedBy keyOf xs) {i j : Nat} (hx : xs[i]? = some x)
    (hy : xs[j]? = some y) (hij : i < j) : keyOf x < keyOf y := by
  rcases List.getElem?_eq_some_iff.mp hx with ⟨hi, hx⟩
  rcases List.getElem?_eq_some_iff.mp hy with ⟨hj, hy⟩
  rw [← hx, ← hy]
  exact pairwise_iff_getElem.mp h i j hi hj hij

theorem SortedBy.le_of_le (h : SortedBy keyOf xs) {i j : Nat} (hx : xs[i]? = some x)
    (hy : xs[j]? = some y) (hij : i ≤ j) : keyOf x ≤ keyOf y := by
  rcases Nat.lt_or_eq_of_le hij with hlt | heq
  · exact le_of_lt (h.lt_of_lt hx hy hlt)
  · subst heq
    rw [hx] at hy
    cases hy
    exact le_refl _

theorem searchLoop_spec (h : SortedBy keyOf xs) {rounds left right : Nat} (hle : left ≤ right)
    (hright : right ≤ xs.length) (hrounds : right - left ≤ rounds)
    (hbrackets : Brackets keyOf xs k left right) :
    (exists idx x, searchLoop keyOf xs k rounds left right = .ok idx ∧
        xs[idx]? = some x ∧ keyOf x = k) ∨
      exists idx, searchLoop keyOf xs k rounds left right = .error idx ∧
        Brackets keyOf xs k idx idx := by
  induction rounds generalizing left right with
  | zero =>
    have heq : left = right := by omega
    subst heq
    exact .inr ⟨left, rfl, hbrackets⟩
  | succ rounds ih =>
    unfold searchLoop
    by_cases hlt : left < right
    · rw [if_pos hlt]
      generalize hmid : left + (right - left) / 2 = mid
      have hmidLt : mid < xs.length := by omega
      rw [getElem?_eq_getElem hmidLt]
      have hat : xs[mid]? = some xs[mid] := getElem?_eq_getElem hmidLt
      generalize xs[mid] = x at hat ⊢
      rcases hcompare : compare (keyOf x) k with _ | _ | _
      all_goals simp only [hcompare]
      · refine @ih (mid + 1) right (by omega) hright (by omega) ⟨?_, hbrackets.right⟩
        intro j y hy hj
        exact lt_of_le_of_lt (h.le_of_le hy hat (by omega)) (compare_lt_iff_lt.mp hcompare)
      · exact .inl ⟨mid, x, rfl, hat, compare_eq_iff_eq.mp hcompare⟩
      · refine @ih left mid (by omega) (by omega) (by omega) ⟨hbrackets.left, ?_⟩
        intro j y hy hj
        exact lt_of_lt_of_le (compare_gt_iff_gt.mp hcompare) (h.le_of_le hat hy hj)
    · have heq : left = right := by
        omega
      subst heq
      rw [if_neg hlt]
      exact .inr ⟨left, rfl, hbrackets⟩

theorem binarySearchByKey_spec (h : SortedBy keyOf xs) (k : key) :
    (exists idx x, binarySearchByKey keyOf xs k = .ok idx ∧
        xs[idx]? = some x ∧ keyOf x = k) ∨
      exists idx, binarySearchByKey keyOf xs k = .error idx ∧ Brackets keyOf xs k idx idx := by
  refine searchLoop_spec h (Nat.zero_le _) (Nat.le_refl _) (by omega) ⟨?_, ?_⟩
  · nofun
  · intro j x hx _
    have hlt := (List.getElem?_eq_some_iff.mp hx).1
    omega

theorem binarySearchByKey_found (h : SortedBy keyOf xs) (hx : x ∈ xs) :
    exists idx, binarySearchByKey keyOf xs (keyOf x) = .ok idx ∧ xs[idx]? = some x := by
  rcases mem_iff_getElem?.mp hx with ⟨i, hi⟩
  rcases binarySearchByKey_spec h (keyOf x) with ⟨idx, _, hfound, hy, hkey⟩ | ⟨idx, _, hbrackets⟩
  · have hsame : i = idx := by
      rcases Nat.lt_trichotomy i idx with hlt | heq | hgt
      · exact absurd (h.lt_of_lt hi hy hlt) (by rw [hkey]; exact lt_irrefl _)
      · exact heq
      · exact absurd (h.lt_of_lt hy hi hgt) (by rw [hkey]; exact lt_irrefl _)
    subst hsame
    exact ⟨i, hfound, hi⟩
  · rcases Nat.lt_or_ge i idx with hlt | hge
    · exact absurd (hbrackets.left i x hi hlt) (lt_irrefl _)
    · exact absurd (hbrackets.right i x hi hge) (lt_irrefl _)

theorem binarySearchByKey_missing (h : SortedBy keyOf xs)
    (hmissing : forall x, x ∈ xs -> keyOf x ≠ k) :
    exists idx, binarySearchByKey keyOf xs k = .error idx ∧
      (forall x, x ∈ xs.take idx -> keyOf x < k) ∧ forall x, x ∈ xs.drop idx -> k < keyOf x := by
  rcases binarySearchByKey_spec h k with ⟨idx, x, _, hx, hkey⟩ | ⟨idx, hsearch, hbrackets⟩
  · exact absurd hkey (hmissing x (mem_of_getElem? hx))
  refine ⟨idx, hsearch, ?_, ?_⟩
  · intro x hx
    rcases mem_iff_getElem?.mp hx with ⟨j, hj⟩
    rw [getElem?_take] at hj
    rcases Option.ite_none_right_eq_some.mp hj with ⟨hlt, hj⟩
    exact hbrackets.left j x hj hlt
  · intro x hx
    rcases mem_iff_getElem?.mp hx with ⟨j, hj⟩
    rw [getElem?_drop] at hj
    exact hbrackets.right (idx + j) x hj (by omega)

theorem mem_insertAt : y ∈ insertAt xs idx x <-> y = x ∨ y ∈ xs := by
  have hsplit : y ∈ xs <-> y ∈ xs.take idx ∨ y ∈ xs.drop idx := by
    rw [← mem_append, take_append_drop]
  unfold insertAt
  rw [mem_append, mem_cons, hsplit]
  exact or_left_comm

theorem SortedBy.insertAt (h : SortedBy keyOf xs)
    (hbefore : forall y, y ∈ xs.take idx -> keyOf y < keyOf x)
    (hafter : forall y, y ∈ xs.drop idx -> keyOf x < keyOf y) :
    SortedBy keyOf (insertAt xs idx x) := by
  unfold SortedBy Foundation.insertAt
  rw [pairwise_append, pairwise_cons]
  refine ⟨h.sublist (take_sublist idx xs), ⟨hafter, h.sublist (drop_sublist idx xs)⟩, ?_⟩
  intro y hy
  exact forall_mem_cons.mpr ⟨hbefore y hy, fun z hz => lt_trans (hbefore y hy) (hafter z hz)⟩

theorem SortedBy.eraseIdx (h : SortedBy keyOf xs) (idx : Nat) : SortedBy keyOf (xs.eraseIdx idx) :=
  h.sublist (eraseIdx_sublist xs idx)

theorem SortedBy.mem_eraseIdx (h : SortedBy keyOf xs) (hx : xs[idx]? = some x) :
    y ∈ xs.eraseIdx idx <-> y ∈ xs ∧ y ≠ x := by
  rw [mem_eraseIdx_iff_getElem?]
  constructor
  · rintro ⟨j, hne, hy⟩
    refine ⟨mem_of_getElem? hy, ?_⟩
    rintro rfl
    rcases Nat.lt_or_gt_of_ne hne with hlt | hgt
    · exact lt_irrefl _ (h.lt_of_lt hy hx hlt)
    · exact lt_irrefl _ (h.lt_of_lt hx hy hgt)
  · rintro ⟨hmem, hne⟩
    rcases mem_iff_getElem?.mp hmem with ⟨j, hj⟩
    refine ⟨j, ?_, hj⟩
    rintro rfl
    exact hne (Option.some.inj (hj.symm.trans hx))

variable {step : List record -> record -> Except error (List record)}

theorem SortedBy.foldlM_insert
    (hstep : forall xs x idx, binarySearchByKey keyOf xs (keyOf x) = .error idx ->
      step xs x = .ok (Foundation.insertAt xs idx x)) (h : SortedBy keyOf xs)
    {new : List record} (hnodup : (new.map keyOf).Nodup)
    (hnew : forall x, x ∈ new -> forall y, y ∈ xs -> keyOf y ≠ keyOf x) :
    exists xs', new.foldlM step xs = .ok xs' ∧ SortedBy keyOf xs' ∧
      forall y, y ∈ xs' <-> y ∈ xs ∨ y ∈ new := by
  induction new generalizing xs with
  | nil => exact ⟨xs, rfl, h, by simp⟩
  | cons x new ih =>
    rw [map_cons, nodup_cons] at hnodup
    rcases binarySearchByKey_missing h (hnew x mem_cons_self) with ⟨idx, hsearch, hbefore, hafter⟩
    have hnew' : forall z, z ∈ new -> forall y, y ∈ Foundation.insertAt xs idx x ->
        keyOf y ≠ keyOf z := by
      intro z hz y hy heq
      rcases mem_insertAt.mp hy with rfl | hmem
      · exact hnodup.left (heq ▸ mem_map_of_mem hz)
      · exact hnew z (mem_cons_of_mem x hz) y hmem heq
    rcases ih (h.insertAt hbefore hafter) hnodup.right hnew' with ⟨xs', hfold, hsorted, hmem⟩
    refine ⟨xs', ?_, hsorted, ?_⟩
    · rw [foldlM_cons, hstep xs x idx hsearch]
      exact hfold
    · intro y
      rw [hmem y, mem_insertAt, mem_cons]
      tauto

theorem SortedBy.foldlM_erase
    (hstep : forall xs x idx, binarySearchByKey keyOf xs (keyOf x) = .ok idx ->
      step xs x = .ok (xs.eraseIdx idx)) (h : SortedBy keyOf xs) {old : List record}
    (hnodup : old.Nodup) (hthere : forall x, x ∈ old -> x ∈ xs) :
    exists xs', old.foldlM step xs = .ok xs' ∧ SortedBy keyOf xs' ∧
      forall y, y ∈ xs' <-> y ∈ xs ∧ y ∉ old := by
  induction old generalizing xs with
  | nil => exact ⟨xs, rfl, h, by simp⟩
  | cons x old ih =>
    rw [nodup_cons] at hnodup
    rcases binarySearchByKey_found h (hthere x mem_cons_self) with ⟨idx, hsearch, hat⟩
    have hthere' : forall z, z ∈ old -> z ∈ xs.eraseIdx idx := by
      intro z hz
      refine (h.mem_eraseIdx hat).mpr ⟨hthere z (mem_cons_of_mem x hz), ?_⟩
      rintro rfl
      exact hnodup.left hz
    rcases ih (h.eraseIdx idx) hnodup.right hthere' with ⟨xs', hfold, hsorted, hmem⟩
    refine ⟨xs', ?_, hsorted, ?_⟩
    · rw [foldlM_cons, hstep xs x idx hsearch]
      exact hfold
    · intro y
      rw [hmem y, h.mem_eraseIdx hat, mem_cons]
      tauto

end Search

end ECash.Foundation
