import Mathlib

/-!
# Containers with a unique key

A container of records in which no two records have the same key.  Insertion
refuses a record whose key is taken.
-/

namespace ECash.Foundation

open List

structure IndexedSet {a k : Type} (key : a -> k) where
  items : List a
  nodup : (items.map key).Nodup

/-- A change of a record that keeps its key. -/
structure Update {a k : Type} (key : a -> k) where
  apply : a -> a
  keeps : forall x, key (apply x) = key x

instance {a k : Type} (key : a -> k) : CoeFun (Update key) fun _ => a -> a :=
  ⟨Update.apply⟩

namespace IndexedSet

variable {a k : Type} {key : a -> k}

instance : Membership a (IndexedSet key) where
  mem set x := x ∈ set.items

variable {set : IndexedSet key}

theorem mem_def {x : a} : x ∈ set <-> x ∈ set.items :=
  Iff.rfl

@[ext]
theorem ext_items {other : IndexedSet key} (h : set.items = other.items) : set = other := by
  cases other
  cases h
  rfl

theorem eq_of_key_eq {x y : a} (hx : x ∈ set) (hy : y ∈ set) (h : key x = key y) : x = y :=
  inj_on_of_nodup_map set.nodup hx hy h

theorem items_nodup (set : IndexedSet key) : set.items.Nodup :=
  Nodup.of_map key set.nodup

theorem exists_split {x : a} (hx : x ∈ set) :
    exists before after, set.items = before ++ x :: after ∧
      forall y, y ∈ before ∨ y ∈ after -> key y ≠ key x := by
  rcases append_of_mem hx with ⟨before, after, hitems⟩
  refine ⟨before, after, hitems, ?_⟩
  have hnodup := set.nodup
  rw [hitems, map_append, map_cons, nodup_middle] at hnodup
  have hnotMem := (nodup_cons.mp hnodup).left
  intro y hy hkey
  apply hnotMem
  rw [← map_append, ← hkey]
  exact mem_map_of_mem (mem_append.mpr hy)

def empty : IndexedSet key where
  items := []
  nodup := nodup_nil

section Lookup

variable [DecidableEq k]

def find? (set : IndexedSet key) (wanted : k) : Option a :=
  set.items.find? fun x => key x = wanted

variable {set : IndexedSet key} {wanted : k}

theorem find?_eq_some {x : a} : set.find? wanted = some x <-> x ∈ set ∧ key x = wanted := by
  unfold find?
  constructor
  · intro h
    have hkey := find?_some h
    exact ⟨mem_of_find?_eq_some h, of_decide_eq_true hkey⟩
  rintro ⟨hx, hkey⟩
  cases hfind : set.items.find? (fun x => key x = wanted) with
  | none => exact absurd (decide_eq_true hkey) (find?_eq_none.mp hfind x hx)
  | some y =>
    have hy := find?_some hfind
    have hy' : key y = key x := (of_decide_eq_true hy).trans hkey.symm
    rw [eq_of_key_eq (mem_of_find?_eq_some hfind) hx hy']

theorem find?_eq_none : set.find? wanted = none <-> forall x, x ∈ set -> key x ≠ wanted := by
  unfold find?
  rw [List.find?_eq_none]
  constructor
  · intro h x hx hkey
    exact h x hx (decide_eq_true hkey)
  · intro h x hx hkey
    exact h x hx (of_decide_eq_true hkey)

def contains (set : IndexedSet key) (wanted : k) : Bool :=
  (set.find? wanted).isSome

theorem contains_iff : set.contains wanted = true <-> exists x, x ∈ set ∧ key x = wanted := by
  unfold contains
  rw [Option.isSome_iff_exists]
  exact exists_congr fun x => find?_eq_some

theorem contains_eq_false :
    set.contains wanted = false <-> forall x, x ∈ set -> key x ≠ wanted := by
  unfold contains
  rw [Option.isSome_eq_false_iff, Option.isNone_iff_eq_none, find?_eq_none]

end Lookup

/-!
## Updates
-/

section Updates

variable [DecidableEq k]

def insert (set : IndexedSet key) (x : a) : IndexedSet key :=
  if h : key x ∈ set.items.map key then set
  else
    { items := set.items ++ [x]
      nodup := by
        rw [map_append, map_singleton]
        exact Nodup.append set.nodup (nodup_singleton _) (List.disjoint_singleton.mpr h) }

variable {x : a} {set : IndexedSet key}

theorem insert_of_contains (h : set.contains (key x) = true) : set.insert x = set := by
  unfold insert
  rcases contains_iff.mp h with ⟨y, hy, hkey⟩
  rw [dif_pos (mem_map.mpr ⟨y, hy, hkey⟩)]

theorem items_insert (h : set.contains (key x) = false) :
    (set.insert x).items = set.items ++ [x] := by
  unfold insert
  rw [dif_neg]
  intro hmem
  rcases mem_map.mp hmem with ⟨y, hy, hkey⟩
  exact contains_eq_false.mp h y hy hkey

theorem mem_insert {y : a} :
    y ∈ set.insert x <-> y ∈ set ∨ (y = x ∧ set.contains (key x) = false) := by
  cases h : set.contains (key x) with
  | true =>
    rw [insert_of_contains h]
    simp
  | false =>
    rw [mem_def, items_insert h, mem_append]
    simp [mem_def]

theorem contains_insert_iff {wanted : k} :
    (set.insert x).contains wanted = true <-> set.contains wanted = true ∨ key x = wanted := by
  cases h : set.contains (key x) with
  | true =>
    rw [insert_of_contains h]
    exact (or_iff_left_of_imp fun heq => heq ▸ h).symm
  | false => simp [contains_iff, mem_insert, h, or_and_right, exists_or]

def eraseIf (set : IndexedSet key) (test : a -> Bool) : IndexedSet key where
  items := set.items.filter fun x => !test x
  nodup := Nodup.sublist (Sublist.map key filter_sublist) set.nodup

omit [DecidableEq k] in
theorem mem_eraseIf {test : a -> Bool} : x ∈ set.eraseIf test <-> x ∈ set ∧ test x = false := by
  rw [mem_def, eraseIf, mem_filter, Bool.not_eq_true']
  rfl

def erase (set : IndexedSet key) (unwanted : k) : IndexedSet key :=
  set.eraseIf fun x => key x = unwanted

theorem mem_erase {unwanted : k} : x ∈ set.erase unwanted <-> x ∈ set ∧ key x ≠ unwanted := by
  unfold erase
  rw [mem_eraseIf, decide_eq_false_iff_not]

theorem contains_erase {unwanted wanted : k} (h : set.contains wanted = true)
    (hne : wanted ≠ unwanted) : (set.erase unwanted).contains wanted = true := by
  rcases contains_iff.mp h with ⟨y, hy, rfl⟩
  exact contains_iff.mpr ⟨y, mem_erase.mpr ⟨hy, hne⟩, rfl⟩

theorem erase_of_notMem {unwanted : k}
    (h : forall x, x ∈ set -> key x ≠ unwanted) : set.erase unwanted = set := by
  apply ext_items
  apply filter_eq_self.mpr
  intro x hx
  rw [Bool.not_eq_true', decide_eq_false_iff_not]
  exact h x hx

def modify (set : IndexedSet key) (wanted : k) (update : Update key) : IndexedSet key where
  items := set.items.map fun x => if key x = wanted then update x else x
  nodup := by
    have hkeys : (set.items.map fun x => if key x = wanted then update x else x).map key =
        set.items.map key := by
      rw [map_map]
      apply map_congr_left
      intro x _
      show key (if key x = wanted then update x else x) = key x
      split
      · exact update.keeps x
      · rfl
    rw [hkeys]
    exact set.nodup

variable {set : IndexedSet key} {wanted : k} {update : Update key}

theorem mem_modify {y : a} : y ∈ set.modify wanted update <->
    (y ∈ set ∧ key y ≠ wanted) ∨ exists x, x ∈ set ∧ key x = wanted ∧ y = update x := by
  rw [mem_def, modify, mem_map]
  constructor
  · rintro ⟨x, hx, rfl⟩
    by_cases h : key x = wanted
    · rw [if_pos h]
      exact .inr ⟨x, hx, h, rfl⟩
    · rw [if_neg h]
      exact .inl ⟨hx, h⟩
  · rintro (⟨hy, h⟩ | ⟨x, hx, h, rfl⟩)
    · exact ⟨y, hy, if_neg h⟩
    · exact ⟨x, hx, if_pos h⟩

theorem modify_congr {update' : Update key} {y : a} (hy : y ∈ set) (h : update y = update' y) :
    set.modify (key y) update = set.modify (key y) update' := by
  apply ext_items
  apply map_congr_left
  intro x hx
  split
  · rw [eq_of_key_eq hx hy ‹_›, h]
  · rfl

theorem modify_eq_self (h : forall x, x ∈ set -> key x = wanted -> update x = x) :
    set.modify wanted update = set := by
  apply ext_items
  conv_rhs => rw [← map_id set.items]
  apply map_congr_left
  intro x hx
  split
  · exact h x hx ‹_›
  · rfl

theorem erase_modify : (set.modify wanted update).erase wanted = set.erase wanted := by
  apply ext_items
  show (set.items.map fun x => if key x = wanted then update x else x).filter
      (fun x => !decide (key x = wanted)) = set.items.filter fun x => !decide (key x = wanted)
  induction set.items with
  | nil => rfl
  | cons x rest ih =>
    rw [map_cons]
    by_cases h : key x = wanted
    · rw [filter_cons_of_neg (by simp [update.keeps x, h]), filter_cons_of_neg (by simp [h]), ih]
    · rw [if_neg h, filter_cons_of_pos (by simp [h]), filter_cons_of_pos (by simp [h]), ih]

theorem exists_key_split (hx : x ∈ set) (hwanted : key x = wanted) :
    exists before after, set.items = before ++ x :: after ∧
      (set.erase wanted).items = before ++ after ∧ forall update : Update key,
        (set.modify wanted update).items = before ++ update x :: after := by
  rcases exists_split hx with ⟨before, after, hitems, hother⟩
  have hne : forall y, y ∈ before ++ after -> key y ≠ wanted :=
    fun y hy h => hother y (mem_append.mp hy) (h.trans hwanted.symm)
  refine ⟨before, after, hitems, ?_, fun update => ?_⟩
  · show set.items.filter (fun y => !decide (key y = wanted)) = _
    rw [hitems, filter_append, filter_cons_of_neg (by simp [hwanted]), ← filter_append]
    exact filter_eq_self.mpr fun y hy => by simp [hne y hy]
  · have hsame : forall part : List a, part ⊆ before ++ after ->
        (part.map fun y => if key y = wanted then update y else y) = part := by
      intro part hpart
      conv_rhs => rw [← map_id part]
      exact map_congr_left fun y hy => if_neg (hne y (hpart hy))
    show (set.items.map fun y => if key y = wanted then update y else y) = _
    rw [hitems, map_append, map_cons, hsame before (subset_append_left _ _),
      hsame after (subset_append_right _ _), if_pos hwanted]

theorem sum_modify (update : Update key) (measure : a -> Nat) (hx : x ∈ set)
    (hwanted : key x = wanted) :
    ((set.modify wanted update).items.map measure).sum + measure x =
      (set.items.map measure).sum + measure (update x) := by
  rcases exists_key_split hx hwanted with ⟨_, _, hitems, _, hitems'⟩
  rw [hitems, hitems']
  simp only [map_append, map_cons, sum_append, sum_cons]
  omega

theorem sum_erase (measure : a -> Nat) (hx : x ∈ set) (hwanted : key x = wanted) :
    ((set.erase wanted).items.map measure).sum + measure x = (set.items.map measure).sum := by
  rcases exists_key_split hx hwanted with ⟨_, _, hitems, hitems', _⟩
  rw [hitems, hitems']
  simp only [map_append, map_cons, sum_append, sum_cons]
  omega

theorem sum_insert (measure : a -> Nat) (h : set.contains (key x) = false) :
    ((set.insert x).items.map measure).sum = (set.items.map measure).sum + measure x := by
  rw [items_insert h]
  simp only [map_append, map_singleton, sum_append, sum_singleton]

theorem countP_modify (update : Update key) (test : a -> Bool) (hx : x ∈ set)
    (hwanted : key x = wanted) :
    (set.modify wanted update).items.countP test + (if test x then 1 else 0) =
      set.items.countP test + if test (update x) then 1 else 0 := by
  rcases exists_key_split hx hwanted with ⟨_, _, hitems, _, hitems'⟩
  rw [hitems, hitems']
  simp only [countP_append, countP_cons]
  omega

theorem countP_erase (test : a -> Bool) (hx : x ∈ set) (hwanted : key x = wanted) :
    (set.erase wanted).items.countP test + (if test x then 1 else 0) = set.items.countP test := by
  rcases exists_key_split hx hwanted with ⟨_, _, hitems, hitems', _⟩
  rw [hitems, hitems']
  simp only [countP_append, countP_cons]
  omega

omit [DecidableEq k] in
theorem countP_eraseIf {test erased : a -> Bool}
    (h : forall x, x ∈ set -> erased x = true -> test x = false) :
    (set.eraseIf erased).items.countP test = set.items.countP test := by
  unfold eraseIf
  rw [countP_filter]
  apply countP_congr
  intro x hx
  cases herased : erased x with
  | true => simp [h x hx herased]
  | false => simp

end Updates

end IndexedSet

end ECash.Foundation
