import Mathlib.Data.List.Basic

/-!
# Iterators

An iterator is asked for its next item until it has none.  What it would yield after that is never
seen, so an iterator that has no item for one element hides all later ones.
-/

namespace ECash.Foundation

open List

/-- A step yields an item or ends the iteration. -/
structure Iter (state item : Type) where
  next : state -> Option item × state
  remaining : state -> Nat
  decreases : forall s x s', next s = (some x, s') -> remaining s' < remaining s

namespace Iter

section Collect

variable {state item : Type} (it : Iter state item)

def collectFrom : Nat -> state -> List item
  | 0, _ => []
  | calls + 1, s =>
    match it.next s with
    | (some x, s') => x :: collectFrom calls s'
    | (none, _) => []

def collect (s : state) : List item :=
  it.collectFrom (it.remaining s) s

variable {it}

theorem collectFrom_eq {calls : Nat} {s : state} (h : it.remaining s ≤ calls) :
    it.collectFrom calls s = it.collect s := by
  unfold collect
  generalize hbound : it.remaining s = bound at h
  replace hbound := Nat.le_of_eq hbound
  induction calls generalizing s bound with
  | zero =>
    cases Nat.le_zero.mp h
    rfl
  | succ calls ih =>
    cases hnext : it.next s with
    | mk yielded s' =>
      cases yielded with
      | none =>
        cases bound with
        | zero => simp only [collectFrom, hnext]
        | succ bound => simp only [collectFrom, hnext]
      | some x =>
        have hlt := it.decreases s x s' hnext
        cases bound with
        | zero => omega
        | succ bound =>
          simp only [collectFrom, hnext]
          rw [ih bound (by omega) (by omega)]

theorem collect_of_some {s s' : state} {x : item} (h : it.next s = (some x, s')) :
    it.collect s = x :: it.collect s' := by
  have hlt := it.decreases s x s' h
  have hbound : it.remaining s = it.remaining s - 1 + 1 := by omega
  have hrest : it.collectFrom (it.remaining s - 1) s' = it.collect s' := collectFrom_eq (by omega)
  rw [← hrest]
  unfold collect
  rw [hbound]
  simp only [collectFrom, h]
  rfl

theorem collect_of_none {s s' : state} (h : it.next s = (none, s')) : it.collect s = [] := by
  unfold collect
  cases it.remaining s with
  | zero => rfl
  | succ calls => simp only [collectFrom, h]

theorem collect_congr {s t : state} (h : it.next s = it.next t) : it.collect s = it.collect t := by
  cases hnext : it.next t with
  | mk yielded t' =>
    rw [hnext] at h
    cases yielded with
    | none => rw [collect_of_none h, collect_of_none hnext]
    | some x => rw [collect_of_some h, collect_of_some hnext]

variable (it) in
theorem induct {motive : state -> Prop}
    (step : forall s, (forall x s', it.next s = (some x, s') -> motive s') -> motive s)
    (s : state) : motive s := by
  generalize hbound : it.remaining s = bound
  induction bound using Nat.strongRecOn generalizing s with
  | _ bound ih =>
    refine step s fun x s' hnext => ih (it.remaining s') ?_ s' rfl
    rw [← hbound]
    exact it.decreases s x s' hnext

end Collect

variable {state state' element item : Type}

def ofOption : Iter (Option item) item where
  next
    | some x => (some x, none)
    | none => (none, none)
  remaining s := s.toList.length
  decreases := by
    intro s x s' h
    cases s with
    | none => cases h
    | some y =>
      cases h
      exact Nat.one_pos

/-- An iterator that takes one element in each call and has no item if the element has none. -/
def ofElements (f : element -> Option item) : Iter (List element) item where
  next
    | [] => (none, [])
    | e :: rest => (f e, rest)
  remaining := List.length
  decreases := by
    intro s x s' h
    cases s with
    | nil => cases h
    | cons e rest =>
      cases congrArg Prod.snd h
      exact Nat.lt_succ_self _

def chain (a : Iter state item) (b : Iter state' item) : Iter (Option state × state') item where
  next
    | (none, t) => ((b.next t).1, none, (b.next t).2)
    | (some s, t) =>
      match a.next s with
      | (some x, s') => (some x, some s', t)
      | (none, _) => ((b.next t).1, none, (b.next t).2)
  remaining s := (s.1.map a.remaining).getD 0 + b.remaining s.2
  decreases := by
    have hsecond : forall t x s', ((b.next t).1, (none : Option state), (b.next t).2) =
        (some x, s') -> (s'.1.map a.remaining).getD 0 + b.remaining s'.2 < b.remaining t := by
      intro t x s' h
      have hfirst : (b.next t).1 = some x := congrArg Prod.fst h
      have hitem : b.next t = (some x, (b.next t).2) := Prod.ext hfirst rfl
      have hlt := b.decreases t x _ hitem
      cases congrArg Prod.snd h
      show 0 + b.remaining (b.next t).2 < _
      omega
    rintro ⟨s, t⟩ x s' h
    cases s with
    | none =>
      have hlt := hsecond t x s' h
      show _ < 0 + b.remaining t
      omega
    | some s =>
      simp only at h
      cases hnext : a.next s with
      | mk yielded rest =>
        rw [hnext] at h
        cases yielded with
        | none =>
          have hlt := hsecond t x s' h
          show _ < a.remaining s + b.remaining t
          omega
        | some y =>
          cases h
          have hlt := a.decreases s x rest hnext
          show a.remaining rest + b.remaining t < a.remaining s + b.remaining t
          omega

/-- The items of the elements before the first one without an item. -/
def untilNone (f : element -> Option item) : List element -> List item
  | [] => []
  | e :: rest =>
    match f e with
    | some x => x :: untilNone f rest
    | none => []

theorem collect_ofOption (s : Option item) : ofOption.collect s = s.toList := by
  cases s with
  | none => rfl
  | some x => rfl

theorem collect_ofElements (f : element -> Option item) (s : List element) :
    (ofElements f).collect s = untilNone f s := by
  induction s with
  | nil => rfl
  | cons e rest ih =>
    cases h : f e with
    | none =>
      have hnext : (ofElements f).next (e :: rest) = (none, rest) := Prod.ext h rfl
      rw [collect_of_none hnext]
      simp only [untilNone, h]
    | some x =>
      have hnext : (ofElements f).next (e :: rest) = (some x, rest) := Prod.ext h rfl
      rw [collect_of_some hnext, ih]
      simp only [untilNone, h]

theorem collect_chain_second (a : Iter state item) (b : Iter state' item) (t : state') :
    (chain a b).collect (none, t) = b.collect t := by
  induction t using b.induct with
  | step t ih =>
    cases hnext : b.next t with
    | mk yielded t' =>
      have hchain : (chain a b).next (none, t) = (yielded, none, t') := by
        show ((b.next t).1, none, (b.next t).2) = _
        rw [hnext]
      cases yielded with
      | none => rw [collect_of_none hnext, collect_of_none hchain]
      | some x => rw [collect_of_some hnext, collect_of_some hchain, ih x t' hnext]

theorem collect_chain (a : Iter state item) (b : Iter state' item) (s : state) (t : state') :
    (chain a b).collect (some s, t) = a.collect s ++ b.collect t := by
  induction s using a.induct with
  | step s ih =>
    cases hnext : a.next s with
    | mk yielded s' =>
      cases yielded with
      | none =>
        have hchain : (chain a b).next (some s, t) = (chain a b).next (none, t) := by
          simp only [chain, hnext]
        rw [collect_of_none hnext, ← collect_chain_second a b t]
        exact collect_congr hchain
      | some x =>
        have hchain : (chain a b).next (some s, t) = (some x, some s', t) := by
          simp only [chain, hnext]
        rw [collect_of_some hnext, collect_of_some hchain, ih x s' hnext, cons_append]

/-!
## What the end of an iteration hides
-/

variable {f : element -> Option item}

/-- After an element without an item no element has one. -/
def NoneHidden (f : element -> Option item) (elements : List element) : Prop :=
  elements.Pairwise fun earlier later => f earlier = none -> f later = none

instance [DecidableEq item] (elements : List element) : Decidable (NoneHidden f elements) :=
  inferInstanceAs (Decidable (elements.Pairwise _))

theorem untilNone_isPrefix (elements : List element) :
    untilNone f elements <+: elements.filterMap f := by
  induction elements with
  | nil => exact prefix_refl _
  | cons e rest ih =>
    cases h : f e with
    | none =>
      simp only [untilNone, h]
      exact nil_prefix
    | some x =>
      simp only [untilNone, h, filterMap_cons]
      exact (prefix_cons_inj x).mpr ih

theorem untilNone_eq_iff (elements : List element) :
    untilNone f elements = elements.filterMap f <-> NoneHidden f elements := by
  induction elements with
  | nil => exact iff_of_true rfl List.Pairwise.nil
  | cons e rest ih =>
    unfold NoneHidden at ih ⊢
    rw [pairwise_cons]
    cases h : f e with
    | none =>
      simp only [untilNone, h, filterMap_cons, forall_const]
      constructor
      · intro hnil
        have hall : forall later, later ∈ rest -> f later = none :=
          filterMap_eq_nil_iff.mp hnil.symm
        refine ⟨hall, ?_⟩
        exact pairwise_of_forall_mem_list fun _ _ later hlater _ => hall later hlater
      · rintro ⟨hall, _⟩
        exact (filterMap_eq_nil_iff.mpr hall).symm
    | some x =>
      simp only [untilNone, h, filterMap_cons, cons.injEq, true_and, ih]
      constructor
      · intro hrest
        exact ⟨fun _ _ => nofun, hrest⟩
      · exact And.right

end Iter

end ECash.Foundation
