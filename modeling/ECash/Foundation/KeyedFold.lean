import Mathlib.Data.List.AList

/-!
# Folds over keyed entries

A loop over the entries of a map that touches one key per iteration acts
pointwise: the final value at a key depends only on the starting value at that
key and on the entry stored under it.  The rules here turn such a loop, written
as a fold over a duplicate-free list of entries, into that pointwise statement.
-/

namespace ECash.Foundation

open List

/-!
## Pointwise application of an entry list

The specification of a keyed loop: apply the entry stored under a key, if there
is one, to the value the target held at that key.
-/

section Pointwise

variable {key value entry : Type*} [DecidableEq key]

def applyEntry (combine : Option value -> entry -> Option value)
    (entries : List (Sigma fun _ : key => entry)) (before : key -> Option value)
    (k : key) : Option value :=
  match entries.dlookup k with
  | some e => combine (before k) e
  | none => before k

variable (combine : Option value -> entry -> Option value)

@[simp] theorem applyEntry_nil (before : key -> Option value) (k : key) :
    applyEntry combine ([] : List (Sigma fun _ : key => entry)) before k = before k := rfl

variable {entries : List (Sigma fun _ : key => entry)} {k : key}

theorem applyEntry_of_some {e : entry} (hk : entries.dlookup k = some e)
    (before : key -> Option value) :
    applyEntry combine entries before k = combine (before k) e := by
  unfold applyEntry
  rw [hk]

theorem applyEntry_of_none (hk : entries.dlookup k = none)
    (before : key -> Option value) : applyEntry combine entries before k = before k := by
  unfold applyEntry
  rw [hk]

theorem applyEntry_cons_self (k : key) (e : entry) (rest : List (Sigma fun _ : key => entry))
    (before : key -> Option value) :
    applyEntry combine (⟨k, e⟩ :: rest) before k = combine (before k) e :=
  applyEntry_of_some combine (dlookup_cons_eq rest k e) before

theorem applyEntry_cons_ne {x : key} (hx : x ≠ k) (e : entry)
    (rest : List (Sigma fun _ : key => entry)) (before : key -> Option value) :
    applyEntry combine (⟨k, e⟩ :: rest) before x = applyEntry combine rest before x := by
  unfold applyEntry
  rw [dlookup_cons_ne rest ⟨k, e⟩ hx]

theorem applyEntry_filter (entries : List (Sigma fun _ : key => entry)) (written : key -> Bool)
    (before : key -> Option value) (k : key) :
    applyEntry combine (entries.filter fun it => written it.1) before k =
      if written k then applyEntry combine entries before k else before k := by
  induction entries with
  | nil => simp
  | cons head rest ih =>
    rcases head with ⟨j, e⟩
    by_cases hk : k = j
    · subst hk
      rw [filter_cons]
      cases hwritten : written k with
      | true => simp [applyEntry_cons_self]
      | false =>
        rw [hwritten] at ih
        simpa using ih
    · rw [applyEntry_cons_ne combine hk, ← ih, filter_cons]
      split
      · exact applyEntry_cons_ne combine hk e _ before
      · rfl

end Pointwise

/-!
## The fold rule

A step that succeeds on its own key and leaves every other key alone folds to
the pointwise application of the whole entry list.  A side condition that every
step keeps holds of the final state as well.
-/

section FoldRule

variable {key value entry state error : Type*} [DecidableEq key]

theorem foldlM_applyEntry (look : state -> key -> Option value) (keeps : state -> Prop)
    (step : state -> (Sigma fun _ : key => entry) -> Except error state)
    (combine : Option value -> entry -> Option value)
    (entries : List (Sigma fun _ : key => entry)) (hnodup : entries.NodupKeys)
    (s : state) (hkeeps : keeps s)
    (hstep : forall t k e, ⟨k, e⟩ ∈ entries -> keeps t -> look t k = look s k ->
      exists t', step t ⟨k, e⟩ = .ok t' ∧ keeps t' ∧
        look t' k = combine (look t k) e ∧
        forall x, x ≠ k -> look t' x = look t x) :
    exists s', entries.foldlM step s = .ok s' ∧ keeps s' ∧
      forall x, look s' x = applyEntry combine entries (look s) x := by
  induction entries generalizing s with
  | nil => exact ⟨s, rfl, hkeeps, fun _ => rfl⟩
  | cons head rest ih =>
    rcases head with ⟨k, e⟩
    have hsplit := nodupKeys_cons.mp hnodup
    rcases hstep s k e mem_cons_self hkeeps rfl with ⟨t, ht, hkept, hself, hother⟩
    have hrest : forall u j d, ⟨j, d⟩ ∈ rest -> keeps u -> look u j = look t j ->
        exists u', step u ⟨j, d⟩ = .ok u' ∧ keeps u' ∧ look u' j = combine (look u j) d ∧
          forall x, x ≠ j -> look u' x = look u x := by
      intro u j d hmem hu hlook
      have hkey : j ∈ rest.keys := mem_keys_of_mem hmem
      have hjk : j ≠ k := by
        intro heq
        exact hsplit.left (heq ▸ hkey)
      exact hstep u j d (mem_cons_of_mem _ hmem) hu (by rw [hlook, hother j hjk])
    rcases ih hsplit.right t hkept hrest with ⟨s', hfold, hfinal, hlook⟩
    refine ⟨s', ?_, hfinal, ?_⟩
    · rw [foldlM_cons, ht]
      exact hfold
    intro x
    rw [hlook x]
    by_cases hx : x = k
    · subst hx
      rw [applyEntry_of_none combine (dlookup_eq_none.mpr hsplit.left), hself, applyEntry_cons_self]
    · rw [applyEntry_cons_ne combine hx]
      unfold applyEntry
      rw [hother x hx]

end FoldRule

/-!
## Mixtures of two maps

A map that takes each of its values from one of two others, as an interrupted write
leaves it.  A mixture stays one when the places where the first map is about to change
are overwritten.
-/

section Mixture

variable {key value : Type}

def Mixture (a b m : key -> value) : Prop :=
  forall k, m k = a k ∨ m k = b k

/-- The values of `x` at some places, and those of `m` elsewhere. -/
def patch (touched : key -> Bool) (x m : key -> value) : key -> value :=
  fun k => if touched k then x k else m k

variable {a a' b m m' : key -> value} {touched : key -> Bool}

theorem Mixture.patch (h : Mixture a b m) (hsame : forall k, touched k = false -> a k = a' k) :
    Mixture a' b (patch touched a' m) := by
  intro k
  unfold Foundation.patch
  cases htouched : touched k with
  | true => exact .inl rfl
  | false =>
    rw [← hsame k htouched]
    exact h k

theorem Mixture.eq (h : Mixture a a m) : m = a := by
  funext k
  rcases h k with heq | heq
  · exact heq
  · exact heq

/-- An interrupted write from a mixture towards the second map is one again. -/
theorem Mixture.trans (h : Mixture a b m) (h' : Mixture m b m') : Mixture a b m' := by
  intro k
  rcases h' k with heq | heq
  · rw [heq]
    exact h k
  · exact .inr heq

end Mixture

end ECash.Foundation
