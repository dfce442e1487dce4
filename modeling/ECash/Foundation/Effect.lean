import Mathlib.Data.List.Basic

/-!
# Effects that survive a failure

A computation that updates a state and may fail, where a failure leaves the state as it is at
that point.  `Runs` says what a computation does from a state: the value or the failure it
ends with, and the state it leaves.
-/

namespace ECash.Foundation

abbrev Effect (state error a : Type) := ExceptT error (StateM state) a

variable {state error a b : Type}

namespace Effect

def fail (e : error) : Effect state error a := throw e

def read : Effect state error state := get

def write (s : state) : Effect state error Unit := set s

def ofExcept : Except error a -> Effect state error a
  | .ok x => pure x
  | .error e => fail e

end Effect

def Runs (m : Effect state error a) (s : state) (r : Except error a) (t : state) : Prop :=
  m s = (r, t)

namespace Runs

variable {m : Effect state error a} {f : a -> Effect state error b} {s t u : state}

theorem pure (x : a) (s : state) : Runs (Pure.pure x : Effect state error a) s (.ok x) s :=
  rfl

theorem fail (e : error) (s : state) : Runs (Effect.fail e : Effect state error a) s (.error e) s :=
  rfl

variable {r : Except error b}

theorem read_bind {f : state -> Effect state error b}
    (h : Runs (f s) s r t) : Runs (Effect.read >>= f) s r t :=
  h

theorem write (s t : state) : Runs (Effect.write t : Effect state error Unit) s (.ok ()) t :=
  rfl

theorem bind {x : a} (hm : Runs m s (.ok x) t) (hf : Runs (f x) t r u) : Runs (m >>= f) s r u := by
  unfold Runs at hm hf ⊢
  simp only [Bind.bind, ExceptT.bind, ExceptT.mk, StateT.bind, hm, ExceptT.bindCont]
  exact hf

theorem bind_error {e : error} (hm : Runs m s (.error e) t) : Runs (m >>= f) s (.error e) t := by
  unfold Runs at hm ⊢
  simp only [Bind.bind, ExceptT.bind, ExceptT.mk, StateT.bind, hm, ExceptT.bindCont]
  rfl

theorem ofExcept {r r' : Except error a} (h : r = r') (s : state) :
    Runs (Effect.ofExcept r : Effect state error a) s r' s := by
  subst h
  cases r with
  | ok x => rfl
  | error e => rfl

variable {m' : Effect state error a}

theorem ite_pos {c : Prop} [Decidable c] {r : Except error a}
    (hc : c) (h : Runs m s r t) : Runs (if c then m else m') s r t := by
  rw [if_pos hc]
  exact h

theorem ite_neg {c : Prop} [Decidable c] {r : Except error a}
    (hc : ¬ c) (h : Runs m' s r t) : Runs (if c then m else m') s r t := by
  rw [if_neg hc]
  exact h

end Runs

end ECash.Foundation
