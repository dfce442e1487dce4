import Mathlib.Data.List.Forall2

/-!
# Computations that may fail

Inversion rules: what is known once a computation in `Except`, or a state
transformer over it, has produced a result.
-/

namespace ECash.Foundation

open List

variable {error state a b : Type}

theorem bind_eq_ok {x : Except error a} {f : a -> Except error b} {r : b} :
    (x >>= f) = .ok r <-> exists y, x = .ok y ∧ f y = .ok r := by
  cases x with
  | error e =>
    constructor
    · nofun
    · rintro ⟨y, h, _⟩
      cases h
  | ok y =>
    constructor
    · intro h
      exact ⟨y, rfl, h⟩
    · rintro ⟨_, hz, h⟩
      cases hz
      exact h

theorem stateT_bind_eq_ok {x : StateT state (Except error) a}
    {f : a -> StateT state (Except error) b} {s : state} {r : b × state} :
    (x >>= f) s = .ok r <-> exists y t, x s = .ok (y, t) ∧ f y t = .ok r := by
  have hrun : (x >>= f) s = (x s >>= fun p => f p.1 p.2) := rfl
  rw [hrun, bind_eq_ok]
  constructor
  · rintro ⟨⟨y, t⟩, hx, hf⟩
    exact ⟨y, t, hx, hf⟩
  · rintro ⟨y, t, hx, hf⟩
    exact ⟨(y, t), hx, hf⟩

/-!
## Early returns
-/

def rejectIf {error : Type} (cond : Prop) [Decidable cond] (err : error) : Except error Unit :=
  if cond then .error err else .ok ()

theorem rejectIf_eq_ok {error : Type} {cond : Prop} [Decidable cond] {err : error}
    {u : Unit} : rejectIf cond err = .ok u <-> ¬ cond := by
  unfold rejectIf
  split
  · rename_i h
    constructor
    · nofun
    · intro hnot
      exact absurd h hnot
  · rename_i h
    exact ⟨fun _ => h, fun _ => rfl⟩

/-!
## Computations that may fail but must not panic

The inner layer stands for a panic, the outer one for an ordinary error.  A safe
computation never panics, its postcondition holds of the value it returns, and it
fails only for the reason given.
-/

variable {panic : Type} {fails : Prop}

structure Safe (x : ExceptT error (Except panic) a) (post : a -> Prop) (fails : Prop) : Prop where
  run : exists r, x.run = .ok r ∧ (forall y, r = .ok y -> post y) ∧ forall e, r = .error e -> fails

variable {post : a -> Prop} {x : ExceptT error (Except panic) a}

theorem Safe.pure {y : a} (h : post y) :
    Safe (Pure.pure y : ExceptT error (Except panic) a) post fails := by
  refine ⟨.ok y, rfl, ?_, nofun⟩
  intro z hz
  cases hz
  exact h

theorem Safe.throw {e : error} (h : fails) :
    Safe (MonadExcept.throw e : ExceptT error (Except panic) a) post fails :=
  ⟨.error e, rfl, nofun, fun _ _ => h⟩

theorem Safe.bind {f : a -> ExceptT error (Except panic) b} {mid : a -> Prop} {post : b -> Prop}
    (hx : Safe x mid fails) (hf : forall y, mid y -> Safe (f y) post fails) :
    Safe (x >>= f) post fails := by
  rcases hx.run with ⟨r, hr, hmid, hfails⟩
  have hrun : (x >>= f).run = (x.run >>= ExceptT.bindCont f) := rfl
  cases r with
  | error e =>
    refine ⟨.error e, ?_, nofun, fun _ _ => hfails e rfl⟩
    rw [hrun, hr]
    rfl
  | ok y =>
    rcases (hf y (hmid y rfl)).run with ⟨r', hr', hpost⟩
    refine ⟨r', ?_, hpost⟩
    rw [hrun, hr]
    exact hr'

theorem Safe.mono {post' : a -> Prop} (hx : Safe x post fails) (h : forall y, post y -> post' y) :
    Safe x post' fails := by
  rcases hx.run with ⟨r, hr, hpost, hfails⟩
  exact ⟨r, hr, fun y hy => h y (hpost y hy), hfails⟩

/-!
## Writing in place

A method with a mutable receiver keeps what it has written when it fails.  It commits to a
transaction when a failure writes nothing and a success writes what the transaction returns.
-/

variable {c : Type}

abbrev InPlace (panic error state value : Type) :=
  ExceptT error (StateT state (Except panic)) value

/-- A check that only reads the state. -/
def reading (check : state -> ExceptT error (Except panic) a) : InPlace panic error state a :=
  fun s => do
    let result <- (check s).run
    return (result, s)

def settle (s : state) (commit : b -> a × state) : Except error b -> Except error a × state
  | .ok y => (.ok (commit y).1, (commit y).2)
  | .error e => (.error e, s)

def Commits (s : state) (x : InPlace panic error state a) (y : ExceptT error (Except panic) b)
    (commit : b -> a × state) : Prop :=
  x.run s = settle s commit <$> y.run

variable {s : state} {commit : b -> a × state}

theorem commits_reading {check : state -> ExceptT error (Except panic) c}
    {f : c -> InPlace panic error state a} {g : c -> ExceptT error (Except panic) b}
    (h : forall v, Commits s (f v) (g v) commit) :
    Commits s (reading check >>= f) (check s >>= g) commit := by
  have hreading : (reading check >>= f).run s =
      ((check s).run >>= fun r => ExceptT.bindCont f r s) := by
    show ((check s).run >>= fun r => .ok (r, s)) >>= _ = _
    cases (check s).run <;> rfl
  have hcheck : (check s >>= g).run = ((check s).run >>= ExceptT.bindCont g) := rfl
  unfold Commits
  rw [hreading, hcheck]
  cases (check s).run with
  | error p => rfl
  | ok r =>
    cases r with
    | error e => rfl
    | ok v => exact h v

variable {y : ExceptT error (Except panic) b}

theorem commits_get {f : state -> InPlace panic error state a} (h : Commits s (f s) y commit) :
    Commits s (get >>= f) y commit :=
  h

theorem Commits.write {x : InPlace panic error state a} (h : Commits s x y commit)
    {f : a -> state -> state} {g : b -> ExceptT error (Except panic) state}
    (hg : forall w, g w = pure (f (commit w).1 (commit w).2)) :
    Commits s (x >>= fun v => modify (f v)) (y >>= g) fun s' => ((), s') := by
  have hx (k : a -> InPlace panic error state Unit) :
      (x >>= k).run s = (x.run s >>= fun p => ExceptT.bindCont k p.1 p.2) := rfl
  have hy : (y >>= g).run = (y.run >>= ExceptT.bindCont g) := rfl
  unfold Commits at h ⊢
  rw [hy, hx, h]
  cases y.run with
  | error p => rfl
  | ok r =>
    cases r with
    | error e => rfl
    | ok w =>
      show _ = settle s _ <$> (g w).run
      rw [hg]
      rfl

/-!
## Mapping a fallible function over a list
-/

variable {xs : List a}

variable {f : a -> Except error b} {ys : List b} {related : a -> b -> Prop}

theorem mapM_eq_ok : xs.mapM f = .ok ys <-> Forall₂ (fun x y => f x = .ok y) xs ys := by
  induction xs generalizing ys with
  | nil =>
    rw [forall₂_nil_left_iff]
    constructor
    · intro h
      exact (Except.ok.inj h).symm
    · intro h
      rw [h]
      rfl
  | cons x rest ih =>
    rw [mapM_cons, bind_eq_ok]
    constructor
    · rintro ⟨_, hy, h⟩
      rcases bind_eq_ok.mp h with ⟨_, hys, hcons⟩
      cases hcons
      exact .cons hy (ih.mp hys)
    · intro h
      cases h with
      | cons hy hrest => exact ⟨_, hy, bind_eq_ok.mpr ⟨_, ih.mpr hrest, rfl⟩⟩

theorem getElem?_lt {i : Nat} {x : a} (h : xs[i]? = some x) : i < xs.length :=
  (List.getElem?_eq_some_iff.mp h).1

theorem getElem?_append_of_some {i : Nat} {x : a} (h : xs[i]? = some x) (zs : List a) :
    (xs ++ zs)[i]? = some x := by
  rw [List.getElem?_append_left (getElem?_lt h)]
  exact h

theorem getElem?_concat {i : Nat} {x y : a} (h : (xs ++ [x])[i]? = some y) :
    xs[i]? = some y ∨ (i = xs.length ∧ y = x) := by
  rw [List.getElem?_append] at h
  split at h
  · exact .inl h
  · rw [List.getElem?_singleton] at h
    split at h <;> cases h
    exact .inr ⟨by omega, rfl⟩

theorem forall₂_getElem? (h : Forall₂ related xs ys) {i : Nat} {x : a} (hx : xs[i]? = some x) :
    exists y, ys[i]? = some y ∧ related x y := by
  induction h generalizing i with
  | nil => cases hx
  | @cons x' y' xs' ys' hxy hrest ih =>
    cases i with
    | zero =>
      cases hx
      exact ⟨y', rfl, hxy⟩
    | succ i => exact ih hx

theorem forall₂_trans {c : Type} {first : a -> b -> Prop} {second : b -> c -> Prop}
    {both : a -> c -> Prop} {zs : List c} (hfirst : Forall₂ first xs ys)
    (hsecond : Forall₂ second ys zs) (h : forall x y z, first x y -> second y z -> both x z) :
    Forall₂ both xs zs := by
  induction hfirst generalizing zs with
  | nil =>
    cases hsecond
    exact .nil
  | cons hxy _ ih =>
    cases hsecond with
    | cons hyz hrest => exact .cons (h _ _ _ hxy hyz) (ih hrest)

theorem forall₂_exists_left (h : Forall₂ related xs ys) {y : b} (hy : y ∈ ys) :
    exists x, x ∈ xs ∧ related x y := by
  induction h with
  | nil => cases hy
  | @cons x' y' xs' ys' hxy hrest ih =>
    rcases mem_cons.mp hy with hhead | htail
    · exact ⟨x', mem_cons_self, hhead ▸ hxy⟩
    · rcases ih htail with ⟨x, hx, hrelated⟩
      exact ⟨x, mem_cons_of_mem x' hx, hrelated⟩

theorem mapM_succeeds (h : forall x, x ∈ xs -> exists y, f x = .ok y) :
    exists ys, xs.mapM f = .ok ys := by
  induction xs with
  | nil => exact ⟨[], rfl⟩
  | cons x rest ih =>
    rcases h x mem_cons_self with ⟨y, hy⟩
    rcases ih (forall_mem_cons.mp h).2 with ⟨ys, hys⟩
    exact ⟨y :: ys, mapM_eq_ok.mpr (.cons hy (mapM_eq_ok.mp hys))⟩

theorem mapM_eq_map {g : a -> b} (h : forall x, x ∈ xs -> f x = .ok (g x)) :
    xs.mapM f = .ok (xs.map g) := by
  rw [mapM_eq_ok, forall₂_map_right_iff, forall₂_same]
  exact h

theorem mapM_flatMap_eq {c : Type} {f : b -> Except error c} {parts : a -> List b}
    {results : a -> List c} (h : forall x, x ∈ xs -> (parts x).mapM f = .ok (results x)) :
    (xs.flatMap parts).mapM f = .ok (xs.flatMap results) := by
  induction xs with
  | nil => rfl
  | cons x xs ih =>
    rw [flatMap_cons, mapM_append, h x mem_cons_self, ih (forall_mem_cons.mp h).2]
    rfl

end ECash.Foundation
