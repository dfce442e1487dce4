import ECash.Foundation.Computation

/-!
# Postconditions of stateful computations

A computation reads and updates a state and may fail.  `Returns` says that it does
not fail from a given state and what then holds of its value and of the state it
leaves.
-/

namespace ECash.Foundation

open List

variable {state error a b : Type}

def Returns (x : StateT state (Except error) a) (s : state) (post : a -> state -> Prop) : Prop :=
  exists y t, x s = .ok (y, t) ∧ post y t

variable {s : state} {post : b -> state -> Prop}

theorem Returns.pure {y : a} {post : a -> state -> Prop} (h : post y s) :
    Returns (Pure.pure y : StateT state (Except error) a) s post :=
  ⟨y, s, rfl, h⟩

variable {x : StateT state (Except error) a} {t : state}
  {f : PUnit -> StateT state (Except error) b}

theorem Returns.bind {f : a -> StateT state (Except error) b} {mid : a -> state -> Prop}
    (hx : Returns x s mid) (hf : forall y t, mid y t -> Returns (f y) t post) :
    Returns (x >>= f) s post := by
  rcases hx with ⟨y, t, hxy, hmid⟩
  rcases hf y t hmid with ⟨z, u, hfz, hpost⟩
  exact ⟨z, u, stateT_bind_eq_ok.mpr ⟨y, t, hxy, hfz⟩, hpost⟩

theorem Returns.mono {post post' : a -> state -> Prop} (hx : Returns x s post)
    (h : forall y t, post y t -> post' y t) : Returns x s post' := by
  rcases hx with ⟨y, t, hxy, hpost⟩
  exact ⟨y, t, hxy, h y t hpost⟩

theorem Returns.get_bind {f : state -> StateT state (Except error) b} (h : Returns (f s) s post) :
    Returns (get >>= f) s post :=
  h

theorem Returns.set {post : PUnit -> state -> Prop} (h : post PUnit.unit t) :
    Returns (MonadStateOf.set t : StateT state (Except error) PUnit) s post :=
  ⟨PUnit.unit, t, rfl, h⟩

theorem Returns.set_bind (h : Returns (f PUnit.unit) t post) :
    Returns (MonadStateOf.set t >>= f) s post :=
  h

variable {update : state -> state}

theorem Returns.modify_bind (h : Returns (f PUnit.unit) (update s) post) :
    Returns (modifyThe state update >>= f) s post :=
  h

theorem Returns.lift_bind {x : Except error a} {f : a -> StateT state (Except error) b} {y : a}
    (hx : x = .ok y) (h : Returns (f y) s post) : Returns (liftM x >>= f) s post := by
  rw [hx]
  exact h

/-!
## Assertions
-/

def require (cond : Prop) [Decidable cond] (err : error) : StateT state (Except error) PUnit :=
  if cond then pure PUnit.unit else throw err

theorem Returns.require_bind {cond : Prop} [Decidable cond] {err : error}
    {f : PUnit -> StateT state (Except error) b} {s : state} {post : b -> state -> Prop}
    (hcond : cond) (h : Returns (f PUnit.unit) s post) :
    Returns (require cond err >>= f) s post := by
  unfold require
  rw [if_pos hcond]
  exact h

/-!
## Loops
-/

variable {xs : List a}

/-- The invariant of a loop may mention the elements already visited. -/
theorem Returns.forM_done {f : a -> StateT state (Except error) PUnit}
    (inv : List a -> state -> Prop) (hstep : forall done x s, x ∈ xs -> inv done s ->
      Returns (f x) s fun _ t => inv (done ++ [x]) t) {done : List a} (h : inv done s) :
    Returns (xs.forM f) s fun _ t => inv (done ++ xs) t := by
  induction xs generalizing done s with
  | nil =>
    apply Returns.pure
    rw [append_nil]
    exact h
  | cons x rest ih =>
    apply Returns.bind (hstep done x s mem_cons_self h)
    intro _ t ht
    rw [append_cons]
    exact ih (fun done y s hy => hstep done y s (mem_cons_of_mem x hy)) ht

theorem Returns.forM {f : a -> StateT state (Except error) PUnit} (inv : state -> Prop)
    (hstep : forall x s, x ∈ xs -> inv s -> Returns (f x) s fun _ t => inv t) (h : inv s) :
    Returns (xs.forM f) s fun _ t => inv t :=
  @Returns.forM_done state error a s xs f (fun _ => inv) (fun _ => hstep) [] h

theorem Returns.filterM {f : a -> StateT state (Except error) Bool} (inv : state -> Prop)
    (hstep : forall x s, x ∈ xs -> inv s -> Returns (f x) s fun _ t => inv t) (h : inv s) :
    Returns (xs.filterM f) s fun ys t => inv t ∧ forall y, y ∈ ys -> y ∈ xs := by
  have haux : forall (rest acc : List a) (s : state), (forall x, x ∈ rest -> x ∈ xs) ->
      (forall x, x ∈ acc -> x ∈ xs) -> inv s ->
      Returns (filterAuxM f rest acc) s fun ys t => inv t ∧ forall y, y ∈ ys -> y ∈ xs := by
    intro rest
    induction rest with
    | nil =>
      intro acc s _ hacc hs
      exact Returns.pure ⟨hs, hacc⟩
    | cons x rest ih =>
      intro acc s hrest hacc hs
      have hx := hrest x mem_cons_self
      apply Returns.bind (hstep x s hx hs)
      intro keep t ht
      apply ih _ t (forall_mem_cons.mp hrest).2 _ ht
      cases keep with
      | false => exact hacc
      | true => exact forall_mem_cons.mpr ⟨hx, hacc⟩
  apply Returns.bind (haux xs [] s (fun _ hx => hx) nofun h)
  rintro _ _ ⟨ht, hys⟩
  exact Returns.pure ⟨ht, fun y hy => hys y (mem_reverse.mp hy)⟩

theorem Returns.mapM {f : a -> StateT state (Except error) b} (inv : state -> Prop)
    (image : b -> Prop)
    (hstep : forall x s, x ∈ xs -> inv s -> Returns (f x) s fun y t => inv t ∧ image y)
    (h : inv s) : Returns (xs.mapM f) s fun ys t => inv t ∧ forall y, y ∈ ys -> image y := by
  induction xs generalizing s with
  | nil => exact Returns.pure ⟨h, nofun⟩
  | cons x rest ih =>
    rw [mapM_cons]
    apply Returns.bind (hstep x s mem_cons_self h)
    rintro _ _ ⟨ht, hy⟩
    apply Returns.bind (ih (fun x' s hx' => hstep x' s (mem_cons_of_mem x hx')) ht)
    rintro _ _ ⟨hu, hys⟩
    exact Returns.pure ⟨hu, forall_mem_cons.mpr ⟨hy, hys⟩⟩

end ECash.Foundation
