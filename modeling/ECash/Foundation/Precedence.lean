import ECash.Foundation.IndexedSet

/-!
# Orders in which referrers come first

Records with a key refer to the keys of others.  A list of them is in order when no
record comes before one that refers to it.  The order is repaired by moving records to
the end: the moved record is then in order with those before it, and only those it
refers to may be out of order.
-/

namespace ECash.Foundation

open List IndexedSet

variable {a k : Type} {key : a -> k} {links : a -> List k}

/-- The list is in order, but for the records with an excepted key. -/
def ReferrersFirst (key : a -> k) (links : a -> List k) (except : List k) (xs : List a) : Prop :=
  xs.Pairwise fun x y => key x ∈ links y -> key x ∈ except

variable {except except' : List k} {xs ys : List a}

namespace ReferrersFirst

variable (h : ReferrersFirst key links except xs)

include h

theorem mono (hsub : forall x, x ∈ xs -> key x ∈ except -> key x ∈ except') :
    ReferrersFirst key links except' xs :=
  h.imp_of_mem fun hx _ hxy hlink => hsub _ hx (hxy hlink)

theorem sublist (hsub : ys.Sublist xs) : ReferrersFirst key links except ys :=
  List.Pairwise.sublist hsub h

theorem concat {x : a} (hlinks : forall u, u ∈ links x -> u ∈ except) :
    ReferrersFirst key links except (xs ++ [x]) := by
  apply pairwise_append.mpr
  refine ⟨h, pairwise_singleton _ _, ?_⟩
  intro y _ z hz hlink
  rw [mem_singleton.mp hz] at hlink
  exact hlinks _ hlink

end ReferrersFirst

theorem ReferrersFirst.append (hfront : ReferrersFirst key links [] xs)
    (hback : ReferrersFirst key links [] ys)
    (hnone : forall x y, x ∈ xs -> y ∈ ys -> key x ∉ links y) :
    ReferrersFirst key links [] (xs ++ ys) :=
  pairwise_append.mpr ⟨hfront, hback, fun x hx y hy hlink => absurd hlink (hnone x y hx hy)⟩

theorem ReferrersFirst.before (h : ReferrersFirst key links [] xs) {x y : a} (hx : x ∈ xs)
    (hy : y ∈ xs) (hne : x ≠ y) (hlink : key y ∈ links x) : [x, y].Sublist xs := by
  rcases append_of_mem hx with ⟨front, back, heq⟩
  subst heq
  rcases mem_append.mp hy with hfront | hback
  · have hpair := (pairwise_append.mp h).right.right y hfront x mem_cons_self hlink
    exact absurd hpair not_mem_nil
  have hmem : y ∈ back := mem_of_ne_of_mem hne.symm hback
  have htail : [x, y].Sublist (x :: back) := Sublist.cons_cons x (singleton_sublist.mpr hmem)
  exact htail.trans (sublist_append_right front (x :: back))

/-!
## Moving a record to the end
-/

section Move

variable {a k : Type} {key : a -> k} [DecidableEq k]

def IndexedSet.moveToEnd (set : IndexedSet key) (x : a) : IndexedSet key :=
  (set.erase (key x)).insert x

variable {set : IndexedSet key} {x : a}

theorem IndexedSet.items_moveToEnd :
    (set.moveToEnd x).items = (set.erase (key x)).items ++ [x] := by
  apply items_insert
  rw [contains_eq_false]
  intro y hy
  exact (mem_erase.mp hy).right

theorem IndexedSet.moveToEnd_perm (hx : x ∈ set) : (set.moveToEnd x).items.Perm set.items := by
  rcases exists_key_split hx rfl with ⟨_, _, hitems, hrest, _⟩
  rw [items_moveToEnd, hitems, hrest]
  exact (perm_append_singleton x _).trans perm_middle.symm

/-- Once a record is moved, its key needs no exception, but what it refers to does. -/
theorem ReferrersFirst.moveToEnd {links : a -> List k} {except except' : List k}
    (h : ReferrersFirst key links except set.items)
    (hsub : forall u, u ∈ except -> u ≠ key x -> u ∈ except')
    (hlinks : forall u, u ∈ links x -> u ∈ except') :
    ReferrersFirst key links except' (set.moveToEnd x).items := by
  rw [items_moveToEnd]
  apply ReferrersFirst.concat _ hlinks
  have hrest : ReferrersFirst key links except (set.erase (key x)).items := h.sublist filter_sublist
  apply hrest.mono
  intro y hy hexcept
  exact hsub _ hexcept (mem_erase.mp hy).right

end Move

/-!
## Trails

A chain of references in which each key is that of a record.  Without cycles it is no
longer than the list of records.
-/

/-- A record with the first key refers to the second. -/
def Refers (key : a -> k) (links : a -> List k) (known : a -> Prop) (u v : k) : Prop :=
  exists x, known x ∧ key x = u ∧ v ∈ links x

def NoCycles (key : a -> k) (links : a -> List k) (known : a -> Prop) : Prop :=
  forall u, ¬ Relation.TransGen (Refers key links known) u u

theorem NoCycles.mono {known known' : a -> Prop} (h : NoCycles key links known)
    (hsub : forall x, known' x -> known x) : NoCycles key links known' := by
  intro u hu
  apply h u
  apply Relation.TransGen.mono _ _ _ hu
  intro v w hvw
  rcases hvw with ⟨x, hx, hrest⟩
  exact ⟨x, hsub x hx, hrest⟩

theorem noCycles_of_rank {known : a -> Prop} (rank : k -> Nat)
    (hrank : forall x, known x -> forall u, u ∈ links x -> rank u < rank (key x)) :
    NoCycles key links known := by
  have hdown : forall u v, Relation.TransGen (Refers key links known) u v -> rank v < rank u := by
    intro u v huv
    induction huv with
    | single hstep =>
      rcases hstep with ⟨x, hx, rfl, hlink⟩
      exact hrank x hx _ hlink
    | tail _ hstep ih =>
      rcases hstep with ⟨x, hx, rfl, hlink⟩
      exact (hrank x hx _ hlink).trans ih
  intro u hu
  exact Nat.lt_irrefl _ (hdown u u hu)

inductive Trail (key : a -> k) (links : a -> List k) (xs : List a) : List k -> k -> Prop where
  | start {x : a} {v : k} (hx : x ∈ xs) (hv : v ∈ links x) : Trail key links xs [key x] v
  | step {chain : List k} {x : a} {v : k} (htrail : Trail key links xs chain (key x))
      (hx : x ∈ xs) (hv : v ∈ links x) : Trail key links xs (key x :: chain) v

variable {known : a -> Prop} {chain : List k} {v : k}

theorem Trail.mem_keys (h : Trail key links xs chain v) :
    forall u, u ∈ chain -> u ∈ xs.map key := by
  induction h with
  | start hx hv =>
    intro u hu
    rw [mem_singleton.mp hu]
    exact mem_map_of_mem hx
  | step _ hx _ ih => exact forall_mem_cons.mpr ⟨mem_map_of_mem hx, ih⟩

namespace Trail

variable (hknown : forall x, x ∈ xs -> known x)

include hknown

theorem reaches (h : Trail key links xs chain v) :
    forall u, u ∈ chain -> Relation.TransGen (Refers key links known) u v := by
  induction h with
  | start hx hv =>
    intro u hu
    rw [mem_singleton.mp hu]
    exact Relation.TransGen.single ⟨_, hknown _ hx, rfl, hv⟩
  | step _ hx hv ih =>
    have hlast : Refers key links known _ _ := ⟨_, hknown _ hx, rfl, hv⟩
    exact forall_mem_cons.mpr ⟨Relation.TransGen.single hlast, fun u hu => (ih u hu).tail hlast⟩

theorem nodup (hacyclic : NoCycles key links known) (h : Trail key links xs chain v) :
    chain.Nodup := by
  induction h with
  | start hx hv => exact nodup_singleton _
  | step htrail _ _ ih =>
    apply nodup_cons.mpr
    exact ⟨fun hmem => hacyclic _ (htrail.reaches hknown _ hmem), ih⟩

theorem length_le (hacyclic : NoCycles key links known) (h : Trail key links xs chain v) :
    chain.length ≤ xs.length := by
  have hsub := subperm_of_subset (h.nodup hknown hacyclic) h.mem_keys
  have hle := hsub.length_le
  rw [length_map] at hle
  exact hle

end Trail

end ECash.Foundation
