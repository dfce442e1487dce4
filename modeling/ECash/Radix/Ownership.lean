import ECash.Foundation.References
import ECash.Radix.Trie

/-!
# Owners of nodes

The owners of a node are the slots that refer to it.  While an operation runs, some
references are in no slot: they are in its hands, or belong to a node that is to be
destroyed.  With these the count of every node is exact at any moment.
-/

namespace ECash.Radix

open Foundation List Function

variable {value : Type}

def RadixElement.target : RadixElement value -> Option Addr
  | leaf _ => none
  | node p => some p

@[simp] theorem RadixElement.target_leaf (l : Option value) :
    (RadixElement.leaf l).target = none := rfl

@[simp] theorem RadixElement.target_node (p : Addr) :
    (.node p : RadixElement value).target = some p := rfl

namespace Memory

/-!
## Slots
-/

def Valid (st : Memory value) : Slot -> Prop
  | .root tree => tree < st.trees
  | .child p _ => (st.nodes p).isSome = true

def read (st : Memory value) : Slot -> RadixElement value
  | .root tree => st.roots tree
  | .child p i =>
    match st.nodes p with
    | none => .leaf none
    | some nd => nd.children i

def rootSlots (st : Memory value) : Finset Slot :=
  (Finset.range st.trees).image .root

def childSlots (p : Addr) : Finset Slot :=
  Finset.univ.image (.child p)

def slots (st : Memory value) : Finset Slot :=
  st.rootSlots ∪ ((Finset.range st.next).filter fun p => (st.nodes p).isSome).biUnion childSlots

variable {st : Memory value} {p : Addr} {nd : RadixNode value} {i : Fin 16} {s : Slot}
  {st' : Memory value} {hand' : Addr -> Nat} {t : Slot} {e : RadixElement value}

theorem read_child (h : st.nodes p = some nd) (i : Fin 16) :
    st.read (.child p i) = nd.children i := by
  simp only [read, h]

theorem read_child_none (h : st.nodes p = none) (i : Fin 16) :
    st.read (.child p i) = .leaf none := by
  simp only [read, h]

theorem valid_child (h : st.nodes p = some nd) (i : Fin 16) : st.Valid (.child p i) := by
  show (st.nodes p).isSome = true
  rw [h]
  rfl

theorem exists_node_of_valid (h : st.Valid (.child p i)) : exists nd, st.nodes p = some nd :=
  Option.isSome_iff_exists.mp h

theorem mem_childSlots : s ∈ childSlots p <-> exists i, s = .child p i := by
  simp [childSlots, eq_comm]

/-- Nodes are made below the next address. -/
def Fresh (st : Memory value) : Prop :=
  forall p, st.next ≤ p -> st.nodes p = none

theorem mem_slots (h : st.Fresh) : s ∈ st.slots <-> st.Valid s := by
  unfold slots rootSlots
  simp only [Finset.mem_union, Finset.mem_image, Finset.mem_range, Finset.mem_biUnion,
    Finset.mem_filter, mem_childSlots]
  cases s with
  | root tree => simp [Valid]
  | child p i =>
    simp only [reduceCtorEq, and_false, exists_false, false_or, Slot.child.injEq]
    constructor
    · rintro ⟨_, hq, _, rfl, _⟩
      exact hq.right
    · intro hvalid
      refine ⟨p, ⟨?_, hvalid⟩, i, rfl, rfl⟩
      by_contra hge
      rcases exists_node_of_valid hvalid with ⟨_, hnd⟩
      cases (h p (not_lt.mp hge)).symm.trans hnd

theorem slots_congr (h : st.Fresh) (h' : st'.Fresh)
    (hvalid : forall s, st'.Valid s <-> st.Valid s) : st'.slots = st.slots := by
  apply Finset.ext
  intro s
  rw [mem_slots h', mem_slots h, hvalid]

def target (st : Memory value) (s : Slot) : Option Addr :=
  (st.read s).target

theorem target_child (h : st.nodes p = some nd) (i : Fin 16) :
    st.target (.child p i) = (nd.children i).target :=
  congrArg RadixElement.target (read_child h i)

def ownerCount (st : Memory value) (p : Addr) : Nat :=
  refs st.slots st.target p

theorem ownerCount_grow {new : Finset Slot} (h : st.Fresh) (h' : st'.Fresh)
    (hvalid : forall s, st'.Valid s <-> st.Valid s ∨ s ∈ new)
    (hnew : forall s, s ∈ new -> ¬ st.Valid s)
    (hread : forall s, st.Valid s -> st'.read s = st.read s) (p : Addr) :
    st'.ownerCount p = st.ownerCount p + refs new st'.target p := by
  have hslots : st'.slots = st.slots ∪ new := by
    apply Finset.ext
    intro s
    rw [mem_slots h', hvalid, Finset.mem_union, mem_slots h]
  have hold : refs st.slots st'.target p = st.ownerCount p := by
    apply refs_congr
    intro s hs
    exact congrArg RadixElement.target (hread s ((mem_slots h).mp hs))
  have hdisjoint : Disjoint st.slots new := by
    rw [Finset.disjoint_left]
    exact fun s hs hmem => hnew s hmem ((mem_slots h).mp hs)
  unfold ownerCount at hold ⊢
  rw [hslots, refs_union hdisjoint, hold]

/-- The owners a node counts; there is none of a destroyed one. -/
def counted (st : Memory value) (p : Addr) : Nat :=
  match st.nodes p with
  | none => 0
  | some nd => nd.refcount + 1

theorem counted_of_node (hnd : st.nodes p = some nd) : st.counted p = nd.refcount + 1 := by
  unfold counted
  rw [hnd]

theorem load_eq_read (h : st.Valid s) : st.load s = .ok (st.read s) := by
  cases s with
  | root tree => exact if_pos h
  | child p i =>
    rcases exists_node_of_valid h with ⟨_, hnd⟩
    simp only [load, getNode, read, hnd, Except.bind, bind]

/-!
## The balance
-/

/-- The counts are exact, with the references of `hand` that are in no slot. -/
structure Balanced (st : Memory value) (hand : Addr -> Nat) : Prop where
  fresh : st.Fresh
  counts : forall p, st.counted p = st.ownerCount p + st.cleanups.count p + hand p
  pending : forall p, p ∈ st.cleanups -> st.counted p = 1

def noHand : Addr -> Nat := fun _ => 0

def withRef (hand : Addr -> Nat) (e : RadixElement value) : Addr -> Nat :=
  fun p => hand p + hit e.target p

variable {hand : Addr -> Nat}

theorem Balanced.congr (h : st.Balanced hand) (heq : forall p, hand p = hand' p) :
    st.Balanced hand' where
  fresh := h.fresh
  counts := by
    intro p
    rw [h.counts p, heq p]
  pending := h.pending

theorem exists_node_of_counted (h : 0 < st.counted p) :
    exists nd, st.nodes p = some nd ∧ st.counted p = nd.refcount + 1 := by
  unfold counted at h ⊢
  cases hnode : st.nodes p with
  | none =>
    rw [hnode] at h
    cases h
  | some nd => exact ⟨nd, rfl, rfl⟩

theorem Balanced.node_of_target (h : st.Balanced hand) (hs : st.Valid s)
    (htarget : st.target s = some p) : exists nd, st.nodes p = some nd := by
  have hpos : 0 < st.ownerCount p := refs_pos ((mem_slots h.fresh).mpr hs) htarget
  have hcount := h.counts p
  rcases exists_node_of_counted (show 0 < st.counted p by omega) with ⟨nd, hnd, -⟩
  exact ⟨nd, hnd⟩

theorem Balanced.owner_unique (h : st.Balanced hand) (hnd : st.nodes p = some nd)
    (hunshared : nd.refcount = 0) (hs : st.Valid s) (ht : st.Valid t)
    (hstarget : st.target s = some p) (httarget : st.target t = some p) : s = t := by
  have hcount := h.counts p
  rw [counted_of_node hnd] at hcount
  have hle : st.ownerCount p ≤ 1 := by omega
  exact slot_unique hle ((mem_slots h.fresh).mpr hs) ((mem_slots h.fresh).mpr ht) hstarget httarget

/-!
## Counting up and down

These change the counts of nodes and nothing that a slot holds.
-/

/-- The two memories differ in the counts of their nodes and in what is to be destroyed. -/
structure SameShape (st st' : Memory value) : Prop where
  next : st'.next = st.next
  roots : st'.roots = st.roots
  trees : st'.trees = st.trees
  children : forall p, (st'.nodes p).map RadixNode.children = (st.nodes p).map RadixNode.children

variable {st'' : Memory value}

theorem SameShape.refl (st : Memory value) : SameShape st st where
  next := rfl
  roots := rfl
  trees := rfl
  children := fun _ => rfl

namespace SameShape

variable (h : SameShape st st')

include h

theorem trans (h' : SameShape st' st'') : SameShape st st'' where
  next := h'.next.trans h.next
  roots := h'.roots.trans h.roots
  trees := h'.trees.trans h.trees
  children := fun p => (h'.children p).trans (h.children p)

theorem isSome_eq (p : Addr) : (st'.nodes p).isSome = (st.nodes p).isSome := by
  have hmap := congrArg Option.isSome (h.children p)
  simpa using hmap

theorem valid_iff (s : Slot) : st'.Valid s <-> st.Valid s := by
  cases s with
  | root tree =>
    show tree < st'.trees <-> tree < st.trees
    rw [h.trees]
  | child p i =>
    show (st'.nodes p).isSome = true <-> (st.nodes p).isSome = true
    rw [h.isSome_eq]

theorem read_eq (s : Slot) : st'.read s = st.read s := by
  cases s with
  | root tree => exact congrFun h.roots tree
  | child p i =>
    have hp := h.children p
    cases hnode : st.nodes p with
    | none =>
      rw [hnode] at hp
      rw [read_child_none hnode, read_child_none (Option.map_eq_none_iff.mp hp)]
    | some nd =>
      rw [hnode] at hp
      rcases Option.map_eq_some_iff.mp hp with ⟨_, hnd', hchildren⟩
      rw [read_child hnode, read_child hnd', hchildren]

theorem fresh (hfresh : st.Fresh) : st'.Fresh := by
  intro p hp
  rw [h.next] at hp
  have hmap := h.children p
  rw [hfresh p hp] at hmap
  exact Option.map_eq_none_iff.mp hmap

theorem ownerCount_eq (hfresh : st.Fresh) (p : Addr) : st'.ownerCount p = st.ownerCount p := by
  unfold ownerCount
  rw [slots_congr hfresh (h.fresh hfresh) h.valid_iff]
  apply refs_congr
  intro s _
  exact congrArg RadixElement.target (h.read_eq s)

end SameShape

theorem sameShape_setCount (hnd : st.nodes p = some nd) (refcount : Nat) :
    SameShape st (st.setNode p (some { nd with refcount })) where
  next := rfl
  roots := rfl
  trees := rfl
  children := by
    intro q
    unfold setNode
    dsimp only
    by_cases heq : q = p
    · rw [heq, update_self, hnd]
      rfl
    · rw [update_of_ne heq]

theorem counted_setCount (p : Addr) (nd : RadixNode value) (refcount : Nat) (q : Addr) :
    (st.setNode p (some { nd with refcount })).counted q =
      if q = p then refcount + 1 else st.counted q := by
  unfold counted setNode
  by_cases heq : q = p
  · simp [heq]
  · simp [heq]

/-- The element is a leaf or a node that is there. -/
def Alive (st : Memory value) (e : RadixElement value) : Prop :=
  forall p, e.target = some p -> exists nd, st.nodes p = some nd

theorem Balanced.alive_read (h : st.Balanced hand) (hs : st.Valid s) : st.Alive (st.read s) :=
  fun _ htarget => h.node_of_target hs htarget

theorem SameShape.alive (h : SameShape st st') (he : st.Alive e) : st'.Alive e := by
  intro p hp
  rcases he p hp with ⟨_, hnd⟩
  apply Option.isSome_iff_exists.mp
  rw [h.isSome_eq, hnd]
  rfl

theorem Balanced.setCount (h : st.Balanced hand) (hnd : st.nodes p = some nd) {refcount : Nat}
    (hself : refcount + 1 + hand p = nd.refcount + 1 + hand' p)
    (hother : forall q, q ≠ p -> hand' q = hand q) (hfree : p ∉ st.cleanups) :
    (st.setNode p (some { nd with refcount })).Balanced hand' := by
  have hshape := sameShape_setCount hnd refcount
  refine { fresh := hshape.fresh h.fresh, counts := ?_, pending := ?_ }
  · intro q
    rw [counted_setCount, hshape.ownerCount_eq h.fresh]
    have hcount := h.counts q
    show _ = st.ownerCount q + st.cleanups.count q + hand' q
    split
    · rename_i heq
      subst heq
      have hself' := counted_of_node hnd
      omega
    · rename_i hne
      rw [hother q hne]
      exact hcount
  · intro q hq
    rw [counted_setCount, if_neg (ne_of_mem_of_not_mem hq hfree)]
    exact h.pending q hq

theorem Balanced.notMem_cleanups (h : st.Balanced hand) (hmore : 0 < hand p + st.ownerCount p) :
    p ∉ st.cleanups := by
  intro hmem
  have hone := h.pending p hmem
  have hcounts := h.counts p
  have hpos : 0 < st.cleanups.count p := count_pos_iff.mpr hmem
  omega

theorem Balanced.incrementRefCount (h : st.Balanced hand) (halive : st.Alive e)
    (hfree : forall p, e.target = some p -> p ∉ st.cleanups) :
    exists st', st.incrementRefCount e = .ok st' ∧ st'.Balanced (withRef hand e) ∧
      SameShape st st' ∧ st'.cleanups = st.cleanups := by
  cases e with
  | leaf l => exact ⟨st, rfl, h.congr fun p => by simp [withRef], SameShape.refl st, rfl⟩
  | node p =>
    rcases halive p rfl with ⟨nd, hnd⟩
    refine ⟨st.setNode p (some { nd with refcount := nd.refcount + 1 }), ?_, ?_,
      sameShape_setCount hnd _, rfl⟩
    · simp only [Memory.incrementRefCount, getNode, hnd, Except.bind, bind]
    · apply h.setCount hnd _ _ (hfree p rfl)
      · simp [withRef]
        omega
      · intro q hq
        simp [withRef, hit_ne (Ne.symm hq)]

theorem Balanced.decrementRefCount (h : st.Balanced (withRef hand e)) :
    exists st', st.decrementRefCount e = .ok st' ∧ st'.Balanced hand ∧ SameShape st st' := by
  cases e with
  | leaf l => exact ⟨st, rfl, h.congr fun p => by simp [withRef], SameShape.refl st⟩
  | node p =>
    have hcount := h.counts p
    have hhand : withRef hand (RadixElement.node p : RadixElement value) p = hand p + 1 := by
      simp [withRef]
    rcases exists_node_of_counted (show 0 < st.counted p by omega) with ⟨nd, hnd, _⟩
    have hother : forall q, q ≠ p -> hand q = withRef hand (.node p : RadixElement value) q := by
      intro q hq
      simp [withRef, hit_ne (Ne.symm hq)]
    by_cases hshared : nd.refcount > 0
    · refine ⟨st.setNode p (some { nd with refcount := nd.refcount - 1 }), ?_, ?_,
        sameShape_setCount hnd _⟩
      · simp only [Memory.decrementRefCount, getNode, hnd, Except.bind, bind, if_pos hshared]
      · exact h.setCount hnd (by omega) hother (h.notMem_cleanups (by omega))
    · have hshape : SameShape st { st with cleanups := st.cleanups ++ [p] } :=
        ⟨rfl, rfl, rfl, fun _ => rfl⟩
      refine ⟨{ st with cleanups := st.cleanups ++ [p] }, ?_, ?_, hshape⟩
      · simp only [Memory.decrementRefCount, getNode, hnd, Except.bind, bind, if_neg hshared]
      refine { fresh := h.fresh, counts := ?_, pending := ?_ }
      · intro q
        have hq := h.counts q
        show st.counted q = st.ownerCount q + (st.cleanups ++ [p]).count q + hand q
        rw [count_append, count_singleton]
        by_cases heq : q = p
        · subst heq
          simp only [beq_self_eq_true, if_true]
          omega
        · rw [hother q heq, hq]
          simp [Ne.symm heq]
      · refine forall_mem_append.mpr ⟨h.pending, forall_mem_singleton.mpr ?_⟩
        show st.counted p = 1
        omega

theorem mem_cleanups_decrementRefCount (h : st.decrementRefCount e = .ok st') {q : Addr}
    (hq : q ∈ st'.cleanups) : q ∈ st.cleanups ∨ e.target = some q := by
  cases e with
  | leaf l =>
    cases h
    exact .inl hq
  | node p =>
    cases hnode : st.nodes p with
    | none => simp [Memory.decrementRefCount, getNode, hnode, bind, Except.bind] at h
    | some nd =>
      simp only [Memory.decrementRefCount, getNode, hnode, bind, Except.bind] at h
      split at h
      · cases h
        exact .inl hq
      · cases h
        exact (mem_append.mp hq).imp_right fun hlast => congrArg some (mem_singleton.mp hlast).symm

/-!
## All children of a node
-/

def withRefs (hand : Addr -> Nat) (children : Fin 16 -> RadixElement value)
    (places : List (Fin 16)) : Addr -> Nat :=
  fun p => hand p + (places.map fun i => hit (children i).target p).sum

variable {children : Fin 16 -> RadixElement value}

theorem Balanced.incrementAll (places : List (Fin 16)) (h : st.Balanced hand)
    (halive : forall i, st.Alive (children i)) (hfree : st.cleanups = []) :
    exists st', places.foldlM (fun st i => st.incrementRefCount (children i)) st =
        .ok st' ∧ st'.Balanced (withRefs hand children places) ∧ SameShape st st' ∧
      st'.cleanups = [] := by
  induction places generalizing st hand with
  | nil => exact ⟨st, rfl, h.congr fun p => by simp [withRefs], SameShape.refl st, hfree⟩
  | cons i places ih =>
    rcases h.incrementRefCount (halive i) (fun p _ => by simp [hfree]) with
      ⟨st₁, hinc, hbal, hshape, hclean⟩
    rcases ih hbal (fun j => hshape.alive (halive j)) (hclean.trans hfree) with
      ⟨st', hrest, hbal', hshape', hclean'⟩
    refine ⟨st', ?_, hbal'.congr fun p => ?_, hshape.trans hshape', hclean'⟩
    · rw [foldlM_cons, hinc]
      exact hrest
    · simp only [withRefs, withRef, map_cons, sum_cons]
      omega

theorem Balanced.decrementAll (places : List (Fin 16))
    (h : st.Balanced (withRefs hand children places)) :
    exists st', places.foldlM (fun st i => st.decrementRefCount (children i)) st =
        .ok st' ∧ st'.Balanced hand ∧ SameShape st st' := by
  induction places generalizing st with
  | nil => exact ⟨st, rfl, h.congr fun p => by simp [withRefs], SameShape.refl st⟩
  | cons i places ih =>
    have hfirst : st.Balanced (withRef (withRefs hand children places) (children i)) := by
      refine h.congr fun p => ?_
      simp only [withRefs, withRef, map_cons, sum_cons]
      omega
    rcases hfirst.decrementRefCount with ⟨st₁, hdec, hbal, hshape⟩
    rcases ih hbal with ⟨st', hrest, hbal', hshape'⟩
    refine ⟨st', ?_, hbal', hshape.trans hshape'⟩
    rw [foldlM_cons, hdec]
    exact hrest

theorem child_injective (p : Addr) : Function.Injective (Slot.child p) := by
  rintro i j ⟨⟩
  rfl

def childRefs (children : Fin 16 -> RadixElement value) (p : Addr) : Nat :=
  ((finRange 16).map fun i => hit (children i).target p).sum

theorem refs_childSlots (hnd : st.nodes p = some nd) (a : Addr) :
    refs (childSlots p) st.target a = childRefs nd.children a := by
  have himage := @refs_image _ _ _ st.target a _ _ _ (child_injective p)
  simp only [target_child hnd] at himage
  exact himage

/-!
## Storing
-/

theorem read_store_self (hs : st.Valid s) : (st.store s e).read s = e := by
  cases s with
  | root tree => exact update_self tree e st.roots
  | child p i =>
    rcases exists_node_of_valid hs with ⟨_, hnd⟩
    simp [store, hnd, read, setNode]

theorem nodes_store_child (hnd : st.nodes p = some nd) :
    (st.store (.child p i) e).nodes =
      Function.update st.nodes p
        (some { nd with children := Function.update nd.children i e }) := by
  simp [store, hnd, setNode]

theorem read_store_ne (hne : t ≠ s) : (st.store s e).read t = st.read t := by
  cases s with
  | root tree =>
    cases t with
    | root other => exact update_of_ne (fun heq => hne (congrArg Slot.root heq)) e st.roots
    | child q j => rfl
  | child p i =>
    cases hnode : st.nodes p with
    | none => simp [store, hnode]
    | some nd =>
      cases t with
      | root other => simp [store, hnode, read, setNode]
      | child q j =>
        unfold read
        rw [nodes_store_child hnode]
        by_cases hq : q = p
        · subst hq
          have hj : j ≠ i := fun heq => hne (congrArg (Slot.child q) heq)
          simp [hnode, update_of_ne hj]
        · simp [update_of_ne hq]

theorem refcount_store (p : Addr) :
    ((st.store s e).nodes p).map RadixNode.refcount = (st.nodes p).map RadixNode.refcount := by
  cases s with
  | root tree => rfl
  | child q i =>
    cases hnode : st.nodes q with
    | none => simp [store, hnode]
    | some nd =>
      rw [nodes_store_child hnode]
      by_cases hp : p = q
      · subst hp
        simp [hnode]
      · rw [update_of_ne hp]

theorem isSome_store (p : Addr) : ((st.store s e).nodes p).isSome = (st.nodes p).isSome := by
  have hmap := congrArg Option.isSome (@refcount_store _ st s e p)
  simpa using hmap

theorem store_unchanged : (st.store s e).next = st.next ∧ (st.store s e).trees = st.trees ∧
    (st.store s e).cleanups = st.cleanups := by
  cases s with
  | root tree => exact ⟨rfl, rfl, rfl⟩
  | child q i =>
    cases hnode : st.nodes q with
    | none => simp [store, hnode]
    | some nd => simp [store, hnode, setNode]

theorem valid_store_iff : (st.store s e).Valid t <-> st.Valid t := by
  cases t with
  | root tree =>
    show tree < (st.store s e).trees <-> tree < st.trees
    rw [store_unchanged.right.left]
  | child p i =>
    show ((st.store s e).nodes p).isSome = true <-> (st.nodes p).isSome = true
    rw [isSome_store]

theorem fresh_store (h : st.Fresh) : (st.store s e).Fresh := by
  intro p hp
  rw [store_unchanged.left] at hp
  have hnone := @refcount_store value st s e p
  rw [h p hp] at hnone
  exact Option.map_eq_none_iff.mp hnone

theorem counted_store (p : Addr) : (st.store s e).counted p = st.counted p := by
  have hmap := @refcount_store _ st s e p
  unfold counted
  grind

theorem ownerCount_store (h : st.Fresh) (hs : st.Valid s) (p : Addr) :
    (st.store s e).ownerCount p + hit (st.read s).target p = st.ownerCount p + hit e.target p := by
  have hmove := @refs_update Slot Addr _ st.slots st.target (st.store s e).target p _ s
    ((mem_slots h).mpr hs) (fun t _ hne => congrArg RadixElement.target (read_store_ne hne))
  have hnew : (st.store s e).target s = e.target :=
    congrArg RadixElement.target (read_store_self hs)
  rw [hnew] at hmove
  unfold ownerCount
  rw [slots_congr h (fresh_store h) fun _ => valid_store_iff]
  exact hmove

theorem Balanced.store (h : st.Balanced (withRef hand e)) (hs : st.Valid s) :
    (st.store s e).Balanced (withRef hand (st.read s)) where
  fresh := fresh_store h.fresh
  counts := by
    intro p
    have hcount := h.counts p
    have hmove := @ownerCount_store _ _ _ e h.fresh hs p
    rw [counted_store, store_unchanged.right.right]
    simp only [withRef] at hcount ⊢
    omega
  pending := by
    intro p hp
    rw [store_unchanged.right.right] at hp
    rw [counted_store]
    exact h.pending p hp

/-!
## Making and destroying nodes
-/

/-- The second memory has one node more. -/
structure Grows (st st' : Memory value) (p : Addr) (nd : RadixNode value) : Prop where
  roots : st'.roots = st.roots
  trees : st'.trees = st.trees
  absent : st.nodes p = none
  node : st'.nodes p = some nd
  others : forall q, q ≠ p -> st'.nodes q = st.nodes q

namespace Grows

variable (h : Grows st st' p nd)

include h

theorem valid_iff : st'.Valid s <-> st.Valid s ∨ s ∈ childSlots p := by
  rw [mem_childSlots]
  cases s with
  | root tree =>
    show tree < st'.trees <-> tree < st.trees ∨ _
    simp [h.trees]
  | child q i =>
    show (st'.nodes q).isSome = true <-> (st.nodes q).isSome = true ∨ _
    by_cases hq : q = p
    · subst hq
      simp [h.node]
    · simp [h.others q hq, hq]

theorem not_valid (s : Slot) (hs : s ∈ childSlots p) : ¬ st.Valid s := by
  rcases mem_childSlots.mp hs with ⟨_, rfl⟩
  intro hvalid
  rcases exists_node_of_valid hvalid with ⟨_, hnd⟩
  cases h.absent.symm.trans hnd

theorem read_eq (hs : st.Valid s) : st'.read s = st.read s := by
  cases s with
  | root tree => exact congrFun h.roots tree
  | child q i =>
    have hq : q ≠ p := by
      rintro rfl
      exact h.not_valid _ (mem_childSlots.mpr ⟨i, rfl⟩) hs
    simp only [read, h.others q hq]

theorem counted_eq (hcount : nd.refcount = 0) (q : Addr) :
    st'.counted q = st.counted q + hit (some p) q := by
  unfold counted
  by_cases hq : q = p
  · simp [hq, h.node, h.absent, hcount]
  · simp [h.others q hq, hit_ne (Ne.symm hq)]

theorem ownerCount_eq (hfresh : st.Fresh) (hfresh' : st'.Fresh)
    (q : Addr) : st'.ownerCount q = st.ownerCount q + childRefs nd.children q := by
  rw [ownerCount_grow hfresh hfresh' (fun _ => h.valid_iff) h.not_valid (fun _ => h.read_eq),
    refs_childSlots h.node]

/-- The references to the children go into the new node, which is in hand. -/
theorem balanced_iff (hfresh : st.Fresh) (hfresh' : st'.Fresh)
    (hcount : nd.refcount = 0) (hclean : st'.cleanups = st.cleanups) (hfree : p ∉ st.cleanups) :
    st'.Balanced (withRef hand (.node p : RadixElement value)) <->
      st.Balanced (withRefs hand nd.children (finRange 16)) := by
  have hcounted := h.counted_eq hcount
  have howners := h.ownerCount_eq hfresh hfresh'
  have hpending : forall q, q ∈ st.cleanups -> st'.counted q = st.counted q := by
    intro q hq
    rw [hcounted, hit_ne (ne_of_mem_of_not_mem hq hfree).symm, add_zero]
  have hcounts : forall q, st'.counted q = st'.ownerCount q + st'.cleanups.count q +
      withRef hand (.node p : RadixElement value) q <-> st.counted q = st.ownerCount q +
        st.cleanups.count q + withRefs hand nd.children (finRange 16) q := by
    intro q
    rw [hcounted, howners, hclean]
    simp only [withRef, withRefs, childRefs, RadixElement.target_node]
    omega
  constructor
  · intro hbal
    exact ⟨hfresh, fun q => (hcounts q).mp (hbal.counts q), fun q hq =>
      (hpending q hq).symm.trans (hbal.pending q (hclean ▸ hq))⟩
  · intro hbal
    exact ⟨hfresh', fun q => (hcounts q).mpr (hbal.counts q), fun q hq =>
      (hpending q (hclean ▸ hq)).trans (hbal.pending q (hclean ▸ hq))⟩

end Grows

theorem fresh_alloc (h : st.Fresh) : (st.alloc children).Fresh := by
  intro p hp
  have hlt : st.next < p := hp
  show update st.nodes st.next _ p = none
  rw [update_of_ne (Nat.ne_of_gt hlt)]
  exact h p hlt.le

theorem nodes_alloc_self : (st.alloc children).nodes st.next = some { refcount := 0, children } :=
  update_self _ _ _

theorem grows_alloc (h : st.Fresh) :
    Grows st (st.alloc children) st.next { refcount := 0, children } where
  roots := rfl
  trees := rfl
  absent := h st.next le_rfl
  node := nodes_alloc_self
  others := fun _ hq => update_of_ne hq _ _

theorem Balanced.alloc (h : st.Balanced (withRefs hand children (finRange 16))) :
    (st.alloc children).Balanced (withRef hand (.node st.next : RadixElement value)) := by
  have hgrows := @grows_alloc _ _ children h.fresh
  have hfree : st.next ∉ st.cleanups := by
    intro hmem
    have hone := h.pending _ hmem
    unfold counted at hone
    rw [hgrows.absent] at hone
    cases hone
  exact (hgrows.balanced_iff h.fresh (fresh_alloc h.fresh) rfl rfl hfree).mpr h

theorem fresh_setNode_none (h : st.Fresh) (p : Addr) : (st.setNode p none).Fresh := by
  intro q hq
  show update st.nodes p none q = none
  by_cases heq : q = p
  · rw [heq, update_self]
  · rw [update_of_ne heq]
    exact h q hq

theorem grows_setNode_none (hnd : st.nodes p = some nd) : Grows (st.setNode p none) st p nd where
  roots := rfl
  trees := rfl
  absent := update_self _ _ _
  node := hnd
  others := fun _ hq => (update_of_ne hq _ _).symm

theorem Balanced.setNode_none (hnd : st.nodes p = some nd)
    (h : st.Balanced (withRef hand (.node p : RadixElement value))) (hone : st.counted p = 1) :
    (st.setNode p none).Balanced (withRefs hand nd.children (finRange 16)) := by
  have hcount := counted_of_node hnd
  have hhand : withRef hand (.node p : RadixElement value) p = hand p + 1 := by simp [withRef]
  exact ((grows_setNode_none hnd).balanced_iff (fresh_setNode_none h.fresh p) h.fresh (by omega)
    rfl (h.notMem_cleanups (by omega))).mp h

end Memory

end ECash.Radix
