import ECash.Radix.Ownership

/-!
# The tries in memory

An element of memory represents a trie.  An operation walks down from a root through nodes
with a single owner, so what it changes is out of reach for every other tree.
-/

namespace ECash.Radix

open Foundation

variable {value : Type}

/-- The element, with at most `n` levels of nodes below it, represents a trie. -/
inductive Rep (st : Memory value) : Nat -> RadixElement value -> Trie value -> Prop where
  | leaf (n : Nat) (l : Option value) : Rep st n (.leaf l) (.leaf l)
  | node {n : Nat} {p : Addr} {nd : RadixNode value} {ts : Fin 16 -> Trie value}
      (hnd : st.nodes p = some nd) (hchildren : forall i, Rep st n (nd.children i) (ts i)) :
      Rep st (n + 1) (.node p) (.node ts)

/--
What an element represents stays the same if no slot within its reach changes.
The reach is given as a set of nodes that is closed under following references.
-/
theorem Rep.frame {st st' : Memory value} {n : Nat} {e : RadixElement value} {t : Trie value}
    (h : Rep st n e t) (reach : Addr -> Prop)
    (hkeep : forall p i, reach p -> st.Valid (.child p i) ->
      st'.Valid (.child p i) ∧ st'.read (.child p i) = st.read (.child p i) ∧
        forall q, st.target (.child p i) = some q -> reach q)
    (he : forall p, e.target = some p -> reach p) : Rep st' n e t := by
  induction h with
  | leaf n l => exact .leaf n l
  | node hnd _ ih =>
    have hslot := fun i => hkeep _ i (he _ rfl) (Memory.valid_child hnd i)
    rcases Memory.exists_node_of_valid (hslot 0).1 with ⟨_, hnd'⟩
    apply Rep.node hnd'
    intro i
    rcases hslot i with ⟨-, hread, hreach⟩
    rw [← Memory.read_child hnd' i, hread, Memory.read_child hnd i]
    rw [Memory.target_child hnd i] at hreach
    exact ih i hreach

namespace Memory

def Extends (st st' : Memory value) : Prop :=
  forall s, st.Valid s -> st'.Valid s ∧ st'.read s = st.read s

variable {st st' : Memory value}

theorem SameShape.extends (h : SameShape st st') : Extends st st' :=
  fun s hs => ⟨(h.valid_iff s).mpr hs, h.read_eq s⟩

theorem Grows.extends {p : Addr} {nd : RadixNode value} (h : Grows st st' p nd) : Extends st st' :=
  fun _ hs => ⟨h.valid_iff.mpr (.inl hs), h.read_eq hs⟩

theorem Extends.target_eq (h : Extends st st') {s : Slot} (hs : st.Valid s) :
    st'.target s = st.target s :=
  congrArg RadixElement.target (h s hs).2

variable {e : RadixElement value} {t : Trie value}

theorem Extends.rep (h : Extends st st') {n : Nat} (hrep : Rep st n e t) : Rep st' n e t := by
  apply hrep.frame (fun _ => True) _ fun _ _ => trivial
  intro p i _ hs
  exact ⟨(h _ hs).1, (h _ hs).2, fun _ _ => trivial⟩

/-!
## Walks

The nodes passed so far are referred to from roots and from each other only.
-/

def Within (passed : Addr -> Prop) : Slot -> Prop
  | .root _ => True
  | .child p _ => passed p

structure Walk (st : Memory value) (passed : Addr -> Prop) (s : Slot) : Prop where
  fresh : st.Fresh
  closed : forall t, st.Valid t -> forall p, st.target t = some p -> passed p -> Within passed t
  live : forall p, passed p -> exists nd, st.nodes p = some nd
  within : Within passed s
  valid : st.Valid s
  outside : forall p, st.target s = some p -> ¬ passed p

/--
What a walk that stands at a slot may do: the roots and the passed nodes stay as they are,
but for that slot, and so does what they refer to off the path.
-/
structure Keeps (st st' : Memory value) (passed : Addr -> Prop) (s : Slot) : Prop where
  trees : st'.trees = st.trees
  valid : forall t, Within passed t -> st.Valid t -> st'.Valid t
  read : forall t, Within passed t -> st.Valid t -> t ≠ s -> st'.read t = st.read t
  rep : forall t, Within passed t -> st.Valid t -> t ≠ s ->
    (forall p, st.target t = some p -> ¬ passed p) ->
    forall n trie, Rep st n (st.read t) trie -> Rep st' n (st.read t) trie

variable {st'' : Memory value} {passed : Addr -> Prop} {s : Slot}

theorem Keeps.trans (h : Keeps st st' passed s) (h' : Keeps st' st'' passed s) :
    Keeps st st'' passed s where
  trees := h'.trees.trans h.trees
  valid := fun t hwithin ht => h'.valid t hwithin (h.valid t hwithin ht)
  read := fun t hwithin ht hne =>
    (h'.read t hwithin (h.valid t hwithin ht) hne).trans (h.read t hwithin ht hne)
  rep := by
    intro t hwithin ht hne hout n trie hrep
    have hread := h.read t hwithin ht hne
    have hout' : forall p, st'.target t = some p -> ¬ passed p := by
      unfold target at hout ⊢
      rw [hread]
      exact hout
    have hstep := h.rep t hwithin ht hne hout n trie hrep
    rw [← hread] at hstep ⊢
    exact h'.rep t hwithin (h.valid t hwithin ht) hne hout' n trie hstep

theorem Extends.keeps (h : Extends st st') (htrees : st'.trees = st.trees) :
    Keeps st st' passed s where
  trees := htrees
  valid := fun t _ ht => (h t ht).1
  read := fun t _ ht _ => (h t ht).2
  rep := fun _ _ _ _ _ _ _ hrep => h.rep hrep

section

variable (h : Walk st passed s)

include h

theorem Walk.rep_store (x : RadixElement value) {n : Nat} {trie : Trie value}
    (hout : forall p, e.target = some p -> ¬ passed p) (hrep : Rep st n e trie) :
    Rep (st.store s x) n e trie := by
  apply hrep.frame (fun p => ¬ passed p) _ hout
  intro p i hp hs
  have hne : .child p i ≠ s := by
    rintro rfl
    exact hp h.within
  exact ⟨valid_store_iff.mpr hs, read_store_ne hne, fun q hq hpassed =>
    hp (h.closed _ hs q hq hpassed)⟩

theorem Walk.keeps_store (e : RadixElement value) : Keeps st (st.store s e) passed s where
  trees := store_unchanged.right.left
  valid := fun _ _ ht => valid_store_iff.mpr ht
  read := fun _ _ _ hne => read_store_ne hne
  rep := fun _ _ _ _ hout _ _ hrep => h.rep_store e hout hrep

theorem Walk.store (hout : forall p, e.target = some p -> ¬ passed p) :
    Walk (st.store s e) passed s where
  fresh := fresh_store h.fresh
  closed := by
    intro t ht p hp hpassed
    by_cases hts : t = s
    · exact hts ▸ h.within
    · unfold target at hp
      rw [read_store_ne hts] at hp
      exact h.closed t (valid_store_iff.mp ht) p hp hpassed
  live := by
    intro p hp
    rw [← Option.isSome_iff_exists, isSome_store]
    exact Option.isSome_iff_exists.mpr (h.live p hp)
  within := h.within
  valid := valid_store_iff.mpr h.valid
  outside := by
    unfold target
    rw [read_store_self h.valid]
    exact hout

theorem Walk.extends (hext : Extends st st') (hfresh : st'.Fresh)
    (hnew : forall t, st'.Valid t -> ¬ st.Valid t -> forall p, st'.target t = some p ->
      ¬ passed p) : Walk st' passed s where
  fresh := hfresh
  closed := by
    intro t ht p hp hpassed
    by_cases hold : st.Valid t
    · rw [hext.target_eq hold] at hp
      exact h.closed t hold p hp hpassed
    · exact absurd hpassed (hnew t ht hold p hp)
  live := by
    intro p hp
    rcases h.live p hp with ⟨_, hnd⟩
    exact exists_node_of_valid (hext _ (valid_child hnd 0)).1
  within := h.within
  valid := (hext s h.valid).1
  outside := by
    intro p hp
    rw [hext.target_eq h.valid] at hp
    exact h.outside p hp

theorem Walk.alloc {children : Fin 16 -> RadixElement value}
    (hout : forall i q, (children i).target = some q -> ¬ passed q) :
    Walk (st.alloc children) passed s := by
  have hgrows := @grows_alloc _ _ children h.fresh
  refine h.extends hgrows.extends (fresh_alloc h.fresh) ?_
  intro t ht hnot p hp
  rcases hgrows.valid_iff.mp ht with hold | hchild
  · exact absurd hold hnot
  · rcases mem_childSlots.mp hchild with ⟨i, rfl⟩
    rw [target_child nodes_alloc_self] at hp
    exact hout i p hp

theorem Walk.sameShape (hshape : SameShape st st') : Walk st' passed s :=
  h.extends hshape.extends (hshape.fresh h.fresh) fun t ht hnot =>
    absurd ((hshape.valid_iff t).mp ht) hnot

end

/-!
## One step down

The walk has opened the node at its slot: the slot is its only owner.
-/

def passNode (passed : Addr -> Prop) (c : Addr) : Addr -> Prop :=
  fun p => p = c ∨ passed p

theorem within_passNode {passed : Addr -> Prop} {c : Addr} {t : Slot} (h : Within passed t) :
    Within (passNode passed c) t := by
  cases t with
  | root tree => trivial
  | child p i => exact .inr h

structure Opened (st : Memory value) (passed : Addr -> Prop) (s : Slot) (c : Addr) (n : Nat)
    (ts : Fin 16 -> Trie value) : Prop where
  walk : forall i, Walk st (passNode passed c) (.child c i)
  unpassed : ¬ passed c
  within : Within passed s
  valid : st.Valid s
  read : st.read s = .node c
  owner : forall t, st.Valid t -> st.target t = some c -> t = s
  reps : forall i, Rep st n (st.read (.child c i)) (ts i)

variable {c : Addr} {n : Nat} {ts : Fin 16 -> Trie value}

theorem Walk.opened {nd : RadixNode value} (h : Walk st passed s)
    (hread : st.read s = .node c) (hnd : st.nodes c = some nd)
    (howner : forall t, st.Valid t -> st.target t = some c -> t = s)
    (hreps : forall i, Rep st n (nd.children i) (ts i)) : Opened st passed s c n ts := by
  have hchild := valid_child hnd
  have hunpassed := h.outside c (congrArg RadixElement.target hread)
  refine ⟨fun i => ⟨h.fresh, ?_, ?_, .inl rfl, hchild i, ?_⟩, hunpassed, h.within, h.valid, hread,
    howner, ?_⟩
  · rintro t ht p hp (rfl | hpassed)
    · rw [howner t ht hp]
      exact within_passNode h.within
    · exact within_passNode (h.closed t ht p hp hpassed)
  · rintro p (rfl | hp)
    · exact ⟨nd, hnd⟩
    · exact h.live p hp
  · rintro p hp (rfl | hpassed)
    · have hwithin := h.within
      rw [← howner _ (hchild i) hp] at hwithin
      exact hunpassed hwithin
    · exact hunpassed (h.closed _ (hchild i) p hp hpassed)
  · intro i
    rw [read_child hnd]
    exact hreps i

namespace Opened

variable (h : Opened st passed s c n ts)

include h

theorem ne_child {t : Slot} (ht : Within passed t) (i : Fin 16) : t ≠ .child c i := by
  rintro rfl
  exact h.unpassed ht

/-- What the rest of a walk did below a child is a change of that child. -/
theorem close {i : Fin 16} (hkeeps : Keeps st st' (passNode passed c) (.child c i))
    (hrep : Rep st' n (st'.read (.child c i)) t) :
    Keeps st st' passed s ∧ Rep st' (n + 1) (st'.read s) (.node (Function.update ts i t)) := by
  constructor
  · refine ⟨hkeeps.trees, fun t ht => hkeeps.valid t (within_passNode ht), fun t ht hvalid _ =>
      hkeeps.read t (within_passNode ht) hvalid (h.ne_child ht i), fun t ht hvalid hne hout => ?_⟩
    apply hkeeps.rep t (within_passNode ht) hvalid (h.ne_child ht i)
    rintro p hp (rfl | hpassed)
    · exact hne (h.owner t hvalid hp)
    · exact hout p hp hpassed
  · rw [hkeeps.read s (within_passNode h.within) h.valid (h.ne_child h.within i), h.read]
    have hwalk := h.walk i
    rcases exists_node_of_valid (hkeeps.valid _ hwalk.within hwalk.valid) with ⟨_, hnd'⟩
    apply Rep.node hnd'
    intro j
    rw [← read_child hnd' j]
    by_cases hj : j = i
    · rw [hj, Function.update_self]
      exact hrep
    · rw [Function.update_of_ne hj]
      have hwalkj := h.walk j
      have hne : Slot.child c j ≠ Slot.child c i := fun heq => hj (child_injective c heq)
      rw [hkeeps.read _ hwalkj.within hwalkj.valid hne]
      exact hkeeps.rep _ hwalkj.within hwalkj.valid hne hwalkj.outside n (ts j) (h.reps j)

theorem sameShape (hshape : SameShape st st') : Opened st' passed s c n ts where
  walk := fun i => (h.walk i).sameShape hshape
  unpassed := h.unpassed
  within := h.within
  valid := (hshape.valid_iff s).mpr h.valid
  read := (hshape.read_eq s).trans h.read
  owner := by
    intro t ht hc
    have hold := (hshape.valid_iff t).mp ht
    rw [hshape.extends.target_eq hold] at hc
    exact h.owner t hold hc
  reps := by
    intro i
    rw [hshape.read_eq]
    exact hshape.extends.rep (h.reps i)

theorem walk_slot : Walk st passed s where
  fresh := (h.walk 0).fresh
  closed := by
    intro t ht p hp hpassed
    have hwithin := (h.walk 0).closed t ht p hp (.inr hpassed)
    cases t with
    | root tree => trivial
    | child q i =>
      rcases hwithin with rfl | hq
      · exact absurd (.inr hpassed) ((h.walk i).outside p hp)
      · exact hq
  live := fun p hp => (h.walk 0).live p (.inr hp)
  within := h.within
  valid := h.valid
  outside := by
    intro p hp
    unfold target at hp
    rw [h.read] at hp
    cases hp
    exact h.unpassed

theorem rep_slot : Rep st (n + 1) (st.read s) (.node ts) := by
  rw [h.read]
  rcases exists_node_of_valid (h.walk 0).valid with ⟨_, hnd⟩
  apply Rep.node hnd
  intro i
  rw [← read_child hnd i]
  exact h.reps i

end Opened

/-!
## A new node at the slot

The new node is a copy of a shared one or takes the place of a leaf.
-/

variable {st₁ : Memory value} {children : Fin 16 -> RadixElement value}

theorem Walk.opens_new (h : Walk st passed s)
    (hslots : forall t, st.Valid t -> st.Alive (st.read t))
    (halive : forall i, st.Alive (children i))
    (hout : forall i q, (children i).target = some q -> ¬ passed q)
    (hreps : forall i, Rep st n (children i) (ts i)) :
    Opened ((st.alloc children).store s (.node st.next)) passed s st.next n ts := by
  have hwalk := @Walk.alloc _ _ _ _ h children hout
  have hgrows := @grows_alloc _ _ children h.fresh
  have habsent : ¬ exists nd, st.nodes st.next = some nd := by simp [hgrows.absent]
  have hdead : forall e : RadixElement value, st.Alive e -> e.target ≠ some st.next :=
    fun _ he htarget => habsent (he _ htarget)
  have hunpassed : ¬ passed st.next := fun hp => habsent (h.live _ hp)
  have hchild : forall i, .child st.next i ≠ s := by
    rintro i rfl
    exact hunpassed h.within
  have hwalk' := hwalk.store (e := .node st.next) (by
    rintro _ ⟨⟩
    exact hunpassed)
  have hsome : exists nd, ((st.alloc children).store s (.node st.next)).nodes st.next =
      some nd := by
    rw [← Option.isSome_iff_exists, isSome_store, nodes_alloc_self]
    rfl
  rcases hsome with ⟨nd, hnd⟩
  have hchildren : forall i, nd.children i = children i := by
    intro i
    rw [← read_child hnd i, read_store_ne (hchild i), read_child nodes_alloc_self]
  refine hwalk'.opened (read_store_self hwalk.valid) hnd ?_ ?_
  · intro t ht hc
    by_contra hts
    unfold target at hc
    rw [read_store_ne hts] at hc
    rcases hgrows.valid_iff.mp (valid_store_iff.mp ht) with hold | hnew
    · rw [hgrows.read_eq hold] at hc
      exact hdead _ (hslots t hold) hc
    · rcases mem_childSlots.mp hnew with ⟨i, rfl⟩
      rw [read_child nodes_alloc_self] at hc
      exact hdead _ (halive i) hc
  · intro i
    rw [hchildren i]
    exact hwalk.rep_store _ (hout i) (hgrows.extends.rep (hreps i))

theorem Walk.keeps_new (h : Walk st passed s)
    (hout : forall i q, (children i).target = some q -> ¬ passed q) :
    Keeps st ((st.alloc children).store s (.node st.next)) passed s :=
  ((grows_alloc h.fresh).extends.keeps rfl).trans ((h.alloc hout).keeps_store _)

end Memory

end ECash.Radix
