import ECash.Radix.Operations

/-!
# Trees in memory

The roots of the trees represent one trie each.  An operation changes the tries of the
trees that it names; nodes that lose their last owner are destroyed before it returns.
-/

namespace ECash.Radix

open Foundation Function Finset

variable {value : Type}

namespace Memory

/-!
## Destroying nodes
-/

variable {p : Addr} {nd : RadixNode value} {tree : TreeId} {t : Trie value}
  {e : RadixElement value} {tries : TreeId -> Trie value} {rhs : TreeId}

variable {st st' st'' : Memory value}

/-- The trees stay as they are. -/
structure Rests (st st' : Memory value) : Prop where
  trees : st'.trees = st.trees
  read : forall tree, tree < st.trees -> st'.read (.root tree) = st.read (.root tree)
  rep : forall tree, tree < st.trees -> forall n t, Rep st n (st.read (.root tree)) t ->
    Rep st' n (st.read (.root tree)) t

theorem Rests.trans (h : Rests st st') (h' : Rests st' st'') : Rests st st'' where
  trees := h'.trees.trans h.trees
  read := by
    intro tree htree
    rw [h'.read tree (h.trees ▸ htree), h.read tree htree]
  rep := by
    intro tree htree n t hrep
    have hstep := h.rep tree htree n t hrep
    rw [← h.read tree htree] at hstep ⊢
    exact h'.rep tree (h.trees ▸ htree) n t hstep

theorem rests_sameShape (h : SameShape st st') : Rests st st' where
  trees := h.trees
  read := fun tree _ => h.read_eq (.root tree)
  rep := fun _ _ _ _ hrep => h.extends.rep hrep

def liveCount (st : Memory value) : Nat :=
  ((Finset.range st.next).filter fun p => (st.nodes p).isSome).card

theorem liveCount_le (st : Memory value) : st.liveCount ≤ st.next :=
  (card_filter_le _ _).trans ((card_range st.next).le)

theorem SameShape.liveCount_eq (h : SameShape st st') : st'.liveCount = st.liveCount := by
  unfold liveCount
  rw [h.next]
  apply congrArg card
  apply filter_congr
  intro p _
  rw [h.isSome_eq]

theorem liveCount_setNode_none (h : st.Fresh) (hnd : st.nodes p = some nd) :
    (st.setNode p none).liveCount < st.liveCount := by
  have herase : ((range st.next).filter fun q => ((st.setNode p none).nodes q).isSome) =
      ((range st.next).filter fun q => (st.nodes q).isSome).erase p := by
    ext q
    rw [mem_filter, mem_erase, mem_filter]
    by_cases heq : q = p <;> simp [setNode, heq]
  refine (congrArg card herase).trans_lt (card_erase_lt_of_mem ?_)
  rw [mem_filter, mem_range, hnd]
  refine ⟨?_, rfl⟩
  by_contra hge
  cases (h p (not_lt.mp hge)).symm.trans hnd

theorem rests_setNode_none (hunowned : forall s, st.Valid s -> st.target s ≠ some p) :
    Rests st (st.setNode p none) where
  trees := rfl
  read := fun _ _ => rfl
  rep := by
    intro tree htree n t hrep
    apply hrep.frame (fun q => q ≠ p)
    · intro q i hq hs
      have hnode : (st.setNode p none).nodes q = st.nodes q := update_of_ne hq _ _
      refine ⟨?_, ?_, ?_⟩
      · show ((st.setNode p none).nodes q).isSome = true
        rw [hnode]
        exact hs
      · simp only [read, hnode]
      · intro r hr heq
        exact hunowned _ hs (heq ▸ hr)
    · intro q hq heq
      exact hunowned (.root tree) htree (heq ▸ hq)

theorem cleanup_spec {rest : List Addr} (hclean : st.cleanups = p :: rest)
    (h : st.Balanced noHand) :
    exists st', cleanup { st with cleanups := rest } p = .ok st' ∧ Rests st st' ∧
      st'.Balanced noHand ∧ st'.liveCount < st.liveCount := by
  have hone : st.counted p = 1 := h.pending p (by simp [hclean])
  have hcount := h.counts p
  have hcountp : st.cleanups.count p = rest.count p + 1 := by simp [hclean]
  have hunowned : forall s, st.Valid s -> st.target s ≠ some p := by
    intro s hs
    have hzero : refs st.slots st.target p = 0 := by
      show st.ownerCount p = 0
      omega
    exact refs_eq_zero_iff.mp hzero s ((mem_slots h.fresh).mpr hs)
  rcases exists_node_of_counted (show 0 < st.counted p by omega) with ⟨nd, hnd, _⟩
  have hunshared : ¬ nd.refcount > 0 := by omega
  let st₀ : Memory value := { st with cleanups := rest }
  have hshape₀ : SameShape st st₀ := ⟨rfl, rfl, rfl, fun _ => rfl⟩
  have hbal₀ : st₀.Balanced (withRef noHand (.node p : RadixElement value)) := by
    refine { fresh := h.fresh, counts := ?_, pending := ?_ }
    · intro q
      have hq := h.counts q
      rw [hclean, List.count_cons] at hq
      show st.counted q = st.ownerCount q + rest.count q + _
      simp only [withRef, RadixElement.target_node, hit, beq_iff_eq, Option.some.injEq] at hq ⊢
      omega
    · intro q hq
      apply h.pending q
      rw [hclean]
      exact List.mem_cons_of_mem p hq
  have hgone := @Balanced.setNode_none _ st₀ _ _ _ hnd hbal₀ hone
  rcases hgone.decrementAll (List.finRange 16) with ⟨st', hdec, hbal', hshape'⟩
  refine ⟨st', ?_, ?_, hbal', ?_⟩
  · simp only [cleanup, getNode, hnd, bind, Except.bind, if_neg hunshared, destroy]
    exact hdec
  · have hrests : Rests st₀ (st₀.setNode p none) := rests_setNode_none hunowned
    exact (rests_sameShape hshape₀).trans (hrests.trans (rests_sameShape hshape'))
  · rw [hshape'.liveCount_eq]
    exact @liveCount_setNode_none _ _ _ st₀ h.fresh hnd

theorem runCleanups_nil (h : st.cleanups = []) (rounds : Nat) : runCleanups rounds st = .ok st := by
  unfold runCleanups
  rw [h]

theorem runCleanups_spec {rounds : Nat} (hrounds : st.liveCount ≤ rounds) (h : st.Balanced noHand) :
    exists st', runCleanups rounds st = .ok st' ∧ Rests st st' ∧ st'.Balanced noHand ∧
      st'.cleanups = [] := by
  induction rounds generalizing st with
  | zero =>
    cases hclean : st.cleanups with
    | nil => exact ⟨st, runCleanups_nil hclean _, rests_sameShape (SameShape.refl st), h, hclean⟩
    | cons p rest =>
      rcases cleanup_spec hclean h with ⟨st', -, -, -, hlt⟩
      omega
  | succ rounds ih =>
    cases hclean : st.cleanups with
    | nil => exact ⟨st, runCleanups_nil hclean _, rests_sameShape (SameShape.refl st), h, hclean⟩
    | cons p rest =>
      rcases cleanup_spec hclean h with ⟨st₁, hcleanup, hrests, hbal, _⟩
      rcases ih (show st₁.liveCount ≤ rounds by omega) hbal with ⟨st', hrun, hrests', hlast⟩
      refine ⟨st', ?_, hrests.trans hrests', hlast⟩
      unfold runCleanups
      rw [hclean]
      simp only [hcleanup, bind, Except.bind]
      exact hrun

theorem unlock_clean (h : st.cleanups = []) : st.unlock = .ok st :=
  runCleanups_nil h st.next

/-!
## The tries of the trees
-/

/-- The trees represent tries of at most `n` levels. -/
structure Forest (st : Memory value) (n : Nat) (tries : TreeId -> Trie value) : Prop where
  balanced : st.Balanced noHand
  clean : st.cleanups = []
  reps : forall tree, tree < st.trees -> Rep st n (st.read (.root tree)) (tries tree)

variable {n : Nat}

def nonePassed : Addr -> Prop := fun _ => False

theorem walk_root (hfresh : st.Fresh) (htree : tree < st.trees) :
    Walk st nonePassed (.root tree) where
  fresh := hfresh
  closed := fun _ _ _ _ hpassed => hpassed.elim
  live := fun _ hpassed => hpassed.elim
  within := trivial
  valid := htree
  outside := fun _ _ hpassed => hpassed

theorem Forest.stands (h : Forest st n tries) (htree : tree < st.trees) :
    Stands st nonePassed (.root tree) n (tries tree) where
  walk := walk_root h.balanced.fresh htree
  balanced := h.balanced
  clean := h.clean
  rep := h.reps tree htree

theorem Keeps.reps (hkeeps : Keeps st st' nonePassed (.root tree))
    (hreps : forall other, other < st.trees -> other ≠ tree ->
      Rep st n (st.read (.root other)) (tries other))
    (hrep : Rep st' n (st'.read (.root tree)) t) (other : TreeId) (hother : other < st'.trees) :
    Rep st' n (st'.read (.root other)) (Function.update tries tree t other) := by
  rw [hkeeps.trees] at hother
  by_cases heq : other = tree
  · rw [heq, update_self]
    exact hrep
  rw [update_of_ne heq]
  have hne : Slot.root other ≠ Slot.root tree := fun hslot => heq (Slot.root.inj hslot)
  rw [hkeeps.read (.root other) trivial hother hne]
  exact hkeeps.rep (.root other) trivial hother hne (fun _ _ hpassed => hpassed) n _
    (hreps other hother heq)

theorem Done.forest (hdone : Done st st' nonePassed (.root tree) n t) (h : Forest st n tries) :
    Forest st' n (Function.update tries tree t) where
  balanced := hdone.balanced
  clean := hdone.clean
  reps := hdone.keeps.reps (fun other hother _ => h.reps other hother) hdone.rep

theorem forest_unlock (hbal : st.Balanced noHand)
    (hreps : forall tree, tree < st.trees -> Rep st n (st.read (.root tree)) (tries tree)) :
    exists st', st.unlock = .ok st' ∧ st'.trees = st.trees ∧ Forest st' n tries := by
  rcases runCleanups_spec st.liveCount_le hbal with ⟨st', hunlock, hrests, hbal', hclean⟩
  refine ⟨st', hunlock, hrests.trees, hbal', hclean, ?_⟩
  intro tree htree
  rw [hrests.trees] at htree
  rw [hrests.read tree htree]
  exact hrests.rep tree htree n _ (hreps tree htree)

/-!
## Single trees
-/

variable {K : KeyType} {getId : value -> K.Key}

theorem Forest.get (h : Forest st (levels K) tries) (htree : tree < st.trees) (key : K.Key) :
    st.get getId tree key = .ok ((tries tree).find getId key (levels K), st) := by
  have hloop := @getLoop_spec _ _ _ _ _ getId key le_rfl _ (h.reps tree htree)
  rw [prevLevel_levels] at hloop
  simp only [Memory.get, load_eq_read (show st.Valid (.root tree) from htree), bind,
    Except.bind, hloop, unlock_clean h.clean]

theorem Forest.remove (h : Forest st (levels K) tries) (htree : tree < st.trees) (key : K.Key) :
    exists st', st.remove getId tree key =
        .ok (((tries tree).remove getId key (levels K)).1, st') ∧
      st'.trees = st.trees ∧
      Forest st' (levels K)
        (Function.update tries tree ((tries tree).remove getId key (levels K)).2) := by
  rcases removeLoop_spec key le_rfl (lt_add_one (levels K)) (h.stands htree) with
    ⟨st', hloop, hdone⟩
  rw [prevLevel_levels] at hloop
  refine ⟨st', ?_, hdone.keeps.trees, hdone.forest h⟩
  simp only [Memory.remove, hloop, bind, Except.bind, unlock_clean hdone.clean]

theorem Forest.insert (h : Forest st (levels K) tries) (htree : tree < st.trees) (v : value)
    (hsound : (tries tree).Sound getId (levels K) 0) :
    exists st', st.insert getId tree v =
        .ok (((tries tree).insert getId (getId v) v (levels K)).1, st') ∧
      st'.trees = st.trees ∧
      Forest st' (levels K)
        (Function.update tries tree ((tries tree).insert getId (getId v) v (levels K)).2) := by
  rw [← key_div_levels (getId v)] at hsound
  rcases insertLoop_spec v le_rfl (lt_add_one (2 * levels K)) hsound
    (h.stands htree) with ⟨st', hloop, hdone⟩
  rw [prevLevel_levels] at hloop
  refine ⟨st', ?_, hdone.keeps.trees, hdone.forest h⟩
  simp only [Memory.insert, hloop, bind, Except.bind, unlock_clean hdone.clean]

/-!
## Visiting the leaves
-/

section Visits

variable {σ : Type} (func : value -> σ -> Bool × σ)

def visitAll : List value -> σ -> Bool × σ
  | [], s => (true, s)
  | v :: rest, s => if (func v s).1 then visitAll rest (func v s).2 else (false, (func v s).2)

theorem visitAll_append (vs ws : List value) (s : σ) :
    visitAll func (vs ++ ws) s =
      if (visitAll func vs s).1 then visitAll func ws (visitAll func vs s).2
      else (false, (visitAll func vs s).2) := by
  induction vs generalizing s with
  | nil => rfl
  | cons v vs ih =>
    simp only [List.cons_append, visitAll]
    split
    · exact ih (func v s).2
    · rfl

variable {func} {st : Memory value}

theorem forEachChild_spec {visit : RadixElement value -> σ -> Except RadixError (Bool × σ)}
    {ts : Fin 16 -> Trie value}
    (hvisit : forall i s, visit (nd.children i) s = .ok (visitAll func (ts i).leaves s))
    (places : List (Fin 16)) (s : σ) :
    forEachChild visit nd places s =
      .ok (visitAll func (places.flatMap fun i => (ts i).leaves) s) := by
  induction places generalizing s with
  | nil => rfl
  | cons i places ih =>
    rw [List.flatMap_cons, visitAll_append]
    simp only [forEachChild, hvisit, bind, Except.bind, ih]
    split <;> rfl

theorem forEachLeafFrom_spec {n : Nat} (h : Rep st n e t) (s : σ) :
    st.forEachLeafFrom func n e s = .ok (visitAll func t.leaves s) := by
  induction h generalizing s with
  | leaf n l =>
    cases l with
    | none =>
      unfold forEachLeafFrom Trie.leaves
      rfl
    | some v =>
      unfold forEachLeafFrom Trie.leaves
      simp only [Option.toList_some, visitAll]
      split
      · rename_i hmore
        rw [← hmore]
      · rename_i hstop
        rw [← Bool.eq_false_iff.mpr hstop]
  | node hnd _ ih =>
    simp only [forEachLeafFrom, getNode, hnd, bind, Except.bind]
    exact forEachChild_spec ih (List.finRange 16) s

theorem Forest.forEachLeaf {K : KeyType} (h : Forest st (levels K) tries)
    (htree : tree < st.trees) (s : σ) :
    st.forEachLeaf K tree func s = .ok (visitAll func (tries tree).leaves s) := by
  simp only [Memory.forEachLeaf, load_eq_read (show st.Valid (.root tree) from htree), bind,
    Except.bind, forEachLeafFrom_spec (h.reps tree htree)]

end Visits

/-!
## New trees
-/

variable {hand : Addr -> Nat}

theorem valid_construct_iff {s : Slot} :
    st.construct.Valid s <-> st.Valid s ∨ s = .root st.trees := by
  cases s with
  | root tree =>
    show tree < st.trees + 1 <-> tree < st.trees ∨ _
    rw [Nat.lt_succ_iff_lt_or_eq, Slot.root.injEq]
  | child p i =>
    show (st.nodes p).isSome = true <-> (st.nodes p).isSome = true ∨ _
    simp

theorem read_construct {s : Slot} (hs : st.Valid s) : st.construct.read s = st.read s := by
  cases s with
  | root tree => exact update_of_ne (Nat.ne_of_lt hs) _ _
  | child p i => rfl

theorem read_construct_self : st.construct.read (.root st.trees) = .leaf none :=
  update_self _ _ _

theorem ownerCount_construct (h : st.Fresh) (p : Addr) :
    st.construct.ownerCount p = st.ownerCount p := by
  have hgrow := @ownerCount_grow _ st st.construct {.root st.trees} h h
    (fun s => by rw [valid_construct_iff, mem_singleton])
    (fun s hs => by
      rw [mem_singleton.mp hs]
      exact Nat.lt_irrefl st.trees)
    (fun _ => read_construct) p
  have hempty : st.construct.target (.root st.trees) = none :=
    congrArg RadixElement.target read_construct_self
  rw [hgrow, ← insert_empty_eq, refs_insert (notMem_empty _), hempty]
  rfl

theorem Balanced.construct (h : st.Balanced hand) : st.construct.Balanced hand where
  fresh := h.fresh
  counts := by
    intro p
    rw [ownerCount_construct h.fresh]
    exact h.counts p
  pending := h.pending

theorem extends_construct : Extends st st.construct :=
  fun _ hs => ⟨valid_construct_iff.mpr (.inl hs), read_construct hs⟩

theorem Forest.construct {n : Nat} (h : Forest st n tries) :
    Forest st.construct n (Function.update tries st.trees (.leaf none)) where
  balanced := h.balanced.construct
  clean := h.clean
  reps := by
    intro tree htree
    rcases Nat.lt_succ_iff_lt_or_eq.mp htree with hold | hnew
    · rw [update_of_ne (Nat.ne_of_lt hold), read_construct (show st.Valid (.root tree) from hold)]
      exact extends_construct.rep (h.reps tree hold)
    · rw [hnew, update_self, read_construct_self]
      exact .leaf n none

/-!
## Copies
-/

theorem reps_store_root (hfresh : st.Fresh) (htree : tree < st.trees)
    (hreps : forall other, other < st.trees -> other ≠ tree ->
      Rep st n (st.read (.root other)) (tries other)) (he : Rep st n e t) (other : TreeId)
    (hother : other < (st.store (.root tree) e).trees) :
    Rep (st.store (.root tree) e) n ((st.store (.root tree) e).read (.root other))
      (Function.update tries tree t other) := by
  have hwalk := walk_root hfresh htree
  apply (hwalk.keeps_store e).reps hreps _ other hother
  rw [read_store_self hwalk.valid]
  exact hwalk.rep_store e (fun _ _ hpassed => hpassed) he

theorem decrementRefCount_store_root (st : Memory value) (tree : TreeId)
    (x e : RadixElement value) :
    (st.store (.root tree) x).decrementRefCount e =
      (st.decrementRefCount e).map fun st => st.store (.root tree) x := by
  cases e with
  | leaf l => rfl
  | node p =>
    have hsame : (st.store (.root tree) x).nodes p = st.nodes p := rfl
    cases hnode : st.nodes p with
    | none =>
      simp only [Memory.decrementRefCount, getNode, hsame, hnode, bind, Except.bind, Except.map]
    | some nd =>
      simp only [Memory.decrementRefCount, getNode, hsame, hnode, bind, Except.bind]
      split <;> rfl

theorem Forest.copyAssign (h : Forest st n tries) (htree : tree < st.trees)
    (hrhs : rhs < st.trees) :
    exists st', st.copyAssign tree rhs = .ok st' ∧ st'.trees = st.trees ∧
      Forest st' n (Function.update tries tree (tries rhs)) := by
  have hvalid : st.Valid (.root tree) := htree
  have hvalid' : st.Valid (.root rhs) := hrhs
  rcases h.balanced.incrementRefCount (h.balanced.alive_read hvalid')
    (fun p _ => by simp [h.clean]) with ⟨st₁, hinc, hbal₁, hshape, -⟩
  have htree₁ : tree < st₁.trees := by
    rw [hshape.trees]
    exact htree
  have hbal₂ := hbal₁.store (show st₁.Valid (.root tree) from htree₁)
  rw [hshape.read_eq] at hbal₂
  rcases hbal₂.decrementRefCount with ⟨st₂, hdec, hbal₃, hshape₂⟩
  -- The source gives up the old root before it stores the new one.
  rw [decrementRefCount_store_root] at hdec
  rcases hold : st₁.decrementRefCount (st.read (.root tree)) with _ | st₃
  · rw [hold] at hdec
    cases hdec
  rw [hold] at hdec
  have hst₂ : st₃.store (.root tree) (st.read (.root rhs)) = st₂ := Except.ok.inj hdec
  have hreps : forall other, other < st₂.trees -> Rep st₂ n (st₂.read (.root other))
      (update tries tree (tries rhs) other) := by
    intro other hother
    rw [hshape₂.trees] at hother
    rw [hshape₂.read_eq]
    apply hshape₂.extends.rep
    apply reps_store_root hbal₁.fresh htree₁ _ (hshape.extends.rep (h.reps rhs hrhs)) other hother
    intro o ho _
    rw [hshape.read_eq]
    exact hshape.extends.rep (h.reps o (hshape.trees ▸ ho))
  rcases forest_unlock hbal₃ hreps with ⟨st', hunlock, htrees, hforest⟩
  refine ⟨st', ?_, ?_, hforest⟩
  · simp only [Memory.copyAssign, load_eq_read hvalid, load_eq_read hvalid', bind, Except.bind,
      hinc, hold, hst₂, hunlock]
  · rw [htrees, hshape₂.trees, store_unchanged.right.left, hshape.trees]

/-- A copy is constructed empty and then assigned. -/
theorem copyConstruct_eq {src : TreeId} (hsrc : src < st.trees) :
    st.copyConstruct src = st.construct.copyAssign st.trees src := by
  have hvalid : st.Valid (.root src) := hsrc
  have hnew : st.construct.Valid (.root st.trees) := lt_add_one st.trees
  simp only [Memory.copyConstruct, Memory.copyAssign, load_eq_read hvalid, load_eq_read hnew,
    load_eq_read (extends_construct _ hvalid).1, read_construct hvalid, read_construct_self, bind,
    Except.bind, Memory.decrementRefCount]

theorem Forest.copyConstruct (h : Forest st n tries) {src : TreeId} (hsrc : src < st.trees) :
    exists st', st.copyConstruct src = .ok st' ∧ st'.trees = st.trees + 1 ∧
      Forest st' n (Function.update tries st.trees (tries src)) := by
  have hcopy := h.construct.copyAssign (lt_add_one st.trees) (Nat.lt_succ_of_lt hsrc)
  rw [update_idem, update_of_ne (Nat.ne_of_lt hsrc)] at hcopy
  rw [copyConstruct_eq hsrc]
  exact hcopy

theorem Forest.moveAssign (h : Forest st n tries) (htree : tree < st.trees)
    (hrhs : rhs < st.trees) :
    exists st', st.moveAssign tree rhs = .ok st' ∧ st'.trees = st.trees ∧
      Forest st' n (Function.update (Function.update tries rhs (tries tree)) tree (tries rhs)) := by
  have hvalid : st.Valid (.root tree) := htree
  have hvalid' : st.Valid (.root rhs) := hrhs
  let st₁ := st.store (.root rhs) (st.read (.root tree))
  let st₂ := st₁.store (.root tree) (st.read (.root rhs))
  have hfresh₁ : st₁.Fresh := fresh_store h.balanced.fresh
  have hvalid₁ : st₁.Valid (.root tree) := valid_store_iff.mpr hvalid
  have hread₁ : st₁.read (.root tree) = st.read (.root tree) := by
    by_cases heq : tree = rhs
    · have hself : st₁.read (.root rhs) = st.read (.root tree) := read_store_self hvalid'
      rw [heq] at hself ⊢
      exact hself
    · exact read_store_ne fun hslot => heq (Slot.root.inj hslot)
  have hclean : st₂.cleanups = [] :=
    store_unchanged.right.right.trans (store_unchanged.right.right.trans h.clean)
  have hbal : st₂.Balanced noHand := by
    refine { fresh := fresh_store hfresh₁, counts := ?_, pending := ?_ }
    · intro p
      have hcount := h.balanced.counts p
      have hfirst : st₁.ownerCount p + hit (st.read (.root rhs)).target p =
          st.ownerCount p + hit (st.read (.root tree)).target p :=
        ownerCount_store h.balanced.fresh hvalid' p
      have hsecond : st₂.ownerCount p + hit (st₁.read (.root tree)).target p =
          st₁.ownerCount p + hit (st.read (.root rhs)).target p :=
        ownerCount_store hfresh₁ hvalid₁ p
      have hcounted : st₂.counted p = st.counted p := (counted_store p).trans (counted_store p)
      rw [hread₁] at hsecond
      rw [h.clean] at hcount
      rw [hclean]
      omega
    · intro p hp
      rw [hclean] at hp
      cases hp
  refine ⟨st₂, ?_, store_unchanged.right.left.trans store_unchanged.right.left, hbal, hclean, ?_⟩
  · simp only [Memory.moveAssign, load_eq_read hvalid, load_eq_read hvalid', bind, Except.bind]
    exact unlock_clean hclean
  have hreps₁ : forall other, other < st₁.trees -> Rep st₁ n (st₁.read (.root other))
      (update tries rhs (tries tree) other) :=
    reps_store_root h.balanced.fresh hrhs (fun other hother _ => h.reps other hother)
      (h.reps tree htree)
  apply reps_store_root hfresh₁ hvalid₁ (fun other hother _ => hreps₁ other hother)
  exact (walk_root h.balanced.fresh hrhs).rep_store _ (fun _ _ hpassed => hpassed) (h.reps rhs hrhs)

end Memory

end ECash.Radix
