import ECash.Radix.Representation

/-!
# The operations on memory and on tries

Each loop walks down a tree in memory as the operation on tries does.
-/

namespace ECash.Radix

open Foundation

variable {value : Type}

namespace Memory

/-!
## Levels
-/

variable {n : Nat} {l : Option value} {p : Addr} {nd : RadixNode value} {w : value}
  {st : Memory value} {passed : Addr -> Prop} {s : Slot} {ts : Fin 16 -> Trie value}
  {rounds : Nat} {t : Trie value} {v : value}

variable {K : KeyType}

theorem levels_bound :
    BITS * levels K < KeyType.KEY_BITS K + BITS ∧ KeyType.KEY_BITS K < 2 ^ 32 := by
  have hpos := K.sizeof_pos
  have hbound := K.sizeof_bound
  unfold levels TOP_LEVEL KeyType.KEY_BITS BITS
  omega

theorem prevLevel_succ (hn : n < levels K) : prevLevel (n + 1) = n := by
  have hbound := @levels_bound K
  unfold BITS at hbound
  unfold prevLevel
  omega

theorem childIndex_eq (hn : n < levels K) (key : K.Key) :
    childIndex K n key = .ok (nibble n key) := by
  have hbound := @levels_bound K
  have hshift : n * BITS % 2 ^ 32 = n * BITS := by
    unfold BITS at hbound ⊢
    omega
  have hlt : n * BITS < K.KEY_BITS := by
    unfold BITS at hbound ⊢
    omega
  have hpow : 2 ^ (n * BITS) = 16 ^ n := by
    rw [mul_comm, Nat.pow_mul]
    rfl
  unfold childIndex nibble
  simp only [hshift, hlt, if_true, hpow]

theorem prevLevel_levels : prevLevel (levels K) = TOP_LEVEL K :=
  prevLevel_succ (lt_add_one (TOP_LEVEL K))

theorem key_div_levels (key : K.Key) : key.val / 16 ^ levels K = 0 := by
  apply Nat.div_eq_of_lt
  have hbits : K.KEY_BITS ≤ 4 * levels K := by
    unfold levels TOP_LEVEL KeyType.KEY_BITS BITS
    omega
  calc
    key.val < 2 ^ K.KEY_BITS := key.isLt
    _ ≤ 2 ^ (4 * levels K) := Nat.pow_le_pow_right (by decide) hbits
    _ = 16 ^ levels K := by rw [Nat.pow_mul]

/-!
## Where a walk stands
-/

/-- The walk stands at a slot that represents a trie. -/
structure Stands (st : Memory value) (passed : Addr -> Prop) (s : Slot) (n : Nat)
    (t : Trie value) : Prop where
  walk : Walk st passed s
  balanced : st.Balanced noHand
  clean : st.cleanups = []
  rep : Rep st n (st.read s) t

/-- The rest of the walk has made the slot represent a trie. -/
structure Done (st st' : Memory value) (passed : Addr -> Prop) (s : Slot) (n : Nat)
    (t : Trie value) : Prop where
  keeps : Keeps st st' passed s
  balanced : st'.Balanced noHand
  clean : st'.cleanups = []
  rep : Rep st' n (st'.read s) t

variable {st₁ st' : Memory value} {c : Addr}

theorem Stands.done (h : Stands st passed s n t) : Done st st passed s n t where
  keeps := (SameShape.refl st).extends.keeps rfl
  balanced := h.balanced
  clean := h.clean
  rep := h.rep

theorem Stands.read_leaf (h : Stands st passed s n (.leaf l)) : st.read s = .leaf l := by
  have hrep := h.rep
  generalize st.read s = e at hrep
  cases hrep
  rfl

theorem Stands.store_leaf (h : Stands st passed s n (.leaf l)) (l' : Option value) :
    Done st (st.store s (.leaf l')) passed s n (.leaf l') where
  keeps := h.walk.keeps_store _
  balanced := by
    have hhand : st.Balanced (withRef noHand (.leaf l' : RadixElement value)) :=
      h.balanced.congr fun p => by simp [withRef]
    have hstore := hhand.store h.walk.valid
    rw [h.read_leaf] at hstore
    exact hstore.congr fun p => by simp [withRef]
  clean := store_unchanged.right.right.trans h.clean
  rep := by
    rw [read_store_self h.walk.valid]
    exact .leaf n l'

theorem Opened.stands (h : Opened st passed s c n ts) (hbal : st.Balanced noHand)
    (hclean : st.cleanups = []) (i : Fin 16) :
    Stands st (passNode passed c) (.child c i) n (ts i) where
  walk := h.walk i
  balanced := hbal
  clean := hclean
  rep := h.reps i

theorem Opened.done (h : Opened st passed s c n ts) {i : Fin 16}
    (hdone : Done st st' (passNode passed c) (.child c i) n t) :
    Done st st' passed s (n + 1) (.node (Function.update ts i t)) where
  keeps := (h.close hdone.keeps hdone.rep).left
  balanced := hdone.balanced
  clean := hdone.clean
  rep := (h.close hdone.keeps hdone.rep).right

theorem Keeps.done (h : Keeps st st₁ passed s) (hdone : Done st₁ st' passed s n t) :
    Done st st' passed s n t where
  keeps := h.trans hdone.keeps
  balanced := hdone.balanced
  clean := hdone.clean
  rep := hdone.rep

theorem Stands.read_node (h : Stands st passed s (n + 1) (.node ts)) :
    exists p nd, st.read s = .node p ∧ st.nodes p = some nd ∧
      forall i, Rep st n (nd.children i) (ts i) := by
  have hrep := h.rep
  generalize st.read s = e at hrep
  cases hrep with
  | node hnd hchildren => exact ⟨_, _, rfl, hnd, hchildren⟩

theorem Walk.children_outside (h : Walk st passed s) (hread : st.read s = .node p)
    (hnd : st.nodes p = some nd) (i : Fin 16) (q : Addr) (hq : (nd.children i).target = some q) :
    ¬ passed q := by
  intro hpassed
  have hout := h.outside p (congrArg RadixElement.target hread)
  exact hout (h.closed _ (valid_child hnd i) q ((target_child hnd i).trans hq) hpassed)

/-- A shared node has another owner, so that giving one up does not destroy it. -/
theorem Balanced.exists_other_owner (h : st.Balanced noHand) (hclean : st.cleanups = [])
    (hnd : st.nodes p = some nd) (hshared : nd.refcount ≠ 0) (s : Slot) :
    exists t, st.Valid t ∧ st.target t = some p ∧ t ≠ s := by
  have hcount := h.counts p
  rw [counted_of_node hnd, hclean] at hcount
  simp only [List.count_nil, noHand] at hcount
  have hlt : 1 < ((st.slots).filter fun t => st.target t = some p).card := by
    show 1 < st.ownerCount p
    omega
  rcases Finset.exists_mem_ne hlt s with ⟨t, ht, hne⟩
  rcases Finset.mem_filter.mp ht with ⟨hmem, htarget⟩
  exact ⟨t, (mem_slots h.fresh).mp hmem, htarget, hne⟩

/-!
## Steps
-/

theorem Stands.copyNode (h : Stands st passed s (n + 1) (.node ts))
    (hread : st.read s = .node p) (hnd : st.nodes p = some nd)
    (hreps : forall i, Rep st n (nd.children i) (ts i)) (hshared : nd.refcount ≠ 0) :
    exists st₁ st₂, st.copyNode p = .ok (st.next, st₁) ∧
      (st₁.store s (.node st.next)).decrementRefCount (.node p) = .ok st₂ ∧
      Opened st₂ passed s st.next n ts ∧ Keeps st st₂ passed s ∧ st₂.Balanced noHand ∧
      st₂.cleanups = [] := by
  have hbal := h.balanced
  have halive : forall i, st.Alive (nd.children i) := by
    intro i
    rw [← read_child hnd i]
    exact hbal.alive_read (valid_child hnd i)
  have hout := h.walk.children_outside hread hnd
  rcases hbal.incrementAll (List.finRange 16) halive h.clean with
    ⟨stc, hinc, hbalc, hshape, hcleanc⟩
  have hwalk := h.walk.sameShape hshape
  have hext := (@grows_alloc _ _ nd.children hwalk.fresh).extends
  have hstore := hbalc.alloc.store (hext s hwalk.valid).1
  rw [(hext s hwalk.valid).2, hshape.read_eq, hread, hshape.next] at hstore
  rcases hstore.decrementRefCount with ⟨st₂, hdec, hbal₂, hshape₂⟩
  have hopened : Opened ((stc.alloc nd.children).store s (.node stc.next)) passed s stc.next n ts :=
    hwalk.opens_new (fun t ht => hbalc.alive_read ht) (fun i => hshape.alive (halive i)) hout
      (fun i => hshape.extends.rep (hreps i))
  have hkeeps := (hshape.extends.keeps hshape.trees).trans (hwalk.keeps_new hout)
  rw [hshape.next] at hopened hkeeps
  have hkeeps₂ := hkeeps.trans (hshape₂.extends.keeps hshape₂.trees)
  refine ⟨stc.alloc nd.children, st₂, ?_, hdec, hopened.sameShape hshape₂, hkeeps₂, hbal₂, ?_⟩
  · simp only [Memory.copyNode, getNode, hnd, bind, Except.bind] at hinc ⊢
    rw [hinc]
    dsimp only
    rw [hshape.next]
  · apply List.eq_nil_iff_forall_not_mem.mpr
    intro q hq
    rcases mem_cleanups_decrementRefCount hdec hq with hold | htarget
    · rw [store_unchanged.right.right] at hold
      have hnone : q ∈ stc.cleanups := hold
      rw [hcleanc] at hnone
      cases hnone
    · cases htarget
      -- Another slot still refers to the node.
      rcases hbal.exists_other_owner h.clean hnd hshared s with ⟨t, ht, htarget, hne⟩
      have htarget₂ : st₂.target t = some p := by
        unfold target
        rw [hshape₂.read_eq, read_store_ne hne, (hext t (hshape.extends t ht).1).2, hshape.read_eq]
        exact htarget
      have hvalid₂ : st₂.Valid t := by
        rw [hshape₂.valid_iff, valid_store_iff]
        exact (hext t (hshape.extends t ht).1).1
      have hpos : 0 < st₂.ownerCount p := refs_pos ((mem_slots hbal₂.fresh).mpr hvalid₂) htarget₂
      exact hbal₂.notMem_cleanups (hpos.trans_le (Nat.le_add_left _ _)) hq

theorem Stands.descend (h : Stands st passed s (n + 1) (.node ts)) (hn : n < levels K)
    (key : K.Key) (hread : st.read s = .node p) :
    exists st₁ c, st.descend K s p n key = .ok (st₁, .child c (nibble n key)) ∧
      Opened st₁ passed s c n ts ∧ Keeps st st₁ passed s ∧ st₁.Balanced noHand ∧
      st₁.cleanups = [] := by
  rcases h.read_node with ⟨_, nd, hq, hnd, hreps⟩
  rw [hread] at hq
  cases hq
  have htarget : st.target s = some p := congrArg RadixElement.target hread
  by_cases hunshared : nd.refcount = 0
  · refine ⟨st, p, ?_, ?_, (SameShape.refl st).extends.keeps rfl, h.balanced, h.clean⟩
    · simp only [Memory.descend, getNode, hnd, bind, Except.bind, if_pos hunshared,
        childIndex_eq hn]
    · exact h.walk.opened hread hnd
        (fun t ht hp => h.balanced.owner_unique hnd hunshared ht h.walk.valid hp htarget) hreps
  · rcases h.copyNode hread hnd hreps hunshared with ⟨st₁, st₂, hcopy, hdec, hrest⟩
    refine ⟨st₂, st.next, ?_, hrest⟩
    simp only [Memory.descend, getNode, hnd, bind, Except.bind, if_neg hunshared,
      hcopy, hdec, childIndex_eq hn]

theorem oneChild_single {getId : value -> K.Key} (w : value) (i : Fin 16) :
    exists l, oneChild (nibble n (getId w)) (.leaf (some w)) i = .leaf l ∧
      Trie.single getId n w i = .leaf l := by
  unfold oneChild Trie.single
  by_cases hi : i = nibble n (getId w) <;> simp [hi]

/-- A node with leaves only is made in the place of a leaf. -/
theorem Stands.split (h : Stands st passed s (n + 1) (.leaf l))
    {children : Fin 16 -> RadixElement value}
    (hleaf : forall i, exists l, children i = .leaf l ∧ ts i = .leaf l) :
    Stands ((st.alloc children).store s (.node st.next)) passed s (n + 1) (.node ts) ∧
      Keeps st ((st.alloc children).store s (.node st.next)) passed s := by
  have hnotarget : forall i, (children i).target = none := by
    intro i
    rcases hleaf i with ⟨l, hl, -⟩
    rw [hl]
    rfl
  have hout : forall i q, (children i).target = some q -> ¬ passed q := by simp [hnotarget]
  have hreps : forall i, Rep st n (children i) (ts i) := by
    intro i
    rcases hleaf i with ⟨l, hl, ht⟩
    rw [hl, ht]
    exact .leaf n l
  have hopened := h.walk.opens_new (fun t ht => h.balanced.alive_read ht)
    (by simp [Alive, hnotarget]) hout hreps
  refine ⟨⟨hopened.walk_slot, ?_, store_unchanged.right.right.trans h.clean, hopened.rep_slot⟩,
    h.walk.keeps_new hout⟩
  have hhand : st.Balanced (withRefs noHand children (List.finRange 16)) :=
    h.balanced.congr fun p => by simp [withRefs, hnotarget]
  rcases (grows_alloc h.walk.fresh).extends s h.walk.valid with ⟨hvalid, hread⟩
  have hstore := hhand.alloc.store hvalid
  rw [hread, h.read_leaf] at hstore
  exact hstore.congr fun p => by simp [withRef]

/-!
## Loops
-/

variable {getId : value -> K.Key}

theorem Stands.not_node (h : Stands st passed s 0 (.node ts)) : False := by
  have hrep := h.rep
  generalize st.read s = e at hrep
  cases hrep

variable {key : K.Key} {level : Nat}

theorem removeLoop_leaf (h : Stands st passed s n (.leaf l)) :
    exists st', removeLoop getId key (rounds + 1) st s level =
        .ok ((Trie.remove getId key n (.leaf l)).1, st') ∧
      Done st st' passed s n (Trie.remove getId key n (.leaf l)).2 := by
  simp only [removeLoop, load_eq_read h.walk.valid, h.read_leaf, bind, Except.bind]
  unfold Trie.remove
  cases hmatch : matchLeaf getId key l with
  | none => exact ⟨st, rfl, h.done⟩
  | some w => exact ⟨_, rfl, h.store_leaf none⟩

theorem removeLoop_spec (key : K.Key) (hn : n ≤ levels K) (hrounds : n < rounds)
    (h : Stands st passed s n t) :
    exists st', removeLoop getId key rounds st s (prevLevel n) =
        .ok ((t.remove getId key n).1, st') ∧ Done st st' passed s n (t.remove getId key n).2 := by
  induction rounds generalizing n st passed s t with
  | zero => cases hrounds
  | succ rounds ih =>
    cases t with
    | leaf l => exact removeLoop_leaf h
    | node ts =>
      cases n with
      | zero => exact h.not_node.elim
      | succ n =>
        rcases h.read_node with ⟨_, _, hread, -⟩
        rcases h.descend hn key hread with ⟨_, _, hdescend, hopened, hkeeps, hbal, hclean⟩
        rcases ih (Nat.le_of_succ_le hn) (Nat.lt_of_succ_lt_succ hrounds)
          (hopened.stands hbal hclean (nibble n key)) with ⟨st', hloop, hdone⟩
        refine ⟨st', ?_, hkeeps.done (hopened.done hdone)⟩
        simp only [removeLoop, load_eq_read h.walk.valid, hread, bind, Except.bind,
          prevLevel_succ hn, hdescend, hloop]
        rfl

theorem insertLoop_node (hn : n < levels K)
    (ih : forall {st : Memory value} {passed : Addr -> Prop} {s : Slot} {t : Trie value},
      t.Sound getId n ((getId v).val / 16 ^ n) -> Stands st passed s n t ->
      exists st', insertLoop getId (getId v) v rounds st s (prevLevel n) =
          .ok ((t.insert getId (getId v) v n).1, st') ∧
        Done st st' passed s n (t.insert getId (getId v) v n).2)
    (hsound : (Trie.node ts).Sound getId (n + 1) ((getId v).val / 16 ^ (n + 1)))
    (h : Stands st passed s (n + 1) (.node ts)) :
    exists st', insertLoop getId (getId v) v (rounds + 1) st s n =
        .ok ((Trie.onChild n (getId v) (Trie.insert getId (getId v) v n) ts).1, st') ∧
      Done st st' passed s (n + 1)
        (Trie.onChild n (getId v) (Trie.insert getId (getId v) v n) ts).2 := by
  rcases h.read_node with ⟨_, _, hread, -⟩
  rcases h.descend hn (getId v) hread with ⟨_, _, hdescend, hopened, hkeeps, hbal, hclean⟩
  rcases ih (hsound.child rfl) (hopened.stands hbal hclean (nibble n (getId v))) with
    ⟨st', hloop, hdone⟩
  refine ⟨st', ?_, hkeeps.done (hopened.done hdone)⟩
  simp only [insertLoop, load_eq_read h.walk.valid, hread, bind, Except.bind, hdescend, hloop]
  rfl

theorem insertLoop_empty (h : Stands st passed s n (.leaf none)) :
    exists st', insertLoop getId key v (rounds + 1) st s level = .ok (true, st') ∧
      Done st st' passed s n (.leaf (some v)) := by
  refine ⟨_, ?_, h.store_leaf (some v)⟩
  simp only [insertLoop, load_eq_read h.walk.valid, h.read_leaf, bind, Except.bind]

theorem insertLoop_present (h : Stands st passed s n (.leaf (some w)))
    (hsame : K.same key (getId w) = true) :
    exists st', insertLoop getId key v (rounds + 1) st s level = .ok (false, st') ∧
      Done st st' passed s n (.leaf (some w)) := by
  refine ⟨st, ?_, h.done⟩
  simp only [insertLoop, load_eq_read h.walk.valid, h.read_leaf, bind, Except.bind, hsame, if_true]

theorem same_of_sound_zero (h : (Trie.leaf (some w)).Sound getId 0 (key.val / 16 ^ 0)) :
    K.same key (getId w) = true := by
  have hkey : getId w = key := by
    apply Fin.ext
    simpa using h w rfl
  rw [hkey]
  exact K.same_refl key

theorem insertLoop_spec (v : value) (hn : n ≤ levels K) (hrounds : 2 * n < rounds)
    (hsound : t.Sound getId n ((getId v).val / 16 ^ n)) (h : Stands st passed s n t) :
    exists st', insertLoop getId (getId v) v rounds st s (prevLevel n) =
        .ok ((t.insert getId (getId v) v n).1, st') ∧
      Done st st' passed s n (t.insert getId (getId v) v n).2 := by
  induction n generalizing rounds st passed s t with
  | zero =>
    cases rounds with
    | zero => cases hrounds
    | succ rounds =>
      cases t with
      | leaf l =>
        cases l with
        | none => exact insertLoop_empty h
        | some w => exact insertLoop_present h (same_of_sound_zero hsound)
      | node ts => exact h.not_node.elim
  | succ n ih =>
    -- The leaf in the way takes one round more than the step down.
    rcases Nat.exists_eq_add_of_le (show 2 ≤ rounds by omega) with ⟨rounds, rfl⟩
    rw [add_comm 2 rounds]
    rw [prevLevel_succ hn]
    cases t with
    | leaf l =>
      cases l with
      | none => exact insertLoop_empty h
      | some w =>
        unfold Trie.insert
        by_cases hsame : K.same (getId v) (getId w) = true
        · rw [if_pos hsame]
          exact insertLoop_present h hsame
        rw [if_neg hsame]
        have hsingle := @Trie.sound_single value K getId n w
        rw [hsound w rfl] at hsingle
        rcases h.split (oneChild_single w) with ⟨hstands, hkeeps⟩
        have hrest : 2 * n < rounds := by omega
        rcases insertLoop_node hn (ih (Nat.le_of_succ_le hn) hrest) hsingle hstands with
          ⟨st', hloop, hdone⟩
        refine ⟨st', ?_, hkeeps.done hdone⟩
        rw [← hloop]
        simp only [insertLoop, load_eq_read h.walk.valid, h.read_leaf, bind, Except.bind,
          hsame, childIndex_eq hn]
        rfl
    | node ts =>
      have hrest : 2 * n < rounds + 1 := by omega
      exact insertLoop_node hn (ih (Nat.le_of_succ_le hn) hrest) hsound h

theorem getLoop_spec (key : K.Key) (hn : n ≤ levels K) {e : RadixElement value} (h : Rep st n e t) :
    st.getLoop getId key n (prevLevel n) e = .ok (t.find getId key n) := by
  induction h with
  | leaf n l =>
    unfold getLoop Trie.find
    rfl
  | node hnd hchildren ih =>
    rename_i n p nd ts
    rw [prevLevel_succ hn]
    simp only [getLoop, childIndex_eq hn, getNode, hnd, bind, Except.bind]
    rw [ih (nibble n key) (Nat.le_of_succ_le hn)]
    rfl

end Memory

end ECash.Radix
