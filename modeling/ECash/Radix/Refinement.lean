import ECash.Foundation.Simulation
import ECash.Radix.Trees

/-!
# Radix trees as finite maps

Each tree is meant to be a finite map of its own from keys to values.  A run of operations
on trees that share nodes gives the outcomes of the maps, provided that no key compares
equal to another one that the tree holds.
-/

namespace ECash.Radix

open Foundation Function

variable {value : Type} {K : KeyType}

/-!
## Runs
-/

inductive Operation (K : KeyType) (value : Type) where
  | construct
  | insert (tree : TreeId) (v : value)
  | remove (tree : TreeId) (key : K.Key)
  | get (tree : TreeId) (key : K.Key)
  | copyConstruct (src : TreeId)
  | copyAssign (tree rhs : TreeId)
  | moveAssign (tree rhs : TreeId)

inductive Outcome (value : Type) where
  | done
  | inserted (inserted : Bool)
  | found (leaf : Option value)
deriving DecidableEq

namespace Memory

variable (getId : value -> K.Key)

def perform (st : Memory value) :
    Operation K value -> Except RadixError (Outcome value × Memory value)
  | .construct => .ok (.done, st.construct)
  | .insert tree v => do
      let (inserted, st) ← st.insert getId tree v
      .ok (.inserted inserted, st)
  | .remove tree key => do
      let (leaf, st) ← st.remove getId tree key
      .ok (.found leaf, st)
  | .get tree key => do
      let (leaf, st) ← st.get getId tree key
      .ok (.found leaf, st)
  | .copyConstruct src => do
      let st ← st.copyConstruct src
      .ok (.done, st)
  | .copyAssign tree rhs => do
      let st ← st.copyAssign tree rhs
      .ok (.done, st)
  | .moveAssign tree rhs => do
      let st ← st.moveAssign tree rhs
      .ok (.done, st)

def step (s : List (Outcome value) × Memory value) (op : Operation K value) :
    Except RadixError (List (Outcome value) × Memory value) := do
  let (outcome, st) ← s.2.perform getId op
  .ok (s.1 ++ [outcome], st)

def run (ops : List (Operation K value)) :
    Except RadixError (List (Outcome value) × Memory value) :=
  ops.foldlM (step getId) ([], empty)

end Memory

/-!
## Families of maps
-/

/-- One finite map for each tree. -/
structure Family (K : KeyType) (value : Type) where
  trees : Nat
  maps : TreeId -> K.Key -> Option value

namespace Family

def empty : Family K value where
  trees := 0
  maps := fun _ _ => none

def set (fam : Family K value) (tree : TreeId) (map : K.Key -> Option value) : Family K value :=
  { fam with maps := Function.update fam.maps tree map }

def add (fam : Family K value) (map : K.Key -> Option value) : Family K value where
  trees := fam.trees + 1
  maps := Function.update fam.maps fam.trees map

def insertInto (map : K.Key -> Option value) (key : K.Key) (v : value) : K.Key -> Option value :=
  if (map key).isNone then Function.update map key (some v) else map

variable (getId : value -> K.Key)

def perform (fam : Family K value) : Operation K value -> Outcome value × Family K value
  | .construct => (.done, fam.add fun _ => none)
  | .insert tree v =>
    (.inserted (fam.maps tree (getId v)).isNone,
      fam.set tree (insertInto (fam.maps tree) (getId v) v))
  | .remove tree key =>
    (.found (fam.maps tree key), fam.set tree (Function.update (fam.maps tree) key none))
  | .get tree key => (.found (fam.maps tree key), fam)
  | .copyConstruct src => (.done, fam.add (fam.maps src))
  | .copyAssign tree rhs => (.done, fam.set tree (fam.maps rhs))
  | .moveAssign tree rhs => (.done, (fam.set rhs (fam.maps tree)).set tree (fam.maps rhs))

def step (a : List (Outcome value) × Family K value) (op : Operation K value) :
    List (Outcome value) × Family K value :=
  (a.1 ++ [(a.2.perform getId op).1], (a.2.perform getId op).2)

def run (ops : List (Operation K value)) : List (Outcome value) × Family K value :=
  ops.foldl (step getId) ([], empty)

/-- The operation names trees that are there. -/
def Knows (fam : Family K value) : Operation K value -> Prop
  | .construct => True
  | .insert tree _ => tree < fam.trees
  | .remove tree _ => tree < fam.trees
  | .get tree _ => tree < fam.trees
  | .copyConstruct src => src < fam.trees
  | .copyAssign tree rhs => tree < fam.trees ∧ rhs < fam.trees
  | .moveAssign tree rhs => tree < fam.trees ∧ rhs < fam.trees

/-- No value of the tree has another key that compares equal. -/
def TellsApart (map : K.Key -> Option value) (key : K.Key) : Prop :=
  forall other w, map other = some w -> K.same (getId w) key = true -> getId w = key

/-- The key that the operation looks for is told apart from those of the tree. -/
def Distinguishes (fam : Family K value) : Operation K value -> Prop
  | .insert tree v => TellsApart getId (fam.maps tree) (getId v)
  | .remove tree key => TellsApart getId (fam.maps tree) key
  | .get tree key => TellsApart getId (fam.maps tree) key
  | _ => True

variable {getId} in
theorem distinguishes_of_exact (hexact : forall v key, K.same (getId v) key = true -> getId v = key)
    (fam : Family K value) (op : Operation K value) : fam.Distinguishes getId op := by
  cases op with
  | insert tree v => exact fun _ w _ => hexact w (getId v)
  | remove tree key => exact fun _ w _ => hexact w key
  | get tree key => exact fun _ w _ => hexact w key
  | _ => trivial

/-- The operations of the run name trees that are there, and tell their keys apart. -/
def Admits (ops : List (Operation K value)) : Prop :=
  AllowedRun (step getId) (fun a op => a.2.Knows op ∧ a.2.Distinguishes getId op) ([], empty) ops

end Family

/-!
## Maps and tries
-/

/-- The leaves of the trie are the entries of the map. -/
structure MapOf (getId : value -> K.Key) (t : Trie value) (map : K.Key -> Option value) : Prop where
  sound : t.Sound getId (Memory.levels K) 0
  entries : forall key v, map key = some v <-> v ∈ t.leaves ∧ getId v = key

variable {key : K.Key} {tries : TreeId -> Trie value} {tree : TreeId} {t : Trie value}
  {map : K.Key -> Option value}

section Maps

variable {getId : value -> K.Key}

open Memory

theorem mapOf_empty : MapOf getId (.leaf none) fun _ => none where
  sound := nofun
  entries := by simp [Trie.leaves]

namespace MapOf

variable (h : MapOf getId t map)

include h

theorem soundAt (key : K.Key) : t.Sound getId (levels K) (key.val / 16 ^ levels K) := by
  rw [key_div_levels]
  exact h.sound

theorem exact (hkey : Family.TellsApart getId map key) : Trie.Exact getId key t := by
  intro w hw hsame
  exact hkey (getId w) w ((h.entries (getId w) w).mpr ⟨hw, rfl⟩) hsame

theorem find (hkey : Family.TellsApart getId map key) : t.find getId key (levels K) = map key := by
  apply Option.ext
  intro v
  rw [Trie.find_eq_some (h.soundAt key) (h.exact hkey), h.entries]

theorem remove (hkey : Family.TellsApart getId map key) :
    MapOf getId (t.remove getId key (levels K)).2 (Function.update map key none) := by
  rcases Trie.remove_spec (h.soundAt key) (h.exact hkey) with ⟨hsound, hleaves⟩
  rw [key_div_levels] at hsound
  refine { sound := hsound, entries := ?_ }
  intro other v
  rw [hleaves]
  by_cases heq : other = key
  · rw [heq, update_self]
    simp only [reduceCtorEq, false_iff]
    exact fun hv => hv.left.right hv.right
  · rw [update_of_ne heq, h.entries]
    exact ⟨fun hv => ⟨⟨hv.left, hv.right ▸ heq⟩, hv.right⟩, And.imp_left And.left⟩

theorem insert {v : value} (hkey : Family.TellsApart getId map (getId v)) :
    (t.insert getId (getId v) v (levels K)).1 = (map (getId v)).isNone ∧
      MapOf getId (t.insert getId (getId v) v (levels K)).2
        (Family.insertInto map (getId v) v) := by
  have hinserted := Trie.insert_spec (h.soundAt (getId v)) (h.exact hkey)
  have hfree : (t.insert getId (getId v) v (levels K)).1 = (map (getId v)).isNone := by
    apply Bool.eq_iff_iff.mpr
    rw [hinserted.inserted, Option.isNone_iff_eq_none, Option.eq_none_iff_forall_ne_some]
    simp only [ne_eq, h.entries, not_and]
  refine ⟨hfree, ?_, ?_⟩
  · have hsound := hinserted.sound
    rw [key_div_levels] at hsound
    exact hsound
  intro key w
  rw [hinserted.leaves, hfree]
  unfold Family.insertInto
  cases hmap : map (getId v) with
  | some u => simp [h.entries]
  | none =>
    simp only [Option.isNone_none, if_true, true_and]
    by_cases heq : key = getId v
    · rw [heq, update_self]
      constructor
      · rintro ⟨⟩
        exact ⟨.inr rfl, rfl⟩
      rintro ⟨hmem | rfl, hw⟩
      · cases hmap.symm.trans ((h.entries (getId v) w).mpr ⟨hmem, hw⟩)
      · rfl
    · rw [update_of_ne heq, h.entries]
      constructor
      · exact And.imp_left .inl
      · rintro ⟨hmem | rfl, hw⟩
        · exact ⟨hmem, hw⟩
        · exact absurd hw.symm heq

end MapOf

end Maps

/-!
## The refinement
-/

/-- The trees in memory stand for the maps of the family. -/
structure Represents (getId : value -> K.Key) (st : Memory value) (fam : Family K value) :
    Prop where
  trees : st.trees = fam.trees
  tries : exists tries, Memory.Forest st (Memory.levels K) tries ∧
    forall tree, tree < fam.trees -> MapOf getId (tries tree) (fam.maps tree)

section Refinement

variable {getId : value -> K.Key} {st st' : Memory value} {fam : Family K value}

open Memory

theorem represents_empty : Represents getId Memory.empty (Family.empty : Family K value) where
  trees := rfl
  tries := by
    refine ⟨fun _ => .leaf none, ⟨⟨fun _ _ => rfl, fun _ => rfl, ?_⟩, rfl, ?_⟩, ?_⟩
    · nofun
    · intro tree htree
      exact absurd htree (Nat.not_lt_zero tree)
    · intro tree htree
      exact absurd htree (Nat.not_lt_zero tree)

theorem mapOf_update {maps : TreeId -> K.Key -> Option value} {other : TreeId}
    (hmap : MapOf getId t map) (hother : other ≠ tree -> MapOf getId (tries other) (maps other)) :
    MapOf getId (Function.update tries tree t other) (Function.update maps tree map other) := by
  by_cases heq : other = tree
  · rw [heq, update_self, update_self]
    exact hmap
  · rw [update_of_ne heq, update_of_ne heq]
    exact hother heq

theorem represents_set (htrees : st'.trees = fam.trees)
    (hforest : Forest st' (levels K) (Function.update tries tree t))
    (hmaps : forall other, other < fam.trees -> MapOf getId (tries other) (fam.maps other))
    (hmap : MapOf getId t map) : Represents getId st' (fam.set tree map) where
  trees := htrees
  tries := ⟨_, hforest, fun other hother => mapOf_update hmap fun _ => hmaps other hother⟩

theorem represents_add (htrees : st'.trees = fam.trees + 1)
    (hforest : Forest st' (levels K) (Function.update tries fam.trees t))
    (hmaps : forall other, other < fam.trees -> MapOf getId (tries other) (fam.maps other))
    (hmap : MapOf getId t map) : Represents getId st' (fam.add map) where
  trees := htrees
  tries := ⟨_, hforest, fun other hother => mapOf_update hmap fun hne =>
    hmaps other (Nat.lt_of_le_of_ne (Nat.le_of_lt_succ hother) hne)⟩

theorem Represents.perform (h : Represents getId st fam) (op : Operation K value)
    (hknows : fam.Knows op) (hdistinguishes : fam.Distinguishes getId op) :
    exists st', st.perform getId op = .ok ((fam.perform getId op).1, st') ∧
      Represents getId st' (fam.perform getId op).2 := by
  rcases h.tries with ⟨_, hforest, hmaps⟩
  have htrees := h.trees
  have hthere : forall {tree : TreeId}, tree < fam.trees -> tree < st.trees := by
    intro tree htree
    rw [htrees]
    exact htree
  cases op with
  | construct =>
    have hnew := hforest.construct
    rw [htrees] at hnew
    exact ⟨_, rfl, represents_add (congrArg (· + 1) htrees) hnew hmaps mapOf_empty⟩
  | insert tree v =>
    rcases (hmaps tree hknows).insert hdistinguishes with ⟨hfree, hmap⟩
    rcases hforest.insert (hthere hknows) v (hmaps tree hknows).sound with
      ⟨st', hinsert, htrees', hforest'⟩
    refine ⟨st', ?_, represents_set (htrees'.trans htrees) hforest' hmaps hmap⟩
    simp only [Memory.perform, hinsert, bind, Except.bind, hfree]
    rfl
  | remove tree key =>
    have hmap := (hmaps tree hknows).remove hdistinguishes
    rcases @Forest.remove _ _ _ _ _ getId hforest (hthere hknows) key with
      ⟨st', hremove, htrees', hforest'⟩
    rw [Trie.remove_fst, (hmaps tree hknows).find hdistinguishes] at hremove
    refine ⟨st', ?_, represents_set (htrees'.trans htrees) hforest' hmaps hmap⟩
    simp only [Memory.perform, hremove, bind, Except.bind]
    rfl
  | get tree key =>
    have hget := @Forest.get _ _ _ _ _ getId hforest (hthere hknows) key
    rw [(hmaps tree hknows).find hdistinguishes] at hget
    refine ⟨st, ?_, h⟩
    simp only [Memory.perform, hget, bind, Except.bind]
    rfl
  | copyConstruct src =>
    rcases hforest.copyConstruct (hthere hknows) with ⟨st', hcopy, htrees', hforest'⟩
    rw [htrees] at htrees' hforest'
    refine ⟨st', ?_, represents_add htrees' hforest' hmaps (hmaps src hknows)⟩
    simp only [Memory.perform, hcopy, bind, Except.bind]
    rfl
  | copyAssign tree rhs =>
    rcases hforest.copyAssign (hthere hknows.left) (hthere hknows.right) with
      ⟨st', hcopy, htrees', hforest'⟩
    refine ⟨st', ?_, represents_set (htrees'.trans htrees) hforest' hmaps (hmaps rhs hknows.right)⟩
    simp only [Memory.perform, hcopy, bind, Except.bind]
    rfl
  | moveAssign tree rhs =>
    rcases hforest.moveAssign (hthere hknows.left) (hthere hknows.right) with
      ⟨st', hmove, htrees', hforest'⟩
    refine ⟨st', ?_, @represents_set _ _ _ _ _ _ _ _ (fam.set rhs (fam.maps tree))
      (htrees'.trans htrees) hforest' ?_ (hmaps rhs hknows.right)⟩
    · simp only [Memory.perform, hmove, bind, Except.bind]
      rfl
    · exact fun other hother => mapOf_update (hmaps tree hknows.left) fun _ => hmaps other hother

theorem run_represents (ops : List (Operation K value)) (hadmits : Family.Admits getId ops) :
    exists st, Memory.run getId ops = .ok ((Family.run getId ops).1, st) ∧
      Represents getId st (Family.run getId ops).2 := by
  have hrun : exists s, Memory.run getId ops = .ok s ∧ (s.1 = (Family.run getId ops).1 ∧
      Represents getId s.2 (Family.run getId ops).2) := by
    refine foldlM_simulates (s := ([], Memory.empty))
      (fun s a => s.1 = a.1 ∧ Represents getId s.2 a.2) ?_ ops ⟨rfl, represents_empty⟩ hadmits
    intro s a op hrel hallowed
    rcases hrel.right.perform op hallowed.left hallowed.right with ⟨st', hperform, h'⟩
    refine ⟨(s.1 ++ [(a.2.perform getId op).1], st'), ?_, ?_, h'⟩
    · simp only [Memory.step, hperform, bind, Except.bind]
    · rw [hrel.left]
      rfl
  rcases hrun with ⟨⟨_, st⟩, hrun, rfl, h⟩
  exact ⟨st, hrun, h⟩

/-!
## What a user of the trees sees
-/

/-- The outcomes are those of the maps, a visit sees the values of a map, counts are exact. -/
structure Refines (getId : value -> K.Key) (ops : List (Operation K value)) (st : Memory value) :
    Prop where
  trees : st.trees = (Family.run getId ops).2.trees
  visits : forall tree, tree < st.trees -> exists leaves : List value,
    leaves.Pairwise (fun w w' => getId w < getId w') ∧
    (forall v, v ∈ leaves <-> (Family.run getId ops).2.maps tree (getId v) = some v) ∧
    forall (σ : Type) (func : value -> σ -> Bool × σ) (s : σ),
      st.forEachLeaf K tree func s = .ok (visitAll func leaves s)
  counts : forall p nd, st.nodes p = some nd -> nd.refcount + 1 = st.ownerCount p

theorem Represents.refines {ops : List (Operation K value)}
    (h : Represents getId st (Family.run getId ops).2) : Refines getId ops st := by
  rcases h.tries with ⟨tries, hforest, hmaps⟩
  refine { trees := h.trees, visits := ?_, counts := ?_ }
  · intro tree htree
    have hmap := hmaps tree (h.trees ▸ htree)
    refine ⟨(tries tree).leaves, hmap.sound.pairwise, ?_, ?_⟩
    · intro v
      rw [hmap.entries]
      exact ⟨fun hv => ⟨hv, rfl⟩, And.left⟩
    · intro σ func s
      exact hforest.forEachLeaf htree s
  · intro p nd hnd
    have hcount := hforest.balanced.counts p
    rw [counted_of_node hnd, hforest.clean] at hcount
    simpa [noHand] using hcount

theorem run_refines (getId : value -> K.Key) (ops : List (Operation K value))
    (hadmits : Family.Admits getId ops) :
    exists st, Memory.run getId ops = .ok ((Family.run getId ops).1, st) ∧
      Refines getId ops st := by
  rcases run_represents ops hadmits with ⟨st, hrun, h⟩
  exact ⟨st, hrun, h.refines⟩

/-- A copy keeps its value while the source gets another and loses the first. -/
def copyThenChange : List (Operation (uintKey 1 (by decide) (by decide)) (Fin 256)) :=
  [.construct, .insert 0 1, .copyConstruct 0, .insert 0 2, .remove 0 1, .get 1 1]

theorem run_refines_copyThenChange :
    Family.Admits id copyThenChange ∧
      (Family.run id copyThenChange).1 = [.done, .inserted true, .done,
        .inserted true, .found (some 1), .found (some 1)] ∧
      exists st, Memory.run id copyThenChange =
          .ok ((Family.run id copyThenChange).1, st) ∧ Refines id copyThenChange st := by
  have hadmits : Family.Admits id copyThenChange := by
    have hexact := @Family.distinguishes_of_exact _ (uintKey 1 (by decide) (by decide)) id
      fun _ _ hsame => of_decide_eq_true hsame
    exact ⟨⟨trivial, hexact _ _⟩, ⟨one_pos, hexact _ _⟩,
      ⟨one_pos, hexact _ _⟩, ⟨Nat.zero_lt_two, hexact _ _⟩,
      ⟨Nat.zero_lt_two, hexact _ _⟩, ⟨Nat.one_lt_two, hexact _ _⟩, trivial⟩
  exact ⟨hadmits, rfl, run_refines id copyThenChange hadmits⟩

/-!
## Keys that compare equal
-/

/-- Two keys of 256 bits with the same low 64 bits. -/
def equalLowBits : List (Operation uint256RadixKey uint256RadixKey.Key) :=
  [.construct, .insert 0 ⟨1, by decide⟩,
    .insert 0 ⟨2 ^ 64 + 1, by decide⟩, .get 0 ⟨2 ^ 64 + 1, by decide⟩]

theorem run_equalLowBits_differs :
    AllowedRun (Family.step id) (fun a op => a.2.Knows op) ([], Family.empty) equalLowBits ∧
      (Memory.run id equalLowBits).map Prod.fst =
        .ok [.done, .inserted true, .inserted false, .found (some ⟨1, by decide⟩)] ∧
      (Family.run id equalLowBits).1 = [.done, .inserted true,
        .inserted true, .found (some ⟨2 ^ 64 + 1, by decide⟩)] :=
  ⟨⟨trivial, one_pos, one_pos, one_pos, trivial⟩, rfl, rfl⟩

theorem run_get_same (v : value) (hsame : K.same (getId v) key = true) :
    (Memory.run getId [.construct, .insert 0 v, .get 0 key]).map
        Prod.fst = .ok [.done, .inserted true, .found (some v)] := by
  simp [Memory.run, Memory.step, Memory.perform, Memory.construct, Memory.insert, insertLoop,
    Memory.get, getLoop, load, Memory.empty, store, unlock, runCleanups, matchLeaf, hsame, bind,
    Except.bind, Except.map, pure, Except.pure]

theorem run_refines_iff_exact (getId : value -> K.Key) :
    (forall ops, AllowedRun (Family.step getId) (fun a op => a.2.Knows op) ([], Family.empty) ops ->
      exists st, Memory.run getId ops = .ok ((Family.run getId ops).1, st) ∧
        Refines getId ops st) <-> forall v key, K.same (getId v) key = true -> getId v = key := by
  constructor
  · intro hall v key hsame
    by_contra hne
    rcases hall [.construct, .insert 0 v, .get 0 key]
      ⟨trivial, one_pos, one_pos, trivial⟩ with ⟨st, hrun, -⟩
    have hsame := run_get_same v hsame
    rw [hrun] at hsame
    have hfound : (Family.run getId [.construct, .insert 0 v, .get 0 key]).1 =
      [.done, .inserted true, .found (some v)] := Except.ok.inj hsame
    simp [Family.run, Family.step, Family.perform, Family.set, Family.add, Family.insertInto,
      Family.empty, update_of_ne (Ne.symm hne)] at hfound
  · intro hexact ops hknows
    have hadmits : Family.Admits getId ops := by
      refine (AllowedRun.iff (fun _ => True) (fun a op _ hop => ⟨?_, fun _ => trivial⟩) trivial
        hknows).mp hknows
      exact iff_of_true hop ⟨hop, Family.distinguishes_of_exact hexact a.2 op⟩
    rcases run_represents ops hadmits with ⟨st, hrun, h⟩
    exact ⟨st, hrun, h.refines⟩

end Refinement

end ECash.Radix
