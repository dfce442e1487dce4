import ECash.Radix.Tree

/-!
# Tries

What the nodes of a radix tree stand for, without sharing: a trie with a leaf or sixteen
children at each place.  The operations follow those on memory.  Every leaf lies on the
path of its key, so that the leaves of a trie form a map, sorted by key.
-/

namespace ECash.Radix

open Function

inductive Trie (value : Type) where
  | leaf (leaf : Option value)
  | node (children : Fin 16 -> Trie value)

/-!
## Chunks of a key
-/

variable {K : KeyType}

def nibble (level : Nat) (key : K.Key) : Fin 16 :=
  ⟨key.val / 16 ^ level % 16, Nat.mod_lt _ (by decide)⟩

theorem div_succ_level (level key : Nat) : key / 16 ^ (level + 1) = key / 16 ^ level / 16 := by
  rw [pow_succ, Nat.div_div_eq_div_mul]

/-- The chunks above a level, and the one at it, are those above the level below. -/
theorem div_level (level : Nat) (key : K.Key) :
    key.val / 16 ^ level = key.val / 16 ^ (level + 1) * 16 + (nibble level key).val := by
  rw [div_succ_level]
  exact (Nat.div_add_mod' _ 16).symm

theorem nibble_eq {level pre : Nat} {key : K.Key} {i : Fin 16}
    (h : key.val / 16 ^ level = pre * 16 + i.val) :
    nibble level key = i ∧ key.val / 16 ^ (level + 1) = pre := by
  constructor
  · apply Fin.ext
    show key.val / 16 ^ level % 16 = i.val
    omega
  · rw [div_succ_level]
    omega

namespace Trie

variable {value : Type} {K : KeyType}

def leaves : Trie value -> List value
  | leaf l => l.toList
  | node ts => (List.finRange 16).flatMap fun i => (ts i).leaves

variable {w w' : value} {ts : Fin 16 -> Trie value} {i : Fin 16} {t : Trie value} {pre : Nat}
  {key : K.Key} {l : Option value} {v : value}

@[simp] theorem mem_leaves_leaf : w ∈ (leaf (some w')).leaves <-> w = w' := by
  simp [leaves]

theorem mem_leaves_node : w ∈ (node ts).leaves <-> exists i, w ∈ (ts i).leaves := by
  simp [leaves]

theorem mem_leaves_update :
    w ∈ (node (Function.update ts i t)).leaves <->
      w ∈ t.leaves ∨ exists j, j ≠ i ∧ w ∈ (ts j).leaves := by
  rw [mem_leaves_node]
  exact exists_update_iff ts fun _ t => w ∈ t.leaves

/-!
## Operations

The number of levels that may follow comes first; the next chunk is at the level below.
-/

section Operations

variable (getId : value -> K.Key)

def onChild {α : Type} (n : Nat) (key : K.Key) (change : Trie value -> α × Trie value)
    (ts : Fin 16 -> Trie value) : α × Trie value :=
  let changed := change (ts (nibble n key))
  (changed.1, node (Function.update ts (nibble n key) changed.2))

def find (key : K.Key) : Nat -> Trie value -> Option value
  | _, leaf l => Memory.matchLeaf getId key l
  | 0, node _ => none
  | n + 1, node ts => find key n (ts (nibble n key))

def remove (key : K.Key) : Nat -> Trie value -> Option value × Trie value
  | _, leaf l =>
    match Memory.matchLeaf getId key l with
    | none => (none, leaf l)
    | some w => (some w, leaf none)
  | 0, node ts => (none, node ts)
  | n + 1, node ts => onChild n key (remove key n) ts

def single (n : Nat) (w : value) : Fin 16 -> Trie value :=
  Function.update (fun _ => leaf none) (nibble n (getId w)) (leaf (some w))

def insert (key : K.Key) (v : value) : Nat -> Trie value -> Bool × Trie value
  | _, leaf none => (true, leaf (some v))
  | 0, leaf (some w) => (false, leaf (some w))
  | n + 1, leaf (some w) =>
    if K.same key (getId w) then (false, leaf (some w))
    else onChild n key (insert key v n) (single getId n w)
  | 0, node ts => (false, node ts)
  | n + 1, node ts => onChild n key (insert key v n) ts

/-!
## Leaves on their paths
-/

/-- The chunks of every leaf's key above `n` levels are given by its place. -/
def Sound : Nat -> Nat -> Trie value -> Prop
  | n, pre, leaf l => forall w, l = some w -> (getId w).val / 16 ^ n = pre
  | 0, _, node _ => False
  | n + 1, pre, node ts => forall i : Fin 16, Sound n (pre * 16 + i.val) (ts i)

variable {getId} {n : Nat}

theorem Sound.mem (h : t.Sound getId n pre) (hw : w ∈ t.leaves) : (getId w).val / 16 ^ n = pre := by
  induction t generalizing n pre with
  | leaf l =>
    unfold Sound at h
    exact h w (Option.mem_toList.mp hw)
  | node ts ih =>
    cases n with
    | zero => exact absurd h id
    | succ n =>
      rcases mem_leaves_node.mp hw with ⟨i, hi⟩
      exact (nibble_eq (ih i (h i) hi)).right

namespace Sound

variable (h : (node ts).Sound getId (n + 1) pre)

include h

theorem child (hkey : key.val / 16 ^ (n + 1) = pre) :
    (ts (nibble n key)).Sound getId n (key.val / 16 ^ n) := by
  rw [div_level n key, hkey]
  exact h (nibble n key)

theorem mem_child (hw : w ∈ (ts i).leaves) : i = nibble n (getId w) :=
  (nibble_eq ((h i).mem hw)).left.symm

theorem update (hkey : key.val / 16 ^ (n + 1) = pre) (ht : t.Sound getId n (key.val / 16 ^ n)) :
    (node (Function.update ts (nibble n key) t)).Sound getId (n + 1) pre := by
  refine (forall_update_iff ts fun i t => t.Sound getId n (pre * 16 + i.val)).mpr
    ⟨?_, fun i _ => h i⟩
  rw [← hkey, ← div_level]
  exact ht

end Sound

theorem sound_single (w : value) :
    (node (single getId n w)).Sound getId (n + 1) ((getId w).val / 16 ^ (n + 1)) := by
  have hempty : (node fun _ => leaf none).Sound getId (n + 1) ((getId w).val / 16 ^ (n + 1)) := by
    intro i
    unfold Sound
    nofun
  apply hempty.update rfl
  unfold Sound
  rintro _ ⟨⟩
  rfl

theorem mem_leaves_single :
    w' ∈ (node (single getId n w)).leaves <-> w' ∈ (leaf (some w)).leaves := by
  unfold single
  rw [mem_leaves_update]
  simp [leaves]

theorem Sound.pairwise (h : t.Sound getId n pre) :
    t.leaves.Pairwise fun w w' => getId w < getId w' := by
  induction t generalizing n pre with
  | leaf l => cases l <;> simp [leaves]
  | node ts ih =>
    cases n with
    | zero => exact absurd h id
    | succ n =>
      unfold leaves
      apply List.pairwise_flatMap.mpr
      constructor
      · intro i _
        exact ih i (h i)
      have hsorted : (List.finRange 16).Pairwise (· < ·) := List.pairwise_lt_finRange 16
      apply hsorted.imp
      intro i j hij w hw w' hw'
      have hwi := (h i).mem hw
      have hwj := (h j).mem hw'
      have hlt : (getId w).val / 16 ^ n < (getId w').val / 16 ^ n := by
        rw [hwi, hwj]
        exact Nat.add_lt_add_left hij _
      by_contra hge
      exact absurd (Nat.div_le_div_right (not_lt.mp hge)) (not_le.mpr hlt)

end Operations

/-!
## What the operations do to the leaves

A key is compared with the keys of the leaves on its path; the comparison must tell them
apart.
-/

variable {getId : value -> K.Key}

/-- No leaf has another key that compares equal. -/
def Exact (getId : value -> K.Key) (key : K.Key) (t : Trie value) : Prop :=
  forall w, w ∈ t.leaves -> K.same (getId w) key = true -> getId w = key

variable {n : Nat}

theorem Exact.child (h : Exact getId key (node ts)) (i : Fin 16) : Exact getId key (ts i) :=
  fun w hw => h w (mem_leaves_node.mpr ⟨i, hw⟩)

theorem matchLeaf_eq_some (h : Exact getId key (leaf l)) :
    Memory.matchLeaf getId key l = some w <-> w ∈ (leaf l).leaves ∧ getId w = key := by
  cases l with
  | none => simp [Memory.matchLeaf, leaves]
  | some w' =>
    have hiff : K.same (getId w') key = true <-> getId w' = key :=
      ⟨h w' (mem_leaves_leaf.mpr rfl), fun heq => heq ▸ K.same_refl _⟩
    simp only [Memory.matchLeaf, mem_leaves_leaf, Option.ite_none_right_eq_some, hiff]
    grind

theorem find_eq_some (h : t.Sound getId n (key.val / 16 ^ n)) (hexact : Exact getId key t) :
    find getId key n t = some w <-> w ∈ t.leaves ∧ getId w = key := by
  induction t generalizing n with
  | leaf l =>
    unfold find
    exact matchLeaf_eq_some hexact
  | node ts ih =>
    cases n with
    | zero => exact absurd h id
    | succ n =>
      unfold find
      rw [ih _ (h.child rfl) (hexact.child _), mem_leaves_node]
      constructor
      · exact And.imp_left fun hw => ⟨_, hw⟩
      · rintro ⟨⟨_, hi⟩, rfl⟩
        rw [← h.mem_child hi]
        exact ⟨hi, rfl⟩

theorem remove_fst (n : Nat) (key : K.Key) (t : Trie value) :
    (remove getId key n t).1 = find getId key n t := by
  induction t generalizing n with
  | leaf l =>
    unfold remove find
    split <;> simp_all
  | node ts ih =>
    cases n with
    | zero => rfl
    | succ n => exact ih (nibble n key) n

theorem remove_leaf (h : (leaf l).Sound getId n (key.val / 16 ^ n))
    (hexact : Exact getId key (leaf l)) :
    (remove getId key n (leaf l)).2.Sound getId n (key.val / 16 ^ n) ∧
      forall w, w ∈ (remove getId key n (leaf l)).2.leaves <->
        w ∈ (leaf l).leaves ∧ getId w ≠ key := by
  unfold remove
  cases hmatch : Memory.matchLeaf getId key l with
  | none =>
    refine ⟨h, fun w => ⟨fun hw => ⟨hw, fun hkey => ?_⟩, And.left⟩⟩
    cases hmatch.symm.trans ((matchLeaf_eq_some hexact).mpr ⟨hw, hkey⟩)
  | some w' =>
    rcases (matchLeaf_eq_some hexact).mp hmatch with ⟨hmem, rfl⟩
    constructor
    · unfold Sound
      nofun
    intro w
    simp only [leaves, Option.toList_none, Option.mem_toList] at hmem ⊢
    grind

theorem remove_spec (h : t.Sound getId n (key.val / 16 ^ n)) (hexact : Exact getId key t) :
    (remove getId key n t).2.Sound getId n (key.val / 16 ^ n) ∧
      forall w, w ∈ (remove getId key n t).2.leaves <-> w ∈ t.leaves ∧ getId w ≠ key := by
  induction t generalizing n with
  | leaf l => exact remove_leaf h hexact
  | node ts ih =>
    cases n with
    | zero => exact absurd h id
    | succ n =>
      rcases ih _ (h.child rfl) (hexact.child _) with ⟨hsound, hleaves⟩
      refine ⟨h.update rfl hsound, ?_⟩
      intro w
      show w ∈ (node (update ts _ _)).leaves <-> _
      rw [mem_leaves_update, hleaves, mem_leaves_node]
      constructor
      · rintro (⟨hmem, hkey⟩ | ⟨j, hne, hmem⟩)
        · exact ⟨⟨_, hmem⟩, hkey⟩
        · exact ⟨⟨j, hmem⟩, fun hkey => hne (hkey ▸ h.mem_child hmem)⟩
      · rintro ⟨⟨i, hmem⟩, hkey⟩
        by_cases heq : i = nibble n key
        · exact .inl ⟨heq ▸ hmem, hkey⟩
        · exact .inr ⟨i, heq, hmem⟩

/-- The outcome of an insertion: the new leaf is there, if its key was free. -/
structure Inserted (getId : value -> K.Key) (v : value) (n : Nat) (t : Trie value)
    (r : Bool × Trie value) : Prop where
  sound : r.2.Sound getId n ((getId v).val / 16 ^ n)
  inserted : r.1 = true <-> forall w, w ∈ t.leaves -> getId w ≠ getId v
  leaves : forall w, w ∈ r.2.leaves <-> w ∈ t.leaves ∨ (r.1 = true ∧ w = v)

theorem Inserted.congr {t' : Trie value} {r : Bool × Trie value} (h : Inserted getId v n t r)
    (hleaves : forall w, w ∈ t.leaves <-> w ∈ t'.leaves) : Inserted getId v n t' r where
  sound := h.sound
  inserted := by
    rw [h.inserted]
    exact forall_congr' fun w => by rw [hleaves w]
  leaves := by
    intro w
    rw [h.leaves, hleaves]

theorem inserted_empty (v : value) (n : Nat) :
    Inserted getId v n (leaf none) (true, leaf (some v)) where
  sound := by
    unfold Sound
    rintro _ ⟨⟩
    rfl
  inserted := by simp [Trie.leaves]
  leaves := by simp [Trie.leaves]

theorem inserted_present (hkey : getId w = getId v) :
    Inserted getId v n (leaf (some w)) (false, leaf (some w)) where
  sound := by
    unfold Sound
    rintro _ ⟨⟩
    rw [hkey]
  inserted := by simp [Trie.leaves, hkey]
  leaves := by simp

theorem inserted_onChild (h : (node ts).Sound getId (n + 1) ((getId v).val / 16 ^ (n + 1)))
    {change : Trie value -> Bool × Trie value}
    (hchange : Inserted getId v n (ts (nibble n (getId v))) (change (ts (nibble n (getId v))))) :
    Inserted getId v (n + 1) (node ts) (onChild n (getId v) change ts) where
  sound := h.update rfl hchange.sound
  inserted := by
    show (change (ts (nibble n (getId v)))).1 = true <-> _
    rw [hchange.inserted]
    constructor
    · intro hfree w hw hkey
      rcases mem_leaves_node.mp hw with ⟨i, hi⟩
      rw [h.mem_child hi, hkey] at hi
      exact hfree w hi hkey
    · exact fun hfree w hw => hfree w (mem_leaves_node.mpr ⟨_, hw⟩)
  leaves := by
    intro w
    show w ∈ (node (update ts _ _)).leaves <->
      _ ∨ ((change (ts (nibble n (getId v)))).1 = true ∧ w = v)
    rw [mem_leaves_update, hchange.leaves, mem_leaves_node]
    constructor
    · rintro ((hmem | hnew) | ⟨j, -, hmem⟩)
      · exact .inl ⟨_, hmem⟩
      · exact .inr hnew
      · exact .inl ⟨j, hmem⟩
    · rintro (⟨i, hmem⟩ | hnew)
      · by_cases heq : i = nibble n (getId v)
        · exact .inl (.inl (heq ▸ hmem))
        · exact .inr ⟨i, heq, hmem⟩
      · exact .inl (.inr hnew)

theorem insert_spec (h : t.Sound getId n ((getId v).val / 16 ^ n))
    (hexact : Exact getId (getId v) t) : Inserted getId v n t (insert getId (getId v) v n t) := by
  induction n generalizing t with
  | zero =>
    cases t with
    | leaf l =>
      cases l with
      | none => exact inserted_empty v 0
      | some w =>
        -- No chunk is left to tell the two keys apart.
        exact inserted_present (Fin.ext (by simpa using h w rfl))
    | node ts => exact absurd h id
  | succ n ih =>
    cases t with
    | leaf l =>
      cases l with
      | none => exact inserted_empty v (n + 1)
      | some w =>
        unfold insert
        rw [K.same_comm]
        split
        · rename_i hsame
          exact inserted_present (hexact w (mem_leaves_leaf.mpr rfl) hsame)
        have hsound := @sound_single value K getId n w
        rw [h w rfl] at hsound
        have hexact' : Exact getId (getId v) (node (single getId n w)) :=
          fun w' hw' => hexact w' (mem_leaves_single.mp hw')
        have hchild := inserted_onChild hsound (ih (hsound.child rfl) (hexact'.child _))
        exact hchild.congr fun w' => mem_leaves_single
    | node ts => exact inserted_onChild h (ih (h.child rfl) (hexact.child _))

end Trie

end ECash.Radix
