import Mathlib

/-!
# Radix trees with shared nodes

A radix tree stores values by a key that is split into chunks of four bits.  Copies of a
tree share their nodes: a node counts its owners besides the first, and a shared node is
copied before it is changed.  A node without owners is destroyed when the reader lock is
released.

The operations run one after the other here, so that no exchange fails and no other reader
holds up the destruction of a node.
-/

namespace ECash.Radix

/-!
## Keys
-/

/-- The size of the keys in bytes, and their comparison with `==`. -/
structure KeyType where
  sizeof : Nat
  sizeof_pos : 0 < sizeof
  /-- The width of a key fits in the 32 bits of a shift. -/
  sizeof_bound : 8 * sizeof < 2 ^ 32
  same : Fin (2 ^ (8 * sizeof)) -> Fin (2 ^ (8 * sizeof)) -> Bool
  same_refl : forall key, same key key = true
  same_comm : forall key other, same key other = same other key

namespace KeyType

variable (K : KeyType)

abbrev Key : Type := Fin (2 ^ (8 * K.sizeof))

def KEY_BITS : Nat := 8 * K.sizeof

end KeyType

def BITS : Nat := 4

def TOP_LEVEL (K : KeyType) : Nat := (K.KEY_BITS - 1) / BITS

/-- Unsigned integers of a number of bytes. -/
def uintKey (sizeof : Nat) (hpos : 0 < sizeof) (hbound : 8 * sizeof < 2 ^ 32) : KeyType where
  sizeof
  sizeof_pos := hpos
  sizeof_bound := hbound
  same := fun key other => decide (key = other)
  same_refl := by simp
  same_comm := by
    intro key other
    exact decide_eq_decide.mpr eq_comm

/-- The wrapper of 256-bit numbers has no comparison; it converts to its low 64 bits. -/
def uint256RadixKey : KeyType where
  sizeof := 32
  sizeof_pos := by decide
  sizeof_bound := by decide
  same := fun key other => decide (key.val % 2 ^ 64 = other.val % 2 ^ 64)
  same_refl := by simp
  same_comm := by
    intro key other
    exact decide_eq_decide.mpr eq_comm

/-!
## Memory
-/

abbrev Addr := Nat

abbrev TreeId := Nat

inductive RadixElement (value : Type) where
  | leaf (leaf : Option value)
  | node (node : Addr)

structure RadixNode (value : Type) where
  refcount : Nat
  children : Fin 16 -> RadixElement value

/-- A place that holds an element: the root of a tree or a child of a node. -/
inductive Slot where
  | root (tree : TreeId)
  | child (node : Addr) (i : Fin 16)
deriving DecidableEq

inductive RadixError where
  /-- A key is shifted by its width or more. -/
  | undefinedShift
  | danglingNode
  | unknownTree
  /-- A loop that goes on after the rounds it was given. -/
  | unbounded
deriving DecidableEq, Repr

structure Memory (value : Type) where
  nodes : Addr -> Option (RadixNode value)
  /-- No node has been made at this address or above. -/
  next : Addr
  roots : TreeId -> RadixElement value
  trees : Nat
  /-- The nodes to be destroyed when the lock is released. -/
  cleanups : List Addr

namespace Memory

variable {value : Type}

def empty : Memory value where
  nodes := fun _ => none
  next := 0
  roots := fun _ => .leaf none
  trees := 0
  cleanups := []

def getNode (st : Memory value) (p : Addr) : Except RadixError (RadixNode value) :=
  match st.nodes p with
  | none => .error .danglingNode
  | some nd => .ok nd

def setNode (st : Memory value) (p : Addr) (nd : Option (RadixNode value)) : Memory value :=
  { st with nodes := Function.update st.nodes p nd }

def load (st : Memory value) : Slot -> Except RadixError (RadixElement value)
  | .root tree =>
    if tree < st.trees then .ok (st.roots tree)
    else .error .unknownTree
  | .child p i => do
      let nd ← st.getNode p
      .ok (nd.children i)

def store (st : Memory value) (slot : Slot) (e : RadixElement value) : Memory value :=
  match slot with
  | .root tree => { st with roots := Function.update st.roots tree e }
  | .child p i =>
    match st.nodes p with
    | none => st
    | some nd => st.setNode p (some { nd with children := Function.update nd.children i e })

def alloc (st : Memory value) (children : Fin 16 -> RadixElement value) : Memory value :=
  { st with
    nodes := Function.update st.nodes st.next (some { refcount := 0, children })
    next := st.next + 1 }

/-!
## Reference counts
-/

def incrementRefCount (st : Memory value) :
    RadixElement value -> Except RadixError (Memory value)
  | .leaf _ => .ok st
  | .node p => do
      let nd ← st.getNode p
      .ok (st.setNode p (some { nd with refcount := nd.refcount + 1 }))

/-- The last reference to a node asks for its destruction. -/
def decrementRefCount (st : Memory value) :
    RadixElement value -> Except RadixError (Memory value)
  | .leaf _ => .ok st
  | .node p => do
      let nd ← st.getNode p
      if nd.refcount > 0 then
        .ok (st.setNode p (some { nd with refcount := nd.refcount - 1 }))
      else .ok { st with cleanups := st.cleanups ++ [p] }

def destroy (st : Memory value) (p : Addr) (nd : RadixNode value) :
    Except RadixError (Memory value) :=
  (List.finRange 16).foldlM (fun st i => st.decrementRefCount (nd.children i)) (st.setNode p none)

def cleanup (st : Memory value) (p : Addr) : Except RadixError (Memory value) := do
  let nd ← st.getNode p
  if nd.refcount > 0 then
    .ok (st.setNode p (some { nd with refcount := nd.refcount - 1 }))
  else st.destroy p nd

/-- The cleanups run in the order in which they were registered. -/
def runCleanups : Nat -> Memory value -> Except RadixError (Memory value)
  | rounds, st =>
    match st.cleanups, rounds with
    | [], _ => .ok st
    | _ :: _, 0 => .error .unbounded
    | p :: cleanups, rounds + 1 => do
        let st ← cleanup { st with cleanups } p
        runCleanups rounds st

def unlock (st : Memory value) : Except RadixError (Memory value) :=
  runCleanups st.next st

/-!
## Walking down
-/

section Walk

variable (K : KeyType)

/-- The counter is an unsigned number of 32 bits. -/
def prevLevel (level : Nat) : Nat := (level + (2 ^ 32 - 1)) % 2 ^ 32

def childIndex (level : Nat) (key : K.Key) : Except RadixError (Fin 16) :=
  let shift := level * BITS % 2 ^ 32
  if shift < K.KEY_BITS then
    .ok ⟨key.val / 2 ^ shift % 16, Nat.mod_lt _ (by decide)⟩
  else .error .undefinedShift

/-- The copy shares the children. -/
def copyNode (st : Memory value) (p : Addr) : Except RadixError (Addr × Memory value) := do
  let nd ← st.getNode p
  let st ← (List.finRange 16).foldlM (fun st i => st.incrementRefCount (nd.children i)) st
  .ok (st.next, st.alloc nd.children)

/-- One step from a slot that holds a node to the slot of a child, past a copy if need be. -/
def descend (st : Memory value) (eptr : Slot) (p : Addr) (level : Nat) (key : K.Key) :
    Except RadixError (Memory value × Slot) := do
  let nd ← st.getNode p
  if nd.refcount = 0 then
    let i ← childIndex K level key
    .ok (st, .child p i)
  else
    let (copy, st) ← st.copyNode p
    let st ← (st.store eptr (.node copy)).decrementRefCount (.node p)
    let i ← childIndex K level key
    .ok (st, .child copy i)

variable {K} (getId : value -> K.Key)

/-- A leaf counts if its key compares equal. -/
def matchLeaf (key : K.Key) : Option value -> Option value
  | none => none
  | some leaf => if K.same (getId leaf) key then some leaf else none

def getLoop (st : Memory value) (key : K.Key) :
    Nat -> Nat -> RadixElement value -> Except RadixError (Option value)
  | _, _, .leaf leaf => .ok (matchLeaf getId key leaf)
  | 0, _, .node _ => .error .unbounded
  | rounds + 1, level, .node p => do
      let i ← childIndex K level key
      let nd ← st.getNode p
      getLoop st key rounds (prevLevel level) (nd.children i)

def removeLoop (key : K.Key) :
    Nat -> Memory value -> Slot -> Nat -> Except RadixError (Option value × Memory value)
  | 0, _, _, _ => .error .unbounded
  | rounds + 1, st, eptr, level => do
      match ← st.load eptr with
      | .node p => do
          let (st, eptr) ← st.descend K eptr p level key
          removeLoop key rounds st eptr (prevLevel level)
      | .leaf leaf =>
        match matchLeaf getId key leaf with
        | none => .ok (none, st)
        | some leaf => .ok (some leaf, st.store eptr (.leaf none))

/-- The children of a new node with one leaf. -/
def oneChild (i : Fin 16) (e : RadixElement value) : Fin 16 -> RadixElement value :=
  Function.update (fun _ => .leaf none) i e

/-- A leaf in the way becomes the child of a new node, and the walk goes on from there. -/
def insertLoop (key : K.Key) (v : value) :
    Nat -> Memory value -> Slot -> Nat -> Except RadixError (Bool × Memory value)
  | 0, _, _, _ => .error .unbounded
  | rounds + 1, st, eptr, level => do
      match ← st.load eptr with
      | .node p => do
          let (st, eptr) ← st.descend K eptr p level key
          insertLoop key v rounds st eptr (prevLevel level)
      | .leaf none => .ok (true, st.store eptr (.leaf (some v)))
      | .leaf (some leaf) =>
        let leafKey := getId leaf
        if K.same key leafKey then .ok (false, st)
        else do
          let i ← childIndex K level leafKey
          let newChild := st.next
          let st := st.alloc (oneChild i (.leaf (some leaf)))
          insertLoop key v rounds (st.store eptr (.node newChild)) eptr level

end Walk

/-!
## Trees
-/

section Trees

variable {K : KeyType} (getId : value -> K.Key)

/-- A node at each level, and the leaf below. -/
def levels (K : KeyType) : Nat := TOP_LEVEL K + 1

def get (st : Memory value) (tree : TreeId) (key : K.Key) :
    Except RadixError (Option value × Memory value) := do
  let e ← st.load (.root tree)
  let leaf ← st.getLoop getId key (levels K) (TOP_LEVEL K) e
  let st ← st.unlock
  .ok (leaf, st)

def remove (st : Memory value) (tree : TreeId) (key : K.Key) :
    Except RadixError (Option value × Memory value) := do
  let (leaf, st) ← removeLoop getId key (levels K + 1) st (.root tree) (TOP_LEVEL K)
  let st ← st.unlock
  .ok (leaf, st)

/-- Each level may take a new node and a step down. -/
def insert (st : Memory value) (tree : TreeId) (v : value) :
    Except RadixError (Bool × Memory value) := do
  let (inserted, st) ← insertLoop getId (getId v) v (2 * levels K + 1) st (.root tree) (TOP_LEVEL K)
  let st ← st.unlock
  .ok (inserted, st)

def forEachChild {σ : Type} (visit : RadixElement value -> σ -> Except RadixError (Bool × σ))
    (nd : RadixNode value) : List (Fin 16) -> σ -> Except RadixError (Bool × σ)
  | [], s => .ok (true, s)
  | i :: rest, s => do
      let (more, s) ← visit (nd.children i) s
      if more then forEachChild visit nd rest s else .ok (false, s)

/-- The walk stops as soon as the function returns false. -/
def forEachLeafFrom {σ : Type} (st : Memory value) (func : value -> σ -> Bool × σ) :
    Nat -> RadixElement value -> σ -> Except RadixError (Bool × σ)
  | _, .leaf none, s => .ok (true, s)
  | _, .leaf (some leaf), s => .ok (func leaf s)
  | 0, .node _, _ => .error .unbounded
  | rounds + 1, .node p, s => do
      let nd ← st.getNode p
      forEachChild (forEachLeafFrom st func rounds) nd (List.finRange 16) s

def forEachLeaf {σ : Type} (K : KeyType) (st : Memory value) (tree : TreeId)
    (func : value -> σ -> Bool × σ) (s : σ) : Except RadixError (Bool × σ) := do
  let e ← st.load (.root tree)
  st.forEachLeafFrom func (levels K) e s

def construct (st : Memory value) : Memory value :=
  { st with
    roots := Function.update st.roots st.trees (.leaf none)
    trees := st.trees + 1 }

def copyConstruct (st : Memory value) (src : TreeId) : Except RadixError (Memory value) := do
  let e ← st.load (.root src)
  let tree := st.trees
  let st ← st.construct.incrementRefCount e
  (st.store (.root tree) e).unlock

def copyAssign (st : Memory value) (tree rhs : TreeId) : Except RadixError (Memory value) := do
  let e ← st.load (.root rhs)
  let old ← st.load (.root tree)
  let st ← st.incrementRefCount e
  let st ← st.decrementRefCount old
  (st.store (.root tree) e).unlock

def moveAssign (st : Memory value) (tree rhs : TreeId) : Except RadixError (Memory value) := do
  let e ← st.load (.root rhs)
  let old ← st.load (.root tree)
  ((st.store (.root rhs) old).store (.root tree) e).unlock

end Trees

end Memory

end ECash.Radix
