import ECash.Foundation.ByteFormat

/-!
# Partial Merkle trees

A subset of the transaction ids of a block, with the hashes that are needed to compute
the Merkle root from them.  The tree is traversed in depth-first order with a bit for
each node, and a hash for each leaf of the traversal.
-/

namespace ECash.Merkle

open Foundation List

/-- The hash of a pair of hashes, taken to be free of collisions, and the null hash. -/
structure NodeHash (hash : Type) where
  null : hash
  combine : hash -> hash -> hash
  combine_inj : forall {a b c d}, combine a b = combine c d -> a = c ∧ b = d

/-!
## The root of a list
-/

section Root

variable {hash : Type} (N : NodeHash hash)

/-- One level of the tree from the one below; the last of an odd number is paired with
itself. -/
def hashPairs : List hash -> List hash
  | [] => []
  | [a] => [N.combine a a]
  | a :: b :: rest => N.combine a b :: hashPairs rest

theorem length_hashPairs (hashes : List hash) :
    (hashPairs N hashes).length = (hashes.length + 1) / 2 := by
  fun_induction hashPairs N hashes with
  | case1 => simp
  | case2 a => simp
  | case3 a b rest ih =>
    simp only [length_cons, ih]
    omega

def hasEqualPair [DecidableEq hash] : List hash -> Bool
  | a :: b :: rest => decide (a = b) || hasEqualPair rest
  | _ => false

/-- The root, and whether two equal hashes were paired on the way. -/
def computeMerkleRoot [DecidableEq hash] (hashes : List hash) (mutation : Bool) :
    hash × Bool :=
  if hashes.length > 1 then
    computeMerkleRoot (hashPairs N hashes) (mutation || hasEqualPair hashes)
  else (hashes.headD N.null, mutation)
termination_by hashes.length
decreasing_by
  rw [length_hashPairs]
  omega

end Root

/-!
## The tree
-/

structure CPartialMerkleTree (hash : Type) where
  nTransactions : Nat
  vBits : List Bool
  vHash : List hash
  fBad : Bool
deriving DecidableEq

/-- The number of nodes at a height, in 32-bit arithmetic. -/
def calcTreeWidth (nTransactions height : Nat) : Nat :=
  (nTransactions + 2 ^ height - 1) % 2 ^ 32 / 2 ^ height

/-- The loop for the height of the tree; a width at height 31 is at most one. -/
def treeHeightLoop (nTransactions : Nat) : Nat -> Nat -> Nat
  | 0, height => height
  | rounds + 1, height =>
    if 1 < calcTreeWidth nTransactions height then
      treeHeightLoop nTransactions rounds (height + 1)
    else height

def treeHeight (nTransactions : Nat) : Nat :=
  treeHeightLoop nTransactions 31 0

def leaves (nTransactions height pos : Nat) : List Nat :=
  range' (pos * 2 ^ height) (min ((pos + 1) * 2 ^ height) nTransactions - pos * 2 ^ height)

def parentOfMatch (nTransactions : Nat) (vMatch : List Bool) (height pos : Nat) : Bool :=
  (leaves nTransactions height pos).any fun p => vMatch.getD p false

section Build

variable {hash : Type} (N : NodeHash hash)

def calcHash (nTransactions : Nat) (vTxid : List hash) : Nat -> Nat -> hash
  | 0, pos => vTxid.getD pos N.null
  | height + 1, pos =>
    let left := calcHash nTransactions vTxid height (pos * 2)
    let right :=
      if pos * 2 + 1 < calcTreeWidth nTransactions height then
        calcHash nTransactions vTxid height (pos * 2 + 1)
      else left
    N.combine left right

def CPartialMerkleTree.push (tree : CPartialMerkleTree hash) (bit : Bool) (node : hash) :
    CPartialMerkleTree hash :=
  { tree with vBits := tree.vBits ++ [bit], vHash := tree.vHash ++ [node] }

def traverseAndBuild (vTxid : List hash) (vMatch : List Bool) :
    Nat -> Nat -> CPartialMerkleTree hash -> CPartialMerkleTree hash
  | 0, pos, tree =>
    tree.push (parentOfMatch tree.nTransactions vMatch 0 pos)
      (calcHash N tree.nTransactions vTxid 0 pos)
  | height + 1, pos, tree =>
    if parentOfMatch tree.nTransactions vMatch (height + 1) pos then
      let tree := traverseAndBuild vTxid vMatch height (pos * 2)
        { tree with vBits := tree.vBits ++ [true] }
      if pos * 2 + 1 < calcTreeWidth tree.nTransactions height then
        traverseAndBuild vTxid vMatch height (pos * 2 + 1) tree
      else tree
    else
      tree.push false (calcHash N tree.nTransactions vTxid (height + 1) pos)

/-- The constructor; a list without transactions fails an assertion. -/
def CPartialMerkleTree.new (vTxid : List hash) (vMatch : List Bool) :
    Option (CPartialMerkleTree hash) :=
  let nTransactions := vTxid.length % 2 ^ 32
  if vTxid.length = 0 then none
  else
    some (traverseAndBuild N vTxid vMatch (treeHeight nTransactions) 0
      { nTransactions, vBits := [], vHash := [], fBad := false })

end Build

/-!
## Extraction
-/

structure Extraction (hash : Type) where
  nBitsUsed : Nat
  nHashUsed : Nat
  vMatch : List hash
  vnIndex : List Nat
  fBad : Bool
deriving DecidableEq

section Extract

variable {hash : Type} [DecidableEq hash] (N : NodeHash hash)

/-- Use a stored hash; one that is matched is that of the transaction at a position. -/
def useHash (tree : CPartialMerkleTree hash) (matched : Option Nat) (s : Extraction hash) :
    hash × Extraction hash :=
  match tree.vHash[s.nHashUsed]? with
  | none => (N.null, { s with fBad := true })
  | some node =>
    match matched with
    | none => (node, { s with nHashUsed := s.nHashUsed + 1 })
    | some pos =>
      (node,
        { s with
          nHashUsed := s.nHashUsed + 1
          vMatch := s.vMatch ++ [node]
          vnIndex := s.vnIndex ++ [pos] })

def traverseAndExtract (tree : CPartialMerkleTree hash) :
    Nat -> Nat -> Extraction hash -> hash × Extraction hash
  | 0, pos, s =>
    match tree.vBits[s.nBitsUsed]? with
    | none => (N.null, { s with fBad := true })
    | some matched =>
      useHash N tree (if matched then some pos else none) { s with nBitsUsed := s.nBitsUsed + 1 }
  | height + 1, pos, s =>
    match tree.vBits[s.nBitsUsed]? with
    | none => (N.null, { s with fBad := true })
    | some false => useHash N tree none { s with nBitsUsed := s.nBitsUsed + 1 }
    | some true =>
      let (left, s) := traverseAndExtract tree height (pos * 2)
        { s with nBitsUsed := s.nBitsUsed + 1 }
      if pos * 2 + 1 < calcTreeWidth tree.nTransactions height then
        let (right, s) := traverseAndExtract tree height (pos * 2 + 1) s
        -- The hashes of two branches are never the same.
        (N.combine left right, { s with fBad := s.fBad || decide (right = left) })
      else (N.combine left left, s)

/-- The root or the null hash, the two vectors, and the tree with its flag. -/
structure Extracted (hash : Type) where
  root : hash
  vMatch : List hash
  vnIndex : List Nat
  tree : CPartialMerkleTree hash
deriving DecidableEq

/-- The vector of matches is cleared at the start, that of the positions is not. -/
def extractMatches (tree : CPartialMerkleTree hash) (vnIndex : List Nat) : Extracted hash :=
  if tree.nTransactions = 0 || tree.vHash.length > tree.nTransactions ||
      tree.vBits.length < tree.vHash.length then
    { root := N.null, vMatch := [], vnIndex, tree }
  else
    let (root, s) := traverseAndExtract N tree (treeHeight tree.nTransactions) 0
      { nBitsUsed := 0, nHashUsed := 0, vMatch := [], vnIndex, fBad := tree.fBad }
    let failed := s.fBad || (s.nBitsUsed + 7) / 8 != (tree.vBits.length + 7) / 8 ||
      s.nHashUsed != tree.vHash.length
    { root := if failed then N.null else root
      vMatch := s.vMatch
      vnIndex := s.vnIndex
      tree := { tree with fBad := s.fBad } }

end Extract

/-!
## Serialization
-/

def maxSize : Nat := 0x02000000

def writeCompactSize (nSize : Nat) : Bytes :=
  if nSize < 253 then littleEndian 1 nSize
  else if nSize ≤ 0xffff then littleEndian 1 253 ++ littleEndian 2 nSize
  else if nSize ≤ 0xffffffff then littleEndian 1 254 ++ littleEndian 4 nSize
  else littleEndian 1 255 ++ littleEndian 8 nSize

/-- The size after its first byte, which is not smaller than needed. -/
def readLongSize (width least : Nat) (bytes : Bytes) : Option (Nat × Bytes) := do
  let (nSize, rest) ← readLittleEndian width bytes
  if nSize < least then none else some (nSize, rest)

def readCompactSize (bytes : Bytes) : Option (Nat × Bytes) := do
  let (chSize, bytes) ← readLittleEndian 1 bytes
  let (nSize, rest) ←
    if chSize < 253 then some (chSize, bytes)
    else if chSize = 253 then readLongSize 2 253 bytes
    else if chSize = 254 then readLongSize 4 0x10000 bytes
    else readLongSize 8 0x100000000 bytes
  if nSize > maxSize then none else some (nSize, rest)

section Vector

variable {α : Type} (format : Format α)

def writeVector (xs : List α) : Bytes :=
  writeCompactSize xs.length ++ format.writeAll xs

def readVector (bytes : Bytes) : Option (List α × Bytes) := do
  let (nSize, bytes) ← readCompactSize bytes
  format.readMany nSize bytes

end Vector

section Tree

variable {hash : Type} (format : Format hash)

def CPartialMerkleTree.serialize (tree : CPartialMerkleTree hash) : Bytes :=
  littleEndian 4 tree.nTransactions ++ writeVector format tree.vHash ++
    writeVector byteFormat (packBits tree.vBits)

def CPartialMerkleTree.unserialize (bytes : Bytes) :
    Option (CPartialMerkleTree hash × Bytes) := do
  let (nTransactions, bytes) ← readLittleEndian 4 bytes
  let (vHash, bytes) ← readVector format bytes
  let (packed, rest) ← readVector byteFormat bytes
  some ({ nTransactions, vBits := unpackBits packed, vHash, fBad := false }, rest)

end Tree

/-!
## What is read back
-/

theorem readLongSize_littleEndian {width least n : Nat} (hleast : least ≤ n)
    (hn : n < 256 ^ width) (rest : Bytes) :
    readLongSize width least (littleEndian width n ++ rest) = some (n, rest) := by
  unfold readLongSize
  rw [readLittleEndian_littleEndian hn]
  show (if n < least then none else some (n, rest)) = _
  rw [if_neg (by omega)]

theorem readCompactSize_writeCompactSize {n : Nat} (hn : n < 2 ^ 64) (rest : Bytes) :
    readCompactSize (writeCompactSize n ++ rest) =
      if n > maxSize then none else some (n, rest) := by
  have hmarker : forall {marker : Nat} (bytes : Bytes), marker < 256 ->
      readLittleEndian 1 (littleEndian 1 marker ++ bytes) = some (marker, bytes) := by
    intro marker bytes h
    exact readLittleEndian_littleEndian (by omega) bytes
  unfold readCompactSize writeCompactSize
  split
  · rw [hmarker rest (by omega)]
    simp only [Option.bind_eq_bind, Option.bind_some, if_pos (show n < 253 by assumption)]
  split
  on_goal 2 => split
  all_goals
    rw [append_assoc, hmarker _ (by decide)]
    simp only [Option.bind_eq_bind, Option.bind_some]
    rw [readLongSize_littleEndian (by omega) (by norm_num; omega)]
    rfl

theorem readVector_writeVector {α : Type} (format : Format α) {xs : List α}
    (hlength : xs.length < 2 ^ 64) (rest : Bytes) :
    readVector format (writeVector format xs ++ rest) =
      if xs.length > maxSize then none else some (xs, rest) := by
  unfold readVector writeVector
  rw [append_assoc, readCompactSize_writeCompactSize hlength]
  split
  · rfl
  · exact format.readMany_writeAll xs rest

/-- A tree comes back with its bits padded, unless a vector is above the limit. -/
theorem unserialize_serialize {hash : Type} (format : Format hash)
    {tree : CPartialMerkleTree hash} (hn : tree.nTransactions < 2 ^ 32)
    (hhash : tree.vHash.length < 2 ^ 64) (hbits : (packBits tree.vBits).length < 2 ^ 64)
    (rest : Bytes) :
    CPartialMerkleTree.unserialize format (tree.serialize format ++ rest) =
      if tree.vHash.length > maxSize then none
      else if (packBits tree.vBits).length > maxSize then none
      else some ({ tree with vBits := unpackBits (packBits tree.vBits), fBad := false }, rest) := by
  unfold CPartialMerkleTree.unserialize CPartialMerkleTree.serialize
  rw [append_assoc, append_assoc,
    readLittleEndian_littleEndian (show _ < 256 ^ 4 by norm_num; omega)]
  simp only [Option.bind_eq_bind, Option.bind_some]
  rw [readVector_writeVector format hhash]
  split
  · rfl
  · simp only [Option.bind_some]
    rw [readVector_writeVector byteFormat hbits]
    split <;> rfl

end ECash.Merkle
