import ECash.Merkle.TreeShape
import Mathlib.Data.List.Nodup
import Mathlib.Data.Nat.Pairing

/-!
# Extraction from partial Merkle trees

A tree built from a list of transaction ids gives back the root, the matched ids and
their positions.  Whatever the bits and hashes of a tree are, if the root that comes out
is that of the list then the matches are at their positions in it.
-/

namespace ECash.Merkle

open Foundation List

/-!
## What was built comes back
-/

variable {pos : Nat} {bits more : List Bool}

section Complete

variable {hash : Type} {N : NodeHash hash} {vTxid : List hash} {vMatch : List Bool} {n height : Nat}

theorem calcHash_injective (hdistinct : vTxid.Nodup) {pos' : Nat} (hheight : height ≤ 31)
    (hpos : pos * 2 ^ height < vTxid.length) (hpos' : pos' * 2 ^ height < vTxid.length)
    (h : calcHash N vTxid.length vTxid height pos = calcHash N vTxid.length vTxid height pos') :
    pos = pos' := by
  induction height generalizing pos pos' with
  | zero =>
    rw [pow_zero, mul_one] at hpos hpos'
    rw [calcHash, calcHash, getD_eq_getElem _ _ hpos, getD_eq_getElem _ _ hpos'] at h
    exact (Nodup.getElem_inj_iff hdistinct).mp h
  | succ _ ih =>
    rw [← left_mul] at hpos hpos'
    have hleft := ih (by omega) hpos hpos' (N.combine_inj h).left
    omega

def matchedAt (n : Nat) (vMatch : List Bool) (height pos : Nat) : List Nat :=
  (leaves n height pos).filter fun p => vMatch.getD p false

theorem matchedAt_eq_nil (h : parentOfMatch n vMatch height pos = false) :
    matchedAt n vMatch height pos = [] := by
  rw [parentOfMatch, any_eq_false] at h
  exact filter_eq_nil_iff.mpr h

theorem matchedAt_zero (hpos : pos < n) :
    matchedAt n vMatch 0 pos = if vMatch.getD pos false then [pos] else [] := by
  rw [matchedAt, leaves_zero hpos, filter_cons, filter_nil]

/-- The state after a node whose bits and hashes are the ones stored for it. -/
def Extraction.after (s : Extraction hash) (N : NodeHash hash) (vTxid : List hash)
    (vMatch : List Bool) (height pos : Nat) : Extraction hash :=
  { nBitsUsed := s.nBitsUsed + (proofOf N vTxid vMatch vTxid.length height pos).1.length
    nHashUsed := s.nHashUsed + (proofOf N vTxid vMatch vTxid.length height pos).2.length
    vMatch := s.vMatch ++
      (matchedAt vTxid.length vMatch height pos).map fun p => vTxid.getD p N.null
    vnIndex := s.vnIndex ++ matchedAt vTxid.length vMatch height pos
    fBad := s.fBad }

/-- The bits and hashes of a tree hold those of a node where the extraction stands. -/
structure Holds (tree : CPartialMerkleTree hash) (s : Extraction hash)
    (proof : List Bool × List hash) : Prop where
  bits : exists before after, tree.vBits = before ++ proof.1 ++ after ∧ before.length = s.nBitsUsed
  hashes : exists before after, tree.vHash = before ++ proof.2 ++ after ∧
    before.length = s.nHashUsed

variable {tree : CPartialMerkleTree hash} {s : Extraction hash} {hashes moreHashes : List hash}

theorem Holds.left (h : Holds tree s (true :: (bits ++ more), hashes ++ moreHashes)) :
    Holds tree { s with nBitsUsed := s.nBitsUsed + 1 } (bits, hashes) := by
  rcases h.bits with ⟨before, after, hbits, hbefore⟩
  rcases h.hashes with ⟨beforeH, afterH, hhashes, hbeforeH⟩
  constructor
  · refine ⟨before ++ [true], more ++ after, ?_, ?_⟩
    · rw [hbits]
      simp
    · simp [hbefore]
  · refine ⟨beforeH, moreHashes ++ afterH, ?_, hbeforeH⟩
    rw [hhashes]
    simp

theorem Holds.right {s' : Extraction hash}
    (h : Holds tree s (true :: (bits ++ more), hashes ++ moreHashes))
    (hused : s'.nBitsUsed = s.nBitsUsed + 1 + bits.length)
    (hhashUsed : s'.nHashUsed = s.nHashUsed + hashes.length) :
    Holds tree s' (more, moreHashes) := by
  rcases h.bits with ⟨before, after, hbits, _⟩
  rcases h.hashes with ⟨beforeH, afterH, hhashes, hbeforeH⟩
  constructor
  · refine ⟨before ++ true :: bits, after, ?_, ?_⟩
    · rw [hbits]
      simp
    · simp
      omega
  · refine ⟨beforeH ++ hashes, afterH, ?_, ?_⟩
    · rw [hhashes]
      simp
    · rw [hhashUsed, ← hbeforeH]
      simp

theorem Holds.bit {bit : Bool} (h : Holds tree s (bit :: bits, hashes)) :
    tree.vBits[s.nBitsUsed]? = some bit := by
  rcases h.bits with ⟨_, _, hbits, hbefore⟩
  rw [hbits, ← hbefore]
  simp

theorem Holds.node {node : hash} (h : Holds tree s (bits, node :: hashes)) :
    tree.vHash[s.nHashUsed]? = some node := by
  rcases h.hashes with ⟨_, _, hhashes, hbefore⟩
  rw [hhashes, ← hbefore]
  simp

variable [DecidableEq hash]

theorem traverseAndExtract_built (htree : tree.nTransactions = vTxid.length)
    (hn : vTxid.length ≤ 2 ^ 31) (hdistinct : vTxid.Nodup) (hheight : height ≤ 31)
    (hpos : pos * 2 ^ height < vTxid.length) {s : Extraction hash}
    (hholds : Holds tree s (proofOf N vTxid vMatch vTxid.length height pos)) :
    traverseAndExtract N tree height pos s =
      (calcHash N vTxid.length vTxid height pos, s.after N vTxid vMatch height pos) := by
  induction height generalizing pos s with
  | zero =>
    have hbit := hholds.bit
    have hhash := hholds.node
    rw [pow_zero, mul_one] at hpos
    have hparent : parentOfMatch vTxid.length vMatch 0 pos = vMatch.getD pos false := by
      simp [parentOfMatch, leaves_zero hpos]
    rw [hparent] at hbit
    rw [traverseAndExtract, hbit]
    cases hmatch : vMatch.getD pos false with
    | false =>
      have hnone : matchedAt vTxid.length vMatch 0 pos = [] := by
        rw [matchedAt_zero hpos, hmatch]
        rfl
      simp [useHash, hhash, Extraction.after, proofOf, hnone]
    | true =>
      have hone : matchedAt vTxid.length vMatch 0 pos = [pos] := by
        rw [matchedAt_zero hpos, hmatch]
        rfl
      simp [useHash, hhash, Extraction.after, proofOf, hone, calcHash]
  | succ height ih =>
    have hlow : height ≤ 31 := by omega
    have hposLeft : pos * 2 * 2 ^ height < vTxid.length := by
      rw [left_mul]
      exact hpos
    cases hmatch : parentOfMatch vTxid.length vMatch (height + 1) pos with
    | false =>
      rw [proofOf_none hmatch] at hholds
      rw [traverseAndExtract, hholds.bit]
      simp [useHash, hholds.node, Extraction.after, proofOf_none hmatch, matchedAt_eq_nil hmatch]
    | true =>
      by_cases hright : pos * 2 + 1 < calcTreeWidth vTxid.length height
      · have hposRight := (lt_calcTreeWidth_iff hn hlow).mp hright
        rw [proofOf_both hmatch hright] at hholds
        have hleft := ih hlow hposLeft hholds.left
        have hmiddle : Holds tree
            (Extraction.after { s with nBitsUsed := s.nBitsUsed + 1 } N vTxid vMatch height
              (pos * 2)) (proofOf N vTxid vMatch vTxid.length height (pos * 2 + 1)) :=
          hholds.right rfl rfl
        have hrest := ih hlow hposRight hmiddle
        have hne : calcHash N vTxid.length vTxid height (pos * 2 + 1) ≠
            calcHash N vTxid.length vTxid height (pos * 2) := by
          intro heq
          have hsame := calcHash_injective hdistinct hlow hposRight hposLeft heq
          omega
        rw [traverseAndExtract, hholds.bit]
        simp only [hleft, hrest, htree, if_pos hright, calcHash, decide_eq_false hne, Bool.or_false]
        simp [Extraction.after, proofOf_both hmatch hright, matchedAt, leaves_succ]
        omega
      · rw [proofOf_left hmatch hright] at hholds
        have hall : vTxid.length ≤ (pos * 2 + 1) * 2 ^ height := by
          rw [lt_calcTreeWidth_iff hn hlow] at hright
          exact not_lt.mp hright
        have hnone : Holds tree s
            (true :: ((proofOf N vTxid vMatch vTxid.length height (pos * 2)).1 ++ []),
              (proofOf N vTxid vMatch vTxid.length height (pos * 2)).2 ++ []) := by
          rw [append_nil, append_nil]
          exact hholds
        have hleft := ih hlow hposLeft hnone.left
        rw [traverseAndExtract, hholds.bit]
        simp only [hleft, htree, if_neg hright, calcHash]
        simp [Extraction.after, proofOf_left hmatch hright, matchedAt, leaves_succ_of_le hall]
        omega

end Complete

/-!
## What comes out is in the list
-/

section Sound

variable {hash : Type} {N : NodeHash hash} {tree : CPartialMerkleTree hash}

/-- The matches added between two states of the extraction are entries of the list. -/
def Adds (vTxid : List hash) (s s' : Extraction hash) : Prop :=
  exists found : List (Nat × hash), s'.vnIndex = s.vnIndex ++ found.map Prod.fst ∧
    s'.vMatch = s.vMatch ++ found.map Prod.snd ∧ forall p, p ∈ found -> vTxid[p.1]? = some p.2

variable {vTxid : List hash} {s s' : Extraction hash}

theorem adds_of_same (hindex : s'.vnIndex = s.vnIndex) (hmatch : s'.vMatch = s.vMatch) :
    Adds vTxid s s' := by
  refine ⟨[], ?_, ?_, ?_⟩
  · simp [hindex]
  · simp [hmatch]
  · nofun

theorem Adds.trans {s'' : Extraction hash} (h : Adds vTxid s s') (h' : Adds vTxid s' s'') :
    Adds vTxid s s'' := by
  rcases h with ⟨found, hindex, hmatch, hfound⟩
  rcases h' with ⟨found', hindex', hmatch', hfound'⟩
  refine ⟨found ++ found', ?_, ?_, ?_⟩
  · simp [hindex', hindex]
  · simp [hmatch', hmatch]
  · exact forall_mem_append.mpr ⟨hfound, hfound'⟩

theorem useHash_adds_none (s : Extraction hash) : Adds vTxid s (useHash N tree none s).2 := by
  unfold useHash
  split
  · exact adds_of_same rfl rfl
  · exact adds_of_same rfl rfl

theorem useHash_adds_some (hgood : (useHash N tree (some pos) s).2.fBad = false)
    (hhash : vTxid[pos]? = some (useHash N tree (some pos) s).1) :
    Adds vTxid s (useHash N tree (some pos) s).2 := by
  unfold useHash at hgood hhash ⊢
  cases hnode : tree.vHash[s.nHashUsed]? with
  | none =>
    rw [hnode] at hgood
    cases hgood
  | some node =>
    rw [hnode] at hhash
    refine ⟨[(pos, node)], rfl, rfl, ?_⟩
    intro p hp
    rw [mem_singleton] at hp
    rw [hp]
    exact hhash

theorem useHash_fBad {matched : Option Nat} (h : s.fBad = true) :
    (useHash N tree matched s).2.fBad = true := by
  unfold useHash
  split
  · rfl
  · split <;> exact h

variable [DecidableEq hash] {height : Nat}

theorem traverseAndExtract_fBad (h : s.fBad = true) :
    (traverseAndExtract N tree height pos s).2.fBad = true := by
  induction height generalizing pos s with
  | zero =>
    unfold traverseAndExtract
    split
    · rfl
    · apply useHash_fBad
      exact h
  | succ height ih =>
    unfold traverseAndExtract
    split
    · rfl
    · apply useHash_fBad
      exact h
    have hleft : (traverseAndExtract N tree height (pos * 2)
        { s with nBitsUsed := s.nBitsUsed + 1 }).2.fBad = true := ih h
    simp only
    split
    · simp only [ih hleft, Bool.true_or]
    · exact hleft

/-- If the hash of a node comes out, the matches found below it are in the list. -/
theorem traverseAndExtract_sound (htree : tree.nTransactions = vTxid.length)
    (hn : vTxid.length ≤ 2 ^ 31) (hheight : height ≤ 31) (hpos : pos * 2 ^ height < vTxid.length)
    (hgood : (traverseAndExtract N tree height pos s).2.fBad = false)
    (hhash : (traverseAndExtract N tree height pos s).1 =
      calcHash N vTxid.length vTxid height pos) :
    Adds vTxid s (traverseAndExtract N tree height pos s).2 := by
  induction height generalizing pos s with
  | zero =>
    rw [pow_zero, mul_one] at hpos
    rw [calcHash, getD_eq_getElem _ _ hpos] at hhash
    unfold traverseAndExtract at hgood hhash ⊢
    cases hbit : tree.vBits[s.nBitsUsed]? with
    | none =>
      rw [hbit] at hgood
      cases hgood
    | some matched =>
      rw [hbit] at hgood hhash
      apply Adds.trans (adds_of_same rfl rfl)
      cases matched with
      | false => exact useHash_adds_none { s with nBitsUsed := s.nBitsUsed + 1 }
      | true =>
        apply useHash_adds_some hgood
        rw [getElem?_eq_getElem hpos]
        exact congrArg some hhash.symm
  | succ height ih =>
    have hlow : height ≤ 31 := by omega
    have hposLeft : pos * 2 * 2 ^ height < vTxid.length := by
      rw [left_mul]
      exact hpos
    rw [calcHash] at hhash
    unfold traverseAndExtract at hgood hhash ⊢
    cases hbit : tree.vBits[s.nBitsUsed]? with
    | none =>
      rw [hbit] at hgood
      cases hgood
    | some matched =>
      rw [hbit] at hgood hhash
      cases matched with
      | false =>
        exact (adds_of_same rfl rfl).trans
          (useHash_adds_none { s with nBitsUsed := s.nBitsUsed + 1 })
      | true =>
        simp only [htree] at hgood hhash ⊢
        have hsame : Adds vTxid s { s with nBitsUsed := s.nBitsUsed + 1 } := adds_of_same rfl rfl
        apply hsame.trans
        split at hgood
        · rename_i hright
          have hposRight := (lt_calcTreeWidth_iff hn hlow).mp hright
          rw [if_pos hright, if_pos hright] at hhash
          rcases N.combine_inj hhash with ⟨hleftHash, hrightHash⟩
          simp only [Bool.or_eq_false_iff] at hgood
          have hrightAdds := ih hlow hposRight hgood.left hrightHash
          have hleftGood : (traverseAndExtract N tree height (pos * 2)
              { s with nBitsUsed := s.nBitsUsed + 1 }).2.fBad = false := by
            rw [← Bool.not_eq_true]
            intro hbad
            rw [traverseAndExtract_fBad hbad] at hgood
            exact Bool.noConfusion hgood.left
          rw [if_pos hright]
          apply (ih hlow hposLeft hleftGood hleftHash).trans
          exact hrightAdds.trans (adds_of_same rfl rfl)
        · rename_i hright
          rw [if_neg hright] at hhash
          rw [if_neg hright]
          exact ih hlow hposLeft hgood (N.combine_inj hhash).left

end Sound

/-!
## Extraction from a tree
-/

section Main

variable {hash : Type}

def matchedPositions (vTxid : List hash) (vMatch : List Bool) : List Nat :=
  (range vTxid.length).filter fun p => vMatch.getD p false

def treeOf (N : NodeHash hash) (vTxid : List hash) (vMatch : List Bool) (padding : List Bool) :
    CPartialMerkleTree hash where
  nTransactions := vTxid.length
  vBits := (proofOf N vTxid vMatch vTxid.length (treeHeight vTxid.length) 0).1 ++ padding
  vHash := (proofOf N vTxid vMatch vTxid.length (treeHeight vTxid.length) 0).2
  fBad := false

variable {N : NodeHash hash} {vTxid : List hash} {vMatch : List Bool} (format : Format hash)
  (hne : vTxid ≠ []) (hn : vTxid.length ≤ 2 ^ 31)

include hne

theorem root_pos : 0 * 2 ^ treeHeight vTxid.length < vTxid.length := by
  rw [zero_mul]
  exact length_pos_iff.mpr hne

include hn

theorem new_eq_treeOf :
    CPartialMerkleTree.new N vTxid vMatch = some (treeOf N vTxid vMatch []) := by
  have hlength : vTxid.length ≠ 0 := by simpa using hne
  have hmod : vTxid.length % 2 ^ 32 = vTxid.length := Nat.mod_eq_of_lt (by omega)
  unfold CPartialMerkleTree.new treeOf
  simp only [hmod, if_neg hlength, traverseAndBuild_eq, append_nil]
  rfl

theorem length_vHash_treeOf_le (padding : List Bool) :
    (treeOf N vTxid vMatch padding).vHash.length ≤ vTxid.length := by
  have hle := @length_hashes_le hash N vTxid vMatch vTxid.length _ 0 hn (treeHeight_le _)
    (root_pos hne)
  rw [leaves_root hn, length_range] at hle
  exact hle.left

theorem length_packBits_le (hsize : (treeOf N vTxid vMatch []).vHash.length ≤ maxSize) :
    (packBits (treeOf N vTxid vMatch []).vBits).length ≤ maxSize := by
  have hle := (@length_bits_le hash N vTxid vMatch vTxid.length _ 0 hn (treeHeight_le _)
    (root_pos hne)).left
  have hheight := treeHeight_le vTxid.length
  simp only [treeOf, maxSize, append_nil, length_packBits] at hsize ⊢
  omega

theorem unserialize_treeOf (rest : Bytes) :
    exists pad : Nat,
      ((treeOf N vTxid vMatch []).vBits.length + 7) / 8 =
          ((treeOf N vTxid vMatch []).vBits.length + pad + 7) / 8 ∧
        CPartialMerkleTree.unserialize format
            ((treeOf N vTxid vMatch []).serialize format ++ rest) =
          if (treeOf N vTxid vMatch []).vHash.length > maxSize then none
          else some (treeOf N vTxid vMatch (replicate pad false), rest) := by
  have hhashes := @length_vHash_treeOf_le hash N vTxid vMatch hne hn []
  have hbits := (@length_bits_le hash N vTxid vMatch vTxid.length _ 0 hn (treeHeight_le _)
    (root_pos hne)).left
  have hheight := treeHeight_le vTxid.length
  have hpacked : (packBits (treeOf N vTxid vMatch []).vBits).length < 2 ^ 64 := by
    simp only [treeOf, append_nil, length_packBits] at hhashes ⊢
    omega
  have hread := unserialize_serialize format
    (show (treeOf N vTxid vMatch []).nTransactions < 2 ^ 32 by simp only [treeOf]; omega)
    (show (treeOf N vTxid vMatch []).vHash.length < 2 ^ 64 by omega) hpacked rest
  refine ⟨((treeOf N vTxid vMatch []).vBits.length + 7) / 8 * 8 -
    (treeOf N vTxid vMatch []).vBits.length, by omega, ?_⟩
  rw [hread]
  split
  · rfl
  · rename_i hsize
    rw [if_neg (not_lt.mpr (length_packBits_le hne hn (not_lt.mp hsize))), unpackBits_packBits]
    simp [treeOf]

omit hne in
theorem unserialize_treeOf_eq_none (hsize : maxSize < vTxid.length)
    (hall : forall p, p < vTxid.length -> vMatch.getD p false = true) (rest : Bytes) :
    CPartialMerkleTree.unserialize format ((treeOf N vTxid vMatch []).serialize format ++ rest) =
      none := by
  have hne : vTxid ≠ [] := by
    intro heq
    rw [heq] at hsize
    cases hsize
  have hlength := (@length_hashes_le hash N vTxid vMatch vTxid.length _ 0 hn (treeHeight_le _)
    (root_pos hne)).right hall
  rw [leaves_root hn, length_range] at hlength
  rcases @unserialize_treeOf hash N vTxid vMatch format hne hn rest with ⟨_, _, hread⟩
  rw [hread, if_pos]
  show maxSize < (proofOf N vTxid vMatch vTxid.length (treeHeight vTxid.length) 0).2.length
  rw [hlength]
  exact hsize

variable [DecidableEq hash]

theorem extractMatches_treeOf (hdistinct : vTxid.Nodup) {pad : Nat}
    (hpad : ((treeOf N vTxid vMatch []).vBits.length + 7) / 8 =
      ((treeOf N vTxid vMatch []).vBits.length + pad + 7) / 8) (vnIndex : List Nat) :
    extractMatches N (treeOf N vTxid vMatch (replicate pad false)) vnIndex =
      { root := (computeMerkleRoot N vTxid false).1
        vMatch := (matchedPositions vTxid vMatch).map fun p => vTxid.getD p N.null
        vnIndex := vnIndex ++ matchedPositions vTxid vMatch
        tree := treeOf N vTxid vMatch (replicate pad false) } := by
  have hlength : vTxid.length ≠ 0 := by simpa using hne
  generalize htree : treeOf N vTxid vMatch (replicate pad false) = tree
  have hcount : tree.nTransactions = vTxid.length := htree ▸ rfl
  have hhashes : tree.vHash.length ≤ vTxid.length := htree ▸ length_vHash_treeOf_le hne hn _
  have hbits : tree.vHash.length ≤ tree.vBits.length := by
    have hle := @length_hashes_le_bits hash N vTxid vMatch vTxid.length (treeHeight vTxid.length) 0
    simp only [← htree, treeOf, length_append]
    omega
  have hholds : Holds tree
      { nBitsUsed := 0, nHashUsed := 0, vMatch := [], vnIndex, fBad := false }
      (proofOf N vTxid vMatch vTxid.length (treeHeight vTxid.length) 0) := by
    subst htree
    constructor
    · exact ⟨[], replicate pad false, rfl, rfl⟩
    · exact ⟨[], [], (append_nil _).symm, rfl⟩
  have hrun := traverseAndExtract_built hcount hn hdistinct (treeHeight_le _) (root_pos hne) hholds
  have hguard : (decide (vTxid.length = 0) || decide (tree.vHash.length > vTxid.length) ||
      decide (tree.vBits.length < tree.vHash.length)) = false := by
    simp only [Bool.or_eq_false_iff, decide_eq_false_iff_not]
    omega
  have hroot : matchedAt vTxid.length vMatch (treeHeight vTxid.length) 0 =
      matchedPositions vTxid vMatch := by
    rw [matchedAt, leaves_root hn]
    rfl
  have hused : (((proofOf N vTxid vMatch vTxid.length (treeHeight vTxid.length) 0).1.length + 7) /
      8 != (tree.vBits.length + 7) / 8) = false := by
    simp only [← htree, treeOf, append_nil, length_append, length_replicate] at hpad ⊢
    simp [hpad]
  have hbad : tree.fBad = false := htree ▸ rfl
  unfold extractMatches
  rw [hcount, if_neg (by rw [Bool.not_eq_true]; exact hguard)]
  rw [computeMerkleRoot_eq_calcHash hn hne]
  simp only [hbad, hrun, Extraction.after, zero_add, hused, hroot]
  simp [← htree, treeOf]

/--
Built, written, read back and extracted, the tree of a list gives the root, the matched
ids and their positions, if there are not too many hashes to be read.
-/
def GivesMatches (N : NodeHash hash) (format : Format hash) (vTxid : List hash)
    (vMatch : List Bool) : Prop :=
  exists tree, CPartialMerkleTree.new N vTxid vMatch = some tree ∧
    (tree.vHash.length ≤ maxSize -> forall rest, exists read,
      CPartialMerkleTree.unserialize format (tree.serialize format ++ rest) = some (read, rest) ∧
        forall vnIndex, (extractMatches N read vnIndex).root = (computeMerkleRoot N vTxid false).1 ∧
            (extractMatches N read vnIndex).vMatch =
              (matchedPositions vTxid vMatch).map (fun p => vTxid.getD p N.null) ∧
            (extractMatches N read vnIndex).vnIndex = vnIndex ++ matchedPositions vTxid vMatch)

/-- If the root of the list is extracted from a tree, its matches are in the list. -/
def BindsMatches (N : NodeHash hash) (vTxid : List hash) (tree : CPartialMerkleTree hash) : Prop :=
  (extractMatches N tree []).root = (computeMerkleRoot N vTxid false).1 ->
    (extractMatches N tree []).vnIndex.length = (extractMatches N tree []).vMatch.length ∧
      forall p, p ∈ (extractMatches N tree []).vnIndex.zip (extractMatches N tree []).vMatch ->
        vTxid[p.1]? = some p.2

theorem givesMatches (hdistinct : vTxid.Nodup) : GivesMatches N format vTxid vMatch := by
  refine ⟨treeOf N vTxid vMatch [], new_eq_treeOf hne hn, ?_⟩
  intro hsize rest
  rcases @unserialize_treeOf hash N vTxid vMatch format hne hn rest with ⟨pad, hpad, hread⟩
  rw [if_neg (not_lt.mpr hsize)] at hread
  refine ⟨treeOf N vTxid vMatch (replicate pad false), hread, ?_⟩
  intro vnIndex
  rw [extractMatches_treeOf hne hn hdistinct hpad]
  exact ⟨rfl, rfl, rfl⟩

theorem bindsMatches (hroot : (computeMerkleRoot N vTxid false).1 ≠ N.null)
    {tree : CPartialMerkleTree hash} (htree : tree.nTransactions = vTxid.length) :
    BindsMatches N vTxid tree := by
  unfold BindsMatches extractMatches
  split
  · intro heq
    exact absurd heq.symm hroot
  simp only [htree]
  intro heq
  split at heq
  · exact absurd heq.symm hroot
  rename_i hgood
  simp only [Bool.or_eq_true, not_or, Bool.not_eq_true] at hgood
  rw [computeMerkleRoot_eq_calcHash hn hne] at heq
  rcases traverseAndExtract_sound htree hn (treeHeight_le _) (root_pos hne)
    hgood.left.left heq with ⟨_, hindex, hmatch, hfound⟩
  rw [hindex, hmatch, nil_append, nil_append]
  constructor
  · rw [length_map, length_map]
  · intro p hp
    rw [zip_map', mem_map] at hp
    rcases hp with ⟨q, hq, heq⟩
    rw [← heq]
    exact hfound q hq

omit hne hn in
/--
Partial trees of a list of distinct ids give back what was matched, and no tree of that
size with the root of the list gives anything else.
-/
theorem extractMatches_correct (N : NodeHash hash) (format : Format hash) {vTxid : List hash}
    (hne : vTxid ≠ []) (hn : vTxid.length < 2 ^ 31) (hdistinct : vTxid.Nodup) :
    (forall vMatch, GivesMatches N format vTxid vMatch) ∧
      ((computeMerkleRoot N vTxid false).1 ≠ N.null ->
        forall tree, tree.nTransactions = vTxid.length -> BindsMatches N vTxid tree) := by
  constructor
  · intro vMatch
    exact givesMatches format hne hn.le hdistinct
  · intro hroot tree htree
    exact bindsMatches hne hn.le hroot htree

end Main

/-!
A hash on numbers without collisions, and a format for numbers.
-/

def pairHash : NodeHash Nat where
  null := 0
  combine := fun a b => Nat.pair a b + 1
  combine_inj := by
    intro a b c d h
    exact Nat.pair_eq_pair.mp (Nat.succ.inj h)

def readUnary : Bytes -> Option (Nat × Bytes)
  | [] => none
  | byte :: rest =>
    if byte = 0 then some (0, rest)
    else (readUnary rest).map fun r => (r.1 + 1, r.2)

def unaryFormat : Format Nat where
  write := fun n => replicate n 1 ++ [0]
  read := readUnary
  read_write := by
    intro n rest
    induction n with
    | zero => rfl
    | succ n ih =>
      rw [replicate_succ, cons_append, cons_append, readUnary, ih]
      rfl

theorem root_three_ne_null : (computeMerkleRoot pairHash [1, 2, 3] false).1 ≠ pairHash.null := by
  rw [computeMerkleRoot, computeMerkleRoot, computeMerkleRoot]
  decide

theorem extractMatches_correct_three :
    (forall vMatch, GivesMatches pairHash unaryFormat [1, 2, 3] vMatch) ∧
      forall tree, tree.nTransactions = 3 -> BindsMatches pairHash [1, 2, 3] tree :=
  (extractMatches_correct pairHash unaryFormat (by decide) (by decide) (by decide)).imp_right
    fun hbinds => hbinds root_three_ne_null

/-- A tree of one transaction with a byte of bits too many. -/
def overlongTree : CPartialMerkleTree Nat where
  nTransactions := 1
  vBits := true :: replicate 8 false
  vHash := [7]
  fBad := false

/--
If the only id of a list is null, the root is what comes out of a failed extraction; and
a tree with too many hashes is not read back.
-/
theorem extractMatches_limits :
    ((extractMatches pairHash overlongTree []).root = (computeMerkleRoot pairHash [0] false).1 ∧
        (extractMatches pairHash overlongTree []).vnIndex = [0] ∧
        (extractMatches pairHash overlongTree []).vMatch = [7]) ∧
      exists tree,
        CPartialMerkleTree.new pairHash (range (maxSize + 1))
            (replicate (maxSize + 1) true) = some tree ∧
          forall rest, CPartialMerkleTree.unserialize unaryFormat
            (tree.serialize unaryFormat ++ rest) = none := by
  constructor
  · refine ⟨?_, rfl, rfl⟩
    rw [computeMerkleRoot]
    rfl
  have hn : (range (maxSize + 1)).length ≤ 2 ^ 31 := by
    rw [length_range, maxSize]
    omega
  have hne : range (maxSize + 1) ≠ [] := by simp
  refine ⟨_, new_eq_treeOf hne hn, ?_⟩
  intro rest
  apply unserialize_treeOf_eq_none unaryFormat hn
  · rw [length_range]
    exact lt_add_one _
  · intro p hp
    rw [getD_eq_getElem _ _ (by simpa using hp), getElem_replicate]

end ECash.Merkle
