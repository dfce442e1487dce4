import ECash.Merkle.PartialTree
import Mathlib.Tactic.Ring
import Mathlib.Tactic.Linarith

/-!
# The shape of a Merkle tree

The node at a height and position stands above a range of the transactions, and the node
at the top has the root of the whole list as its hash.  What is stored when a partial
tree is built is described node by node, with bounds on its size.
-/

namespace ECash.Merkle

open Foundation List

/-!
## Widths and heights
-/

variable {n height pos : Nat}

theorem lt_calcTreeWidth_iff (hn : n ≤ 2 ^ 31) (hheight : height ≤ 31) :
    pos < calcTreeWidth n height <-> pos * 2 ^ height < n := by
  have hpow : 2 ^ height ≤ 2 ^ 31 := Nat.pow_le_pow_right (by decide) hheight
  have hpos : 0 < 2 ^ height := Nat.two_pow_pos height
  unfold calcTreeWidth
  rw [← Nat.succ_le_iff, Nat.le_div_iff_mul_le hpos, Nat.succ_mul]
  omega

theorem treeHeightLoop_le (n rounds height : Nat) :
    treeHeightLoop n rounds height ≤ rounds + height := by
  induction rounds generalizing height with
  | zero => exact Nat.le_add_left _ _
  | succ rounds ih =>
    unfold treeHeightLoop
    split
    · have hrest := ih (height + 1)
      omega
    · omega

theorem treeHeight_le (n : Nat) : treeHeight n ≤ 31 :=
  treeHeightLoop_le n 31 0

theorem treeHeightLoop_spec (hn : n ≤ 2 ^ 31) {rounds : Nat} (hrounds : rounds + height = 31) :
    n ≤ 2 ^ treeHeightLoop n rounds height ∧
      forall k, height ≤ k -> k < treeHeightLoop n rounds height -> 2 ^ k < n := by
  induction rounds generalizing height with
  | zero =>
    have hheight : height = 31 := by omega
    unfold treeHeightLoop
    rw [hheight]
    refine ⟨hn, ?_⟩
    intro k hle hlt
    omega
  | succ rounds ih =>
    have hwidth : 1 < calcTreeWidth n height <-> 2 ^ height < n := by
      rw [lt_calcTreeWidth_iff hn (by omega), one_mul]
    unfold treeHeightLoop
    split
    · rename_i hmore
      rcases ih (show rounds + (height + 1) = 31 by omega) with ⟨hcover, hbelow⟩
      refine ⟨hcover, ?_⟩
      intro k hk hlt
      rcases Nat.eq_or_lt_of_le hk with heq | habove
      · rw [← heq]
        exact hwidth.mp hmore
      · exact hbelow k habove hlt
    · refine ⟨by omega, ?_⟩
      intro k hle hlt
      omega

theorem le_two_pow_treeHeight (hn : n ≤ 2 ^ 31) : n ≤ 2 ^ treeHeight n :=
  (treeHeightLoop_spec hn rfl).left

theorem two_pow_lt_of_lt_treeHeight (hn : n ≤ 2 ^ 31) {k : Nat} (hk : k < treeHeight n) :
    2 ^ k < n :=
  (treeHeightLoop_spec hn rfl).right k (Nat.zero_le k) hk

theorem left_mul (height pos : Nat) : pos * 2 * 2 ^ height = pos * 2 ^ (height + 1) := by
  ring

theorem right_mul (height pos : Nat) :
    (pos * 2 + 1) * 2 ^ height = pos * 2 ^ (height + 1) + 2 ^ height := by
  ring

theorem end_mul (height pos : Nat) : (pos + 1) * 2 ^ height = pos * 2 ^ height + 2 ^ height := by
  ring

theorem two_pow_double (height : Nat) : 2 ^ (height + 1) = 2 ^ height + 2 ^ height := by
  ring

theorem leaves_succ (height pos : Nat) :
    leaves n (height + 1) pos = leaves n height (pos * 2) ++ leaves n height (pos * 2 + 1) := by
  unfold leaves
  rw [end_mul, end_mul, end_mul, left_mul, right_mul]
  generalize pos * 2 ^ (height + 1) = start
  rw [two_pow_double]
  generalize 2 ^ height = width
  by_cases hright : start + width ≤ n
  · have hfirst : min (start + width) n - start = width := by
      omega
    have hsum : min (start + (width + width)) n - start =
        width + (min (start + width + width) n - (start + width)) := by
      omega
    rw [hfirst, hsum, range'_append_1]
  · have hnone : min (start + width + width) n - (start + width) = 0 := by
      omega
    have hsame : min (start + (width + width)) n - start = min (start + width) n - start := by omega
    rw [hnone, hsame]
    simp

theorem leaves_succ_of_le (h : n ≤ (pos * 2 + 1) * 2 ^ height) :
    leaves n (height + 1) pos = leaves n height (pos * 2) := by
  have hnone : leaves n height (pos * 2 + 1) = [] := by
    have hzero : min ((pos * 2 + 1 + 1) * 2 ^ height) n - (pos * 2 + 1) * 2 ^ height = 0 := by omega
    rw [leaves, hzero, range'_zero]
  rw [leaves_succ, hnone, append_nil]

theorem leaves_zero (hpos : pos < n) : leaves n 0 pos = [pos] := by
  have hone : min ((pos + 1) * 2 ^ 0) n - pos * 2 ^ 0 = 1 := by omega
  rw [leaves, hone]
  simp

theorem leaves_root (hn : n ≤ 2 ^ 31) : leaves n (treeHeight n) 0 = range n := by
  have hcover := le_two_pow_treeHeight hn
  have hcount : min ((0 + 1) * 2 ^ treeHeight n) n - 0 * 2 ^ treeHeight n = n := by omega
  rw [leaves, hcount, zero_mul, range_eq_range']

/-!
## The root of the list
-/

section Root

variable {hash : Type} (N : NodeHash hash) (vTxid : List hash)

def level : Nat -> List hash
  | 0 => vTxid
  | height + 1 => hashPairs N (level height)

theorem hashPairs_getD (hashes : List hash) {i : Nat} (h : i * 2 < hashes.length) (d : hash) :
    (hashPairs N hashes).getD i d =
      N.combine (hashes.getD (i * 2) d) (hashes.getD (i * 2 + 1) (hashes.getD (i * 2) d)) := by
  fun_induction hashPairs N hashes generalizing i with
  | case1 => cases h
  | case2 a =>
    have hzero : i = 0 := by
      simp at h
      omega
    rw [hzero]
    rfl
  | case3 a b rest ih =>
    cases i with
    | zero => rfl
    | succ i =>
      have hrest : i * 2 < rest.length := by
        simp only [length_cons] at h
        omega
      have hindex : (i + 1) * 2 = i * 2 + 1 + 1 := by omega
      rw [hindex, getD_cons_succ, ih hrest]
      rfl

variable {N vTxid} {height pos : Nat}

theorem lt_length_level :
    pos < (level N vTxid height).length <-> pos * 2 ^ height < vTxid.length := by
  induction height generalizing pos with
  | zero => simp [level]
  | succ _ ih =>
    rw [level, length_hashPairs, ← left_mul, ← ih]
    omega

section

variable (hn : vTxid.length ≤ 2 ^ 31)

include hn

theorem level_getD (hheight : height ≤ 31) (hpos : pos * 2 ^ height < vTxid.length) :
    (level N vTxid height).getD pos N.null = calcHash N vTxid.length vTxid height pos := by
  induction height generalizing pos with
  | zero => rfl
  | succ height ih =>
    rw [← left_mul] at hpos
    have hleft := ih (by omega) hpos
    have hlength : pos * 2 < (level N vTxid height).length := lt_length_level.mpr hpos
    rw [level, hashPairs_getD N _ hlength, hleft]
    congr 1
    split
    · rename_i hright
      rw [lt_calcTreeWidth_iff hn (by omega)] at hright
      rw [← ih (by omega) hright, getD_eq_getElem _ _ (lt_length_level.mpr hright),
        getD_eq_getElem _ _ (lt_length_level.mpr hright)]
    · rename_i hright
      rw [lt_calcTreeWidth_iff hn (by omega)] at hright
      rw [getD_eq_default]
      exact not_lt.mp fun hlt => hright (lt_length_level.mp hlt)

theorem one_lt_length_level_iff :
    (level N vTxid height).length > 1 <-> height < treeHeight vTxid.length := by
  show 1 < (level N vTxid height).length <-> _
  rw [lt_length_level, one_mul]
  constructor
  · intro _
    by_contra hge
    have hpow : 2 ^ treeHeight vTxid.length ≤ 2 ^ height :=
      Nat.pow_le_pow_right (by decide) (not_lt.mp hge)
    have hcover := le_two_pow_treeHeight hn
    omega
  · exact two_pow_lt_of_lt_treeHeight hn

variable [DecidableEq hash]

theorem computeMerkleRoot_level {rounds : Nat}
    (hrounds : height + rounds = treeHeight vTxid.length) (mutation : Bool) :
    (computeMerkleRoot N (level N vTxid height) mutation).1 =
      (level N vTxid (treeHeight vTxid.length)).headD N.null := by
  induction rounds generalizing height mutation with
  | zero =>
    have hheight : height = treeHeight vTxid.length := by omega
    rw [computeMerkleRoot, if_neg (by rw [one_lt_length_level_iff hn]; omega), hheight]
  | succ rounds ih =>
    rw [computeMerkleRoot, if_pos ((one_lt_length_level_iff hn).mpr (by omega))]
    exact ih (show height + 1 + rounds = treeHeight vTxid.length by omega) _

theorem computeMerkleRoot_eq_calcHash (hne : vTxid ≠ []) (mutation : Bool) :
    (computeMerkleRoot N vTxid mutation).1 =
      calcHash N vTxid.length vTxid (treeHeight vTxid.length) 0 := by
  have hroot : (computeMerkleRoot N (level N vTxid 0) mutation).1 = _ :=
    computeMerkleRoot_level hn (zero_add (treeHeight vTxid.length)) mutation
  have hpos : 0 * 2 ^ treeHeight vTxid.length < vTxid.length := by
    rw [zero_mul]
    exact length_pos_iff.mpr hne
  rw [← level_getD hn (treeHeight_le _) hpos]
  rw [level] at hroot
  rw [hroot]
  cases level N vTxid (treeHeight vTxid.length) <;> rfl

end

end Root

/-!
## Building
-/

section Build

variable {hash : Type} (N : NodeHash hash) (vTxid : List hash) (vMatch : List Bool) (n : Nat)

/-- The bits and the hashes stored for a node and those below it. -/
def proofOf : Nat -> Nat -> List Bool × List hash
  | 0, pos => ([parentOfMatch n vMatch 0 pos], [calcHash N n vTxid 0 pos])
  | height + 1, pos =>
    if parentOfMatch n vMatch (height + 1) pos then
      let left := proofOf height (pos * 2)
      if pos * 2 + 1 < calcTreeWidth n height then
        let right := proofOf height (pos * 2 + 1)
        (true :: (left.1 ++ right.1), left.2 ++ right.2)
      else (true :: left.1, left.2)
    else ([false], [calcHash N n vTxid (height + 1) pos])

variable {N vTxid vMatch n} {height pos : Nat}

theorem traverseAndBuild_eq (tree : CPartialMerkleTree hash) :
    traverseAndBuild N vTxid vMatch height pos tree =
      { tree with
        vBits := tree.vBits ++ (proofOf N vTxid vMatch tree.nTransactions height pos).1
        vHash := tree.vHash ++ (proofOf N vTxid vMatch tree.nTransactions height pos).2 } := by
  induction height generalizing pos tree with
  | zero => rfl
  | succ _ ih =>
    rw [traverseAndBuild, proofOf]
    split
    · simp only [ih]
      split <;> simp
    · rfl

theorem proofOf_both (hmatch : parentOfMatch n vMatch (height + 1) pos = true)
    (hright : pos * 2 + 1 < calcTreeWidth n height) :
    proofOf N vTxid vMatch n (height + 1) pos =
      (true :: ((proofOf N vTxid vMatch n height (pos * 2)).1 ++
          (proofOf N vTxid vMatch n height (pos * 2 + 1)).1),
        (proofOf N vTxid vMatch n height (pos * 2)).2 ++
          (proofOf N vTxid vMatch n height (pos * 2 + 1)).2) := by
  rw [proofOf, if_pos hmatch, if_pos hright]

theorem proofOf_left (hmatch : parentOfMatch n vMatch (height + 1) pos = true)
    (hright : ¬ pos * 2 + 1 < calcTreeWidth n height) :
    proofOf N vTxid vMatch n (height + 1) pos =
      (true :: (proofOf N vTxid vMatch n height (pos * 2)).1,
        (proofOf N vTxid vMatch n height (pos * 2)).2) := by
  rw [proofOf, if_pos hmatch, if_neg hright]

theorem proofOf_none (hmatch : parentOfMatch n vMatch (height + 1) pos = false) :
    proofOf N vTxid vMatch n (height + 1) pos =
      ([false], [calcHash N n vTxid (height + 1) pos]) := by
  rw [proofOf, hmatch]
  rfl

theorem length_leaves_pos (hpos : pos * 2 ^ height < n) : 0 < (leaves n height pos).length := by
  have hwidth := Nat.two_pow_pos height
  rw [leaves, length_range', end_mul]
  omega

/-- There are at most as many hashes as leaves, and as many if all of them are matched. -/
theorem length_hashes_le (hn : n ≤ 2 ^ 31) (hheight : height ≤ 31) (hpos : pos * 2 ^ height < n) :
    (proofOf N vTxid vMatch n height pos).2.length ≤ (leaves n height pos).length ∧
      ((forall p, p < n -> vMatch.getD p false = true) ->
        (proofOf N vTxid vMatch n height pos).2.length = (leaves n height pos).length) := by
  induction height generalizing pos with
  | zero =>
    rw [pow_zero, mul_one] at hpos
    rw [leaves_zero hpos]
    exact ⟨le_rfl, fun _ => rfl⟩
  | succ height ih =>
    have hlow : height ≤ 31 := by omega
    have hcount := length_leaves_pos hpos
    rcases ih hlow (show pos * 2 * 2 ^ height < n by rw [left_mul]; exact hpos) with
      ⟨hleft, hleftAll⟩
    cases hmatch : parentOfMatch n vMatch (height + 1) pos with
    | false =>
      rw [proofOf_none hmatch]
      refine ⟨hcount, fun hall => ?_⟩
      rw [parentOfMatch, any_eq_false] at hmatch
      refine absurd (hall _ hpos) (hmatch _ ?_)
      rw [leaves, length_range'] at hcount
      rw [leaves, mem_range'_1]
      omega
    | true =>
      by_cases hright : pos * 2 + 1 < calcTreeWidth n height
      · rcases ih hlow ((lt_calcTreeWidth_iff hn hlow).mp hright) with ⟨hboth, hbothAll⟩
        rw [proofOf_both hmatch hright, leaves_succ, length_append, length_append]
        refine ⟨Nat.add_le_add hleft hboth, fun hall => ?_⟩
        rw [hleftAll hall, hbothAll hall]
      · rw [proofOf_left hmatch hright]
        rw [lt_calcTreeWidth_iff hn hlow] at hright
        rw [leaves_succ_of_le (not_lt.mp hright)]
        exact ⟨hleft, hleftAll⟩

theorem length_hashes_le_bits :
    (proofOf N vTxid vMatch n height pos).2.length ≤
      (proofOf N vTxid vMatch n height pos).1.length := by
  induction height generalizing pos with
  | zero => rfl
  | succ _ ih =>
    have hleft := @ih (pos * 2)
    have hboth := @ih (pos * 2 + 1)
    rw [proofOf]
    split
    · split
      · simp only [length_cons, length_append]
        omega
      · simp only [length_cons]
        omega
    · rfl

/-- Below a node without missing children there are fewer than two bits for a hash, and on
the right edge there is at most one node with one child at each height. -/
theorem length_bits_le (hn : n ≤ 2 ^ 31) (hheight : height ≤ 31) (hpos : pos * 2 ^ height < n) :
    (proofOf N vTxid vMatch n height pos).1.length ≤
        2 * (proofOf N vTxid vMatch n height pos).2.length + height ∧
      ((pos + 1) * 2 ^ height ≤ n -> (proofOf N vTxid vMatch n height pos).1.length + 1 ≤
        2 * (proofOf N vTxid vMatch n height pos).2.length) := by
  induction height generalizing pos with
  | zero => exact ⟨Nat.le_succ 1, fun _ => Nat.le_refl 2⟩
  | succ height ih =>
    have hlow : height ≤ 31 := by omega
    rcases ih hlow (show pos * 2 * 2 ^ height < n by rw [left_mul]; exact hpos) with
      ⟨hleft, hleftFull⟩
    cases hmatch : parentOfMatch n vMatch (height + 1) pos with
    | false =>
      rw [proofOf_none hmatch, length_singleton, length_singleton]
      omega
    | true =>
      by_cases hright : pos * 2 + 1 < calcTreeWidth n height
      · have hin := (lt_calcTreeWidth_iff hn hlow).mp hright
        rcases ih hlow hin with ⟨hboth, hbothFull⟩
        rw [end_mul, right_mul, add_assoc, ← two_pow_double, ← end_mul] at hbothFull
        rw [proofOf_both hmatch hright]
        simp only [length_cons, length_append]
        omega
      · rw [proofOf_left hmatch hright]
        rw [lt_calcTreeWidth_iff hn hlow, right_mul] at hright
        rw [end_mul]
        simp only [length_cons]
        omega

end Build

/-!
## Positions

The widths are right up to 2^31 transactions.  Above that the sum wraps around at the
height of the top at the latest, and the tree is taken to be lower than it is.
-/

/-- The width is the quotient rounded up. -/
theorem isLeast_calcTreeWidth (hn : n ≤ 2 ^ 31) (hheight : height ≤ 31) :
    IsLeast { w | n ≤ w * 2 ^ height } (calcTreeWidth n height) := by
  constructor
  · exact not_lt.mp ((lt_calcTreeWidth_iff hn hheight).not.mp (lt_irrefl _))
  · intro w hw
    exact not_lt.mp ((lt_calcTreeWidth_iff hn hheight).not.mpr (not_lt.mpr hw))

section Extract

variable {hash : Type} [DecidableEq hash] {N : NodeHash hash} {tree : CPartialMerkleTree hash}

omit [DecidableEq hash] in
theorem mem_vnIndex_useHash {matched : Option Nat} {s : Extraction hash}
    (h : pos ∈ (useHash N tree matched s).2.vnIndex) : pos ∈ s.vnIndex ∨ matched = some pos := by
  unfold useHash at h
  split at h
  · exact .inl h
  · split at h
    · exact .inl h
    · simpa [eq_comm] using h

theorem mem_vnIndex_traverseAndExtract (hn : tree.nTransactions ≤ 2 ^ 31) (hheight : height ≤ 31)
    (hpos : pos * 2 ^ height < tree.nTransactions) {s : Extraction hash} {p : Nat}
    (hp : p ∈ (traverseAndExtract N tree height pos s).2.vnIndex) :
    p ∈ s.vnIndex ∨ p < tree.nTransactions := by
  induction height generalizing pos s with
  | zero =>
    unfold traverseAndExtract at hp
    split at hp
    · exact .inl hp
    · rcases mem_vnIndex_useHash hp with hold | hnew
      · exact .inl hold
      · split at hnew
        · cases hnew
          omega
        · cases hnew
  | succ height ih =>
    have hlow : height ≤ 31 := by omega
    rw [← left_mul] at hpos
    unfold traverseAndExtract at hp
    split at hp
    · exact .inl hp
    · rcases mem_vnIndex_useHash hp with hold | hnew
      · exact .inl hold
      · cases hnew
    · dsimp only at hp
      split at hp
      · rename_i hright
        rw [lt_calcTreeWidth_iff hn hlow] at hright
        rcases ih hlow hright hp with hleft | hlt
        · have hfirst := ih hlow hpos hleft
          exact hfirst
        · exact .inr hlt
      · have hfirst := ih hlow hpos hp
        exact hfirst

end Extract

/-- The height is the least that covers the transactions, the widths are those of the tree,
and no reported position is out of range. -/
structure ShapeRight (n : Nat) : Prop where
  height : IsLeast { h | n ≤ 2 ^ h } (treeHeight n)
  width : forall k, k ≤ treeHeight n -> IsLeast { w | n ≤ w * 2 ^ k } (calcTreeWidth n k)
  positions : forall {hash : Type} [DecidableEq hash] (N : NodeHash hash)
    (tree : CPartialMerkleTree hash) (vnIndex : List Nat), tree.nTransactions = n ->
    forall pos, pos ∈ (extractMatches N tree vnIndex).vnIndex -> pos ∈ vnIndex ∨ pos < n

theorem treeShape_right_iff (hpos : 0 < n) : ShapeRight n <-> n ≤ 2 ^ 31 := by
  have htop := treeHeight_le n
  constructor
  · intro h
    exact Nat.le_trans h.height.left (Nat.pow_le_pow_right (by decide) htop)
  · intro hn
    refine { height := ⟨le_two_pow_treeHeight hn, ?_⟩, width := ?_, positions := ?_ }
    · intro h hcover
      by_contra hlt
      have hless := two_pow_lt_of_lt_treeHeight hn (Nat.lt_of_not_le hlt)
      exact Nat.not_lt_of_le hcover hless
    · intro k hk
      exact isLeast_calcTreeWidth hn (Nat.le_trans hk htop)
    · intro hash _ N tree vnIndex htree pos hmem
      unfold extractMatches at hmem
      split at hmem
      · exact .inl hmem
      · subst htree
        exact mem_vnIndex_traverseAndExtract hn htop (by omega) hmem

theorem treeShape_right_iff_eleven : ShapeRight 11 :=
  (treeShape_right_iff (by decide)).mpr (by decide)

theorem treeHeight_allOnes : treeHeight (2 ^ 32 - 1) = 1 ∧ calcTreeWidth (2 ^ 32 - 1) 1 = 0 := by
  decide

end ECash.Merkle
