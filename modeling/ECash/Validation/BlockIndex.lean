import ECash.Foundation.Forest

/-!
# The block index

Block index entries, named by the addresses of their nodes in memory.  The tree
keeps what does not change once a block is known: its parent, its height, its
skip pointer, its work and its place in the order of arrival.  The status flags
change during validation and are kept apart from it.
-/

namespace ECash.Validation

open Foundation

abbrev Ptr := Nat

/-!
## Status flags
-/

inductive BlockValidity where
  | UNKNOWN
  | RESERVED
  | TREE
  | TRANSACTIONS
  | CHAIN
  | SCRIPTS
deriving DecidableEq, Repr

def BlockValidity.toNat : BlockValidity -> Nat
  | UNKNOWN => 0
  | RESERVED => 1
  | TREE => 2
  | TRANSACTIONS => 3
  | CHAIN => 4
  | SCRIPTS => 5

structure BlockStatus where
  validity : BlockValidity
  hasData : Bool
  failed : Bool
  failedParent : Bool
  parked : Bool
  parkedParent : Bool
deriving DecidableEq, Repr

namespace BlockStatus

def withFailedParent (s : BlockStatus) (hasFailedParent : Bool) : BlockStatus :=
  { s with failedParent := hasFailedParent }

def withParked (s : BlockStatus) (parked : Bool) : BlockStatus :=
  { s with parked }

def withParkedParent (s : BlockStatus) (parkedParent : Bool) : BlockStatus :=
  { s with parkedParent }

def withClearedParkedFlags (s : BlockStatus) : BlockStatus :=
  { s with parked := false, parkedParent := false }

def isInvalid (s : BlockStatus) : Bool :=
  s.failed || s.failedParent

def isOnParkedChain (s : BlockStatus) : Bool :=
  s.parked || s.parkedParent

def isValid (s : BlockStatus) (nUpTo : BlockValidity) : Bool :=
  !s.isInvalid && decide (nUpTo.toNat ≤ s.validity.toNat)

end BlockStatus

/-!
## Skip heights
-/

/-- Turn the lowest one bit of a number into a zero. -/
def invertLowestOne (n : Nat) : Nat :=
  n &&& (n - 1)

def getSkipHeight (height : Nat) : Nat :=
  if height < 2 then 0
  else if height % 2 = 1 then
    invertLowestOne (invertLowestOne (height - 1)) + 1
  else invertLowestOne height

theorem invertLowestOne_le (n : Nat) : invertLowestOne n ≤ n - 1 :=
  Nat.and_le_right

theorem getSkipHeight_lt {height : Nat} (h : 0 < height) : getSkipHeight height < height := by
  unfold getSkipHeight
  split
  · exact h
  split
  · have hinner := invertLowestOne_le (height - 1)
    have houter := invertLowestOne_le (invertLowestOne (height - 1))
    omega
  · have hlow := invertLowestOne_le height
    omega

/-!
## The tree
-/

/-- A skip pointer, where there is one, leads to the ancestor at the skip height. -/
structure BlockTree extends Forest Ptr where
  pskip : Ptr -> Option Ptr
  nChainWork : Ptr -> Nat
  nSequenceId : Ptr -> Int
  nChainTx : Ptr -> Nat
  pskip_spec : forall {p s}, pskip p = some s ->
    toForest.Ancestor s p ∧ depth s = getSkipHeight (depth p)

namespace BlockTree

abbrev pprev (tree : BlockTree) : Ptr -> Option Ptr :=
  tree.parent

abbrev nHeight (tree : BlockTree) : Ptr -> Nat :=
  tree.depth

abbrev Ancestor (tree : BlockTree) : Ptr -> Ptr -> Prop :=
  tree.toForest.Ancestor

def haveTxsDownloaded (tree : BlockTree) (p : Ptr) : Bool :=
  tree.nChainTx p != 0

variable {p a pa pb : Ptr}

variable (tree : BlockTree)

theorem nHeight_pprev {prev : Ptr} (h : tree.pprev p = some prev) :
    tree.nHeight p = tree.nHeight prev + 1 :=
  tree.depth_parent h

/-!
## Ancestors by skip pointers
-/

/-- Whether the skip pointer is followed: only if the parent's is not better. -/
def followSkip (height heightWalk : Nat) : Bool :=
  let heightSkip := getSkipHeight heightWalk
  let heightSkipPrev := getSkipHeight (heightWalk - 1)
  heightSkip == height || (decide (height < heightSkip) &&
      !(decide (heightSkipPrev + 2 < heightSkip) && decide (height ≤ heightSkipPrev)))

/-- The loop; each round lowers the walk, so the first height bounds the rounds. -/
def getAncestorLoop (tree : BlockTree) (height : Nat) :
    Nat -> Ptr -> Nat -> Option Ptr
  | 0, pindexWalk, _ => some pindexWalk
  | rounds + 1, pindexWalk, heightWalk =>
    if height < heightWalk then
      match tree.pskip pindexWalk, followSkip height heightWalk with
      | some skip, true => getAncestorLoop tree height rounds skip (getSkipHeight heightWalk)
      | _, _ =>
        match tree.pprev pindexWalk with
        | some prev => getAncestorLoop tree height rounds prev (heightWalk - 1)
        | none => none
    else some pindexWalk

def getAncestor (tree : BlockTree) (p : Ptr) (height : Int) : Option Ptr :=
  if height > tree.nHeight p || height < 0 then none
  else getAncestorLoop tree height.toNat (tree.nHeight p) p (tree.nHeight p)

theorem le_skip_of_followSkip {height heightWalk : Nat} (h : followSkip height heightWalk = true) :
    height ≤ getSkipHeight heightWalk := by
  simp only [followSkip, Bool.or_eq_true, beq_iff_eq, Bool.and_eq_true, decide_eq_true_eq] at h
  rcases h with heq | ⟨hlt, -⟩
  · exact Nat.le_of_eq heq.symm
  · exact Nat.le_of_lt hlt

theorem getAncestorLoop_spec (height : Nat) (rounds : Nat) (hrounds : tree.nHeight p ≤ rounds)
    (hheight : height ≤ tree.nHeight p) :
    exists a, getAncestorLoop tree height rounds p (tree.nHeight p) = some a ∧
      tree.Ancestor a p ∧ tree.nHeight a = height := by
  induction rounds generalizing p with
  | zero =>
    refine ⟨p, rfl, Forest.ancestor_refl p, ?_⟩
    omega
  | succ rounds ih =>
    unfold getAncestorLoop
    by_cases hlt : height < tree.nHeight p
    · rw [if_pos hlt]
      have hpos : 0 < tree.nHeight p := by omega
      split
      · rename_i skip hskip hfollow
        have hlower := getSkipHeight_lt hpos
        have hupper := le_skip_of_followSkip hfollow
        have hheight : tree.nHeight skip = _ := (tree.pskip_spec hskip).right
        rw [← hheight] at hlower hupper ⊢
        have hbound : tree.nHeight skip ≤ rounds := by omega
        rcases ih hbound hupper with ⟨a, hloop, hrest, ha⟩
        exact ⟨a, hloop, hrest.trans (tree.pskip_spec hskip).left, ha⟩
      · rcases Forest.exists_parent hpos with ⟨prev, hprev⟩
        have hstep := tree.nHeight_pprev hprev
        have hprevHeight : tree.nHeight p - 1 = tree.nHeight prev := by omega
        have hbound : tree.nHeight prev ≤ rounds := by omega
        have hupper : height ≤ tree.nHeight prev := by omega
        simp only [hprev, hprevHeight]
        rcases ih hbound hupper with ⟨a, hloop, hrest, ha⟩
        exact ⟨a, hloop, hrest.trans (Forest.ancestor_of_parent hprev), ha⟩
    · rw [if_neg hlt]
      refine ⟨p, rfl, Forest.ancestor_refl p, ?_⟩
      omega

theorem getAncestor_spec {height : Nat} (h : height ≤ tree.nHeight p) :
    exists a, tree.getAncestor p height = some a ∧ tree.Ancestor a p ∧ tree.nHeight a = height := by
  have hrange : ¬ ((height : Int) > tree.nHeight p || (height : Int) < 0) = true := by
    simp only [Bool.or_eq_true, decide_eq_true_eq, not_or]
    omega
  unfold getAncestor
  rw [if_neg hrange]
  exact getAncestorLoop_spec tree height (tree.nHeight p) (Nat.le_refl _) h

theorem getAncestor_eq_some_iff {height : Nat} (h : height ≤ tree.nHeight p) :
    tree.getAncestor p height = some a <-> tree.Ancestor a p ∧ tree.nHeight a = height := by
  rcases getAncestor_spec tree h with ⟨_, hfound, hanc, hheight⟩
  rw [hfound]
  constructor
  · rintro ⟨⟩
    exact ⟨hanc, hheight⟩
  · rintro ⟨ha, hheight'⟩
    rw [hanc.unique ha (hheight.trans hheight'.symm)]

/-!
## Forks
-/

def areOnTheSameFork (tree : BlockTree) (pa pb : Ptr) : Bool :=
  if tree.nHeight pa > tree.nHeight pb then
    tree.getAncestor pa (tree.nHeight pb) == some pb
  else if tree.nHeight pb > tree.nHeight pa then
    some pa == tree.getAncestor pb (tree.nHeight pa)
  else pa == pb

theorem getAncestor_eq_self_iff (h : tree.nHeight a ≤ tree.nHeight p) :
    tree.getAncestor p (tree.nHeight a) = some a <-> tree.Ancestor a p := by
  rw [getAncestor_eq_some_iff tree h, and_iff_left rfl]

theorem areOnTheSameFork_iff (pa pb : Ptr) :
    tree.areOnTheSameFork pa pb = true <-> tree.SameBranch pa pb := by
  unfold areOnTheSameFork
  split
  · rename_i hgt
    rw [beq_iff_eq, getAncestor_eq_self_iff tree (Nat.le_of_lt hgt)]
    exact (or_iff_right fun hab => Nat.not_le_of_lt hgt hab.depth_le).symm
  · split
    · rename_i hgt
      rw [beq_iff_eq, eq_comm, getAncestor_eq_self_iff tree (Nat.le_of_lt hgt)]
      exact (or_iff_left fun hba => Nat.not_le_of_lt hgt hba.depth_le).symm
    · rename_i hle hge
      rw [beq_iff_eq]
      constructor
      · rintro rfl
        exact .inl (Forest.ancestor_refl pa)
      · rintro (hab | hba)
        · exact hab.eq_of_depth (Nat.le_of_not_lt hge)
        · exact (hba.eq_of_depth (Nat.le_of_not_lt hle)).symm

/-!
## The last common ancestor
-/

/--
The loop down from two blocks of one height.  Their skip pointers, where both have one,
have one height again, so the assertion on them holds.
-/
def lastCommonAncestorLoop (tree : BlockTree) :
    Nat -> Option Ptr -> Option Ptr -> Option Ptr × Option Ptr
  | rounds + 1, some pa, some pb =>
    if pa = pb then (some pa, some pb)
    else
      match tree.pskip pa, tree.pskip pb with
      | some skipa, some skipb =>
        if skipa ≠ skipb then
          lastCommonAncestorLoop tree rounds (some skipa) (some skipb)
        else lastCommonAncestorLoop tree rounds (tree.pprev pa) (tree.pprev pb)
      | _, _ => lastCommonAncestorLoop tree rounds (tree.pprev pa) (tree.pprev pb)
  | _, pa, pb => (pa, pb)

/-- A failed assertion is `none`, like a null result. -/
def lastCommonAncestor (tree : BlockTree) (pa pb : Ptr) : Option Ptr :=
  let start : Option Ptr × Option Ptr :=
    if tree.nHeight pa > tree.nHeight pb then
      (tree.getAncestor pa (tree.nHeight pb), some pb)
    else if tree.nHeight pb > tree.nHeight pa then
      (some pa, tree.getAncestor pb (tree.nHeight pa))
    else (some pa, some pb)
  let met := lastCommonAncestorLoop tree (tree.nHeight pa + 1) start.1 start.2
  if met.1 = met.2 then met.1 else none

/-- A common ancestor of two blocks that is above all the others. -/
structure IsLastCommon (tree : BlockTree) (pa pb fork : Ptr) : Prop where
  left : tree.Ancestor fork pa
  right : tree.Ancestor fork pb
  last : forall {a}, tree.Ancestor a pa -> tree.Ancestor a pb -> tree.Ancestor a fork

theorem common_le_of_ne {sa sb : Ptr} (hsa : tree.Ancestor sa pa) (hsb : tree.Ancestor sb pb)
    (hheight : tree.depth sa = tree.depth sb) (hne : sa ≠ sb) (ha : tree.Ancestor a pa)
    (hb : tree.Ancestor a pb) : tree.Ancestor a sa ∧ tree.Ancestor a sb := by
  rcases Nat.le_total (tree.depth a) (tree.depth sa) with hle | hle
  · exact ⟨ha.of_depth_le hsa hle, hb.of_depth_le hsb (Nat.le_trans hle (Nat.le_of_eq hheight))⟩
  · have hbelow : tree.Ancestor sa pb := (hsa.of_depth_le ha hle).trans hb
    exact absurd (hbelow.unique hsb hheight) hne

theorem isLastCommon_of_below {sa sb fork : Ptr} (hsa : tree.Ancestor sa pa)
    (hsb : tree.Ancestor sb pb) (hbelow : forall {a}, tree.Ancestor a pa -> tree.Ancestor a pb ->
      tree.Ancestor a sa ∧ tree.Ancestor a sb) (h : tree.IsLastCommon sa sb fork) :
    tree.IsLastCommon pa pb fork where
  left := h.left.trans hsa
  right := h.right.trans hsb
  last := fun ha hb => h.last (hbelow ha hb).left (hbelow ha hb).right

theorem lastCommonAncestorLoop_spec {rounds : Nat} (hrounds : tree.depth pa < rounds)
    (hheight : tree.depth pa = tree.depth pb)
    (hcommon : exists a, tree.Ancestor a pa ∧ tree.Ancestor a pb) :
    exists fork, lastCommonAncestorLoop tree rounds (some pa) (some pb) =
      (some fork, some fork) ∧ tree.IsLastCommon pa pb fork := by
  induction rounds generalizing pa pb with
  | zero => exact absurd hrounds (Nat.not_lt_zero _)
  | succ rounds ih =>
    unfold lastCommonAncestorLoop
    by_cases heq : pa = pb
    · rw [if_pos heq, heq]
      exact ⟨pb, rfl, Forest.ancestor_refl pb, Forest.ancestor_refl pb, fun h _ => h⟩
    rw [if_neg heq]
    have hproper : forall {a}, tree.Ancestor a pa -> tree.Ancestor a pb -> a ≠ pa ∧ a ≠ pb := by
      intro a ha hb
      constructor
      · rintro rfl
        exact heq (hb.eq_of_depth (Nat.le_of_eq hheight.symm))
      · rintro rfl
        exact heq (ha.eq_of_depth (Nat.le_of_eq hheight)).symm
    rcases hcommon with ⟨a, ha, hb⟩
    have hpos : 0 < tree.depth pa := by
      apply Nat.pos_of_ne_zero
      intro _
      exact (hproper ha hb).left (ha.eq_of_depth (by omega))
    rcases Forest.exists_parent hpos with ⟨preva, hpreva⟩
    rcases Forest.exists_parent (show 0 < tree.depth pb from hheight ▸ hpos) with ⟨prevb, hprevb⟩
    have hda := tree.depth_parent hpreva
    have hdb := tree.depth_parent hprevb
    have hdown : exists fork, lastCommonAncestorLoop tree rounds (tree.pprev pa)
        (tree.pprev pb) = (some fork, some fork) ∧ tree.IsLastCommon pa pb fork := by
      have hbelow : forall {a}, tree.Ancestor a pa -> tree.Ancestor a pb ->
          tree.Ancestor a preva ∧ tree.Ancestor a prevb := by
        intro a ha hb
        exact ⟨ha.of_ne (hproper ha hb).left hpreva, hb.of_ne (hproper ha hb).right hprevb⟩
      rw [show tree.pprev pa = some preva from hpreva, show tree.pprev pb = some prevb from hprevb]
      rcases ih (by omega) (by omega) ⟨a, hbelow ha hb⟩ with ⟨fork, hloop, hfork⟩
      exact ⟨fork, hloop, tree.isLastCommon_of_below (Forest.ancestor_of_parent hpreva)
        (Forest.ancestor_of_parent hprevb) hbelow hfork⟩
    split
    · rename_i skipa skipb hskipa hskipb
      split
      · rename_i hne
        rcases tree.pskip_spec hskipa with ⟨hsa, hsha⟩
        rcases tree.pskip_spec hskipb with ⟨hsb, hshb⟩
        have hlevel : tree.depth skipa = tree.depth skipb := by
          rw [hsha, hshb]
          exact congrArg getSkipHeight hheight
        have hlower := getSkipHeight_lt hpos
        have hbelow : forall {a}, tree.Ancestor a pa -> tree.Ancestor a pb ->
            tree.Ancestor a skipa ∧ tree.Ancestor a skipb :=
          fun ha hb => tree.common_le_of_ne hsa hsb hlevel hne ha hb
        rcases ih (show tree.depth skipa < rounds by omega) hlevel ⟨a, hbelow ha hb⟩ with
          ⟨fork, hloop, hfork⟩
        exact ⟨fork, hloop, tree.isLastCommon_of_below hsa hsb hbelow hfork⟩
      · exact hdown
    · exact hdown

theorem lastCommonAncestor_spec (hcommon : exists a, tree.Ancestor a pa ∧ tree.Ancestor a pb) :
    exists fork, tree.lastCommonAncestor pa pb = some fork ∧ tree.IsLastCommon pa pb fork := by
  -- The walk starts at the lower of the two heights.
  have hmeet : forall {sa sb : Ptr}, tree.Ancestor sa pa -> tree.Ancestor sb pb ->
      tree.nHeight sa = tree.nHeight sb ->
      tree.nHeight sa = tree.nHeight pa ∨ tree.nHeight sb = tree.nHeight pb ->
      exists fork, lastCommonAncestorLoop tree (tree.nHeight pa + 1) (some sa) (some sb) =
        (some fork, some fork) ∧ tree.IsLastCommon pa pb fork := by
    intro sa sb hsa hsb hheight hfull
    have hbelow : forall {a}, tree.Ancestor a pa -> tree.Ancestor a pb ->
        tree.Ancestor a sa ∧ tree.Ancestor a sb := by
      intro a ha hb
      have hlea : tree.nHeight a ≤ tree.nHeight pa := ha.depth_le
      have hleb : tree.nHeight a ≤ tree.nHeight pb := hb.depth_le
      exact ⟨ha.of_depth_le hsa (show tree.nHeight a ≤ tree.nHeight sa by omega),
        hb.of_depth_le hsb (show tree.nHeight a ≤ tree.nHeight sb by omega)⟩
    rcases hcommon with ⟨a, ha, hb⟩
    have hle : tree.nHeight sa ≤ tree.nHeight pa := hsa.depth_le
    rcases tree.lastCommonAncestorLoop_spec (show tree.nHeight sa < tree.nHeight pa + 1 by omega)
      hheight ⟨a, hbelow ha hb⟩ with ⟨fork, hloop, hfork⟩
    exact ⟨fork, hloop, tree.isLastCommon_of_below hsa hsb hbelow hfork⟩
  unfold lastCommonAncestor
  split
  · rename_i hgt
    rcases tree.getAncestor_spec (Nat.le_of_lt hgt) with ⟨_, hget, hsa, hheight⟩
    rcases hmeet hsa (Forest.ancestor_refl pb) hheight (.inr rfl) with ⟨fork, hloop, hfork⟩
    refine ⟨fork, ?_, hfork⟩
    simp only [hget, hloop, if_true]
  · split
    · rename_i hgt
      rcases tree.getAncestor_spec (Nat.le_of_lt hgt) with ⟨_, hget, hsb, hheight⟩
      rcases hmeet (Forest.ancestor_refl pa) hsb hheight.symm (.inl rfl) with ⟨fork, hloop, hfork⟩
      refine ⟨fork, ?_, hfork⟩
      simp only [hget, hloop, if_true]
    · rename_i hle hge
      rcases hmeet (Forest.ancestor_refl pa) (Forest.ancestor_refl pb)
        (show tree.nHeight pa = tree.nHeight pb by omega) (.inl rfl) with
        ⟨fork, hloop, hfork⟩
      refine ⟨fork, ?_, hfork⟩
      simp only [hloop, if_true]

/-!
## The order of candidates

More work is better, then an earlier arrival, then a lower address.
-/

/-- `CBlockIndexWorkComparator`: the first block is worse than the second. -/
def workComparator (tree : BlockTree) (pa pb : Ptr) : Bool :=
  if tree.nChainWork pa > tree.nChainWork pb then false
  else if tree.nChainWork pa < tree.nChainWork pb then true
  else if tree.nSequenceId pa < tree.nSequenceId pb then false
  else if tree.nSequenceId pa > tree.nSequenceId pb then true
  else if pa < pb then false
  else if pa > pb then true
  else false

theorem workComparator_iff (pa pb : Ptr) :
    tree.workComparator pa pb = true <->
      tree.nChainWork pa < tree.nChainWork pb ∨
      tree.nChainWork pa = tree.nChainWork pb ∧
        (tree.nSequenceId pb < tree.nSequenceId pa ∨
          tree.nSequenceId pa = tree.nSequenceId pb ∧ pb < pa) := by
  unfold workComparator
  grind

theorem workComparator_irrefl (p : Ptr) : tree.workComparator p p = false := by
  simp [workComparator]

theorem workComparator_trans {pc : Ptr} (hab : tree.workComparator pa pb = true)
    (hbc : tree.workComparator pb pc = true) : tree.workComparator pa pc = true := by
  rw [workComparator_iff] at hab hbc ⊢
  grind

theorem workComparator_total (hne : pa ≠ pb) :
    tree.workComparator pa pb = true ∨ tree.workComparator pb pa = true := by
  rw [workComparator_iff, workComparator_iff]
  grind

end BlockTree

end ECash.Validation
