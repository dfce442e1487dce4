import ECash.Foundation.Computation
import ECash.Validation.BlockIndex

/-!
# The active chain

The blocks of the active chain by height.  A chain that is linked by the parent
pointers holds, with a block, all its ancestors, so the last block it shares
with another branch is found by walking down that branch.
-/

namespace ECash.Validation

open Foundation List

/-- The block at each position has that height and extends the one before it. -/
structure CChain (tree : BlockTree) where
  vChain : List Ptr
  heights : forall {i p}, vChain[i]? = some p -> tree.nHeight p = i
  linked : forall {i p q}, vChain[i]? = some p -> vChain[i + 1]? = some q -> tree.pprev q = some p

namespace CChain

variable {tree : BlockTree}

def tip (chain : CChain tree) : Option Ptr :=
  chain.vChain.getLast?

/-- The height of the tip; an empty chain has height minus one. -/
def height (chain : CChain tree) : Int :=
  chain.vChain.length - 1

def contains (chain : CChain tree) (p : Ptr) : Bool :=
  chain.vChain[tree.nHeight p]? == some p

/-- The walk down to the chain; a block has at most its height many ancestors. -/
def findForkLoop (chain : CChain tree) : Nat -> Option Ptr -> Option Ptr
  | 0, _ => none
  | _ + 1, none => none
  | rounds + 1, some p =>
    if chain.contains p then some p
    else findForkLoop chain rounds (tree.pprev p)

def findFork (chain : CChain tree) (p : Ptr) : Option Ptr :=
  let start :=
    if (tree.nHeight p : Int) > chain.height then
      tree.getAncestor p chain.height
    else some p
  findForkLoop chain (tree.nHeight p + 1) start

/-!
## What the chain holds
-/

theorem contains_iff (chain : CChain tree) (p : Ptr) :
    chain.contains p = true <-> chain.vChain[tree.nHeight p]? = some p := by
  simp [contains]

variable {chain : CChain tree} {p : Ptr}

theorem contains_of_getElem {i : Nat} (h : chain.vChain[i]? = some p) :
    chain.contains p = true := by
  rw [contains_iff, chain.heights h]
  exact h

theorem contains_tip (h : chain.tip = some p) : chain.contains p = true := by
  unfold tip at h
  rw [getLast?_eq_getElem?] at h
  exact contains_of_getElem h

theorem contains_pprev {prev : Ptr} (hp : chain.contains p = true)
    (hprev : tree.pprev p = some prev) : chain.contains prev = true := by
  rw [contains_iff] at hp
  have hheight := tree.nHeight_pprev hprev
  rw [hheight] at hp
  have hlength := getElem?_lt hp
  have hat := getElem?_eq_getElem (Nat.lt_of_succ_lt hlength)
  have hsame := Option.some.inj (hprev.symm.trans (chain.linked hat hp))
  rw [← hsame] at hat
  exact contains_of_getElem hat

theorem contains_ancestor {a : Ptr} (hanc : tree.Ancestor a p) (hp : chain.contains p = true) :
    chain.contains a = true := by
  induction hanc with
  | refl => exact hp
  | tail _ hprev ih => exact contains_pprev ih hprev

theorem ancestor_of_contains {a b : Ptr} (ha : chain.contains a = true)
    (hb : chain.contains b = true) (hle : tree.nHeight a ≤ tree.nHeight b) : tree.Ancestor a b := by
  -- At the height of the lower block the chain has one block only.
  rcases tree.getAncestor_spec hle with ⟨_, -, hanc, hheight⟩
  have hc := contains_ancestor hanc hb
  rw [contains_iff] at ha hc
  rw [hheight, ha] at hc
  cases hc
  exact hanc

theorem sameBranch_of_contains {a b : Ptr} (ha : chain.contains a = true)
    (hb : chain.contains b = true) : tree.SameBranch a b := by
  rcases Nat.le_total (tree.nHeight a) (tree.nHeight b) with hle | hle
  · exact .inl (ancestor_of_contains ha hb hle)
  · exact .inr (ancestor_of_contains hb ha hle)

/-!
## The fork
-/

/-- The highest ancestor of a block on the chain, if there is one. -/
structure IsFork (chain : CChain tree) (p : Ptr) (fork : Option Ptr) : Prop where
  onChain : forall {f}, fork = some f -> chain.contains f = true ∧ tree.Ancestor f p
  highest : forall {a}, tree.Ancestor a p -> chain.contains a = true ->
    exists f, fork = some f ∧ tree.Ancestor a f

theorem findForkLoop_isFork (chain : CChain tree) (rounds : Nat)
    (hrounds : tree.nHeight p < rounds) : chain.IsFork p (chain.findForkLoop rounds (some p)) := by
  induction rounds generalizing p with
  | zero => cases hrounds
  | succ rounds ih =>
    unfold findForkLoop
    cases hin : chain.contains p with
    | true =>
      constructor
      · rintro f ⟨⟩
        exact ⟨hin, Forest.ancestor_refl p⟩
      · intro a hanc _
        exact ⟨p, rfl, hanc⟩
    | false =>
      have hne : forall {a : Ptr}, chain.contains a = true -> a ≠ p := by
        intro a ha heq
        rw [heq, hin] at ha
        cases ha
      cases hprev : tree.pprev p with
      | none =>
        have hnone : chain.findForkLoop rounds none = none := by cases rounds <;> rfl
        rw [hnone]
        constructor
        · nofun
        · intro a hanc ha
          rcases hanc.cases with heq | ⟨_, hy, -⟩
          · exact absurd heq (hne ha)
          · cases hprev.symm.trans hy
      | some prev =>
        have hheight := tree.nHeight_pprev hprev
        have hfork := ih (show tree.nHeight prev < rounds by omega)
        constructor
        · intro f hf
          rcases hfork.onChain hf with ⟨hcontains, hanc⟩
          exact ⟨hcontains, hanc.trans (Forest.ancestor_of_parent hprev)⟩
        · intro a hanc ha
          exact hfork.highest (hanc.of_ne (hne ha) hprev) ha

theorem findFork_isFork (chain : CChain tree) (p : Ptr) : chain.IsFork p (chain.findFork p) := by
  unfold findFork
  by_cases habove : (tree.nHeight p : Int) > chain.height
  · simp only [if_pos habove]
    -- Above the tip nothing is on the chain, so the walk may start at its height.
    have hlow : forall {a : Ptr}, chain.contains a = true ->
        (tree.nHeight a : Int) ≤ chain.height := by
      intro a ha
      rw [contains_iff] at ha
      have hlength := getElem?_lt ha
      unfold height
      omega
    by_cases hempty : chain.height < 0
    · have hnone : tree.getAncestor p chain.height = none := by
        simp [BlockTree.getAncestor, hempty]
      rw [hnone]
      constructor
      · nofun
      · intro a _ ha
        have hheight := hlow ha
        omega
    · have hcast : chain.height = (chain.height.toNat : Int) := by
        omega
      have hle : chain.height.toNat ≤ tree.nHeight p := by omega
      rcases tree.getAncestor_spec hle with ⟨start, hstart, hanc, _⟩
      rw [hcast, hstart]
      have hfork := chain.findForkLoop_isFork (tree.nHeight p + 1)
        (show tree.nHeight start < tree.nHeight p + 1 by omega)
      constructor
      · intro f hf
        rcases hfork.onChain hf with ⟨hcontains, hstartAnc⟩
        exact ⟨hcontains, hstartAnc.trans hanc⟩
      · intro a ha hin
        have hbound := hlow hin
        have hdepth : tree.nHeight a ≤ tree.nHeight start := by omega
        exact hfork.highest (ha.of_depth_le hanc hdepth) hin
  · simp only [if_neg habove]
    exact chain.findForkLoop_isFork (tree.nHeight p + 1) (Nat.lt_succ_self _)

/-- On the way down from a block, the fork is the first block of the chain. -/
theorem IsFork.not_contains {x : Ptr} {fork : Option Ptr} (hfork : chain.IsFork p fork)
    (hx : tree.Ancestor x p) (habove : forall f, fork = some f -> tree.Ancestor f x)
    (hne : fork ≠ some x) : chain.contains x = false := by
  cases hin : chain.contains x with
  | false => rfl
  | true =>
    rcases hfork.highest hx hin with ⟨f, hf, hxf⟩
    rw [hxf.antisymm (habove f hf)] at hne
    exact absurd hf hne

/-!
## Setting the tip

The new chain keeps what the old one shares with the new tip's branch and takes
the rest from the parent pointers.
-/

/--
The chain up to a block, followed by the blocks collected above it.  What the
chain has above the new tip is not taken, so there is nothing to cut off first.
-/
def setTipWalk (tree : BlockTree) (vChain : List Ptr) :
    Nat -> Option Ptr -> List Ptr -> List Ptr
  | 0, _, above => above
  | _ + 1, none, above => above
  | rounds + 1, some p, above =>
    if vChain[tree.nHeight p]? = some p then
      vChain.take (tree.nHeight p + 1) ++ above
    else setTipWalk tree vChain rounds (tree.pprev p) (p :: above)

/-- A list that holds the ancestors of a block by height. -/
def HoldsAncestors (tree : BlockTree) (p : Ptr) (blocks : List Ptr) : Prop :=
  forall i a, blocks[i]? = some a <-> tree.Ancestor a p ∧ tree.nHeight a = i

theorem holdsAncestors_take (hp : chain.contains p = true) :
    HoldsAncestors tree p (chain.vChain.take (tree.nHeight p + 1)) := by
  intro i a
  constructor
  · intro h
    rw [getElem?_take] at h
    split at h
    · have hheight := chain.heights h
      exact ⟨ancestor_of_contains (contains_of_getElem h) hp (by omega), hheight⟩
    · cases h
  · rintro ⟨hanc, hheight⟩
    have hin := contains_ancestor hanc hp
    have hle : tree.nHeight a ≤ tree.nHeight p := hanc.depth_le
    rw [contains_iff, hheight] at hin
    rw [getElem?_take, if_pos (by omega)]
    exact hin

/-- The blocks above `q` on the way up to `p`, by height. -/
def HoldsAbove (tree : BlockTree) (p : Ptr) (low : Nat) (blocks : List Ptr) : Prop :=
  forall i a, blocks[i]? = some a <-> tree.Ancestor a p ∧ tree.nHeight a = low + i

theorem holdsAncestors_append {q : Ptr} {low above : List Ptr} (hq : tree.Ancestor q p)
    (hlow : HoldsAncestors tree q low) (habove : HoldsAbove tree p (tree.nHeight q + 1) above) :
    HoldsAncestors tree p (low ++ above) := by
  have hlength : low.length = tree.nHeight q + 1 := by
    have hlast : low[tree.nHeight q]? = some q := (hlow _ q).mpr ⟨Forest.ancestor_refl q, rfl⟩
    have hlt := getElem?_lt hlast
    have hnone : low[tree.nHeight q + 1]? = none := by
      refine Option.eq_none_iff_forall_ne_some.mpr fun a h => ?_
      rcases (hlow _ a).mp h with ⟨hanc, hheight⟩
      have hle : tree.nHeight a ≤ tree.nHeight q := hanc.depth_le
      omega
    have hge := getElem?_eq_none_iff.mp hnone
    omega
  intro i a
  rw [getElem?_append]
  split
  · rename_i hi
    rw [hlow i a]
    constructor
    · rintro ⟨hanc, hheight⟩
      exact ⟨hanc.trans hq, hheight⟩
    · rintro ⟨hanc, hheight⟩
      exact ⟨hanc.of_depth_le hq (show tree.nHeight a ≤ tree.nHeight q by omega), hheight⟩
  · rename_i hi
    rw [habove (i - low.length) a, hlength]
    have hsum : tree.nHeight q + 1 + (i - (tree.nHeight q + 1)) = i := by omega
    rw [hsum]

theorem setTipWalk_holds (chain : CChain tree) (rounds : Nat) {q : Ptr} {above : List Ptr}
    (hrounds : tree.nHeight q < rounds) (hq : tree.Ancestor q p)
    (habove : HoldsAbove tree p (tree.nHeight q + 1) above) :
    HoldsAncestors tree p (setTipWalk tree chain.vChain rounds (some q) above) := by
  induction rounds generalizing q above with
  | zero => exact absurd hrounds (Nat.not_lt_zero _)
  | succ rounds ih =>
    unfold setTipWalk
    split
    · rename_i hin
      apply holdsAncestors_append hq _ habove
      exact holdsAncestors_take ((chain.contains_iff q).mpr hin)
    -- The walk goes on with the block in front of those collected.
    have hcons : HoldsAbove tree p (tree.nHeight q) (q :: above) := by
      intro i a
      cases i with
      | zero =>
        constructor
        · rintro ⟨⟩
          exact ⟨hq, rfl⟩
        · rintro ⟨hanc, hheight⟩
          exact congrArg some (hq.unique hanc hheight.symm)
      | succ i =>
        have h := habove i a
        rw [getElem?_cons_succ, h]
        have hsum : tree.nHeight q + 1 + i = tree.nHeight q + (i + 1) := by omega
        rw [hsum]
    cases hprev : tree.pprev q with
    | none =>
      have hroot : tree.nHeight q = 0 := tree.depth_root hprev
      have hdone : setTipWalk tree chain.vChain rounds none (q :: above) = q :: above := by
        cases rounds <;> rfl
      rw [hdone]
      intro i a
      rw [hcons i a, hroot, Nat.zero_add]
    | some prev =>
      have hstep := tree.nHeight_pprev hprev
      apply ih (by omega) ((Forest.ancestor_of_parent hprev).trans hq)
      rw [← hstep]
      exact hcons

theorem setTipWalk_tip (chain : CChain tree) (p : Ptr) :
    HoldsAncestors tree p (setTipWalk tree chain.vChain (tree.nHeight p + 1) (some p) []) := by
  apply chain.setTipWalk_holds _ (Nat.lt_succ_self _) (Forest.ancestor_refl p)
  intro i a
  constructor
  · nofun
  · rintro ⟨hanc, _⟩
    have hle : tree.nHeight a ≤ tree.nHeight p := hanc.depth_le
    omega

def empty : CChain tree where
  vChain := []
  heights := nofun
  linked := nofun

def setTip (chain : CChain tree) (p : Ptr) : CChain tree where
  vChain := setTipWalk tree chain.vChain (tree.nHeight p + 1) (some p) []
  heights := by
    intro i a h
    exact ((chain.setTipWalk_tip p i a).mp h).right
  linked := by
    intro i a b ha hb
    rcases (chain.setTipWalk_tip p i a).mp ha with ⟨hancA, hheightA⟩
    rcases (chain.setTipWalk_tip p (i + 1) b).mp hb with ⟨hancB, hheightB⟩
    have hpos : 0 < tree.nHeight b := by omega
    rcases Forest.exists_parent hpos with ⟨prev, hprev⟩
    have hstep := tree.nHeight_pprev hprev
    have hsame : prev = a :=
      ((Forest.ancestor_of_parent hprev).trans hancB).unique hancA
        (show tree.nHeight prev = tree.nHeight a by omega)
    rw [← hsame]
    exact hprev

theorem contains_setTip_iff (chain : CChain tree) (p a : Ptr) :
    (chain.setTip p).contains a = true <-> tree.Ancestor a p := by
  rw [contains_iff]
  exact (chain.setTipWalk_tip p _ a).trans (and_iff_left rfl)

theorem nHeight_tip {t : Ptr} (h : chain.tip = some t) :
    tree.nHeight t + 1 = chain.vChain.length := by
  unfold tip at h
  rw [List.getLast?_eq_getElem?] at h
  have hlength := getElem?_lt h
  have hheight := chain.heights h
  omega

theorem contains_iff_ancestor_tip {t : Ptr} (htip : chain.tip = some t) (a : Ptr) :
    chain.contains a = true <-> tree.Ancestor a t := by
  have hin := contains_tip htip
  constructor
  · intro ha
    have hlength := nHeight_tip htip
    have hlt := getElem?_lt ((chain.contains_iff a).mp ha)
    exact ancestor_of_contains ha hin (by omega)
  · intro hanc
    exact contains_ancestor hanc hin

theorem not_contains_of_pprev_tip {t : Ptr} (htip : chain.tip = some t)
    (hprev : tree.pprev p = some t) : chain.contains p = false := by
  cases hin : chain.contains p with
  | false => rfl
  | true =>
    have hanc := (contains_iff_ancestor_tip htip p).mp hin
    have hle : tree.nHeight p ≤ tree.nHeight t := hanc.depth_le
    have hstep := tree.nHeight_pprev hprev
    omega

end CChain

end ECash.Validation
