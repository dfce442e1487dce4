import Mathlib
import ECash.Validation.ActivateBestChain
import ECash.Validation.BestChain

/-!
# When parked blocks stay off the chain

The search never chooses a target with a parked block on the way to it.  A step
keeps it so, unless it parks a block below its target: the target is then kept
for the next step although the way to it is no longer clear.
-/

namespace ECash.Validation

open Foundation List

/-- No parked block lies between the active chain and the target. -/
def Chainstate.PathClear {tree : BlockTree} (s : Chainstate tree) (target : Ptr) : Prop :=
  forall {b}, tree.Ancestor b target -> s.m_chain.contains b = false -> (s.nStatus b).parked = false

/-- Parked blocks stay parked. -/
def Chainstate.KeepsParked {tree : BlockTree} (s s' : Chainstate tree) : Prop :=
  forall p, (s.nStatus p).parked = true -> (s'.nStatus p).parked = true

namespace Chainstate

variable {tree : BlockTree}

theorem KeepsParked.refl (s : Chainstate tree) : KeepsParked s s :=
  fun _ h => h

theorem KeepsParked.trans {s s' s'' : Chainstate tree} (h : KeepsParked s s')
    (h' : KeepsParked s' s'') : KeepsParked s s'' :=
  fun p hp => h' p (h p hp)

theorem keepsParked_setStatus {s : Chainstate tree} {p : Ptr} {status : BlockStatus}
    (h : (s.nStatus p).parked = true -> status.parked = true) :
    KeepsParked s (s.setStatus p status) := by
  intro q hq
  by_cases hqp : q = p
  · rw [hqp] at hq ⊢
    simpa [setStatus] using h hq
  · simpa [setStatus, Function.update_of_ne hqp] using hq

/-!
## The search
-/

theorem keepsParked_parkIfForksFinalized (s : Chainstate tree) (p : Ptr) :
    KeepsParked s (s.parkIfForksFinalized p) := by
  unfold parkIfForksFinalized
  split
  · exact KeepsParked.refl s
  · split
    · exact KeepsParked.refl s
    · exact keepsParked_setStatus fun _ => rfl

theorem keepsParked_removeChain (u : Unusable) (rounds : Nat) (p : Option Ptr)
    (s : Chainstate tree) : KeepsParked s (removeChain u rounds p s) := by
  induction rounds generalizing p s with
  | zero => exact KeepsParked.refl s
  | succ rounds ih =>
    cases p with
    | none => exact KeepsParked.refl s
    | some p =>
      unfold removeChain
      split
      · exact KeepsParked.refl s
      · refine KeepsParked.trans ?_ (ih _ _)
        unfold markFailed
        split
        · exact keepsParked_setStatus fun h => h
        · exact KeepsParked.refl s

theorem keepsParked_discard (s : Chainstate tree) (p : Ptr) (u : Unusable) :
    KeepsParked s (s.discard p u) := by
  intro q hq
  exact keepsParked_removeChain u _ _ ((s.eraseCandidate u.pindexTest).recordBest p u) q hq

/-- What the search leaves behind, whatever it started from. -/
structure SearchSound (s : Chainstate tree) (found : Option Ptr) (s' : Chainstate tree) : Prop where
  kept : KeepsParked s s'
  clear : forall {target}, found = some target -> s'.PathClear target

theorem findMostWorkLoop_sound (rounds : Nat) {s s' : Chainstate tree}
    {blocksToReconcile looked : List Ptr} {found : Option Ptr}
    (h : findMostWorkLoop false rounds blocksToReconcile s =
      .ok (found, looked, s')) : SearchSound s found s' := by
  induction rounds generalizing s blocksToReconcile with
  | zero => cases h
  | succ rounds ih =>
    rcases findMostWorkLoop_cases h with ⟨rfl, rfl⟩ | ⟨p, ⟨rfl, rfl, hpath⟩ | ⟨u, _, hrest⟩⟩
    · exact ⟨KeepsParked.refl _, nofun⟩
    · refine ⟨keepsParked_parkIfForksFinalized s p, ?_⟩
      intro target htarget b hanc hout
      cases htarget
      have hgood := hpath b hanc hout
      simp only [Bad, BlockStatus.isOnParkedChain, not_or,
        Bool.not_eq_true, Bool.or_eq_false_iff] at hgood
      exact hgood.right.left.left
    · have hkept := (keepsParked_parkIfForksFinalized s p).trans (keepsParked_discard _ p u)
      exact ⟨hkept.trans (ih hrest).kept, (ih hrest).clear⟩

end Chainstate

namespace ActiveState

variable {tree : BlockTree}

/-!
## Invariants of a run and of a step
-/

/-- No block that was connected was parked, then or at the start of the run. -/
structure RunInv (start : Chainstate tree) (s : ActiveState tree) : Prop where
  kept : Chainstate.KeepsParked start s.cs
  connected : forall n, n ∈ s.blockConnected -> n.nStatus.parked = false ∧
    (start.nStatus n.pindex).parked = false

/-- A block that violates no policy, or does not get as far as its policies. -/
def PolicyOk (rules : Rules) (p : Ptr) : Prop :=
  rules.policy p = true ∨ forall flushed, rules.connectBlock p ≠ .valid flushed

/--
The condition on a step: of the blocks between the active chain and the target,
only the target itself may violate a policy.
-/
def StepMeets (rules : Rules) (start : StepStart tree) : Prop :=
  forall b, tree.Ancestor b start.target -> b ≠ start.target ->
    start.cs.m_chain.contains b = false -> PolicyOk rules b

/-- What a step towards a target keeps, from the chain it started with. -/
structure StepInv (chain : CChain tree) (target : Ptr) (s : ActiveState tree) : Prop where
  clear : s.cs.PathClear target
  below : forall {b}, tree.Ancestor b target -> chain.contains b = true ->
    s.cs.m_chain.contains b = true

variable {s s' : ActiveState tree} {p : Ptr} {fork : Option Ptr} {t : Ptr} {result : StepResult}
  {found : Option Ptr} {r : Progress tree} {chain : CChain tree}

theorem StepInv.of_grows {target : Ptr} (h : StepInv chain target s)
    (hstatus : s'.cs.nStatus = s.cs.nStatus) (hgrows : forall b, tree.Ancestor b target ->
      s.cs.m_chain.contains b = true -> s'.cs.m_chain.contains b = true) :
    StepInv chain target s' := by
  constructor
  · intro b hanc hout
    rw [hstatus]
    refine h.clear hanc (Bool.eq_false_iff.mpr fun hin => ?_)
    rw [hgrows b hanc hin] at hout
    cases hout
  · intro b hanc hin
    exact hgrows b hanc (h.below hanc hin)

/-!
## Connecting one block
-/

theorem not_contains_of_tip_none (htip : chain.tip = none) (b : Ptr) :
    chain.contains b = false := by
  have hempty : chain.vChain = [] := getLast?_eq_none_iff.mp htip
  rw [Bool.eq_false_iff, Ne, CChain.contains_iff, hempty]
  nofun

theorem contains_setTip_of_child {b : Ptr}
    (hprev : tree.pprev p = chain.tip) (hin : chain.contains b = true) :
    (chain.setTip p).contains b = true := by
  rw [CChain.contains_setTip_iff]
  cases htip : chain.tip with
  | none =>
    rw [not_contains_of_tip_none htip] at hin
    cases hin
  | some t =>
    rw [htip] at hprev
    exact ((CChain.contains_iff_ancestor_tip htip b).mp hin).trans (Forest.ancestor_of_parent hprev)

theorem not_contains_of_child (hprev : tree.pprev p = chain.tip) : chain.contains p = false := by
  cases htip : chain.tip with
  | none => exact not_contains_of_tip_none htip p
  | some t => exact CChain.not_contains_of_pprev_tip htip (hprev.trans htip)

theorem RunInv.of_kept {start : Chainstate tree} (h : RunInv start s)
    (hkept : Chainstate.KeepsParked s.cs s'.cs) (hsame : s'.blockConnected = s.blockConnected) :
    RunInv start s' := by
  constructor
  · exact h.kept.trans hkept
  · rw [hsame]
    exact h.connected

/-- The result of an operation on one block, within a step towards a target. -/
structure TipSpec (start : Chainstate tree) (chain : CChain tree) (target : Ptr)
    (result : TipResult) (s' : ActiveState tree) : Prop where
  run : RunInv start s'
  done : result = .done -> StepInv chain target s'
  parked : result = .policyViolated -> (s'.cs.nStatus target).parked = true

theorem keepsParked_invalidBlockFound (s : Chainstate tree) (p : Ptr)
    (mutated : Bool) : Chainstate.KeepsParked s (s.invalidBlockFound p mutated) := by
  unfold Chainstate.invalidBlockFound
  split
  · exact Chainstate.KeepsParked.refl s
  · have hset : Chainstate.KeepsParked s
        (s.setStatus p { s.nStatus p with failed := true }) :=
      Chainstate.keepsParked_setStatus fun h => h
    exact hset

variable {start : Chainstate tree} {chain : CChain tree} {target : Ptr} {rules : Rules}

theorem checkPolicies_passed (h : checkPolicies rules s p = (true, s')) :
    s'.cs = s.cs ∧ s'.blockConnected = s.blockConnected := by
  unfold checkPolicies at h
  split at h
  · split at h
    · cases h
      exact ⟨rfl, rfl⟩
    · cases h
  · cases h
    exact ⟨rfl, rfl⟩

theorem checkPolicies_violated (h : checkPolicies rules s p = (false, s')) :
    rules.policy p = false ∧
      s'.cs = s.cs.setStatus p ((s.cs.nStatus p).withParked true) ∧
      s'.blockConnected = s.blockConnected := by
  unfold checkPolicies at h
  split at h
  · split at h
    · cases h
    · rename_i hpolicy
      cases h
      exact ⟨Bool.not_eq_true _ ▸ hpolicy, rfl, rfl⟩
  · cases h

theorem connectTip_spec (hrun : RunInv start s) (hstep : StepInv chain target s)
    (hanc : tree.Ancestor p target)
    (hpolicy : p ≠ target -> chain.contains p = false -> PolicyOk rules p) :
    TipSpec start chain target (connectTip rules s p).1 (connectTip rules s p).2 := by
  unfold connectTip
  split
  · exact ⟨hrun, by simp, by simp⟩
  rename_i hprev
  rw [not_not] at hprev
  have hout : s.cs.m_chain.contains p = false := not_contains_of_child hprev
  cases hresult : rules.connectBlock p with
  | readFailed => exact ⟨hrun, by simp, by simp⟩
  | failed => exact ⟨hrun, by simp, by simp⟩
  | invalid mutated =>
    refine ⟨?_, by simp, by simp⟩
    exact hrun.of_kept (keepsParked_invalidBlockFound s.cs p mutated) rfl
  | valid flushed =>
    rcases hcheck : checkPolicies rules s p with ⟨passed, s₁⟩
    cases passed with
    | false =>
      rcases checkPolicies_violated hcheck with ⟨hviolated, hcs, hconnected⟩
      -- Only the target may violate a policy, so it is what was parked.
      have htarget : p = target := by
        by_contra hne
        have hold : chain.contains p = false :=
          Bool.eq_false_iff.mpr fun hin => Bool.eq_false_iff.mp hout (hstep.below hanc hin)
        rcases hpolicy hne hold with hok | hinvalid
        · rw [hviolated] at hok
          cases hok
        · exact hinvalid flushed hresult
      refine ⟨?_, by simp, ?_⟩
      · apply hrun.of_kept _ hconnected
        rw [hcs]
        exact Chainstate.keepsParked_setStatus fun _ => rfl
      · intro _
        rw [hcs, ← htarget]
        simp [Chainstate.setStatus, BlockStatus.withParked]
    | true =>
      rcases checkPolicies_passed hcheck with ⟨hcs, hconnected⟩
      simp only
      split
      · refine ⟨?_, by simp, by simp⟩
        apply hrun.of_kept _ hconnected
        rw [hcs]
        exact Chainstate.KeepsParked.refl s.cs
      · have hclear : (s.cs.nStatus p).parked = false := hstep.clear hanc hout
        refine ⟨?_, ?_, by simp⟩
        · constructor
          · intro q hq
            simp only [setTip, hcs]
            exact hrun.kept q hq
          rw [hconnected, hcs, forall_mem_append, forall_mem_singleton]
          exact ⟨hrun.connected, hclear, Bool.eq_false_iff.mpr fun hstart =>
            Bool.eq_false_iff.mp hclear (hrun.kept p hstart)⟩
        · intro _
          apply hstep.of_grows
          · simp only [setTip, hcs]
          · intro b _ hin
            simp only [setTip, hcs]
            exact contains_setTip_of_child hprev hin

/-!
## Connecting the way to the target
-/

/-- The result of a part of a step. -/
structure StepSpec (start : Chainstate tree) (chain : CChain tree) (target : Ptr)
    (result : StepResult) (s' : ActiveState tree) : Prop where
  run : RunInv start s'
  more : result = .more -> StepInv chain target s'
  stopped : result = .stopped false -> s'.cs.PathClear target ∨ (s'.cs.nStatus target).parked = true

theorem connectBlocks_spec (pindexOldTip : Option Ptr) (lowest : Ptr)
    (blocks : List Ptr) (hrun : RunInv start s) (hstep : StepInv chain target s)
    (hanc : forall p, p ∈ blocks -> tree.Ancestor p target)
    (hpolicy : forall p, tree.Ancestor p target -> p ≠ target ->
      chain.contains p = false -> PolicyOk rules p) :
    StepSpec start chain target
      (connectBlocks rules pindexOldTip lowest blocks s).1
      (connectBlocks rules pindexOldTip lowest blocks s).2 := by
  induction blocks generalizing s with
  | nil => exact ⟨hrun, fun _ => hstep, nofun⟩
  | cons p rest ih =>
    have hp := hanc p mem_cons_self
    have htip := connectTip_spec hrun hstep hp (hpolicy p hp)
    unfold connectBlocks
    rcases hconnect : connectTip rules s p with ⟨result, s₁⟩
    rw [hconnect] at htip
    cases result with
    | done =>
      have hstep₁ := htip.done rfl
      have hrun₂ : RunInv start
          { s₁ with cs := s₁.cs.pruneBlockIndexCandidates p } :=
        htip.run.of_kept (Chainstate.KeepsParked.refl s₁.cs) rfl
      have hstep₂ : StepInv chain target
          { s₁ with cs := s₁.cs.pruneBlockIndexCandidates p } :=
        hstep₁.of_grows rfl fun _ _ h => h
      simp only
      split
      · exact ⟨hrun₂, nofun, nofun⟩
      · split
        · exact ⟨hrun₂, nofun, fun _ => .inl hstep₂.clear⟩
        · split
          · exact ⟨hrun₂, nofun, fun _ => .inl hstep₂.clear⟩
          · exact ih hrun₂ hstep₂ (forall_mem_cons.mp hanc).2
    | invalid mutated =>
      simp only
      split
      · exact ⟨htip.run, nofun, nofun⟩
      · refine ⟨?_, nofun, nofun⟩
        exact htip.run.of_kept (Chainstate.KeepsParked.refl s₁.cs) rfl
    | policyViolated => exact ⟨htip.run, nofun, fun _ => .inr (htip.parked rfl)⟩
    | systemError => exact ⟨htip.run, nofun, nofun⟩
    | assertFailed => exact ⟨htip.run, nofun, nofun⟩

theorem blocksToConnect_ancestor (nHeight : Int) (rounds : Nat)
    {pindexIter : Option Ptr} {above : List Ptr}
    (hiter : forall q, pindexIter = some q -> tree.Ancestor q target)
    (habove : forall q, q ∈ above -> tree.Ancestor q target) :
    forall q, q ∈ blocksToConnect tree nHeight rounds pindexIter above ->
      tree.Ancestor q target := by
  induction rounds generalizing pindexIter above with
  | zero => exact habove
  | succ rounds ih =>
    cases pindexIter with
    | none => exact habove
    | some p =>
      unfold blocksToConnect
      split
      · exact habove
      have hp := hiter p rfl
      apply ih
      · intro q hq
        exact (Forest.ancestor_of_parent hq).trans hp
      · exact forall_mem_cons.mpr ⟨hp, habove⟩

theorem getAncestor_ancestor {a : Ptr} {height : Int} (h : tree.getAncestor p height = some a) :
    tree.Ancestor a p := by
  have hrange : ¬ (height > tree.nHeight p || height < 0) = true := by
    intro hbad
    rw [BlockTree.getAncestor, if_pos hbad] at h
    cases h
  simp only [Bool.or_eq_true, decide_eq_true_eq, not_or] at hrange
  have hcast : height = (height.toNat : Int) := by omega
  rw [hcast] at h
  exact ((tree.getAncestor_eq_some_iff (by omega)).mp h).left

theorem connectPath_spec (pindexOldTip : Option Ptr) (rounds : Nat) (nHeight : Int)
    (hrun : RunInv start s) (hstep : StepInv chain target s)
    (hpolicy : forall p, tree.Ancestor p target -> p ≠ target ->
      chain.contains p = false -> PolicyOk rules p) :
    StepSpec start chain target
      (connectPath rules pindexOldTip target rounds nHeight s).1
      (connectPath rules pindexOldTip target rounds nHeight s).2 := by
  induction rounds generalizing s nHeight with
  | zero => exact ⟨hrun, nofun, fun _ => .inl hstep.clear⟩
  | succ rounds ih =>
    unfold connectPath
    split
    · exact ⟨hrun, nofun, fun _ => .inl hstep.clear⟩
    simp only
    generalize hblocks : blocksToConnect tree nHeight
      (tree.nHeight target + 1) (tree.getAncestor target
        (min (nHeight + 32) (tree.nHeight target))) [] = blocks
    have hanc : forall q, q ∈ blocks -> tree.Ancestor q target := by
      rw [← hblocks]
      apply blocksToConnect_ancestor
      · intro q hq
        exact getAncestor_ancestor hq
      · nofun
    have hspec := connectBlocks_spec pindexOldTip (blocks.headD target) blocks
      hrun hstep hanc hpolicy
    rcases hconnect : connectBlocks rules pindexOldTip (blocks.headD target)
      blocks s with ⟨result, _⟩
    rw [hconnect] at hspec
    cases result with
    | more => exact ih _ hspec.run (hspec.more rfl)
    | stopped fInvalidFound => exact hspec
    | systemError => exact hspec
    | assertFailed => exact hspec

/-!
## Disconnecting down to the fork
-/

theorem not_ancestor_of_tip (hfork : chain.IsFork target fork) (hstep : StepInv chain target s)
    (hsub : forall b, s.cs.m_chain.contains b = true -> chain.contains b = true)
    (htip : s.cs.m_chain.tip = some t) (hne : fork ≠ some t) : ¬ tree.Ancestor t target := by
  intro hanc
  rcases hfork.highest hanc (hsub t (CChain.contains_tip htip)) with ⟨f, hf, htf⟩
  rcases hfork.onChain hf with ⟨hin, hftarget⟩
  have hft := (CChain.contains_iff_ancestor_tip htip f).mp (hstep.below hftarget hin)
  rw [hft.antisymm htf] at hf
  exact hne hf

theorem disconnectTip_cases (rules : Rules) (htip : s.cs.m_chain.tip = some t) :
    (exists prev, tree.pprev t = some prev ∧ disconnectTip rules s = (.done, s.setTip prev)) ∨
    disconnectTip rules s = (.assertFailed, s) ∨
    disconnectTip rules s = (.systemError, s) := by
  unfold disconnectTip
  simp only [htip]
  cases tree.pprev t with
  | none => exact .inr (.inl rfl)
  | some prev =>
    cases rules.disconnectBlock t with
    | false => exact .inr (.inr rfl)
    | true => exact .inl ⟨prev, rfl, rfl⟩

theorem disconnectToFork_spec (rules : Rules) (hfork : chain.IsFork target fork) (rounds : Nat)
    (hrun : RunInv start s) (hstep : StepInv chain target s)
    (hsub : forall b, s.cs.m_chain.contains b = true -> chain.contains b = true) :
    StepSpec start chain target (disconnectToFork rules fork rounds s).1
      (disconnectToFork rules fork rounds s).2 := by
  induction rounds generalizing s with
  | zero => exact ⟨hrun, fun _ => hstep, nofun⟩
  | succ rounds ih =>
    unfold disconnectToFork
    cases htip : s.cs.m_chain.tip with
    | none => exact ⟨hrun, fun _ => hstep, nofun⟩
    | some t =>
      simp only
      split
      · exact ⟨hrun, fun _ => hstep, nofun⟩
      rename_i hne
      have hnot := not_ancestor_of_tip hfork hstep hsub htip hne
      rcases disconnectTip_cases rules htip with ⟨prev, hprev, hdone⟩ | hassert | herror
      · rw [hdone]
        have hrun₁ : RunInv start (s.setTip prev) :=
          hrun.of_kept (Chainstate.KeepsParked.refl s.cs) rfl
        have hstep₁ : StepInv chain target (s.setTip prev) := by
          apply hstep.of_grows (show (s.setTip prev).cs.nStatus = _ from rfl)
          intro b hanc hin
          have hb : b ≠ t := by
            intro heq
            rw [heq] at hanc
            exact hnot hanc
          have hbelow := (CChain.contains_iff_ancestor_tip htip b).mp hin
          exact (CChain.contains_setTip_iff _ prev b).mpr (hbelow.of_ne hb hprev)
        have hsub₁ : forall b, (s.setTip prev).cs.m_chain.contains b = true ->
            chain.contains b = true := by
          intro b hin
          have hbprev := (CChain.contains_setTip_iff _ prev b).mp hin
          apply hsub
          exact (CChain.contains_iff_ancestor_tip htip b).mpr
            (hbprev.trans (Forest.ancestor_of_parent hprev))
        exact ih hrun₁ hstep₁ hsub₁
      · rw [hassert]
        exact ⟨hrun, nofun, nofun⟩
      · rw [herror]
        exact ⟨hrun, nofun, nofun⟩

/-- What a whole step leaves behind. -/
structure WholeStepSpec (start : Chainstate tree) (target : Ptr)
    (result : StepResult) (s' : ActiveState tree) : Prop where
  run : RunInv start s'
  clear : result ≠ .stopped true -> (s'.cs.nStatus target).parked = false ->
    result ≠ .systemError -> result ≠ .assertFailed -> s'.cs.PathClear target

theorem StepSpec.whole (h : StepSpec start chain target result s) :
    WholeStepSpec start target result s := by
  refine ⟨h.run, ?_⟩
  intro hnotInvalid hunparked hnotError hnotAssert
  cases result with
  | more => exact (h.more rfl).clear
  | stopped fInvalidFound =>
    cases fInvalidFound with
    | true => exact absurd rfl hnotInvalid
    | false =>
      rcases h.stopped rfl with hpath | hparked
      · exact hpath
      · rw [hunparked] at hparked
        cases hparked
  | systemError => exact absurd rfl hnotError
  | assertFailed => exact absurd rfl hnotAssert

theorem activateBestChainStep_spec (hrun : RunInv start s) (hclear : s.cs.PathClear target)
    (hmeets : StepMeets rules { cs := s.cs, target }) :
    WholeStepSpec start target (activateBestChainStep rules s target).1
      (activateBestChainStep rules s target).2 := by
  unfold activateBestChainStep
  simp only
  generalize hs₀ : ({ s with
    steps := s.steps ++ [{ cs := s.cs, target }] } : ActiveState tree) = s₀
  have hcs : s₀.cs = s.cs := by rw [← hs₀]
  have hrun₀ : RunInv start s₀ := by
    rw [← hs₀]
    exact hrun.of_kept (Chainstate.KeepsParked.refl s.cs) rfl
  have hstep₀ : StepInv s.cs.m_chain target s₀ := by
    constructor
    · rw [hcs]
      exact hclear
    · intro b _ hin
      rw [hcs]
      exact hin
  have hdown := disconnectToFork_spec rules (s.cs.m_chain.findFork_isFork target)
    (s.cs.m_chain.vChain.length + 1) hrun₀ hstep₀
    (fun b hin => by
      rw [hcs] at hin
      exact hin)
  rcases hresult : disconnectToFork rules (s.cs.m_chain.findFork target)
    (s.cs.m_chain.vChain.length + 1) s₀ with ⟨result, s₁⟩
  rw [hresult] at hdown
  cases result with
  | more =>
    exact (connectPath_spec s.cs.m_chain.tip (tree.nHeight target + 2)
      (forkHeight tree (s.cs.m_chain.findFork target)) hdown.run (hdown.more rfl) hmeets).whole
  | stopped fInvalidFound => exact hdown.whole
  | systemError => exact hdown.whole
  | assertFailed => exact hdown.whole

/-!
## The record of steps

Whatever a step does, it adds itself to the record and nothing else.
-/

section Record

variable (rules : Rules)

theorem connectTip_steps (s : ActiveState tree) (p : Ptr) :
    (connectTip rules s p).2.steps = s.steps := by
  have hcheck : (checkPolicies rules s p).2.steps = s.steps := by
    unfold checkPolicies
    split
    · split <;> rfl
    · rfl
  unfold connectTip
  split
  · rfl
  split
  · rfl
  · rfl
  · rfl
  split
  · rename_i h
    rw [h] at hcheck
    exact hcheck
  · rename_i h
    rw [h] at hcheck
    split <;> exact hcheck

theorem disconnectToFork_steps (fork : Option Ptr) (rounds : Nat) (s : ActiveState tree) :
    (disconnectToFork rules fork rounds s).2.steps = s.steps := by
  induction rounds generalizing s with
  | zero => rfl
  | succ rounds ih =>
    unfold disconnectToFork
    cases htip : s.cs.m_chain.tip with
    | none => rfl
    | some t =>
      simp only
      split
      · rfl
      · rcases disconnectTip_cases rules htip with ⟨prev, -, hdone⟩ | hassert | herror
        · rw [hdone]
          exact ih (s.setTip prev)
        · rw [hassert]
        · rw [herror]

theorem connectBlocks_steps (pindexOldTip : Option Ptr) (lowest : Ptr)
    (blocks : List Ptr) (s : ActiveState tree) :
    (connectBlocks rules pindexOldTip lowest blocks s).2.steps = s.steps := by
  induction blocks generalizing s with
  | nil => rfl
  | cons p rest ih =>
    have htip := connectTip_steps rules s p
    unfold connectBlocks
    rcases hconnect : connectTip rules s p with ⟨result, _⟩
    rw [hconnect] at htip
    cases result with
    | done =>
      simp only
      split
      · exact htip
      · split
        · exact htip
        · split
          · exact htip
          · exact (ih _).trans htip
    | invalid mutated => cases mutated <;> exact htip
    | policyViolated => exact htip
    | systemError => exact htip
    | assertFailed => exact htip

theorem connectPath_steps (pindexOldTip : Option Ptr) (target : Ptr) (rounds : Nat)
    (nHeight : Int) (s : ActiveState tree) :
    (connectPath rules pindexOldTip target rounds nHeight s).2.steps = s.steps := by
  induction rounds generalizing s nHeight with
  | zero => rfl
  | succ rounds ih =>
    unfold connectPath
    split
    · rfl
    simp only
    split
    · rename_i s₁ hconnect
      rw [ih, ← connectBlocks_steps rules pindexOldTip _ _ s, hconnect]
    · rename_i hconnect
      rw [← connectBlocks_steps rules pindexOldTip _ _ s, hconnect]

theorem activateBestChainStep_steps (s : ActiveState tree) (target : Ptr) :
    (activateBestChainStep rules s target).2.steps = s.steps ++ [{ cs := s.cs, target }] := by
  have hsteps := disconnectToFork_steps rules (s.cs.m_chain.findFork target)
    (s.cs.m_chain.vChain.length + 1)
    { s with steps := s.steps ++ [{ cs := s.cs, target }] }
  unfold activateBestChainStep
  simp only
  split
  · rename_i s₁ hdown
    rw [hdown] at hsteps
    rw [connectPath_steps]
    exact hsteps
  · rename_i hdown
    rw [hdown] at hsteps
    exact hsteps

end Record

/-!
## The run
-/

section Run

variable (rules : Rules) {start : Chainstate tree}

def KeptClear (r : Progress tree) : Prop :=
  forall {target}, r.pindexMostWork = some target -> r.s.cs.PathClear target

theorem pickTarget_steps {kept : Option Ptr} (h : pickTarget false s kept = .ok (found, s')) :
    s'.steps = s.steps := by
  unfold pickTarget at h
  cases kept with
  | some target =>
    cases h
    rfl
  | none =>
    simp only at h
    split at h <;> cases h
    rfl

theorem pickTarget_spec {kept : Option Ptr} (h : pickTarget false s kept = .ok (found, s'))
    (hrun : RunInv start s)
    (hclear : forall {target}, kept = some target -> s.cs.PathClear target) :
    RunInv start s' ∧ forall {target}, found = some target -> s'.cs.PathClear target := by
  unfold pickTarget at h
  cases kept with
  | some target =>
    cases h
    exact ⟨hrun, hclear⟩
  | none =>
    simp only at h
    split at h
    · cases h
    · rename_i hsearch
      cases h
      have hsound := Chainstate.findMostWorkLoop_sound _ hsearch
      exact ⟨hrun.of_kept hsound.kept rfl, hsound.clear⟩

theorem keptClear_of_step {target : Ptr} (hspec : WholeStepSpec start target result s)
    (hnotError : result ≠ .systemError) (hnotAssert : result ≠ .assertFailed)
    (newTip : Option Ptr) (connected : Bool) :
    KeptClear
      { s
        pindexMostWork :=
          if (result == .stopped true) || (s.cs.nStatus target).parked
          then none else some target
        pindexNewTip := newTip
        blocks_connected := connected } := by
  intro kept hkept
  split at hkept
  · cases hkept
  · rename_i hflags
    cases hkept
    simp only [Bool.or_eq_true, beq_iff_eq, not_or, Bool.not_eq_true] at hflags
    exact hspec.clear hflags.left hflags.right hnotError hnotAssert

/-- Every step so far met its condition. -/
def Meets (s : ActiveState tree) : Prop :=
  forall a, a ∈ s.steps -> StepMeets rules a

/-- What the steps under one lock leave behind, if all of them met their condition. -/
def LockSpec (start : Chainstate tree) (out : Option RunResult × Progress tree) : Prop :=
  Meets rules out.2.s -> RunInv start out.2.s ∧ (out.1 = none -> KeptClear out.2)

theorem stepsUnderLock_spec (starting_tip : Option Ptr) (rounds : Nat)
    (h : Meets rules r.s -> RunInv start r.s ∧ KeptClear r) :
    LockSpec rules start (stepsUnderLock rules false starting_tip rounds r) := by
  induction rounds generalizing r with
  | zero => exact fun hmeets => ⟨(h hmeets).left, nofun⟩
  | succ rounds ih =>
    unfold stepsUnderLock
    rcases hpick : pickTarget false r.s r.pindexMostWork with _ | ⟨found, s₁⟩
    · exact fun hmeets => ⟨(h hmeets).left, nofun⟩
    have hpicked : Meets rules s₁ -> RunInv start s₁ ∧
        forall {target}, found = some target -> s₁.cs.PathClear target := by
      intro hmeets
      rw [Meets, pickTarget_steps hpick] at hmeets
      exact pickTarget_spec hpick (h hmeets).left (h hmeets).right
    cases found with
    | none => exact fun hmeets => ⟨(hpicked hmeets).left, fun _ _ h => nomatch h⟩
    | some target =>
      simp only
      split
      · exact fun hmeets => ⟨(hpicked hmeets).left, fun _ _ h => (hpicked hmeets).right h⟩
      -- the record of a step holds those before it and the step itself
      have hstep : Meets rules (activateBestChainStep rules s₁ target).2 ->
          WholeStepSpec start target (activateBestChainStep rules s₁ target).1
            (activateBestChainStep rules s₁ target).2 := by
        intro hmeets
        rw [Meets, activateBestChainStep_steps] at hmeets
        rcases hpicked (forall_mem_append.mp hmeets).1 with ⟨hrun, hclear⟩
        exact activateBestChainStep_spec hrun (hclear rfl)
          (hmeets _ (mem_append_right _ mem_cons_self))
      rcases hresult : activateBestChainStep rules s₁ target with ⟨result, s₂⟩
      rw [hresult] at hstep
      -- Both ways a step can end without an error go on in the same way.
      have hcontinue : forall r' : Progress tree, r'.s = s₂ ->
          (WholeStepSpec start target result s₂ -> KeptClear r') ->
          LockSpec rules start (if worseThanStart s₂ starting_tip then
            stepsUnderLock rules false starting_tip rounds r' else (none, r')) := by
        rintro _ rfl hkept
        split
        · exact ih fun hmeets => ⟨(hstep hmeets).run, hkept (hstep hmeets)⟩
        · exact fun hmeets => ⟨(hstep hmeets).run, fun _ => hkept (hstep hmeets)⟩
      cases result with
      | systemError => exact fun hmeets => ⟨(hstep hmeets).run, nofun⟩
      | assertFailed => exact fun hmeets => ⟨(hstep hmeets).run, nofun⟩
      | more => exact hcontinue _ rfl fun hspec => keptClear_of_step hspec nofun nofun _ _
      | stopped fInvalidFound =>
        exact hcontinue _ rfl fun hspec => keptClear_of_step hspec nofun nofun _ _

theorem runLoop_spec (rounds : Nat) (h : Meets rules r.s -> RunInv start r.s ∧ KeptClear r) :
    Meets rules (runLoop rules false rounds r).2.s ->
      RunInv start (runLoop rules false rounds r).2.s := by
  induction rounds generalizing r with
  | zero => exact fun hmeets => (h hmeets).left
  | succ rounds ih =>
    have hlock : LockSpec rules start (stepsUnderLock rules false r.s.cs.m_chain.tip rounds
        { r with blocks_connected := false }) := stepsUnderLock_spec rules _ rounds h
    unfold runLoop
    rcases hresult : stepsUnderLock rules false r.s.cs.m_chain.tip rounds
      { r with blocks_connected := false } with ⟨result, r₁⟩
    rw [hresult] at hlock
    have hdone : Meets rules r₁.s -> RunInv start r₁.s := fun hmeets => (hlock hmeets).left
    cases result with
    | some result => exact hdone
    | none =>
      simp only
      split
      · exact hdone
      · split
        · exact hdone
        · split
          · exact hdone
          · exact ih fun hmeets => ⟨hdone hmeets, (hlock hmeets).right rfl⟩

/--
In a run whose steps all meet the condition, no block is connected that is
parked, whether it was parked before the run or by it.
-/
theorem activateBestChain_connects_unparked (rounds : Nat) (cs : Chainstate tree)
    (filter : Ptr -> Bool) (hmeets : forall a,
      a ∈ (activateBestChain rules false rounds cs filter).2.steps -> StepMeets rules a) :
    forall n, n ∈ (activateBestChain rules false rounds cs filter).2.blockConnected ->
      n.nStatus.parked = false ∧ (cs.nStatus n.pindex).parked = false := by
  have hrun : RunInv cs
      { cs
        m_filterParkingPoliciesApplied := filter
        blockConnected := []
        steps := [] } :=
    { kept := Chainstate.KeepsParked.refl cs
      connected := nofun }
  have hclear : KeptClear
      { s :=
          { cs
            m_filterParkingPoliciesApplied := filter
            blockConnected := []
            steps := [] }
        pindexMostWork := none
        pindexNewTip := none
        blocks_connected := false } := by
    nofun
  exact (runLoop_spec rules rounds (fun _ => ⟨hrun, hclear⟩) hmeets).connected

end Run

/-!
A chain of three blocks whose middle one violates a policy.  It is parked when
it is first tried, and connected when the kept target is tried again.
-/

def lineTree : BlockTree where
  parent
    | 1 => some 0
    | 2 => some 1
    | _ => none
  depth
    | 1 => 1
    | 2 => 2
    | _ => 0
  depth_parent := by
    intro x y h
    split at h <;> cases h <;> rfl
  depth_root := by
    intro x h
    split at h <;> cases h
    rfl
  pskip := fun _ => none
  nChainWork := fun p => p + 1
  nSequenceId := fun _ => 0
  nChainTx := fun _ => 1
  pskip_spec := nofun

def lineState : Chainstate lineTree where
  m_block_index := [0, 1, 2]
  nStatus := fun _ =>
    { validity := .TRANSACTIONS
      hasData := true
      failed := false
      failedParent := false
      parked := false
      parkedParent := false }
  m_chain := CChain.empty.setTip 0
  setBlockIndexCandidates := [0, 1, 2]
  m_avalancheFinalizedBlockIndex := none
  m_best_invalid := none
  m_best_parked := none
  m_blocks_unlinked := []

/-- All blocks are valid; the filter remembers all it was given. -/
def rulesWithPolicy (policy : Ptr -> Bool) : Rules where
  connectBlock := fun _ => .valid true
  disconnectBlock := fun _ => true
  policy
  filterInsert := fun filter p q => q == p || filter q
  isInitialBlockDownload := false
  shutdownRequested := fun _ => false

theorem activateBestChain_connects_parked :
    ((activateBestChain (rulesWithPolicy (· != 1)) false 10 lineState
        fun _ => false).2.blockConnected.map
      fun n => (n.pindex, n.nStatus.parked)) = [(1, true), (2, false)] := by
  rfl

theorem lineTree_top (h : 2 ≤ lineTree.nHeight p) : p = 2 := by
  match p with
  | 0 => exact absurd h (by decide)
  | 1 => exact absurd h (by decide)
  | 2 => rfl
  | n + 3 => exact absurd h (Nat.not_succ_le_zero 1)

/-- With the violation at the target itself, the run ends below it. -/
theorem activateBestChain_connects_unparked_line :
    ((activateBestChain (rulesWithPolicy (· != 2)) false 10 lineState
        fun _ => false).2.blockConnected.map
      fun n => (n.pindex, n.nStatus.parked)) = [(1, false)] ∧
    forall n, n ∈ (activateBestChain (rulesWithPolicy (· != 2)) false 10 lineState
        fun _ => false).2.blockConnected ->
      n.nStatus.parked = false ∧ (lineState.nStatus n.pindex).parked = false := by
  constructor
  · rfl
  apply activateBestChain_connects_unparked
  intro a _ b hanc hne _
  apply Or.inl
  apply bne_iff_ne.mpr
  intro hb
  rw [hb] at hanc hne
  exact hne (lineTree_top hanc.depth_le).symm

end ActiveState

end ECash.Validation
