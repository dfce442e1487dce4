import ECash.Validation.FindMostWork

/-!
# The search finds the best usable candidate

A candidate is usable when it does not compete with the finalized block and
nothing on its way from the active chain is invalid, parked or without data.
The search changes flags and candidates, but only of blocks that are not usable,
and never changes which blocks are.
-/

namespace ECash.Validation

open Foundation List

namespace Chainstate

variable {tree : BlockTree}

def Bad (status : BlockStatus) : Prop :=
  status.isInvalid = true ∨ status.isOnParkedChain = true ∨ status.hasData = false

theorem bad_iff {status : BlockStatus} :
    Bad status <-> (status.isInvalid || status.isOnParkedChain || !status.hasData) = true := by
  simp [Bad, or_assoc]

structure Usable (s : Chainstate tree) (p : Ptr) : Prop where
  sameFork : forall {f}, s.m_avalancheFinalizedBlockIndex = some f -> tree.SameBranch p f
  path : forall {b}, tree.Ancestor b p -> s.m_chain.contains b = false -> ¬ Bad (s.nStatus b)

/-- Nothing on the way from the active chain is bad. -/
def Clear (s : Chainstate tree) (p : Ptr) : Prop :=
  forall b, tree.Ancestor b p -> s.m_chain.contains b = false -> ¬ Bad (s.nStatus b)

variable {s s' : Chainstate tree} {p b : Ptr}

theorem Usable.ancestor (h : s.Usable p) (hb : tree.Ancestor b p) : s.Usable b :=
  { sameFork := fun hf => (h.sameFork hf).elim (fun hx => .inl (hb.trans hx)) hb.sameBranch
    path := fun hanc => h.path (hanc.trans hb) }

theorem usable_tip {t : Ptr} (htip : s.m_chain.tip = some t)
    (hfinal : forall f, s.m_avalancheFinalizedBlockIndex = some f ->
      s.m_chain.contains f = true) : s.Usable t := by
  have hin := CChain.contains_tip htip
  constructor
  · intro f hf
    exact CChain.sameBranch_of_contains hin (hfinal f hf)
  · intro b hanc hout
    cases hout.symm.trans (CChain.contains_ancestor hanc hin)

/-!
## Steps that mark unusable blocks
-/

structure SameChain (s s' : Chainstate tree) : Prop where
  chain : s'.m_chain = s.m_chain
  finalized : s'.m_avalancheFinalizedBlockIndex = s.m_avalancheFinalizedBlockIndex

theorem SameChain.trans {s'' : Chainstate tree} (h : SameChain s s') (h' : SameChain s' s'') :
    SameChain s s'' :=
  ⟨h'.chain.trans h.chain, h'.finalized.trans h.finalized⟩

/-- A step that marks and removes only what is not usable. -/
structure Marks (s s' : Chainstate tree) : Prop extends SameChain s s' where
  status : forall b, s'.nStatus b = s.nStatus b ∨ ¬ s.Usable b ∧ Bad (s'.nStatus b)
  sublist : s'.setBlockIndexCandidates.Sublist s.setBlockIndexCandidates
  removed : forall {p}, p ∈ s.setBlockIndexCandidates ->
    p ∉ s'.setBlockIndexCandidates -> ¬ s.Usable p

theorem Marks.usable_iff (h : Marks s s') (p : Ptr) : s'.Usable p <-> s.Usable p := by
  constructor
  · intro hp
    constructor
    · intro f hf
      exact hp.sameFork (h.finalized.trans hf)
    intro b hanc hout
    have hgood : ¬ Bad (s'.nStatus b) := by
      apply hp.path hanc
      rw [h.chain]
      exact hout
    rcases h.status b with hsame | ⟨-, hbad⟩
    · rw [← hsame]
      exact hgood
    · exact absurd hbad hgood
  · intro hp
    constructor
    · intro f hf
      exact hp.sameFork (h.finalized.symm.trans hf)
    intro b hanc hout
    rw [h.chain] at hout
    rcases h.status b with hsame | ⟨hnot, -⟩
    · rw [hsame]
      exact hp.path hanc hout
    · exact absurd (hp.ancestor hanc) hnot

theorem Marks.refl (s : Chainstate tree) : Marks s s where
  toSameChain := ⟨rfl, rfl⟩
  status := fun _ => .inl rfl
  sublist := Sublist.refl _
  removed := fun hin hout => absurd hin hout

theorem Marks.trans {s'' : Chainstate tree} (h : Marks s s') (h' : Marks s' s'') : Marks s s'' where
  toSameChain := h.toSameChain.trans h'.toSameChain
  status := by
    intro b
    rcases h'.status b with hsame | ⟨hnot, hbad⟩
    · rw [hsame]
      exact h.status b
    · rw [h.usable_iff b] at hnot
      exact .inr ⟨hnot, hbad⟩
  sublist := h'.sublist.trans h.sublist
  removed := by
    intro p hin hout
    by_cases hmid : p ∈ s'.setBlockIndexCandidates
    · rw [← h.usable_iff p]
      exact h'.removed hmid hout
    · exact h.removed hin hmid

theorem marks_setStatus {status : BlockStatus} (hnot : ¬ s.Usable p) (hbad : Bad status) :
    Marks s (s.setStatus p status) := by
  refine { Marks.refl s with status := ?_ }
  intro b
  by_cases hb : b = p
  · rw [hb]
    refine .inr ⟨hnot, ?_⟩
    simp only [setStatus, Function.update_self]
    exact hbad
  · exact .inl (Function.update_of_ne hb _ _)

theorem marks_parkIfForksFinalized (s : Chainstate tree) (p : Ptr) :
    Marks s (s.parkIfForksFinalized p) := by
  unfold parkIfForksFinalized
  cases hfinal : s.m_avalancheFinalizedBlockIndex with
  | none => exact Marks.refl s
  | some f =>
    cases hfork : tree.areOnTheSameFork p f with
    | true =>
      simp only [hfork, if_true]
      exact Marks.refl s
    | false =>
      simp only [hfork, Bool.false_eq_true, if_false]
      refine marks_setStatus (fun husable => ?_) (.inr (.inl ?_))
      · rw [(tree.areOnTheSameFork_iff p f).mpr (husable.sameFork hfinal)] at hfork
        cases hfork
      · simp [BlockStatus.withParked, BlockStatus.isOnParkedChain]

/-!
## Walking down
-/

/-- The block at which the walk stopped: off the chain and bad. -/
structure Unusable.Stops (u : Unusable) (s : Chainstate tree) (p : Ptr) : Prop where
  ancestor : tree.Ancestor u.pindexTest p
  offChain : s.m_chain.contains u.pindexTest = false
  invalid : u.fInvalidChain = (s.nStatus u.pindexTest).isInvalid
  parked : u.fParkedChain = (s.nStatus u.pindexTest).isOnParkedChain
  missing : u.fMissingData = !(s.nStatus u.pindexTest).hasData
  bad : Bad (s.nStatus u.pindexTest)

/--
Without automatic unparking the walk changes nothing.  It reaches the chain, or
it stops at a bad block, or it meets a block that was never downloaded.
-/
theorem testPath_cases (s : Chainstate tree) {fork : Option Ptr} (hfork : s.m_chain.IsFork p fork)
    (rounds : Nat) {x : Ptr} (hx : tree.Ancestor x p)
    (habove : forall f, fork = some f -> tree.Ancestor f x)
    (hrounds : tree.nHeight x + 1 < rounds) :
    (testPath false p fork rounds (some x) s = .ok (none, s) ∧ s.Clear x) ∨
    (exists u, testPath false p fork rounds (some x) s = .ok (some u, s) ∧ u.Stops s x) ∨
    (testPath false p fork rounds (some x) s =
        .error .assertTxsDownloaded ∧
      exists b, tree.Ancestor b x ∧ tree.haveTxsDownloaded b = false) := by
  induction rounds generalizing x with
  | zero => cases hrounds
  | succ rounds ih =>
    unfold testPath
    by_cases hatFork : fork = some x
    · rw [if_pos hatFork]
      refine .inl ⟨rfl, ?_⟩
      intro b hanc hout
      cases hout.symm.trans (CChain.contains_ancestor hanc (hfork.onChain hatFork).left)
    · have hoff := hfork.not_contains hx habove hatFork
      rw [if_neg hatFork]
      cases hassert : !tree.haveTxsDownloaded x && tree.nHeight x != 0 with
      | true =>
        simp only [if_true]
        refine .inr (.inr ⟨trivial, x, Forest.ancestor_refl x, ?_⟩)
        exact Bool.not_eq_true' _ |>.mp (Bool.and_eq_true_iff.mp hassert).left
      | false =>
      simp only [Bool.false_and, Bool.false_eq_true, if_false]
      cases hflags : (s.nStatus x).isInvalid || (s.nStatus x).isOnParkedChain ||
          !(s.nStatus x).hasData with
      | true =>
        refine .inr (.inl ⟨_, by rw [if_pos rfl], ?_⟩)
        exact ⟨Forest.ancestor_refl x, hoff, rfl, rfl, rfl, bad_iff.mpr hflags⟩
      | false =>
        have hgood : ¬ Bad (s.nStatus x) := by
          rw [bad_iff, hflags]
          nofun
        cases hprev : tree.pprev x with
        | none =>
          rcases rounds with _ | _
          · omega
          refine .inl ⟨rfl, ?_⟩
          intro b hanc _
          rcases hanc.cases with heq | ⟨_, hy, -⟩
          · rw [heq]
            exact hgood
          · cases hprev.symm.trans hy
        | some prev =>
          have hstep := tree.nHeight_pprev hprev
          have hparent := Forest.ancestor_of_parent hprev
          have habove' : forall f, fork = some f -> tree.Ancestor f prev := by
            intro f hf
            exact (habove f hf).of_ne (fun heq => hatFork (heq ▸ hf)) hprev
          rcases ih (hparent.trans hx) habove' (by omega) with
            ⟨hok, hpath⟩ | ⟨u, hstop, hu⟩ | ⟨hfail, b, hb, hmissing⟩
          · refine .inl ⟨hok, ?_⟩
            intro b hanc hout
            by_cases hb : b = x
            · rw [hb]
              exact hgood
            · exact hpath b (hanc.of_ne hb hprev) hout
          · exact .inr (.inl ⟨u, hstop, { hu with ancestor := hu.ancestor.trans hparent }⟩)
          · exact .inr (.inr ⟨hfail, b, hb.trans hparent, hmissing⟩)

/-!
## Giving a candidate up
-/

theorem marks_eraseCandidate (hnot : ¬ s.Usable p) : Marks s (s.eraseCandidate p) := by
  refine { Marks.refl s with sublist := ?_, removed := ?_ }
  · exact filter_sublist
  intro q hin hout
  have heq : q = p := by
    by_contra hne
    exact hout (mem_filter.mpr ⟨hin, bne_iff_ne.mpr hne⟩)
  rw [heq]
  exact hnot

theorem Marks.erase (h : Marks s s') (hnot : ¬ s.Usable p) : Marks s (s'.eraseCandidate p) := by
  apply h.trans
  apply marks_eraseCandidate
  rw [h.usable_iff]
  exact hnot

theorem notMem_eraseCandidate (s : Chainstate tree) (p : Ptr) :
    p ∉ (s.eraseCandidate p).setBlockIndexCandidates := by
  simp [eraseCandidate]

theorem marks_markFailed (u : Unusable) (hnot : ¬ s.Usable p) : Marks s (markFailed u s p) := by
  unfold markFailed
  cases hflags : u.fInvalidChain || u.fParkedChain with
  | false =>
    have hunlinked : Marks s { s with
          m_blocks_unlinked := s.m_blocks_unlinked ++ [(tree.pprev p, p)] } :=
      { Marks.refl s with }
    exact hunlinked.erase hnot
  | true =>
    refine (marks_setStatus hnot ?_).erase hnot
    rcases Bool.or_eq_true_iff.mp hflags with hflag | hflag
    · apply Or.inl
      simp [BlockStatus.withParkedParent, BlockStatus.withFailedParent, BlockStatus.isInvalid,
        hflag]
    · apply Or.inr
      apply Or.inl
      simp [BlockStatus.withParkedParent, BlockStatus.isOnParkedChain, hflag]

theorem marks_removeChain (u : Unusable) (rounds : Nat) {p : Option Ptr}
    (hanc : forall q, p = some q -> tree.Ancestor u.pindexTest q) (hnot : ¬ s.Usable u.pindexTest) :
    Marks s (removeChain u rounds p s) := by
  induction rounds generalizing s p with
  | zero => exact Marks.refl s
  | succ rounds ih =>
    cases p with
    | none => exact Marks.refl s
    | some p =>
      unfold removeChain
      by_cases hp : p = u.pindexTest
      · rw [if_pos hp]
        exact Marks.refl s
      rw [if_neg hp]
      have hmark : Marks s (markFailed u s p) :=
        marks_markFailed u fun husable => hnot (husable.ancestor (hanc p rfl))
      refine hmark.trans (ih ?_ ?_)
      · intro q hq
        exact (hanc p rfl).of_ne (fun h => hp h.symm) hq
      · rw [hmark.usable_iff]
        exact hnot

theorem marks_recordBest (s : Chainstate tree) (p : Ptr) (u : Unusable) :
    Marks s (s.recordBest p u) :=
  { Marks.refl s with }

theorem discard_spec {u : Unusable} (hu : u.Stops s p) :
    Marks s (s.discard p u) ∧ p ∉ (s.discard p u).setBlockIndexCandidates := by
  have hnot : ¬ s.Usable u.pindexTest :=
    fun husable => husable.path (Forest.ancestor_refl _) hu.offChain hu.bad
  have hstart := (marks_eraseCandidate hnot).trans (marks_recordBest _ p u)
  rw [← hstart.usable_iff] at hnot
  constructor
  · apply hstart.trans
    apply marks_removeChain u _ _ hnot
    rintro q ⟨⟩
    exact hu.ancestor
  · unfold discard removeChain
    by_cases hp : p = u.pindexTest
    · rw [if_pos hp, hp]
      exact notMem_eraseCandidate s u.pindexTest
    rw [if_neg hp]
    intro hin
    have hmark := marks_markFailed u fun husable => hnot (husable.ancestor hu.ancestor)
    rw [← hmark.usable_iff] at hnot
    have hrest := marks_removeChain u (tree.nHeight p)
      (fun q hq => hu.ancestor.of_ne (fun h => hp h.symm) hq) hnot
    exact notMem_eraseCandidate _ p (hrest.sublist.subset hin)

/-!
## The search
-/

theorem bestOf_eq_none {candidates : List Ptr} (h : bestOf tree candidates = none) :
    candidates = [] := by
  cases candidates with
  | nil => rfl
  | cons p rest =>
    unfold bestOf at h
    split at h
    · cases h
    · split at h <;> cases h

theorem bestOf_spec {candidates : List Ptr} {best : Ptr} (h : bestOf tree candidates = some best) :
    best ∈ candidates ∧ forall p, p ∈ candidates -> tree.workComparator best p = false := by
  induction candidates generalizing best with
  | nil => cases h
  | cons p rest ih =>
    unfold bestOf at h
    cases hrest : bestOf tree rest with
    | none =>
      rw [hrest] at h
      cases h
      rw [bestOf_eq_none hrest]
      simp [tree.workComparator_irrefl]
    | some other =>
      rcases ih hrest with ⟨hmem, hbest⟩
      simp only [hrest] at h
      cases hworse : tree.workComparator other p with
      | true =>
        rw [hworse] at h
        cases h
        refine ⟨mem_cons_self, forall_mem_cons.mpr ⟨tree.workComparator_irrefl p, ?_⟩⟩
        intro q hq
        cases hpq : tree.workComparator p q with
        | false => rfl
        | true =>
          have hcontra := tree.workComparator_trans hworse hpq
          rw [hbest q hq] at hcontra
          cases hcontra
      | false =>
        rw [hworse] at h
        cases h
        constructor
        · exact mem_cons_of_mem p hmem
        · exact forall_mem_cons.mpr ⟨hworse, hbest⟩

/-- What holds whenever the search is started. -/
structure Searchable (s : Chainstate tree) : Prop where
  tip : exists t, s.m_chain.tip = some t ∧ t ∈ s.setBlockIndexCandidates
  finalized : forall f, s.m_avalancheFinalizedBlockIndex = some f -> s.m_chain.contains f = true
  downloaded : forall p, p ∈ s.setBlockIndexCandidates ->
    forall b, tree.Ancestor b p -> tree.haveTxsDownloaded b = true

theorem Marks.mem_of_usable (h : Marks s s') (hin : p ∈ s.setBlockIndexCandidates)
    (husable : s.Usable p) : p ∈ s'.setBlockIndexCandidates := by
  by_contra hout
  exact h.removed hin hout husable

theorem Searchable.marks (hs : s.Searchable) (h : Marks s s') : s'.Searchable := by
  rcases hs.tip with ⟨t, htip, hin⟩
  constructor
  · refine ⟨t, ?_, h.mem_of_usable hin (usable_tip htip hs.finalized)⟩
    rw [h.chain]
    exact htip
  · intro f hf
    rw [h.chain]
    exact hs.finalized f (h.finalized.symm.trans hf)
  · intro p hp
    exact hs.downloaded p (h.sublist.subset hp)

theorem parked_of_parkIfForksFinalized {f : Ptr} (hf : s.m_avalancheFinalizedBlockIndex = some f)
    (hfork : ¬ tree.SameBranch p f) :
    ((s.parkIfForksFinalized p).nStatus p).isOnParkedChain = true := by
  have hfalse : tree.areOnTheSameFork p f = false :=
    Bool.eq_false_iff.mpr fun h => hfork ((tree.areOnTheSameFork_iff p f).mp h)
  simp [parkIfForksFinalized, hf, hfalse, setStatus, BlockStatus.withParked,
    BlockStatus.isOnParkedChain]

/-- A candidate with a clear path is on the branch of a finalized block on the active chain. -/
theorem sameBranch_of_path {f : Ptr} (hf : s.m_avalancheFinalizedBlockIndex = some f)
    (hon : s.m_chain.contains f = true) (hpath : (s.parkIfForksFinalized p).Clear p) :
    tree.SameBranch p f := by
  by_contra hnot
  have hout : (s.parkIfForksFinalized p).m_chain.contains p = false := by
    rw [(marks_parkIfForksFinalized s p).chain]
    exact Bool.eq_false_iff.mpr fun hin => hnot (CChain.sameBranch_of_contains hin hon)
  exact hpath p (Forest.ancestor_refl p) hout (.inr (.inl (parked_of_parkIfForksFinalized hf hnot)))

theorem usable_of_path (hs : s.Searchable) (hpath : (s.parkIfForksFinalized p).Clear p) :
    s.Usable p := by
  have hmarks := marks_parkIfForksFinalized s p
  rw [← hmarks.usable_iff]
  refine { sameFork := ?_, path := hpath _ }
  intro f hf
  have hf' := hmarks.finalized.symm.trans hf
  exact sameBranch_of_path hf' (hs.finalized f hf') hpath

theorem findMostWorkLoop_spec (rounds : Nat) (hs : s.Searchable)
    (hrounds : s.setBlockIndexCandidates.length < rounds) (blocksToReconcile : List Ptr) :
    exists best looked s',
      findMostWorkLoop false rounds blocksToReconcile s = .ok (some best, looked, s') ∧
      Marks s s' ∧ best ∈ s'.setBlockIndexCandidates ∧ s.Usable best ∧
      forall p, p ∈ s'.setBlockIndexCandidates -> tree.workComparator best p = false := by
  induction rounds generalizing s blocksToReconcile with
  | zero => cases hrounds
  | succ rounds ih =>
    cases hbest : bestOf tree s.setBlockIndexCandidates with
    | none =>
      rcases hs.tip with ⟨_, -, hin⟩
      rw [bestOf_eq_none hbest] at hin
      cases hin
    | some p =>
      rcases bestOf_spec hbest with ⟨hmem, hmax⟩
      have hpark := marks_parkIfForksFinalized s p
      have hcandidates : (s.parkIfForksFinalized p).setBlockIndexCandidates =
            s.setBlockIndexCandidates := by
        unfold parkIfForksFinalized
        split
        · rfl
        · split <;> rfl
      have hfork := (s.parkIfForksFinalized p).m_chain.findFork_isFork p
      have habove : forall f, (s.parkIfForksFinalized p).m_chain.findFork p = some f ->
            tree.Ancestor f p :=
        fun f hf => (hfork.onChain hf).right
      rcases testPath_cases (s.parkIfForksFinalized p) hfork
        (2 * (tree.nHeight p + 1) + 1) (Forest.ancestor_refl p) habove
        (by omega) with
        ⟨hok, hpath⟩ | ⟨u, hstop, hu⟩ | ⟨-, b, hb, hmissing⟩
      · refine ⟨p, blocksToReconcile ++ [p], s.parkIfForksFinalized p,
          ?_, hpark, ?_, usable_of_path hs hpath, ?_⟩
        · simp only [findMostWorkLoop, hbest, hok]
        · rw [hcandidates]
          exact hmem
        · rw [hcandidates]
          exact hmax
      · rcases discard_spec hu with ⟨hdiscard, hgone⟩
        have hmarks := hpark.trans hdiscard
        have hshorter : ((s.parkIfForksFinalized p).discard p u).setBlockIndexCandidates.length <
            s.setBlockIndexCandidates.length := by
          apply Nat.lt_of_le_of_ne hmarks.sublist.length_le
          intro heq
          rw [hmarks.sublist.eq_of_length heq] at hgone
          exact hgone hmem
        rcases ih (hs.marks hmarks) (by omega) (blocksToReconcile ++ [p]) with
          ⟨best, looked, s', hloop, hrest, hin, husable, hworst⟩
        refine ⟨best, looked, s', ?_, hmarks.trans hrest, hin,
          (hmarks.usable_iff best).mp husable, hworst⟩
        simp only [findMostWorkLoop, hbest, hstop]
        exact hloop
      · rw [hs.downloaded p hmem b hb] at hmissing
        cases hmissing

/--
Without automatic unparking the search ends with the best usable candidate, and
every candidate it removes on the way is not usable.
-/
theorem findMostWorkChain_returns_best {s : Chainstate tree} (hs : s.Searchable)
    {rounds : Nat} (hrounds : s.setBlockIndexCandidates.length < rounds)
    (blocksToReconcile : List Ptr) :
    exists best looked s',
      findMostWorkChain rounds s blocksToReconcile false = .ok (some best, looked, s') ∧
      best ∈ s.setBlockIndexCandidates ∧ s.Usable best ∧
      (forall p, p ∈ s.setBlockIndexCandidates -> s.Usable p -> p ≠ best ->
        tree.workComparator p best = true) ∧
      (forall p, p ∈ s'.setBlockIndexCandidates -> p ∈ s.setBlockIndexCandidates) ∧
      (forall p, p ∈ s.setBlockIndexCandidates -> p ∉ s'.setBlockIndexCandidates -> ¬ s.Usable p) ∧
      (forall p, p ∈ s.setBlockIndexCandidates -> tree.Ancestor p best ->
        s.Usable p -> p ∈ s'.setBlockIndexCandidates) := by
  rcases findMostWorkLoop_spec rounds hs hrounds blocksToReconcile with
    ⟨best, looked, s', hloop, hmarks, hin, husable, hmax⟩
  refine ⟨best, looked, s', hloop, hmarks.sublist.subset hin, husable, ?_, ?_, ?_, ?_⟩
  · intro p hp hup hne
    have hnot := hmax p (hmarks.mem_of_usable hp hup)
    rcases tree.workComparator_total hne with h | h
    · exact h
    · rw [hnot] at h
      cases h
  · intro p hp
    exact hmarks.sublist.subset hp
  · intro p hp hout
    exact hmarks.removed hp hout
  · intro p hp _ hup
    exact hmarks.mem_of_usable hp hup

/-- One round without automatic unparking: there is no candidate, or the best one is found, or it
is given up. -/
theorem findMostWorkLoop_cases {rounds : Nat} {found : Option Ptr} {blocks looked : List Ptr}
    (h : findMostWorkLoop false (rounds + 1) blocks s = .ok (found, looked, s')) :
    (found = none ∧ s' = s) ∨ exists p,
      (found = some p ∧ s' = s.parkIfForksFinalized p ∧ s'.Clear p) ∨
      exists u : Unusable, u.Stops (s.parkIfForksFinalized p) p ∧
        findMostWorkLoop false rounds (blocks ++ [p]) ((s.parkIfForksFinalized p).discard p u) =
          .ok (found, looked, s') := by
  unfold findMostWorkLoop at h
  cases hbest : bestOf tree s.setBlockIndexCandidates with
  | none =>
    rw [hbest] at h
    cases h
    exact .inl ⟨rfl, rfl⟩
  | some p =>
    simp only [hbest] at h
    have hfork := (s.parkIfForksFinalized p).m_chain.findFork_isFork p
    rcases testPath_cases (s.parkIfForksFinalized p) hfork (2 * (tree.nHeight p + 1) + 1)
      (Forest.ancestor_refl p) (fun f hf => (hfork.onChain hf).right) (by omega) with
      ⟨hok, hpath⟩ | ⟨u, hstop, hu⟩ | ⟨hfail, -⟩
    · rw [hok] at h
      cases h
      exact .inr ⟨p, .inl ⟨rfl, rfl, hpath⟩⟩
    · rw [hstop] at h
      exact .inr ⟨p, .inr ⟨u, hu, h⟩⟩
    · rw [hfail] at h
      cases h

/-!
## Automatic unparking

With it, flags are cleared and candidates are added, but not the chain or the finalized block
are changed.
-/

theorem sameChain_updateFlagsForBlock {base : Option Ptr} {f : BlockStatus -> BlockStatus}
    {changed : Bool} (h : s.updateFlagsForBlock base p f = .ok (changed, s')) : SameChain s s' := by
  unfold updateFlagsForBlock at h
  dsimp only at h
  repeat' split at h
  all_goals cases h <;> exact ⟨rfl, rfl⟩

theorem sameChain_updateFlagsAncestors {f : BlockStatus -> BlockStatus} {rounds : Nat}
    {q : Option Ptr} {deepest deepest' : Ptr}
    (h : updateFlagsAncestors f rounds q deepest s = .ok (deepest', s')) : SameChain s s' := by
  induction rounds generalizing q deepest s with
  | zero =>
    cases h
    exact ⟨rfl, rfl⟩
  | succ rounds ih =>
    cases q with
    | none =>
      cases h
      exact ⟨rfl, rfl⟩
    | some q =>
      rcases bind_eq_ok.mp h with ⟨_, hblock, hrest⟩
      exact (sameChain_updateFlagsForBlock hblock).trans (ih hrest)

theorem sameChain_updateFlagsBelow {deepest : Ptr} {fChild fAncestor : BlockStatus -> BlockStatus}
    {blocks : List Ptr}
    (h : updateFlagsBelow p deepest fChild fAncestor blocks s = .ok s') : SameChain s s' := by
  induction blocks generalizing s with
  | nil =>
    cases h
    exact ⟨rfl, rfl⟩
  | cons q rest ih =>
    rcases bind_eq_ok.mp h with ⟨_, hchild, h⟩
    rcases bind_eq_ok.mp h with ⟨_, hancestor, hrest⟩
    exact ((sameChain_updateFlagsForBlock hchild).trans
      (sameChain_updateFlagsForBlock hancestor)).trans (ih hrest)

theorem sameChain_unparkBlock (h : s.unparkBlock p = .ok s') : SameChain s s' := by
  rcases bind_eq_ok.mp h with ⟨_, hancestors, hbelow⟩
  have hkept := sameChain_updateFlagsBelow hbelow
  exact (sameChain_updateFlagsAncestors hancestors).trans ⟨hkept.chain, hkept.finalized⟩

variable {fAutoUnpark : Bool} {fork : Option Ptr} {rounds : Nat}

theorem sameChain_testPath {x : Option Ptr} {u : Option Unusable}
    (h : testPath fAutoUnpark p fork rounds x s = .ok (u, s')) : SameChain s s' := by
  induction rounds generalizing x s with
  | zero => cases h
  | succ rounds ih =>
    cases x with
    | none =>
      cases h
      exact ⟨rfl, rfl⟩
    | some x =>
      unfold testPath at h
      dsimp only at h
      -- Every branch stops or goes on, and some unpark the block before that.
      repeat' split at h
      all_goals first
        | exact ih h
        | exact (sameChain_unparkBlock ‹_›).trans (ih h)
        | cases h <;> first | exact ⟨rfl, rfl⟩ | exact sameChain_unparkBlock ‹_›

theorem sameChain_removeChain (u : Unusable) (rounds : Nat) (q : Option Ptr)
    (s : Chainstate tree) : SameChain s (removeChain u rounds q s) := by
  induction rounds generalizing q s with
  | zero => exact ⟨rfl, rfl⟩
  | succ rounds ih =>
    cases q with
    | none => exact ⟨rfl, rfl⟩
    | some q =>
      unfold removeChain
      split
      · exact ⟨rfl, rfl⟩
      · refine SameChain.trans ?_ (ih (tree.pprev q) (markFailed u s q))
        unfold markFailed
        split <;> exact ⟨rfl, rfl⟩

/-- A parked candidate without the work to be unparked is given up. -/
theorem testPath_parked (hparked : (s.nStatus p).isOnParkedChain = true) (hfork : fork ≠ some p)
    (hwork : fAutoUnpark = true -> exists tip f, s.m_chain.tip = some tip ∧ fork = some f ∧
      tree.nChainWork p ≤ requiredWork tree tip f) :
    testPath fAutoUnpark p fork rounds (some p) s ≠ .ok (none, s') := by
  cases rounds with
  | zero => nofun
  | succ rounds =>
    unfold testPath
    rw [if_neg hfork]
    split
    · nofun
    cases fAutoUnpark with
    | false => simp [hparked]
    | true =>
      rcases hwork rfl with ⟨tip, f, htip, rfl, hle⟩
      simp [hparked, htip, Nat.not_lt.mpr hle]

/-!
A tree with a branch that competes with the finalized block, and above the tip
a block without data.  All other blocks are above the first one.
-/

def forkTree : BlockTree where
  parent
    | 0 => none
    | 3 => some 2
    | 4 => some 1
    | 5 => some 4
    | _ => some 0
  depth
    | 0 => 0
    | 3 => 2
    | 4 => 2
    | 5 => 3
    | _ => 1
  depth_parent := by
    intro x y h
    split at h <;> cases h <;> simp_all
  depth_root := by
    intro x h
    split at h <;> cases h
    rfl
  pskip
    | 3 => some 0
    | 4 => some 0
    | 5 => some 1
    | _ => none
  nChainWork
    | 1 => 1
    | 2 => 2
    | 3 => 10
    | 4 => 4
    | 5 => 11
    | _ => 0
  nSequenceId := fun _ => 0
  nChainTx := fun _ => 1
  pskip_spec := by
    intro p q h
    split at h <;> cases h
    · exact ⟨.tail (.tail .refl rfl) rfl, rfl⟩
    · exact ⟨.tail (.tail .refl rfl) rfl, rfl⟩
    · exact ⟨.tail (.tail .refl rfl) rfl, rfl⟩

def forkState : Chainstate forkTree where
  m_block_index := [0, 1, 2, 3, 4, 5]
  nStatus := fun p =>
    { validity := .TRANSACTIONS
      hasData := p != 5
      failed := false
      failedParent := false
      parked := false
      parkedParent := false }
  m_chain := CChain.empty.setTip 1
  setBlockIndexCandidates := [1, 3, 4, 5]
  m_avalancheFinalizedBlockIndex := some 1
  m_best_invalid := none
  m_best_parked := none
  m_blocks_unlinked := []

theorem forkState_searchable : forkState.Searchable where
  tip := ⟨1, rfl, by decide⟩
  finalized := by
    rintro f ⟨⟩
    decide
  downloaded := fun _ _ _ _ => rfl

theorem findMostWorkChain_returns_best_forkState :
    forkState.Searchable ∧
    exists best looked s',
      findMostWorkChain 5 forkState [] false = .ok (some best, looked, s') ∧
      best ∈ forkState.setBlockIndexCandidates ∧ forkState.Usable best ∧
      (forall p, p ∈ forkState.setBlockIndexCandidates -> forkState.Usable p ->
        p ≠ best -> forkTree.workComparator p best = true) ∧
      (forall p, p ∈ s'.setBlockIndexCandidates -> p ∈ forkState.setBlockIndexCandidates) ∧
      (forall p, p ∈ forkState.setBlockIndexCandidates ->
        p ∉ s'.setBlockIndexCandidates -> ¬ forkState.Usable p) ∧
      (forall p, p ∈ forkState.setBlockIndexCandidates ->
        forkTree.Ancestor p best -> forkState.Usable p -> p ∈ s'.setBlockIndexCandidates) :=
  ⟨forkState_searchable, findMostWorkChain_returns_best forkState_searchable (by decide) []⟩

/-- The finalized branch's block with data wins over more work elsewhere. -/
example : (findMostWorkChain 5 forkState [] false).map
        (fun r => (r.1, r.2.1, r.2.2.setBlockIndexCandidates)) =
      .ok (some 4, [5, 3, 4], [1, 4]) := by
  rfl

/-- The active chain is the other branch, and its tip is finalized. -/
def rivalState : Chainstate forkTree :=
  { forkState with
    m_chain := CChain.empty.setTip 3
    m_avalancheFinalizedBlockIndex := some 3 }

end Chainstate

/-- Whatever the chain was before, the fork of a block with a chain that was set to a tip is
the one that the skip pointers lead to. -/
theorem CChain.findFork_setTip {tree : BlockTree} (chain : CChain tree) {tip p : Ptr}
    (hcommon : exists a, tree.Ancestor a tip ∧ tree.Ancestor a p) :
    (chain.setTip tip).findFork p = tree.lastCommonAncestor tip p := by
  rcases tree.lastCommonAncestor_spec hcommon with ⟨fork, hlast, hfork⟩
  have hfound := (chain.setTip tip).findFork_isFork p
  rcases hfound.highest hfork.right ((chain.contains_setTip_iff tip fork).mpr hfork.left)
    with ⟨f, hf, hbelow⟩
  rcases hfound.onChain hf with ⟨hon, hanc⟩
  have habove := hfork.last ((chain.contains_setTip_iff tip f).mp hon) hanc
  rw [hf, hlast, habove.antisymm hbelow]

theorem CChain.findFork_setTip_forkState :
    (Chainstate.forkState.m_chain.setTip 3).findFork 5 =
      Chainstate.forkTree.lastCommonAncestor 3 5 :=
  findFork_setTip _ ⟨0, (Chainstate.forkTree.getAncestor_eq_self_iff (by decide)).mp rfl,
    (Chainstate.forkTree.getAncestor_eq_self_iff (by decide)).mp rfl⟩

end ECash.Validation
