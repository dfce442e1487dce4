import ECash.Validation.FindMostWork

/-!
# Activating the best chain

The loops that move the active chain to the most-work candidate.  What the node
finds out about a block when it reads, checks and applies it is a parameter, and
so are the answers of the filter that remembers which blocks had their parking
policies checked.
-/

namespace ECash.Validation

/-- What comes of reading a block and connecting it to the coins view. -/
inductive ConnectBlockResult where
  | readFailed
  | invalid (mutated : Bool)
  | failed
  | valid (flushed : Bool)
deriving DecidableEq, Repr

/-- The filter is a rolling one: it may forget, and it may answer yes wrongly. -/
structure Rules where
  connectBlock : Ptr -> ConnectBlockResult
  disconnectBlock : Ptr -> Bool
  policy : Ptr -> Bool
  filterInsert : (Ptr -> Bool) -> Ptr -> (Ptr -> Bool)
  isInitialBlockDownload : Bool
  shutdownRequested : Option Ptr -> Bool

/-- A notification that a block was connected, with its status at that time. -/
structure Connected where
  pindex : Ptr
  nStatus : BlockStatus
deriving DecidableEq, Repr

/-- A state from which a step towards a target was made. -/
structure StepStart (tree : BlockTree) where
  cs : Chainstate tree
  target : Ptr

/-- The chain state, the policy filter, and the record of the run so far. -/
structure ActiveState (tree : BlockTree) where
  cs : Chainstate tree
  m_filterParkingPoliciesApplied : Ptr -> Bool
  blockConnected : List Connected
  steps : List (StepStart tree)

namespace Chainstate

variable {tree : BlockTree}

def isBlockAvalancheFinalized (s : Chainstate tree) (p : Ptr) : Bool :=
  match s.m_avalancheFinalizedBlockIndex with
  | none => false
  | some finalized => tree.getAncestor finalized (tree.nHeight p) == some p

def invalidChainFound (s : Chainstate tree) (p : Ptr) : Chainstate tree :=
  { s with
    m_best_invalid := moreWork tree s.m_best_invalid p
    m_avalancheFinalizedBlockIndex :=
      if s.isBlockAvalancheFinalized p then tree.pprev p
      else s.m_avalancheFinalizedBlockIndex }

def invalidBlockFound (s : Chainstate tree) (p : Ptr) (mutated : Bool) :
    Chainstate tree :=
  if mutated then s
  else (s.setStatus p { s.nStatus p with failed := true }).invalidChainFound p

def pruneBlockIndexCandidates (s : Chainstate tree) (tip : Ptr) : Chainstate tree :=
  { s with
    setBlockIndexCandidates :=
      s.setBlockIndexCandidates.filter fun p => !tree.workComparator p tip }

end Chainstate

namespace ActiveState

variable {tree : BlockTree}

/-!
## One block
-/

inductive TipResult where
  | done
  | invalid (mutated : Bool)
  | policyViolated
  | systemError
  | assertFailed
deriving DecidableEq, Repr

/-- The state once the policies of a block are checked, and whether it passed. -/
def checkPolicies (rules : Rules) (s : ActiveState tree) (p : Ptr) :
    Bool × ActiveState tree :=
  if !rules.isInitialBlockDownload && !s.m_filterParkingPoliciesApplied p then
    let s :=
      { s with
        m_filterParkingPoliciesApplied :=
          rules.filterInsert s.m_filterParkingPoliciesApplied p }
    if rules.policy p then (true, s)
    else
      (false, { s with cs := s.cs.setStatus p ((s.cs.nStatus p).withParked true) })
  else (true, s)

def setTip (s : ActiveState tree) (p : Ptr) : ActiveState tree :=
  { s with cs := { s.cs with m_chain := s.cs.m_chain.setTip p } }

def connectTip (rules : Rules) (s : ActiveState tree) (p : Ptr) :
    TipResult × ActiveState tree :=
  if tree.pprev p ≠ s.cs.m_chain.tip then (.assertFailed, s)
  else
    match rules.connectBlock p with
    | .readFailed => (.systemError, s)
    | .failed => (.systemError, s)
    | .invalid mutated => (.invalid mutated, { s with cs := s.cs.invalidBlockFound p mutated })
    | .valid flushed =>
      match checkPolicies rules s p with
      | (false, s) => (.policyViolated, s)
      | (true, s) =>
        if !flushed then (.systemError, s)
        else
          (.done,
            { s.setTip p with
              blockConnected := s.blockConnected ++ [{ pindex := p, nStatus := s.cs.nStatus p }] })

def disconnectTip (rules : Rules) (s : ActiveState tree) :
    TipResult × ActiveState tree :=
  match s.cs.m_chain.tip with
  | none => (.assertFailed, s)
  | some pindexDelete =>
    match tree.pprev pindexDelete with
    | none => (.assertFailed, s)
    | some prev =>
      if rules.disconnectBlock pindexDelete then
        (.done, s.setTip prev)
      else (.systemError, s)

/-!
## One step
-/

/-- How a step ended; `stopped` carries whether an invalid block was found. -/
inductive StepResult where
  | more
  | stopped (fInvalidFound : Bool)
  | systemError
  | assertFailed
deriving DecidableEq, Repr

def disconnectToFork (rules : Rules) (pindexFork : Option Ptr) :
    Nat -> ActiveState tree -> StepResult × ActiveState tree
  | 0, s => (.more, s)
  | rounds + 1, s =>
    match s.cs.m_chain.tip with
    | none => (.more, s)
    | some tip =>
      if pindexFork = some tip then (.more, s)
      else
        match disconnectTip rules s with
        | (.done, s) => disconnectToFork rules pindexFork rounds s
        | (.assertFailed, s) => (.assertFailed, s)
        | (_, s) => (.systemError, s)

/-- The blocks from `pindexIter` down to, but without, height `nHeight`, lowest first. -/
def blocksToConnect (tree : BlockTree) (nHeight : Int) :
    Nat -> Option Ptr -> List Ptr -> List Ptr
  | 0, _, above => above
  | _ + 1, none, above => above
  | rounds + 1, some p, above =>
    if (tree.nHeight p : Int) = nHeight then above
    else blocksToConnect tree nHeight rounds (tree.pprev p) (p :: above)

/--
Connect blocks one after another, until one fails or the chain has more work
than at the start of the step.
-/
def connectBlocks (rules : Rules) (pindexOldTip : Option Ptr) (lowest : Ptr) :
    List Ptr -> ActiveState tree -> StepResult × ActiveState tree
  | [], s => (.more, s)
  | p :: rest, s =>
    match connectTip rules s p with
    | (.done, s) =>
      let s := { s with cs := s.cs.pruneBlockIndexCandidates p }
      if s.cs.setBlockIndexCandidates.isEmpty then (.assertFailed, s)
      else
        match pindexOldTip with
        | none => (.stopped false, s)
        | some old =>
          if tree.nChainWork p > tree.nChainWork old then
            (.stopped false, s)
          else connectBlocks rules pindexOldTip lowest rest s
    | (.invalid mutated, s) =>
      (.stopped true,
        if mutated then s else { s with cs := s.cs.invalidChainFound lowest })
    | (.policyViolated, s) => (.stopped false, s)
    | (.systemError, s) => (.systemError, s)
    | (.assertFailed, s) => (.assertFailed, s)

/-- Connect the way to the target, at most 32 blocks at a time. -/
def connectPath (rules : Rules) (pindexOldTip : Option Ptr) (pindexMostWork : Ptr) :
    Nat -> Int -> ActiveState tree -> StepResult × ActiveState tree
  | 0, _, s => (.stopped false, s)
  | rounds + 1, nHeight, s =>
    if nHeight = tree.nHeight pindexMostWork then (.stopped false, s)
    else
      let nTargetHeight := min (nHeight + 32) (tree.nHeight pindexMostWork)
      let vpindexToConnect := blocksToConnect tree nHeight
        (tree.nHeight pindexMostWork + 1)
        (tree.getAncestor pindexMostWork nTargetHeight) []
      match connectBlocks rules pindexOldTip
          (vpindexToConnect.headD pindexMostWork) vpindexToConnect s with
      | (.more, s) => connectPath rules pindexOldTip pindexMostWork rounds nTargetHeight s
      | (result, s) => (result, s)

def forkHeight (tree : BlockTree) (pindexFork : Option Ptr) : Int :=
  match pindexFork with
  | none => -1
  | some fork => tree.nHeight fork

def activateBestChainStep (rules : Rules) (s : ActiveState tree)
    (pindexMostWork : Ptr) : StepResult × ActiveState tree :=
  let s :=
    { s with
      steps := s.steps ++ [{ cs := s.cs, target := pindexMostWork }] }
  let pindexOldTip := s.cs.m_chain.tip
  let pindexFork := s.cs.m_chain.findFork pindexMostWork
  match disconnectToFork rules pindexFork (s.cs.m_chain.vChain.length + 1) s with
  | (.more, s) =>
    connectPath rules pindexOldTip pindexMostWork
      (tree.nHeight pindexMostWork + 2) (forkHeight tree pindexFork) s
  | (result, s) => (result, s)

/-!
## The run

The target is kept from one step to the next and is searched again only once it
has been dropped.
-/

inductive RunResult where
  | finished
  | systemError
  | aborted
  | outOfRounds
deriving DecidableEq, Repr

/-- The variables of the run that outlive an iteration. -/
structure Progress (tree : BlockTree) where
  s : ActiveState tree
  pindexMostWork : Option Ptr
  pindexNewTip : Option Ptr
  blocks_connected : Bool

def pickTarget (fAutoUnpark : Bool) (s : ActiveState tree)
    (pindexMostWork : Option Ptr) :
    Except FindError (Option Ptr × ActiveState tree) :=
  match pindexMostWork with
  | some target => .ok (some target, s)
  | none =>
    match s.cs.findMostWorkChain (s.cs.setBlockIndexCandidates.length + 1) []
        fAutoUnpark with
    | .error e => .error e
    | .ok (found, _, cs) => .ok (found, { s with cs })

/-- Whether the chain is still worse than it was when the lock was taken. -/
def worseThanStart (s : ActiveState tree) (starting_tip : Option Ptr) : Bool :=
  match s.cs.m_chain.tip, starting_tip with
  | none, _ => true
  | some _, none => false
  | some tip, some start => tree.workComparator tip start

/-- The steps made under one lock; `none` when they ended without an error. -/
def stepsUnderLock (rules : Rules) (fAutoUnpark : Bool) (starting_tip : Option Ptr) :
    Nat -> Progress tree -> Option RunResult × Progress tree
  | 0, r => (some .outOfRounds, r)
  | rounds + 1, r =>
    match pickTarget fAutoUnpark r.s r.pindexMostWork with
    | .error _ => (some .aborted, r)
    | .ok (none, s) => (none, { r with s, pindexMostWork := none })
    | .ok (some target, s) =>
      if s.cs.m_chain.tip = some target then
        (none, { r with s, pindexMostWork := some target })
      else
        match activateBestChainStep rules s target with
        | (.systemError, s) => (some .systemError, { r with s })
        | (.assertFailed, s) => (some .aborted, { r with s })
        | (result, s) =>
          let fInvalidFound := result == .stopped true
          let r : Progress tree :=
            { s
              pindexMostWork :=
                if fInvalidFound || (s.cs.nStatus target).parked then none
                else some target
              pindexNewTip := s.cs.m_chain.tip
              blocks_connected := true }
          if worseThanStart s starting_tip then
            stepsUnderLock rules fAutoUnpark starting_tip rounds r
          else (none, r)

def runLoop (rules : Rules) (fAutoUnpark : Bool) :
    Nat -> Progress tree -> RunResult × Progress tree
  | 0, r => (.outOfRounds, r)
  | rounds + 1, r =>
    match stepsUnderLock rules fAutoUnpark r.s.cs.m_chain.tip rounds
        { r with blocks_connected := false } with
    | (some result, r) => (result, r)
    | (none, r) =>
      if !r.blocks_connected then (.finished, r)
      else if rules.shutdownRequested r.pindexNewTip then (.finished, r)
      else if r.pindexNewTip = r.pindexMostWork then (.finished, r)
      else runLoop rules fAutoUnpark rounds r

/-- A run from a chain state, with a bound on the rounds of its loops. -/
def activateBestChain (rules : Rules) (fAutoUnpark : Bool) (rounds : Nat)
    (cs : Chainstate tree) (filter : Ptr -> Bool) : RunResult × ActiveState tree :=
  let start : ActiveState tree :=
    { cs
      m_filterParkingPoliciesApplied := filter
      blockConnected := []
      steps := [] }
  match runLoop rules fAutoUnpark rounds
      { s := start
        pindexMostWork := none
        pindexNewTip := none
        blocks_connected := false } with
  | (result, r) => (result, r.s)

end ActiveState

end ECash.Validation
