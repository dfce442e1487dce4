import ECash.Validation.Chain
import Mathlib.Logic.Function.Basic

/-!
# Choosing the best chain

The search for the most-work candidate.  It takes the best candidate, walks down
to the active chain, and gives up on the candidate when it meets a block that is
invalid, parked or without data.  What it gives up on is removed from the
candidates and the search starts again.
-/

namespace ECash.Validation

/--
The part of the chain state the search reads and writes.  Candidates are a set;
its order is that of the work comparator.
-/
structure Chainstate (tree : BlockTree) where
  m_block_index : List Ptr
  nStatus : Ptr -> BlockStatus
  m_chain : CChain tree
  setBlockIndexCandidates : List Ptr
  m_avalancheFinalizedBlockIndex : Option Ptr
  m_best_invalid : Option Ptr
  m_best_parked : Option Ptr
  m_blocks_unlinked : List (Option Ptr × Ptr)

inductive FindError where
  | assertTxsDownloaded
  | nullTip
  | outOfRounds
deriving DecidableEq, Repr

namespace Chainstate

variable {tree : BlockTree}

def setStatus (s : Chainstate tree) (p : Ptr) (status : BlockStatus) : Chainstate tree :=
  { s with nStatus := Function.update s.nStatus p status }

def eraseCandidate (s : Chainstate tree) (p : Ptr) : Chainstate tree :=
  { s with
    setBlockIndexCandidates := s.setBlockIndexCandidates.filter (· != p) }

def insertCandidate (s : Chainstate tree) (p : Ptr) : Chainstate tree :=
  { s with
    setBlockIndexCandidates :=
      if p ∈ s.setBlockIndexCandidates then s.setBlockIndexCandidates
      else p :: s.setBlockIndexCandidates }

/-- The last element of the candidate set: the one no other is better than. -/
def bestOf (tree : BlockTree) : List Ptr -> Option Ptr
  | [] => none
  | p :: rest =>
    match bestOf tree rest with
    | none => some p
    | some best => if tree.workComparator best p then some p else some best

/-!
## Unparking
-/

def updateFlagsForBlock (s : Chainstate tree) (pindexBase : Option Ptr) (p : Ptr)
    (f : BlockStatus -> BlockStatus) : Except FindError (Bool × Chainstate tree) :=
  let newStatus := f (s.nStatus p)
  let below := match pindexBase with
    | none => true
    | some base => tree.getAncestor p (tree.nHeight base) == some base
  if s.nStatus p != newStatus && below then
    let s := s.setStatus p newStatus
    if newStatus.isValid .TRANSACTIONS && tree.haveTxsDownloaded p then
      match s.m_chain.tip with
      | none => .error .nullTip
      | some tip =>
        if tree.workComparator tip p then .ok (true, s.insertCandidate p)
        else .ok (true, s)
    else .ok (true, s)
  else .ok (false, s)

/-- The loop over the block and its ancestors, with the deepest changed so far. -/
def updateFlagsAncestors (f : BlockStatus -> BlockStatus) :
    Nat -> Option Ptr -> Ptr -> Chainstate tree -> Except FindError (Ptr × Chainstate tree)
  | 0, _, deepest, s => .ok (deepest, s)
  | _ + 1, none, deepest, s => .ok (deepest, s)
  | rounds + 1, some p, deepest, s => do
      let (changed, s) <- s.updateFlagsForBlock none p f
      updateFlagsAncestors f rounds (tree.pprev p) (if changed then p else deepest) s

def updateFlagsBelow (pindex deepest : Ptr)
    (fChild fAncestorWasChanged : BlockStatus -> BlockStatus) :
    List Ptr -> Chainstate tree -> Except FindError (Chainstate tree)
  | [], s => .ok s
  | p :: rest, s => do
      let (_, s) <- s.updateFlagsForBlock (some pindex) p fChild
      let (_, s) <- s.updateFlagsForBlock (some deepest) p fAncestorWasChanged
      updateFlagsBelow pindex deepest fChild fAncestorWasChanged rest s

def unparkBlockImpl (s : Chainstate tree) (pindex : Ptr) (fClearChildren : Bool) :
    Except FindError (Chainstate tree) := do
  let (deepest, s) <- updateFlagsAncestors BlockStatus.withClearedParkedFlags
    (tree.nHeight pindex + 1) (some pindex) pindex s
  let reset := match s.m_best_parked with
    | none => none
    | some best =>
      if tree.getAncestor best (tree.nHeight deepest) == some deepest then none
      else some best
  updateFlagsBelow pindex deepest (fun status =>
      if fClearChildren then status.withClearedParkedFlags
      else status.withParkedParent false) (fun status => status.withParkedParent false)
    s.m_block_index { s with m_best_parked := reset }

def unparkBlock (s : Chainstate tree) (pindex : Ptr) : Except FindError (Chainstate tree) :=
  s.unparkBlockImpl pindex false

/-!
## Walking down a candidate
-/

/--
The work a parked chain needs to be unparked: twice what the active chain has
since the fork, with a smaller penalty for the first three blocks.
-/
def requiredWork (tree : BlockTree) (pindexTip pindexFork : Ptr) : Nat :=
  let work := tree.nChainWork pindexTip
  let half (extra : Ptr) := (tree.nChainWork extra - tree.nChainWork pindexFork) / 2
  match tree.nHeight pindexTip - tree.nHeight pindexFork with
  | 3 => work + half ((tree.pprev pindexTip).getD pindexTip)
  | 2 => work + half ((tree.pprev pindexTip).getD pindexTip)
  | 1 => work + half pindexTip
  | _ => work + (tree.nChainWork pindexTip - tree.nChainWork pindexFork)

/-- The block at which a candidate is given up, and why. -/
structure Unusable where
  pindexTest : Ptr
  fInvalidChain : Bool
  fParkedChain : Bool
  fMissingData : Bool
deriving DecidableEq, Repr

/-- The loop from the candidate down to the fork; `none` when all is usable. -/
def testPath (fAutoUnpark : Bool) (pindexNew : Ptr) (pindexFork : Option Ptr) :
    Nat -> Option Ptr -> Chainstate tree -> Except FindError (Option Unusable × Chainstate tree)
  | 0, _, _ => .error .outOfRounds
  | _ + 1, none, s => .ok (none, s)
  | rounds + 1, some pindexTest, s =>
    if pindexFork = some pindexTest then .ok (none, s)
    else if !tree.haveTxsDownloaded pindexTest && tree.nHeight pindexTest != 0 then
      .error .assertTxsDownloaded
    else
      let fParkedChain := (s.nStatus pindexTest).isOnParkedChain
      -- The checks that follow unparking, on the state it leaves.
      let check (fParkedChain : Bool) (s : Chainstate tree) :=
        let fInvalidChain := (s.nStatus pindexTest).isInvalid
        let fMissingData := !(s.nStatus pindexTest).hasData
        if fInvalidChain || fParkedChain || fMissingData then
          .ok (some { pindexTest, fInvalidChain, fParkedChain, fMissingData }, s)
        else
          testPath fAutoUnpark pindexNew pindexFork rounds (tree.pprev pindexTest) s
      if fAutoUnpark && fParkedChain then
        match s.m_chain.tip, pindexFork with
        | some pindexTip, some fork =>
          if tree.nChainWork pindexNew > requiredWork tree pindexTip fork then
            match s.unparkBlock pindexTest with
            | .error e => .error e
            | .ok s => check false s
          else check fParkedChain s
        | _, _ =>
          match s.unparkBlock pindexTest with
          | .error e => .error e
          | .ok s => testPath fAutoUnpark pindexNew pindexFork rounds (some pindexTest) s
      else check fParkedChain s

def markFailed (u : Unusable) (s : Chainstate tree) (pindexFailed : Ptr) : Chainstate tree :=
  let marked :=
    if u.fInvalidChain || u.fParkedChain then
      s.setStatus pindexFailed
        (((s.nStatus pindexFailed).withFailedParent u.fInvalidChain).withParkedParent
          u.fParkedChain)
    else
      { s with
        m_blocks_unlinked :=
          s.m_blocks_unlinked ++ [(tree.pprev pindexFailed, pindexFailed)] }
  marked.eraseCandidate pindexFailed

def removeChain (u : Unusable) : Nat -> Option Ptr -> Chainstate tree -> Chainstate tree
  | 0, _, s => s
  | _ + 1, none, s => s
  | rounds + 1, some pindexFailed, s =>
    if pindexFailed = u.pindexTest then s
    else removeChain u rounds (tree.pprev pindexFailed) (markFailed u s pindexFailed)

/-- The better of a remembered block and a candidate, by work alone. -/
def moreWork (tree : BlockTree) (best : Option Ptr) (pindexNew : Ptr) : Option Ptr :=
  match best with
  | none => some pindexNew
  | some p => if tree.nChainWork pindexNew > tree.nChainWork p then some pindexNew else some p

/-- Remember the best invalid and the best parked candidate. -/
def recordBest (s : Chainstate tree) (pindexNew : Ptr) (u : Unusable) : Chainstate tree :=
  { s with
    m_best_invalid :=
      if u.fInvalidChain then moreWork tree s.m_best_invalid pindexNew
      else s.m_best_invalid
    m_best_parked :=
      if u.fParkedChain then moreWork tree s.m_best_parked pindexNew
      else s.m_best_parked }

def discard (s : Chainstate tree) (pindexNew : Ptr) (u : Unusable) : Chainstate tree :=
  removeChain u (tree.nHeight pindexNew + 1) (some pindexNew)
    ((s.eraseCandidate u.pindexTest).recordBest pindexNew u)

/-- Park a candidate that would reorganize an avalanche-finalized block. -/
def parkIfForksFinalized (s : Chainstate tree) (pindexNew : Ptr) : Chainstate tree :=
  match s.m_avalancheFinalizedBlockIndex with
  | none => s
  | some finalized =>
    if tree.areOnTheSameFork pindexNew finalized then s
    else s.setStatus pindexNew ((s.nStatus pindexNew).withParked true)

/-- The search; the result comes with the candidates it looked at. -/
def findMostWorkLoop (fAutoUnpark : Bool) :
    Nat -> List Ptr -> Chainstate tree -> Except FindError (Option Ptr × List Ptr × Chainstate tree)
  | 0, _, _ => .error .outOfRounds
  | rounds + 1, blocksToReconcile, s =>
    match bestOf tree s.setBlockIndexCandidates with
    | none => .ok (none, blocksToReconcile, s)
    | some pindexNew =>
      let s := s.parkIfForksFinalized pindexNew
      let pindexFork := s.m_chain.findFork pindexNew
      match testPath fAutoUnpark pindexNew pindexFork
          (2 * (tree.nHeight pindexNew + 1) + 1) (some pindexNew) s with
      | .error e => .error e
      | .ok (none, s) => .ok (some pindexNew, blocksToReconcile ++ [pindexNew], s)
      | .ok (some u, s) =>
        findMostWorkLoop fAutoUnpark rounds (blocksToReconcile ++ [pindexNew])
          (s.discard pindexNew u)

/-- `FindMostWorkChain`, with a bound on the number of candidates looked at. -/
def findMostWorkChain (rounds : Nat) (s : Chainstate tree)
    (blocksToReconcile : List Ptr) (fAutoUnpark : Bool) :
    Except FindError (Option Ptr × List Ptr × Chainstate tree) :=
  findMostWorkLoop fAutoUnpark rounds blocksToReconcile s

end Chainstate

end ECash.Validation
