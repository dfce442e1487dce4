import ECash.Avalanche.ProofPool

/-!
# The peer manager

The peer manager keeps the registered proofs as peers, binds the connected nodes to
them and lays the connected peers out in slots, so that a peer is drawn with a
probability that grows with its score.
-/

namespace ECash.Avalanche

open Coins Foundation

abbrev PeerId := Nat

abbrev NodeId := Nat

/-- A slot without a peer (`NO_PEER`) is dead. -/
structure Slot where
  start : Nat
  score : Nat
  peerid : Option PeerId
deriving DecidableEq, Repr

namespace Slot

def withPeerId (slot : Slot) (peerid : Option PeerId) : Slot :=
  { slot with peerid }

def getStop (slot : Slot) : Nat :=
  slot.start + slot.score

def contains (slot : Slot) (value : Nat) : Bool :=
  slot.start ≤ value ∧ value < slot.getStop

def precedes (slot : Slot) (value : Nat) : Bool :=
  slot.getStop ≤ value

def follows (slot : Slot) (value : Nat) : Bool :=
  value < slot.start

end Slot

structure Peer where
  peerid : PeerId
  index : Nat := 2 ^ 32 - 1
  nodeCount : Nat := 0
  proof : Proof
  hasFinalized : Bool := false
  registrationTime : Int
  nextPossibleConflictTime : Int
deriving DecidableEq, Repr

namespace Peer

def danglingTimeout : Int := 15 * 60

def getProofId (peer : Peer) : ProofId :=
  peer.proof.proofid

def getScore (peer : Peer) : Nat :=
  peer.proof.getScore

def setNodeCount (count : Nat) : Update Peer.peerid where
  apply peer := { peer with nodeCount := count }
  keeps _ := rfl

def setIndex (index : Nat) : Update Peer.peerid where
  apply peer := { peer with index }
  keeps _ := rfl

/-- The first node of a peer, which gets the slot at the index. -/
def connect (index : Nat) : Update Peer.peerid where
  apply peer := { peer with nodeCount := peer.nodeCount + 1, index }
  keeps _ := rfl

def delayConflicts (nextTime : Int) : Update Peer.peerid where
  apply peer :=
    { peer with nextPossibleConflictTime := max peer.nextPossibleConflictTime nextTime }
  keeps _ := rfl

def finalize : Update Peer.peerid where
  apply peer := { peer with hasFinalized := true }
  keeps _ := rfl

end Peer

structure Node where
  nodeid : NodeId
  peerid : PeerId
  nextRequestTime : Int
  avaproofsSent : Bool := false
deriving DecidableEq, Repr

namespace Node

def setPeerId (peerid : PeerId) : Update Node.nodeid where
  apply node := { node with peerid }
  keeps _ := rfl

def setNextRequestTime (timeout : Int) : Update Node.nodeid where
  apply node := { node with nextRequestTime := timeout }
  keeps _ := rfl

def latchAvaproofsSent : Update Node.nodeid where
  apply node := { node with avaproofsSent := true }
  keeps _ := rfl

end Node

structure PendingNode where
  proofid : ProofId
  nodeid : NodeId
deriving DecidableEq, Repr

inductive RegistrationMode where
  | default
  | forceAccept
deriving DecidableEq, Repr

inductive RejectionMode where
  | default
  | invalidate
deriving DecidableEq, Repr

inductive ProofRegistrationResult where
  | none
  | alreadyRegistered
  | immature
  | invalid
  | conflicting
  | rejected
  | cooldownNotElapsed
  | dangling
  | missingUtxo
deriving DecidableEq, Repr

structure ProofRegistrationState where
  result : ProofRegistrationResult
  rejectReason : String
deriving DecidableEq, Repr

def ProofRegistrationState.valid : ProofRegistrationState :=
  ⟨.none, ""⟩

def ProofRegistrationState.isValid (state : ProofRegistrationState) : Bool :=
  state.result = .none

/-- What the manager learns from outside. It looks once for every answer it needs
and may get another answer each time: the chain tip moves and time passes between
two checks of one proof. -/
structure World where
  verify : Nat -> Proof -> ProofValidationResult
  time : Nat -> Int
  steadyTime : Nat -> Int
  remotePresence : Nat -> ProofId -> Option Bool
  conflictingProofCooldown : Int
  setOrder : SetOrder

/-- The proof is found valid or immature. -/
abbrev World.Passes (w : World) (i : Nat) (proof : Proof) : Prop :=
  w.verify i proof = .none ∨ w.verify i proof = .immatureUtxo

/-- `readings` counts how often the manager has looked at the world. -/
structure PeerManager where
  slots : List Slot := []
  slotCount : Nat := 0
  fragmentation : Nat := 0
  nextPeerId : PeerId := 0
  peers : IndexedSet Peer.peerid := IndexedSet.empty
  validProofPool : ProofPool := ProofPool.empty
  conflictingProofPool : ProofPool := ProofPool.empty
  immatureProofPool : ProofPool := ProofPool.empty
  danglingProofPool : ProofPool := ProofPool.empty
  shareableProofs : ProofTree := .leaf none
  nodes : IndexedSet Node.nodeid := IndexedSet.empty
  needMoreNodes : Bool := false
  pendingNodes : IndexedSet PendingNode.nodeid := IndexedSet.empty
  totalPeersScore : Nat := 0
  connectedPeersScore : Nat := 0
  localProof : Option Proof
  readings : Nat := 0

abbrev Manager := StateT PeerManager (Except AssertionFailure)

namespace PeerManager

def observe {a : Type} (answer : Nat -> a) : Manager a := do
  let s ← get
  set { s with readings := s.readings + 1 }
  return answer s.readings

def AVALANCHE_MAX_IMMATURE_PROOFS : Nat := 4000

/-!
## Queries
-/

def findPeer (s : PeerManager) (id : ProofId) : Option Peer :=
  s.peers.items.find? fun peer => peer.getProofId = id

def isBoundToPeer (s : PeerManager) (id : ProofId) : Bool :=
  (s.findPeer id).isSome

def isImmature (s : PeerManager) (id : ProofId) : Bool :=
  s.immatureProofPool.containsProof id

def isInConflictingPool (s : PeerManager) (id : ProofId) : Bool :=
  s.conflictingProofPool.containsProof id

def isDangling (s : PeerManager) (id : ProofId) : Bool :=
  s.danglingProofPool.containsProof id

def getProof (s : PeerManager) (id : ProofId) : Option Proof :=
  match s.findPeer id with
  | some peer => some peer.proof
  | none =>
    match s.conflictingProofPool.getProof id with
    | some proof => some proof
    | none => s.immatureProofPool.getProof id

/-- `exists`: the proof is known and not dangling. -/
def existsProof (s : PeerManager) (id : ProofId) : Bool :=
  (s.getProof id).isSome

def isLocalProof (s : PeerManager) (id : ProofId) : Bool :=
  s.localProof.any fun proof => proof.proofid = id

def getNodeCount (s : PeerManager) : Nat :=
  s.nodes.items.length

/-!
## Slots and node counters
-/

/-- Give a peer its first node and a slot behind the others. -/
def allocate (s : PeerManager) (peer : Peer) : PeerManager :=
  { s with
    peers := s.peers.modify peer.peerid (Peer.connect s.slots.length)
    slots := s.slots ++ [⟨s.slotCount, peer.getScore, some peer.peerid⟩]
    slotCount := s.slotCount + peer.getScore
    connectedPeersScore := s.connectedPeersScore + peer.getScore }

def setNodeCount (s : PeerManager) (peerid : PeerId) (count : Nat) : PeerManager :=
  { s with peers := s.peers.modify peerid (Peer.setNodeCount count) }

def addNodeToPeer (peerid : PeerId) : Manager Bool := do
  let s ← get
  match s.peers.find? peerid with
  | none => throw .peerNotFound
  | some peer =>
    if 0 < peer.nodeCount then
      set (s.setNodeCount peerid (peer.nodeCount + 1))
      return true
    else
      set (s.allocate peer)
      return true

/-- The slot of a peer that has lost its last node: the last slot goes, another one
stays as a dead slot. -/
def freeSlot (s : PeerManager) (index : Nat) (slot : Slot) : PeerManager :=
  if index + 1 = s.slots.length then
    { s with
      slots := s.slots.dropLast
      slotCount := (s.slots.dropLast.getLast?.map Slot.getStop).getD 0
      connectedPeersScore := s.connectedPeersScore - slot.score }
  else
    { s with
      slots := s.slots.set index (slot.withPeerId none)
      fragmentation := s.fragmentation + slot.score
      connectedPeersScore := s.connectedPeersScore - slot.score }

def deallocate (peer : Peer) : Manager Unit := do
  let s ← get
  match s.slots[peer.index]? with
  | none => throw .slotIndexOutOfRange
  | some slot =>
    require (slot.score ≤ s.connectedPeersScore) .connectedScoreTooSmall
    set (s.freeSlot peer.index slot)

def unshare (id : ProofId) : Manager Unit := do
  let s ← get
  if s.isLocalProof id = true then return ()
  else
    let removed := s.shareableProofs.remove id
    require (removed.1.isSome = true) .proofNotShareable
    set { s with shareableProofs := removed.2 }

def removeNodeFromPeer (peerid : PeerId) (count : Nat) : Manager Bool := do
  let s ← get
  match s.peers.find? peerid with
  | none =>
    -- A node may have outlived its peer.
    return true
  | some peer =>
    require (count ≤ peer.nodeCount) .nodeCountTooSmall
    if count = 0 then return false
    else
      set (s.setNodeCount peerid (peer.nodeCount - count))
      if 0 < peer.nodeCount - count then return true
      else
        unshare peer.getProofId
        deallocate peer
        return true

/-!
## Nodes
-/

def rebindNode (s : PeerManager) (nodeid : NodeId) (peerid : PeerId) : PeerManager :=
  { s with nodes := s.nodes.modify nodeid (Node.setPeerId peerid) }

def bindNode (w : World) (peerid : PeerId) (nodeid : NodeId) : Manager Unit := do
  let s ← get
  match s.nodes.find? nodeid with
  | none =>
    let now ← observe w.steadyTime
    modify fun s => { s with
      nodes := s.nodes.insert { nodeid, peerid, nextRequestTime := now } }
  | some node =>
    set (s.rebindNode nodeid peerid)
    let success ← removeNodeFromPeer node.peerid 1
    require (success = true) .removeNodeFailed

def addOrUpdateNode (w : World) (peerid : PeerId) (nodeid : NodeId) : Manager Bool := do
  let s ← get
  match s.peers.find? peerid with
  | none => throw .peerNotFound
  | some peer =>
    bindNode w peerid nodeid
    let success ← addNodeToPeer peerid
    require (success = true) .addNodeFailed
    modify fun s => { s with
      pendingNodes := s.pendingNodes.erase nodeid
      danglingProofPool := s.danglingProofPool.removeProof peer.getProofId
      shareableProofs := s.shareableProofs.insert peer.proof }
    return true

def eraseNode (s : PeerManager) (nodeid : NodeId) : PeerManager :=
  { s with nodes := s.nodes.erase nodeid }

def removeNode (nodeid : NodeId) : Manager Bool := do
  let s ← get
  if s.pendingNodes.contains nodeid = true then
    set { s with pendingNodes := s.pendingNodes.erase nodeid }
    return true
  else
    match s.nodes.find? nodeid with
    | none => return false
    | some node =>
      set (s.eraseNode nodeid)
      let success ← removeNodeFromPeer node.peerid 1
      require (success = true) .removeNodeFailed
      return true

def addNode (w : World) (nodeid : NodeId) (id : ProofId) : Manager Bool := do
  let s ← get
  match s.findPeer id with
  | none =>
    let _ ← removeNode nodeid
    modify fun s => { s with pendingNodes := s.pendingNodes.insert ⟨id, nodeid⟩ }
    return false
  | some peer => addOrUpdateNode w peer.peerid nodeid

def updateNextRequestTime (nodeid : NodeId) (timeout : Int) : Manager Bool := do
  let s ← get
  set { s with
    nodes := s.nodes.modify nodeid (Node.setNextRequestTime timeout) }
  return s.nodes.contains nodeid

def latchAvaproofsSent (nodeid : NodeId) : Manager Bool := do
  let s ← get
  set { s with
    nodes := s.nodes.modify nodeid Node.latchAvaproofsSent }
  return (s.nodes.find? nodeid).any fun n => !n.avaproofsSent

/-!
## Peers
-/

def updateNextPossibleConflictTime (peerid : PeerId) (nextTime : Int) : Manager Bool := do
  let s ← get
  match s.peers.find? peerid with
  | none => return false
  | some peer =>
    set { s with
      peers := s.peers.modify peerid (Peer.delayConflicts nextTime) }
    return max peer.nextPossibleConflictTime nextTime = nextTime

def setFinalized (peerid : PeerId) : Manager Bool := do
  let s ← get
  set { s with
    peers := s.peers.modify peerid Peer.finalize }
  return s.peers.contains peerid

def pendNodes (s : PeerManager) (peer : Peer) : PeerManager :=
  { s with
    pendingNodes := (s.nodes.items.filter fun n => n.peerid = peer.peerid).foldl
      (fun pending n => pending.insert ⟨peer.getProofId, n.nodeid⟩) s.pendingNodes }

def eraseNodes (s : PeerManager) (peerid : PeerId) (now : Int) : PeerManager :=
  { s with
    nodes := s.nodes.eraseIf fun n =>
      n.peerid = peerid ∧ 0 ≤ n.nextRequestTime ∧ n.nextRequestTime ≤ now }

def releaseProof (s : PeerManager) (id : ProofId) : PeerManager :=
  { s with
    validProofPool := s.validProofPool.removeProof id
    shareableProofs := (s.shareableProofs.remove id).2 }

def erasePeer (s : PeerManager) (peer : Peer) : PeerManager :=
  { s with
    totalPeersScore := s.totalPeersScore - peer.getScore
    peers := s.peers.erase peer.peerid }

def removePeer (w : World) (peerid : PeerId) : Manager Bool := do
  let s ← get
  match s.peers.find? peerid with
  | none => return false
  | some peer =>
    let _ ← removeNodeFromPeer peerid peer.nodeCount
    modify fun s => s.pendNodes peer
    let now ← observe w.steadyTime
    modify fun s => (s.eraseNodes peerid now).releaseProof peer.getProofId
    let s ← get
    require (peer.getScore ≤ s.totalPeersScore) .totalScoreTooSmall
    set (s.erasePeer peer)
    return true

/-!
## Registration
-/

def addToConflictingPool (w : World) (proof : Proof) : Manager AddProofStatus := do
  let s ← get
  let r ← liftM (s.conflictingProofPool.addProofIfPreferred w.setOrder proof)
  set { s with conflictingProofPool := r.pool }
  return r.status

def removeFromConflictingPool (id : ProofId) : Manager Unit :=
  modify fun s => { s with conflictingProofPool := s.conflictingProofPool.removeProof id }

def addToDanglingPool (w : World) (proof : Proof) : Manager Unit := do
  let s ← get
  let r ← liftM (s.danglingProofPool.addProofIfPreferred w.setOrder proof)
  set { s with danglingProofPool := r.pool }

def addToImmaturePool (w : World) (proof : Proof) : Manager Unit := do
  let s ← get
  let r ← liftM (s.immatureProofPool.addProofIfPreferred w.setOrder proof)
  set { s with immatureProofPool := r.pool }

/-- Evict the proof with the lowest score from an immature pool above its limit. -/
def trimImmaturePool (s : PeerManager) : PeerManager :=
  if AVALANCHE_MAX_IMMATURE_PROOFS < s.immatureProofPool.countProofs then
    match s.immatureProofPool.getLowestScoreProof with
    | some proof => { s with immatureProofPool := s.immatureProofPool.removeProof proof.proofid }
    | none => s
  else s

def moveProof (w : World) (proof : Proof) : Manager Unit := do
  let s ← get
  match s.findPeer proof.proofid with
  | some peer =>
    let _ ← removePeer w peer.peerid
    let _ ← addToConflictingPool w proof
    return ()
  | none =>
    let _ ← addToConflictingPool w proof
    return ()

def moveToConflictingPool (w : World) (proofs : List Proof) : Manager Unit :=
  proofs.forM (moveProof w)

/-- The latest time from which one of the conflicting peers accepts a conflict. Every
attempt starts their cooldown again. -/
def bestPossibleConflictTime (next : Int) : List Proof -> Int -> Manager Int
  | [], best => return best
  | proof :: rest, best => do
      let s ← get
      match s.findPeer proof.proofid with
      | none => throw .peerNotFound
      | some peer =>
        let _ ← updateNextPossibleConflictTime peer.peerid next
        bestPossibleConflictTime next rest (max best peer.nextPossibleConflictTime)

/-- The outcome of the conflicts of a valid proof: `none` if it can become a peer. -/
def replaceConflicting (w : World) (proof : Proof) (conflicts : List Proof) (now next : Int) :
    Manager (Option ProofRegistrationState) := do
  let best ← bestPossibleConflictTime next conflicts 0
  if now < best then
    return some ⟨.cooldownNotElapsed, "cooldown-not-elapsed"⟩
  else
    let s ← get
    let r ← liftM (s.validProofPool.addProofIfPreferred w.setOrder proof)
    set { s with validProofPool := r.pool }
    if r.status ≠ .rejected then
      moveToConflictingPool w conflicts
      return none
    else
      let status ← addToConflictingPool w proof
      if status = .rejected then
        return some ⟨.rejected, "rejected-proof"⟩
      else
        return some ⟨.conflicting, "conflicting-utxos"⟩

def forceConflicting (w : World) (proof : Proof) (conflicts : List Proof) :
    Manager (Option ProofRegistrationState) := do
  removeFromConflictingPool proof.proofid
  moveToConflictingPool w conflicts
  let s ← get
  let r ← liftM (s.validProofPool.addProofIfNoConflict w.setOrder proof)
  set { s with validProofPool := r.pool }
  require (r.status = .succeed) .proofNotAdded
  return none

/-- Make room for a valid proof in the valid pool. -/
def admitProof (w : World) (proof : Proof) (mode : RegistrationMode) (now next : Int) :
    Manager (Option ProofRegistrationState) := do
  let s ← get
  let r ← liftM (s.validProofPool.addProofIfNoConflict w.setOrder proof)
  set { s with validProofPool := r.pool }
  match r.status with
  | .rejected =>
    if mode ≠ .forceAccept then
      replaceConflicting w proof r.conflictingProofs now next
    else forceConflicting w proof r.conflictingProofs
  | .duplicated => return some ⟨.alreadyRegistered, "proof-already-registered"⟩
  | .succeed => return none

def insertPeer (s : PeerManager) (proof : Proof) (registrationTime next : Int) : PeerManager :=
  { s with
    nextPeerId := s.nextPeerId + 1
    peers := s.peers.insert
      { peerid := s.nextPeerId
        proof
        registrationTime
        nextPossibleConflictTime := next }
    shareableProofs :=
      if s.isLocalProof proof.proofid = true then s.shareableProofs.insert proof
      else s.shareableProofs
    totalPeersScore := s.totalPeersScore + proof.getScore }

def waitingNodes (s : PeerManager) (id : ProofId) : List NodeId :=
  (s.pendingNodes.items.filter fun n => n.proofid = id).map PendingNode.nodeid

def bindWaiting (w : World) (peerid : PeerId) (nodeid : NodeId) : Manager Unit := do
  let _ ← addOrUpdateNode w peerid nodeid
  return ()

def createPeer (w : World) (proof : Proof) (next : Int) : Manager Unit := do
  removeFromConflictingPool proof.proofid
  let registrationTime ← observe w.time
  let s ← get
  require (s.peers.contains s.nextPeerId = false ∧ s.isBoundToPeer proof.proofid = false)
    .peerNotInserted
  set (s.insertPeer proof registrationTime next)
  (s.waitingNodes proof.proofid).forM (bindWaiting w s.nextPeerId)

def registerInvalidProof (w : World) (proof : Proof) (result : ProofValidationResult) :
    Manager ProofRegistrationState := do
  if result = .immatureUtxo then
    addToImmaturePool w proof
    modify trimImmaturePool
    return ⟨.immature, "immature-proof"⟩
  else if result = .missingUtxo then
    return ⟨.missingUtxo, "utxo-missing-or-spent"⟩
  else
    return ⟨.invalid, "invalid-proof"⟩

def registerValidProof (w : World) (proof : Proof) (mode : RegistrationMode) :
    Manager ProofRegistrationState := do
  let now ← observe w.time
  let next := now + w.conflictingProofCooldown
  let refused ← admitProof w proof mode now next
  match refused with
  | some state => return state
  | none =>
    createPeer w proof next
    return ProofRegistrationState.valid

def registerProof (w : World) (proof : Proof) (mode : RegistrationMode) :
    Manager ProofRegistrationState := do
  let s ← get
  if (mode ≠ .forceAccept ∨ s.isInConflictingPool proof.proofid = false) ∧
      s.existsProof proof.proofid = true then
    return ⟨.alreadyRegistered, "proof-already-registered"⟩
  else if s.isDangling proof.proofid = true ∧
      s.pendingNodes.items.all (fun n => n.proofid ≠ proof.proofid) = true then
    set { s with needMoreNodes := true }
    return ⟨.dangling, "dangling-proof"⟩
  else
    let result ← observe fun i => w.verify i proof
    if result = .none then registerValidProof w proof mode
    else registerInvalidProof w proof result

/-!
## Rejection
-/

def pullBackUtxo (w : World) (utxo : OutPoint) : Manager Unit := do
  let s ← get
  match s.conflictingProofPool.getProofByUtxo utxo with
  | none => return ()
  | some conflicting =>
    removeFromConflictingPool conflicting.proofid
    let _ ← registerProof w conflicting .default
    return ()

/-- Give the proofs that conflict on one of the utxos another chance. -/
def pullBack (w : World) (utxos : List OutPoint) : Manager Unit :=
  utxos.forM (pullBackUtxo w)

def rejectPeer (w : World) (id : ProofId) (mode : RejectionMode) : Manager Bool := do
  let s ← get
  match s.findPeer id with
  | none => throw .peerNotFound
  | some peer =>
    let removed ← removePeer w peer.peerid
    if removed = false then return false
    else
      pullBack w peer.proof.utxos
      if mode = .default then
        let _ ← addToConflictingPool w peer.proof
        return true
      else return true

def rejectProof (w : World) (id : ProofId) (mode : RejectionMode) : Manager Bool := do
  let s ← get
  if s.isDangling id = true ∧ mode = .invalidate then
    set { s with danglingProofPool := s.danglingProofPool.removeProof id }
    return true
  else if s.existsProof id = false then return false
  else if s.isImmature id = true then
    set { s with immatureProofPool := s.immatureProofPool.removeProof id }
    return true
  else if mode = .default ∧ s.isInConflictingPool id = true then return true
  else if mode = .invalidate ∧ s.isInConflictingPool id = true then
    removeFromConflictingPool id
    return true
  else rejectPeer w id mode

/-!
## Periodic maintenance
-/

/-- The peer has been without a node for too long and the network does not know
its proof. -/
def isNewlyDangling (w : World) (now : Int) (peer : Peer) : Manager Bool := do
  let s ← get
  if s.isLocalProof peer.getProofId = false ∧ peer.nodeCount = 0 ∧
      peer.registrationTime + Peer.danglingTimeout ≤ now then
    let presence ← observe fun i => w.remotePresence i peer.getProofId
    return !presence.getD false
  else return false

def isPulledBack (w : World) (proof : Proof) : Manager Bool := do
  let presence ← observe fun i => w.remotePresence i proof.proofid
  return presence.getD false

def registerProofs (w : World) : List Proof -> Manager (List Proof)
  | [] => return []
  | proof :: rest => do
      modify fun s => { s with danglingProofPool := s.danglingProofPool.removeProof proof.proofid }
      let state ← registerProof w proof .default
      let registered ← registerProofs w rest
      return if state.isValid then proof :: registered else registered

def evictDangling (w : World) (proof : Proof) : Manager Unit := do
  let _ ← rejectProof w proof.proofid .invalidate
  addToDanglingPool w proof

def cleanupDanglingProofs (w : World) : Manager (List Proof) := do
  let now ← observe w.time
  let s ← get
  let newlyDangling ← s.peers.items.filterM (isNewlyDangling w now)
  let previouslyDangling ← s.danglingProofPool.forEachProof.filterM (isPulledBack w)
  let registered ← registerProofs w previouslyDangling
  (newlyDangling.map Peer.proof).forM (evictDangling w)
  modify fun s => { s with needMoreNodes := !newlyDangling.isEmpty }
  return registered

def rescanEntries (w : World) : List ProofPoolEntry -> List Proof -> Manager (List Proof)
  | [], registered => return registered
  | entry :: rest, registered =>
    if entry.proof ∈ registered then rescanEntries w rest registered
    else do
      let _ ← registerProof w entry.proof .default
      rescanEntries w rest (registered ++ [entry.proof])

/-- `immatureProofPool.rescan`. -/
def rescan (w : World) : Manager (List Proof) := do
  let s ← get
  set { s with immatureProofPool := ProofPool.empty }
  rescanEntries w s.immatureProofPool.pool.items []

def verifyPeer (w : World) (peer : Peer) : Manager (Proof × ProofValidationResult) := do
  let result ← observe fun i => w.verify i peer.proof
  return (peer.proof, result)

def invalidate (w : World) (proof : Proof) : Manager Unit := do
  let _ ← rejectProof w proof.proofid .invalidate
  return ()

def updatedBlockTip (w : World) : Manager (List Proof) := do
  let s ← get
  let checked ← s.peers.items.mapM (verifyPeer w)
  let invalid := checked.filter fun c => c.2 ≠ .none
  let newImmatures := checked.filter fun c => c.2 = .immatureUtxo
  (invalid.map Prod.fst).forM (invalidate w)
  let registered ← rescan w
  (newImmatures.map Prod.fst).forM (addToImmaturePool w)
  return registered

/-!
## Compaction of the slots
-/

/-- The progress of `compact`: the new slots, where the last one stops, the peers with
their new indices and the next index. -/
structure Compaction where
  newslots : List Slot
  prevStop : Nat
  peers : IndexedSet Peer.peerid
  i : Nat

/-- Lay the slot of a connected peer behind the others. `slots` is the old vector. -/
def compactPeer (slots : List Slot) (c : Compaction) (peer : Peer) :
    Except AssertionFailure Compaction :=
  if peer.nodeCount = 0 then .ok c
  else
    match slots[c.i]? with
    | none => .error .slotIndexOutOfRange
    | some slot =>
      .ok
        { newslots := c.newslots ++ [⟨c.prevStop, peer.getScore, some peer.peerid⟩]
          prevStop := slot.getStop
          peers := c.peers.modify peer.peerid (Peer.setIndex c.i)
          i := c.i + 1 }

def compact : Manager Nat := do
  let s ← get
  if s.fragmentation = 0 then return 0
  else
    let c ← liftM (s.peers.items.foldlM (compactPeer s.slots)
      { newslots := [], prevStop := 0, peers := s.peers, i := 0 })
    set { s with
      slots := c.newslots
      peers := c.peers
      slotCount := c.prevStop
      fragmentation := 0 }
    return s.slotCount - c.prevStop

/-!
## Consistency check
-/

/-- The first loop of `verify`, which stops with `none` where the source returns
`false`. -/
def verifySlots (s : PeerManager) : List Slot -> Nat -> Nat -> Nat -> Option Nat
  | [], _, _, scoreFromSlots => some scoreFromSlots
  | slot :: rest, i, prevStop, scoreFromSlots =>
    if slot.start < prevStop then none
    else
      match slot.peerid with
      | none => verifySlots s rest (i + 1) slot.getStop scoreFromSlots
      | some id =>
        match s.peers.find? id with
        | none => none
        | some peer =>
          if peer.index ≠ i then none
          else verifySlots s rest (i + 1) slot.getStop (scoreFromSlots + slot.score)

/-- The nodes between `(peerid, 0)` and `(peerid + 1, 0)` in the order of peer and next
request time. -/
def countNodes (s : PeerManager) (peerid : PeerId) : Nat :=
  s.nodes.items.countP fun n =>
    (n.peerid = peerid ∧ 0 ≤ n.nextRequestTime) ∨ (n.peerid = peerid + 1 ∧ n.nextRequestTime ≤ 0)

/-- Check that the valid pool maps the utxos to the proof, and add them to those seen. -/
def verifyUtxos (s : PeerManager) (proof : Proof) :
    List OutPoint -> List OutPoint -> Option (List OutPoint)
  | [], peersUtxos => some peersUtxos
  | utxo :: rest, peersUtxos =>
    if s.validProofPool.getProofByUtxo utxo ≠ some proof then none
    else if utxo ∈ peersUtxos then none
    else verifyUtxos s proof rest (peersUtxos ++ [utxo])

def verifyConnected (s : PeerManager) (peer : Peer) : Bool :=
  match s.slots[peer.index]? with
  | none => false
  | some slot =>
    slot.peerid = some peer.peerid ∧ slot.score = peer.getScore ∧
      (s.shareableProofs.get peer.getProofId).isSome = true

structure PeerTotals where
  scoreFromAllPeers : Nat
  scoreFromPeersWithNodes : Nat
  peersUtxos : List OutPoint

def verifyPeers (s : PeerManager) : List Peer -> PeerTotals -> Option PeerTotals
  | [], totals => some totals
  | peer :: rest, totals =>
    match verifyUtxos s peer.proof peer.proof.utxos totals.peersUtxos with
    | none => none
    | some utxos =>
      if peer.nodeCount ≠ s.countNodes peer.peerid then none
      else if peer.nodeCount = 0 then
        verifyPeers s rest
          ⟨totals.scoreFromAllPeers + peer.getScore, totals.scoreFromPeersWithNodes, utxos⟩
      else if s.verifyConnected peer = false then none
      else
        verifyPeers s rest
          ⟨totals.scoreFromAllPeers + peer.getScore,
            totals.scoreFromPeersWithNodes + peer.getScore, utxos⟩

def verify (s : PeerManager) : Bool :=
  match s.verifySlots s.slots 0 0 0 with
  | none => false
  | some scoreFromSlots =>
    if scoreFromSlots ≠ s.connectedPeersScore then false
    else
      match s.verifyPeers s.peers.items ⟨0, 0, []⟩ with
      | none => false
      | some totals =>
        totals.scoreFromAllPeers = s.totalPeersScore ∧
          totals.scoreFromPeersWithNodes = s.connectedPeersScore ∧
          s.validProofPool.size = totals.peersUtxos.length ∧
          s.shareableProofs.leaves.all (fun proof => s.isBoundToPeer proof.proofid) = true

/-!
## Runs
-/

inductive Operation where
  | addNode (nodeid : NodeId) (id : ProofId)
  | removeNode (nodeid : NodeId)
  | updateNextRequestTime (nodeid : NodeId) (timeout : Int)
  | latchAvaproofsSent (nodeid : NodeId)
  | registerProof (proof : Proof) (mode : RegistrationMode)
  | rejectProof (id : ProofId) (mode : RejectionMode)
  | removePeer (peerid : PeerId)
  | updateNextPossibleConflictTime (peerid : PeerId) (nextTime : Int)
  | setFinalized (peerid : PeerId)
  | cleanupDanglingProofs
  | updatedBlockTip
  | compact
deriving DecidableEq, Repr

def perform (w : World) : Operation -> Manager Unit
  | .addNode nodeid id => do
      let _ ← addNode w nodeid id
      return ()
  | .removeNode nodeid => do
      let _ ← removeNode nodeid
      return ()
  | .updateNextRequestTime nodeid timeout => do
      let _ ← updateNextRequestTime nodeid timeout
      return ()
  | .latchAvaproofsSent nodeid => do
      let _ ← latchAvaproofsSent nodeid
      return ()
  | .registerProof proof mode => do
      let _ ← registerProof w proof mode
      return ()
  | .rejectProof id mode => do
      let _ ← rejectProof w id mode
      return ()
  | .removePeer peerid => do
      let _ ← removePeer w peerid
      return ()
  | .updateNextPossibleConflictTime peerid nextTime => do
      let _ ← updateNextPossibleConflictTime peerid nextTime
      return ()
  | .setFinalized peerid => do
      let _ ← setFinalized peerid
      return ()
  | .cleanupDanglingProofs => do
      let _ ← cleanupDanglingProofs w
      return ()
  | .updatedBlockTip => do
      let _ ← updatedBlockTip w
      return ()
  | .compact => do
      let _ ← compact
      return ()

def run (w : World) (operations : List Operation) : Manager Unit :=
  operations.forM (perform w)

def start (localProof : Option Proof) : PeerManager :=
  { localProof }

end PeerManager

end ECash.Avalanche
