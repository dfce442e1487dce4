import ECash.Avalanche.SlotOperations

/-!
# The invariant of the peer manager

What holds between any two operations of the manager, and what the operations on nodes
and peers do to the state.
-/

namespace ECash.Avalanche

open Foundation IndexedSet

def HasPeer (peers : IndexedSet Peer.peerid) (id : PeerId) (proof : Proof) : Prop :=
  exists p, p ∈ peers ∧ p.peerid = id ∧ p.proof = proof

theorem hasPeer_modify {peers : IndexedSet Peer.peerid} {wanted : PeerId}
    {update : Update Peer.peerid} (hproof : forall p, (update p).proof = p.proof) {id : PeerId}
    {proof : Proof} : HasPeer (peers.modify wanted update) id proof <-> HasPeer peers id proof := by
  constructor
  · rintro ⟨p, hp, hid, hpr⟩
    rcases mem_modify.mp hp with ⟨hold, _⟩ | ⟨q, hq, _, rfl⟩
    · exact ⟨p, hold, hid, hpr⟩
    · exact ⟨q, hq, (update.keeps q).symm.trans hid, (hproof q).symm.trans hpr⟩
  · rintro ⟨p, hp, hid, hpr⟩
    by_cases hmod : p.peerid = wanted
    · exact ⟨update p, mem_modify.mpr (.inr ⟨p, hp, hmod, rfl⟩),
        (update.keeps p).trans hid, (hproof p).trans hpr⟩
    · exact ⟨p, mem_modify.mpr (.inl ⟨hp, hmod⟩), hid, hpr⟩

namespace PeerManager

def boundNodes (s : PeerManager) (id : PeerId) : Nat :=
  s.nodes.items.countP fun n => n.peerid = id

def KeepsPeers (s t : PeerManager) : Prop :=
  forall id proof, HasPeer t.peers id proof <-> HasPeer s.peers id proof

/-- The peers are the same, up to their counters and times, and so is the valid pool. -/
structure SamePeers (s t : PeerManager) : Prop where
  peers : KeepsPeers s t
  validProofPool : t.validProofPool = s.validProofPool

/-- The proofs of a pool have known ids and stake something, and no coin twice. -/
def PoolFormed (ids : KnownIds) (pool : ProofPool) : Prop :=
  forall entry, entry ∈ pool.pool -> entry.proof.Admissible ids

theorem PoolFormed.removeProof {ids : KnownIds} {pool : ProofPool} (hpool : PoolFormed ids pool)
    (id : ProofId) : PoolFormed ids (pool.removeProof id) :=
  fun entry hentry => hpool entry (ProofPool.mem_removeProof.mp hentry).left

structure PoolsFormed (ids : KnownIds) (pools : ProofPool × ProofPool × ProofPool) : Prop where
  conflicting : PoolFormed ids pools.1
  immature : PoolFormed ids pools.2.1
  dangling : PoolFormed ids pools.2.2

/-- What the invariant is about: the ids that are around, whether the proofs are kept apart,
the slots are laid end to end, and the nodes have request times after the epoch. -/
structure Scope where
  ids : KnownIds
  apart : Prop
  laid : Prop
  timed : Prop

/-- The invariant, but for the valid proof pool. -/
structure Core (k : Scope) (s : PeerManager) : Prop where
  slotted : Slotted k.laid s
  sharing : Sharing k.ids s
  counted : forall p, p ∈ s.peers -> p.nodeCount = s.boundNodes p.peerid
  nodePeer : forall n, n ∈ s.nodes -> n.peerid < s.nextPeerId
  nodeTime : k.timed -> forall n, n ∈ s.nodes -> 0 < n.nextRequestTime
  peersFormed : forall p, p ∈ s.peers -> p.proof.Admissible k.ids
  poolsFormed : PoolsFormed k.ids s.pools

theorem Core.start (k : Scope) (localProof : Option Proof) :
    Core k (PeerManager.start localProof) where
  slotted := ⟨Allocation.empty, fun _ => Layout.empty⟩
  sharing := ⟨⟨nofun, nofun⟩, nofun, nofun⟩
  counted := nofun
  nodePeer := nofun
  nodeTime := fun _ => nofun
  peersFormed := nofun
  poolsFormed := ⟨nofun, nofun, nofun⟩

theorem Core.known {k : Scope} {s : PeerManager} (h : Core k s) (p : Peer) (hp : p ∈ s.peers) :
    k.ids.known p.getProofId :=
  (h.peersFormed p hp).known

/-- The peers keep their ids, proofs and node counters; the slots are laid anew. -/
theorem Core.samePeers {k : Scope} {laid : Prop} {s : PeerManager} (h : Core k s)
    {slots : List Slot} {peers : IndexedSet Peer.peerid} {slotCount fragmentation : Nat}
    (hslotted : Slotted laid { s with slots, peers, slotCount, fragmentation })
    (hold : forall p, p ∈ peers -> exists q, q ∈ s.peers ∧ p.peerid = q.peerid ∧
      p.proof = q.proof ∧ p.nodeCount = q.nodeCount)
    (hbound : forall id, s.shareableProofs.Has id -> exists p, p ∈ peers ∧ p.getProofId = id) :
    Core { k with laid } { s with slots, peers, slotCount, fragmentation } :=
  { h with
    slotted := hslotted
    sharing := by
      refine ⟨h.sharing.tree, fun p hp hconnected => ?_, hbound⟩
      rcases hold p hp with ⟨q, hq, _, hproof, hcount⟩
      unfold Peer.getProofId at hconnected ⊢
      rw [hproof] at hconnected ⊢
      rw [hcount] at hconnected
      exact h.sharing.shared q hq hconnected
    counted := by
      intro p hp
      rcases hold p hp with ⟨q, hq, hid, _, hcount⟩
      rw [hcount, hid]
      exact h.counted q hq
    peersFormed := by
      intro p hp
      rcases hold p hp with ⟨q, hq, _, hproof, _⟩
      exact hproof ▸ h.peersFormed q hq }

/-!
## Binding a node
-/

variable {peerid : PeerId} {t u : PeerManager} {peer : Peer}

section BindNode

variable {k : Scope} {w : World} {s : PeerManager} (h : Core k s)
  (hclock : k.timed -> forall i, 0 < w.steadyTime i)

def boundNode (w : World) (s : PeerManager) (peerid : PeerId) (nodeid : NodeId) : Node :=
  match s.nodes.find? nodeid with
  | some node => Node.setPeerId peerid node
  | none => { nodeid, peerid, nextRequestTime := w.steadyTime s.readings }

/-- The state between `bindNode` and `addNodeToPeer`: the counter of the peer is one
behind. -/
structure HalfBound (k : Scope) (w : World) (peerid : PeerId) (nodeid : NodeId)
    (s t : PeerManager) : Prop extends SamePools s t, SamePeers s t where
  slotted : Slotted k.laid t
  sharing : Sharing k.ids t
  counted : forall p, p ∈ t.peers ->
    p.nodeCount + (if peerid = p.peerid then 1 else 0) = t.boundNodes p.peerid
  nodes : forall n, n ∈ t.nodes <->
    (n ∈ s.nodes ∧ n.nodeid ≠ nodeid) ∨ n = s.boundNode w peerid nodeid
  pendingNodes : t.pendingNodes = s.pendingNodes
  readings : s.readings ≤ t.readings

omit h in
theorem boundNode_spec (w : World) (s : PeerManager) (peerid : PeerId) (nodeid : NodeId) :
    (s.boundNode w peerid nodeid).nodeid = nodeid ∧
      (s.boundNode w peerid nodeid).peerid = peerid ∧
      ((exists n, n ∈ s.nodes ∧ n.nodeid = nodeid ∧
          (s.boundNode w peerid nodeid).nextRequestTime = n.nextRequestTime) ∨
        ((forall n, n ∈ s.nodes -> n.nodeid ≠ nodeid) ∧
          (s.boundNode w peerid nodeid).nextRequestTime = w.steadyTime s.readings)) := by
  unfold boundNode
  split
  · rename_i node hfind
    rcases find?_eq_some.mp hfind with ⟨hnode, hid⟩
    exact ⟨hid, rfl, .inl ⟨node, hnode, hid, rfl⟩⟩
  · rename_i hfind
    exact ⟨rfl, rfl, .inr ⟨find?_eq_none.mp hfind, rfl⟩⟩

include h

theorem bindNode_new {nodeid : NodeId} (hfind : s.nodes.find? nodeid = none) :
    HalfBound k w peerid nodeid s
      { s with
        readings := s.readings + 1
        nodes := s.nodes.insert
          { nodeid, peerid, nextRequestTime := w.steadyTime s.readings } } := by
  have hnew : s.nodes.contains nodeid = false := congrArg Option.isSome hfind
  have hbound : s.boundNode w peerid nodeid =
      { nodeid, peerid, nextRequestTime := w.steadyTime s.readings } := by
    unfold boundNode
    rw [hfind]
  constructor
  case slotted => exact ⟨h.slotted.allocation, h.slotted.layout⟩
  case sharing => exact { h.sharing with }
  case counted =>
    intro p hp
    unfold boundNodes
    rw [items_insert hnew, List.countP_append, List.countP_singleton, h.counted p hp]
    unfold boundNodes
    simp only [decide_eq_true_eq]
  case nodes =>
    intro n
    rw [hbound, mem_insert]
    constructor
    · rintro (hold | ⟨rfl, _⟩)
      · exact .inl ⟨hold, find?_eq_none.mp hfind n hold⟩
      · exact .inr rfl
    · rintro (⟨hold, _⟩ | rfl)
      · exact .inl hold
      · exact .inr ⟨rfl, hnew⟩
  case toSamePeers => exact ⟨fun _ _ => Iff.rfl, rfl⟩
  case readings => exact Nat.le_succ _
  case toSamePools => exact ⟨rfl, rfl⟩
  all_goals rfl

theorem Core.nodeCount_pos {n : Node} (hn : n ∈ s.nodes) {p : Peer} (hp : p ∈ s.peers)
    (hid : p.peerid = n.peerid) : 0 < p.nodeCount := by
  rw [h.counted p hp]
  exact List.countP_pos_iff.mpr ⟨n, hn, decide_eq_true hid.symm⟩

theorem Core.dropped_count {node : Node} (hnode : node ∈ s.nodes) {p : Peer}
    (hp : p ∈ s.peers.modify node.peerid (Peer.dropNodes 1)) :
    p.nodeCount + (if node.peerid = p.peerid then 1 else 0) = s.boundNodes p.peerid := by
  rcases mem_modify.mp hp with ⟨hold, hne⟩ | ⟨q, hq, hid, rfl⟩
  · rw [if_neg (Ne.symm hne)]
    exact h.counted p hold
  · show q.nodeCount - 1 + (if node.peerid = q.peerid then 1 else 0) = _
    rw [if_pos hid.symm, Nat.sub_add_cancel (h.nodeCount_pos hnode hq hid)]
    exact h.counted q hq

theorem bindNode_existing {node : Node} (hnode : node ∈ s.nodes) (hslotted : Slotted k.laid t)
    (hsharing : Sharing k.ids t) (hframe : SlotFrame (s.rebindNode node.nodeid peerid) t)
    (hpeers : t.peers = s.peers.modify node.peerid (Peer.dropNodes 1)) :
    HalfBound k w peerid node.nodeid s t := by
  have hbound : s.boundNode w peerid node.nodeid = Node.setPeerId peerid node := by
    unfold boundNode
    rw [find?_eq_some.mpr ⟨hnode, rfl⟩]
  have hcount : forall id, t.boundNodes id + (if node.peerid = id then 1 else 0) =
      s.boundNodes id + if peerid = id then 1 else 0 := by
    intro id
    have hmodify := countP_modify (Node.setPeerId peerid)
      (fun n => decide (n.peerid = id)) hnode rfl
    simp only [decide_eq_true_eq] at hmodify
    unfold boundNodes
    rw [hframe.nodes]
    exact hmodify
  constructor
  case slotted => exact hslotted
  case sharing => exact hsharing
  case counted =>
    intro p hp
    have hchange := hcount p.peerid
    have hdropped := h.dropped_count hnode (hpeers ▸ hp)
    omega
  case toSamePeers =>
    refine ⟨fun id proof => ?_, hframe.validProofPool⟩
    rw [hpeers]
    exact hasPeer_modify fun _ => rfl
  case nodes =>
    intro n
    rw [hframe.nodes, hbound, rebindNode, mem_modify]
    constructor
    · rintro (hold | ⟨m, hm, hid, rfl⟩)
      · exact .inl hold
      · rw [eq_of_key_eq hm hnode hid]
        exact .inr rfl
    · rintro (hold | rfl)
      · exact .inl hold
      · exact .inr ⟨node, hnode, rfl, rfl⟩
  case toSamePools => exact ⟨hframe.nextPeerId, hframe.pools⟩
  case pendingNodes => exact hframe.pendingNodes
  case readings => exact hframe.readings.ge

theorem bindNode_returns (peerid : PeerId) (nodeid : NodeId) :
    Returns (bindNode w peerid nodeid) s fun _ t => HalfBound k w peerid nodeid s t := by
  apply Returns.get_bind
  cases hfind : s.nodes.find? nodeid with
  | none => exact ⟨_, _, rfl, bindNode_new h hfind⟩
  | some node =>
    rcases find?_eq_some.mp hfind with ⟨hnode, rfl⟩
    apply Returns.set_bind
    have hslotted : Slotted k.laid (s.rebindNode node.nodeid peerid) :=
      ⟨h.slotted.allocation, h.slotted.layout⟩
    have hsharing : Sharing k.ids (s.rebindNode node.nodeid peerid) := { h.sharing with }
    apply Returns.bind (removeNodeFromPeer_returns hslotted hsharing h.known
      fun p hp hid => h.nodeCount_pos hnode hp hid)
    rintro _ t ⟨hslotted, hsharing, hframe, hb, hpeers⟩
    rw [hb one_pos]
    exact ⟨(), t, rfl, bindNode_existing h hnode hslotted hsharing hframe hpeers⟩

/-- What binding a node to a peer does. -/
structure NodeBound (w : World) (peerid : PeerId) (id : ProofId) (nodeid : NodeId)
    (s t : PeerManager) : Prop extends
    SamePools { s with danglingProofPool := s.danglingProofPool.removeProof id } t,
    SamePeers s t where
  nodes : forall n, n ∈ t.nodes <->
    (n ∈ s.nodes ∧ n.nodeid ≠ nodeid) ∨ n = s.boundNode w peerid nodeid
  pendingNodes : t.pendingNodes = s.pendingNodes.erase nodeid
  readings : s.readings ≤ t.readings

def settleNode (s : PeerManager) (proof : Proof) (nodeid : NodeId) : PeerManager :=
  { s with
    pendingNodes := s.pendingNodes.erase nodeid
    danglingProofPool := s.danglingProofPool.removeProof proof.proofid
    shareableProofs := s.shareableProofs.insert proof }

omit h in
theorem Sharing.insert (ht : Sharing k.ids t) (hpeer : peer ∈ t.peers)
    (hknown : k.ids.known peer.proof.proofid) {update : Update Peer.peerid}
    (hproof : forall p, (update p).proof = p.proof)
    (hpeers : u.peers = t.peers.modify peer.peerid update) (hlocal : u.localProof = t.localProof)
    (hshareable : u.shareableProofs = t.shareableProofs.insert peer.proof) : Sharing k.ids u := by
  rcases ht.tree.insert hknown with ⟨hsound, hinserted⟩
  constructor
  case tree => exact hshareable ▸ hsound
  case shared =>
    intro p hp hconnected
    rw [hshareable, hinserted]
    rw [hpeers] at hp
    rcases mem_modify.mp hp with ⟨hold, _⟩ | ⟨q, hq, hid, rfl⟩
    · unfold isLocalProof at hconnected
      rw [hlocal] at hconnected
      exact .inl (ht.shared p hold hconnected)
    · rw [eq_of_key_eq hq hpeer hid]
      exact .inr (congrArg Proof.proofid (hproof peer))
  case bound =>
    intro id hid
    rw [hshareable, hinserted] at hid
    rw [hpeers]
    rcases hid with hold | rfl
    · exact ht.bound_modify hproof hold
    · exact ⟨update peer, mem_modify.mpr (.inr ⟨peer, hpeer, rfl, rfl⟩),
        congrArg Proof.proofid (hproof peer)⟩

theorem Core.formed
    (hpeers : forall id proof, HasPeer u.peers id proof -> HasPeer s.peers id proof) :
    forall p, p ∈ u.peers -> p.proof.Admissible k.ids := by
  intro p hp
  rcases hpeers p.peerid p.proof ⟨p, hp, rfl, rfl⟩ with ⟨q, hq, _, hproof⟩
  exact hproof ▸ h.peersFormed q hq

include hclock

theorem addOrUpdateNode_returns (hpeer : peer ∈ s.peers) (nodeid : NodeId) :
    Returns (addOrUpdateNode w peer.peerid nodeid) s fun _ t =>
      Core k t ∧ NodeBound w peer.peerid peer.getProofId nodeid s t := by
  apply Returns.get_bind
  rw [find?_eq_some.mpr ⟨hpeer, rfl⟩]
  apply Returns.bind (bindNode_returns h peer.peerid nodeid)
  intro _ t ht
  rcases (ht.peers peer.peerid peer.proof).mpr ⟨peer, hpeer, rfl, rfl⟩ with
    ⟨peer', hpeer', hid, hproof⟩
  have hadd := addNodeToPeer_returns ht.slotted hpeer'
  rw [hid] at hadd
  apply Returns.bind hadd
  rintro _ u ⟨hslotted, hframe, hb, hshareable, hpeers⟩
  rw [hb]
  have hhas : KeepsPeers s u := by
    intro id proof
    rw [hpeers, ← ht.peers id proof]
    exact hasPeer_modify fun _ => rfl
  have hnodes : forall n, n ∈ u.nodes <->
      (n ∈ s.nodes ∧ n.nodeid ≠ nodeid) ∨ n = s.boundNode w peer.peerid nodeid := by
    rw [hframe.nodes]
    exact ht.nodes
  have hpools := ht.toSamePools.trans hframe.toSamePools
  rcases boundNode_spec w s peer.peerid nodeid with ⟨_, hnodePeer, hnodeTime⟩
  have hbound : NodeBound w peer.peerid peer.getProofId nodeid s
      (u.settleNode peer.proof nodeid) := by
    constructor
    case toSamePeers => exact ⟨hhas, hframe.validProofPool.trans ht.validProofPool⟩
    case nodes => exact hnodes
    case pendingNodes =>
      show u.pendingNodes.erase nodeid = _
      rw [hframe.pendingNodes, ht.pendingNodes]
    case toSamePools =>
      refine ⟨hpools.nextPeerId, ?_⟩
      exact congrArg (fun pools : ProofPool × ProofPool × ProofPool =>
        (pools.1, pools.2.1, pools.2.2.removeProof peer.getProofId)) hpools.pools
    case readings => exact ht.readings.trans hframe.readings.ge
  refine ⟨true, u.settleNode peer.proof nodeid, rfl, ?_, hbound⟩
  constructor
  case slotted => exact ⟨hslotted.allocation, hslotted.layout⟩
  case sharing =>
    refine ht.sharing.insert hpeer' (hproof ▸ h.known peer hpeer) (fun _ => rfl) (hid ▸ hpeers)
      hframe.localProof ?_
    show u.shareableProofs.insert peer.proof = _
    rw [hshareable, hproof]
  case counted =>
    intro p hp
    show p.nodeCount = u.boundNodes p.peerid
    unfold boundNodes
    rw [hframe.nodes]
    rcases mem_modify.mp (hpeers ▸ hp) with ⟨hold, hne⟩ | ⟨q, hq, hqid, rfl⟩
    · have hcounted := ht.counted p hold
      rw [if_neg (Ne.symm hne)] at hcounted
      exact hcounted
    · have hcounted := ht.counted q hq
      rw [if_pos hqid.symm] at hcounted
      exact hcounted
  case nodePeer =>
    intro n hn
    show n.peerid < u.nextPeerId
    rw [hpools.nextPeerId]
    rcases (hnodes n).mp hn with ⟨hold, _⟩ | rfl
    · exact h.nodePeer n hold
    · rw [hnodePeer]
      exact h.slotted.allocation.fresh peer hpeer
  case nodeTime =>
    intro htimed n hn
    rcases (hnodes n).mp hn with ⟨hold, _⟩ | rfl
    · exact h.nodeTime htimed n hold
    · rcases hnodeTime with ⟨m, hm, _, htime⟩ | ⟨_, htime⟩
      · rw [htime]
        exact h.nodeTime htimed m hm
      · rw [htime]
        exact hclock htimed s.readings
  case peersFormed => exact h.formed fun id proof => (hhas id proof).mp
  case poolsFormed =>
    rw [hbound.pools]
    exact { h.poolsFormed with dangling := h.poolsFormed.dangling.removeProof _ }

end BindNode

/-!
## Removing a node
-/

/-- What removing a node does. A pending node is only taken off the pending set. -/
structure NodeRemoved (nodeid : NodeId) (s t : PeerManager) : Prop extends
    SamePools s t, SamePeers s t where
  nodes : t.nodes = if s.pendingNodes.contains nodeid = true then s.nodes else s.nodes.erase nodeid
  pendingNodes : t.pendingNodes = s.pendingNodes.erase nodeid

section RemoveNode

variable {k : Scope} {s : PeerManager} (h : Core k s)

include h

theorem Core.setPending (pending : IndexedSet PendingNode.nodeid) :
    Core k { s with pendingNodes := pending } :=
  { h with
    slotted := ⟨h.slotted.allocation, h.slotted.layout⟩
    sharing := { h.sharing with } }

theorem removeNode_bound {node : Node} (hnode : node ∈ s.nodes)
    (hpending : s.pendingNodes.contains node.nodeid = false) (hslotted : Slotted k.laid t)
    (hsharing : Sharing k.ids t) (hframe : SlotFrame (s.eraseNode node.nodeid) t)
    (hpeers : t.peers = s.peers.modify node.peerid (Peer.dropNodes 1)) :
    Core k t ∧ NodeRemoved node.nodeid s t := by
  have hhas : KeepsPeers s t := by
    intro id proof
    rw [hpeers]
    exact hasPeer_modify fun _ => rfl
  have hcount : forall id, t.boundNodes id + (if node.peerid = id then 1 else 0) =
      s.boundNodes id := by
    intro id
    have herase := countP_erase (fun n => decide (n.peerid = id)) hnode rfl
    simp only [decide_eq_true_eq] at herase
    unfold boundNodes
    rw [hframe.nodes]
    exact herase
  have hmem : forall n, n ∈ t.nodes -> n ∈ s.nodes := by
    intro n hn
    rw [hframe.nodes] at hn
    exact (mem_erase.mp hn).left
  constructor
  · constructor
    case slotted => exact hslotted
    case sharing => exact hsharing
    case counted =>
      intro p hp
      have hchange := hcount p.peerid
      have hdropped := h.dropped_count hnode (hpeers ▸ hp)
      omega
    case nodePeer =>
      intro n hn
      rw [hframe.nextPeerId]
      exact h.nodePeer n (hmem n hn)
    case nodeTime => exact fun htimed n hn => h.nodeTime htimed n (hmem n hn)
    case peersFormed => exact h.formed fun id proof => (hhas id proof).mp
    case poolsFormed => exact hframe.pools ▸ h.poolsFormed
  · constructor
    case toSamePeers => exact ⟨hhas, hframe.validProofPool⟩
    case nodes =>
      rw [hframe.nodes, hpending]
      rfl
    case pendingNodes =>
      rw [hframe.pendingNodes, erase_of_notMem (contains_eq_false.mp hpending)]
      rfl
    case toSamePools => exact ⟨hframe.nextPeerId, hframe.pools⟩

theorem removeNode_returns (nodeid : NodeId) :
    Returns (removeNode nodeid) s fun _ t => Core k t ∧ NodeRemoved nodeid s t := by
  apply Returns.get_bind
  split
  · rename_i hpending
    apply Returns.set_bind
    refine Returns.pure ⟨h.setPending _, ?_⟩
    constructor
    case nodes => exact (if_pos hpending).symm
    case toSamePeers => exact ⟨fun _ _ => Iff.rfl, rfl⟩
    case toSamePools => exact ⟨rfl, rfl⟩
    all_goals rfl
  · rename_i hpending
    have hnot : s.pendingNodes.contains nodeid = false := (Bool.not_eq_true _).mp hpending
    cases hfind : s.nodes.find? nodeid with
    | none =>
      refine Returns.pure ⟨h, ?_⟩
      constructor
      case nodes =>
        rw [if_neg hpending, erase_of_notMem (find?_eq_none.mp hfind)]
      case pendingNodes =>
        exact (erase_of_notMem (contains_eq_false.mp hnot)).symm
      case toSamePeers => exact ⟨fun _ _ => Iff.rfl, rfl⟩
      case toSamePools => exact ⟨rfl, rfl⟩
    | some node =>
      rcases find?_eq_some.mp hfind with ⟨hnode, rfl⟩
      apply Returns.set_bind
      have hslotted : Slotted k.laid (s.eraseNode node.nodeid) :=
        ⟨h.slotted.allocation, h.slotted.layout⟩
      have hsharing : Sharing k.ids (s.eraseNode node.nodeid) := { h.sharing with }
      apply Returns.bind (removeNodeFromPeer_returns hslotted hsharing h.known
        fun p hp hid => h.nodeCount_pos hnode hp hid)
      rintro _ t ⟨hslotted, hsharing, hframe, hb, hpeers⟩
      rw [hb one_pos]
      exact ⟨true, t, rfl, removeNode_bound h hnode hnot hslotted hsharing hframe hpeers⟩

end RemoveNode

/-!
## Removing a peer
-/

/-- What removing a peer does: its nodes become pending for its proof, and those whose
request time has not come yet stay in the node set. -/
structure PeerRemoved (w : World) (peer : Peer) (s t : PeerManager) : Prop extends
    SamePools s t where
  peers : t.peers = s.peers.erase peer.peerid
  nodes : t.nodes = (s.eraseNodes peer.peerid (w.steadyTime s.readings)).nodes
  pendingNodes : t.pendingNodes = (s.pendNodes peer).pendingNodes
  validProofPool : t.validProofPool = s.validProofPool.removeProof peer.getProofId
  readings : s.readings ≤ t.readings

section RemovePeer

variable {k : Scope} {w : World} {s : PeerManager} (h : Core k s)

def dropPeer (w : World) (s : PeerManager) (peer : Peer) : PeerManager :=
  (({ s.pendNodes peer with readings := s.readings + 1 }.eraseNodes peer.peerid
    (w.steadyTime s.readings)).releaseProof peer.getProofId).erasePeer peer

include h

theorem dropPeer_sharing (hpeer : peer ∈ s.peers) (hsharing : Sharing k.ids t)
    (hpeers : t.peers = s.peers.modify peer.peerid (Peer.dropNodes peer.nodeCount)) :
    Sharing k.ids (t.dropPeer w peer) := by
  rcases hsharing.tree.remove (h.known peer hpeer) with ⟨hsound, hremoved⟩
  constructor
  case tree => exact hsound
  case shared =>
    intro p hp hconnected
    have hp' : p ∈ t.peers.erase peer.peerid := hp
    rcases mem_erase.mp hp' with ⟨hpt, hne⟩
    have hother : p.getProofId ≠ peer.getProofId := by
      have hold : p ∈ s.peers := by
        rw [hpeers] at hpt
        rcases mem_modify.mp hpt with ⟨hold, _⟩ | ⟨q, _, hid, rfl⟩
        · exact hold
        · exact absurd hid hne
      exact fun heq =>
        hne (congrArg Peer.peerid (h.slotted.allocation.unique p peer hold hpeer heq))
    exact (hremoved _).mpr ⟨hsharing.shared p hpt hconnected, hother⟩
  case bound =>
    intro id hid
    rcases (hremoved id).mp hid with ⟨hold, hne⟩
    rcases hsharing.bound id hold with ⟨p, hp, hid⟩
    refine ⟨p, mem_erase.mpr ⟨hp, ?_⟩, hid⟩
    intro heq
    rw [hpeers] at hp
    rcases mem_modify.mp hp with ⟨_, hne'⟩ | ⟨_, hq, hqid, rfl⟩
    · exact hne' heq
    · rw [eq_of_key_eq hq hpeer hqid] at hid
      exact hne hid.symm

omit h in
theorem boundNodes_eraseNodes {id other : PeerId} (hne : other ≠ id) (now : Int) :
    (s.eraseNodes id now).boundNodes other = s.boundNodes other := by
  apply countP_eraseIf
  intro n _ herased
  rw [decide_eq_false_iff_not]
  intro heq
  exact hne (heq.symm.trans (of_decide_eq_true herased).left)

theorem dropPeer_core (hpeer : peer ∈ s.peers) (hslotted : Slotted k.laid t)
    (hsharing : Sharing k.ids t) (hframe : SlotFrame s t)
    (hpeers : t.peers = s.peers.modify peer.peerid (Peer.dropNodes peer.nodeCount)) :
    Core k (t.dropPeer w peer) ∧ PeerRemoved w peer s (t.dropPeer w peer) := by
  have hsame : t.peers.erase peer.peerid = s.peers.erase peer.peerid := by
    rw [hpeers]
    exact erase_modify
  have hold : forall p, p ∈ (t.dropPeer w peer).peers -> p ∈ s.peers ∧ p.peerid ≠ peer.peerid := by
    intro p hp
    have hp' : p ∈ s.peers.erase peer.peerid := hsame ▸ hp
    exact mem_erase.mp hp'
  have hnodes : (t.dropPeer w peer).nodes =
      (s.eraseNodes peer.peerid (w.steadyTime s.readings)).nodes := by
    show t.nodes.eraseIf _ = s.nodes.eraseIf _
    rw [hframe.nodes, hframe.readings]
  have hmem : forall n, n ∈ (t.dropPeer w peer).nodes -> n ∈ s.nodes := by
    intro n hn
    rw [hnodes] at hn
    exact (mem_eraseIf.mp hn).left
  have hgone : Peer.dropNodes peer.nodeCount peer ∈ t.peers := by
    rw [hpeers]
    exact mem_modify.mpr (.inr ⟨peer, hpeer, rfl, rfl⟩)
  constructor
  · constructor
    case slotted =>
      have herased := hslotted.allocation.erase hgone (Nat.sub_self _)
      exact ⟨herased, hslotted.layout⟩
    case sharing => exact dropPeer_sharing h hpeer hsharing hpeers
    case counted =>
      intro p hp
      rcases hold p hp with ⟨hps, hne⟩
      rw [h.counted p hps, ← boundNodes_eraseNodes hne (w.steadyTime s.readings)]
      unfold boundNodes
      rw [hnodes]
    case nodePeer =>
      intro n hn
      show n.peerid < t.nextPeerId
      rw [hframe.nextPeerId]
      exact h.nodePeer n (hmem n hn)
    case nodeTime => exact fun htimed n hn => h.nodeTime htimed n (hmem n hn)
    case peersFormed => exact fun p hp => h.peersFormed p (hold p hp).left
    case poolsFormed => exact hframe.pools ▸ h.poolsFormed
  · constructor
    case peers => exact hsame
    case nodes => exact hnodes
    case pendingNodes =>
      show (t.pendNodes peer).pendingNodes = _
      unfold pendNodes
      rw [hframe.nodes, hframe.pendingNodes]
    case validProofPool =>
      show t.validProofPool.removeProof _ = _
      rw [hframe.validProofPool]
    case toSamePools => exact hframe.toSamePools.trans ⟨rfl, rfl⟩
    case readings =>
      show s.readings ≤ t.readings + 1
      rw [hframe.readings]
      exact Nat.le_succ _

theorem removePeer_returns (hpeer : peer ∈ s.peers) :
    Returns (removePeer w peer.peerid) s fun b t =>
      b = true ∧ Core k t ∧ PeerRemoved w peer s t := by
  apply Returns.get_bind
  rw [find?_eq_some.mpr ⟨hpeer, rfl⟩]
  have hcount : forall p, p ∈ s.peers -> p.peerid = peer.peerid -> peer.nodeCount ≤ p.nodeCount :=
    fun p hp hid => Nat.le_of_eq (eq_of_key_eq hp hpeer hid ▸ rfl)
  apply Returns.bind (removeNodeFromPeer_returns h.slotted h.sharing h.known hcount)
  rintro _ t ⟨hslotted, hsharing, hframe, _, hpeers⟩
  have htotal : peer.getScore ≤ t.totalPeersScore := by
    rw [hframe.totalPeersScore]
    exact h.slotted.allocation.score_le_total hpeer
  apply Returns.modify_bind
  apply observe_bind
  apply Returns.modify_bind
  apply Returns.get_bind
  apply Returns.require_bind htotal
  apply Returns.set_bind
  exact Returns.pure ⟨rfl, dropPeer_core h hpeer hslotted hsharing hframe hpeers⟩

end RemovePeer

end PeerManager

end ECash.Avalanche
