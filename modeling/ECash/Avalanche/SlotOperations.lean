import ECash.Avalanche.Allocation

/-!
# Operations on slots and node counters

The two functions that move the node counter of a peer, and with it the peer's slot.
Each of them has one lemma that says that it returns and what it does to the state.
-/

namespace ECash.Avalanche

open Foundation IndexedSet

def Peer.dropNodes (count : Nat) : Update Peer.peerid where
  apply peer := { peer with nodeCount := peer.nodeCount - count }
  keeps _ := rfl

def Peer.addNode (index : Nat) : Update Peer.peerid where
  apply peer :=
    { peer with
      nodeCount := peer.nodeCount + 1
      index := if 0 < peer.nodeCount then peer.index else index }
  keeps _ := rfl

namespace PeerManager

variable {s t u : PeerManager} {ids : KnownIds} {laid : Prop} {peer : Peer} {count : Nat}

theorem observe_bind {a b : Type} {answer : Nat -> a} {f : a -> Manager b}
    {post : b -> PeerManager -> Prop}
    (h : Returns (f (answer s.readings)) { s with readings := s.readings + 1 } post) :
    Returns (observe answer >>= f) s post :=
  h

/-!
## Slots
-/

/-- The slots agree with the peers, and they are laid end to end as long as they have
not been compacted. -/
structure Slotted (laid : Prop) (s : PeerManager) : Prop where
  allocation : Allocation s.nextPeerId s.peers s.slots s.connectedPeersScore s.totalPeersScore
  layout : laid -> Layout s.slots s.slotCount s.fragmentation

/-- The radix tree of shareable proofs has the proofs of the connected peers. -/
structure Sharing (ids : KnownIds) (s : PeerManager) : Prop where
  tree : s.shareableProofs.Sound ids
  shared : forall p, p ∈ s.peers ->
    (0 < p.nodeCount ∨ s.isLocalProof p.getProofId = true) -> s.shareableProofs.Has p.getProofId
  bound : forall id, s.shareableProofs.Has id -> exists p, p ∈ s.peers ∧ p.getProofId = id

/-- The conflicting, the immature and the dangling proofs. -/
def pools (s : PeerManager) : ProofPool × ProofPool × ProofPool :=
  (s.conflictingProofPool, s.immatureProofPool, s.danglingProofPool)

/-- What no operation on nodes or slots changes. -/
structure SamePools (s t : PeerManager) : Prop where
  nextPeerId : t.nextPeerId = s.nextPeerId
  pools : t.pools = s.pools

theorem SamePools.trans (h : SamePools s t) (h' : SamePools t u) : SamePools s u :=
  ⟨h'.nextPeerId.trans h.nextPeerId, h'.pools.trans h.pools⟩

/-- Only the peers, their slots and the shareable proofs have changed. -/
structure SlotFrame (s t : PeerManager) : Prop extends SamePools s t where
  validProofPool : t.validProofPool = s.validProofPool
  nodes : t.nodes = s.nodes
  pendingNodes : t.pendingNodes = s.pendingNodes
  totalPeersScore : t.totalPeersScore = s.totalPeersScore
  localProof : t.localProof = s.localProof
  readings : t.readings = s.readings

theorem SlotFrame.refl (s : PeerManager) : SlotFrame s s := by
  repeat constructor

theorem SlotFrame.trans (h : SlotFrame s t) (h' : SlotFrame t u) : SlotFrame s u where
  toSamePools := h.toSamePools.trans h'.toSamePools
  validProofPool := h'.validProofPool.trans h.validProofPool
  nodes := h'.nodes.trans h.nodes
  pendingNodes := h'.pendingNodes.trans h.pendingNodes
  totalPeersScore := h'.totalPeersScore.trans h.totalPeersScore
  localProof := h'.localProof.trans h.localProof
  readings := h'.readings.trans h.readings

theorem freeSlot_frame (s : PeerManager) (i : Nat) (slot : Slot) :
    SlotFrame s (s.freeSlot i slot) ∧ (s.freeSlot i slot).peers = s.peers ∧
      (s.freeSlot i slot).shareableProofs = s.shareableProofs := by
  unfold PeerManager.freeSlot
  split
  · exact ⟨by repeat constructor, rfl, rfl⟩
  · exact ⟨by repeat constructor, rfl, rfl⟩

theorem setNodeCount_pos (h : Slotted laid s) (hpeer : peer ∈ s.peers)
    (hcount : 0 < peer.nodeCount) (hpos : 0 < count) :
    Slotted laid (s.setNodeCount peer.peerid count) where
  allocation := by
    refine h.allocation.modify (Peer.setNodeCount count) (fun _ => rfl) (fun _ => rfl) ?_
    intro p hp hid
    cases eq_of_key_eq hp hpeer hid
    exact ⟨fun _ => hcount, fun _ => hpos⟩
  layout := h.layout

theorem Sharing.bound_modify (h : Sharing ids s) {peerid : PeerId} {update : Update Peer.peerid}
    (hproof : forall p, (update p).proof = p.proof) {id : ProofId}
    (hid : s.shareableProofs.Has id) :
    exists p, p ∈ s.peers.modify peerid update ∧ p.getProofId = id := by
  rcases h.bound id hid with ⟨p, hp, hid⟩
  by_cases hmod : p.peerid = peerid
  · refine ⟨update p, mem_modify.mpr (.inr ⟨p, hp, hmod, rfl⟩), ?_⟩
    exact (congrArg Proof.proofid (hproof p)).trans hid
  · exact ⟨p, mem_modify.mpr (.inl ⟨hp, hmod⟩), hid⟩

theorem Sharing.setNodeCount (h : Sharing ids s) (hpeer : peer ∈ s.peers)
    (hpos : 0 < peer.nodeCount) (count : Nat) :
    Sharing ids (s.setNodeCount peer.peerid count) where
  tree := h.tree
  shared := by
    intro p hp hconnected
    rcases mem_modify.mp hp with ⟨hold, _⟩ | ⟨q, hq, hid, rfl⟩
    · exact h.shared p hold hconnected
    · rw [eq_of_key_eq hq hpeer hid]
      exact h.shared peer hpeer (.inl hpos)
  bound _ hid := h.bound_modify (fun _ => rfl) hid

theorem Sharing.congr (h : Sharing ids s) (hpeers : t.peers = s.peers)
    (htree : t.shareableProofs = s.shareableProofs) (hlocal : t.localProof = s.localProof) :
    Sharing ids t := by
  cases s
  cases t
  cases hpeers
  cases htree
  cases hlocal
  exact { h with }

theorem deallocate_returns {peers : IndexedSet Peer.peerid}
    (halloc : Allocation s.nextPeerId peers s.slots s.connectedPeersScore s.totalPeersScore)
    (hlayout : laid -> Layout s.slots s.slotCount s.fragmentation) (hpeer : peer ∈ peers)
    (hcount : 0 < peer.nodeCount)
    (hpeers : s.peers = peers.modify peer.peerid (Peer.setNodeCount 0)) :
    Returns (deallocate peer) s fun _ t => Slotted laid t ∧ SlotFrame s t ∧
      t.peers = s.peers ∧ t.shareableProofs = s.shareableProofs := by
  rcases halloc.peerSlot peer hpeer hcount with ⟨slot, hslot, hid, hscore⟩
  have hle : slot.score ≤ s.connectedPeersScore := by
    rw [hscore]
    exact halloc.score_le hpeer hcount
  apply Returns.get_bind
  rw [hslot]
  apply Returns.require_bind hle
  apply Returns.set
  rcases freeSlot_frame s peer.index slot with ⟨hframe, hsame, hshareable⟩
  have hfreed := halloc.freeSlot hpeer hcount hslot (Peer.setNodeCount 0) rfl rfl
  refine ⟨⟨?_, fun hlaid => (hlayout hlaid).free hslot hid⟩, hframe, hsame, hshareable⟩
  rw [← hpeers] at hfreed
  rw [hframe.nextPeerId, hsame, hframe.totalPeersScore]
  exact hfreed

/-- The state between the two halves of `removeNodeFromPeer`. -/
def share (s : PeerManager) (shareable : ProofTree) : PeerManager :=
  { s with shareableProofs := shareable }

section RemoveNode

variable (h : Slotted laid s) (hshare : Sharing ids s)
  (hknown : forall p, p ∈ s.peers -> ids.known p.getProofId)

include h hshare hknown

theorem unshare_returns (hpeer : peer ∈ s.peers) (hcount : 0 < peer.nodeCount) :
    Returns (unshare peer.getProofId) (s.setNodeCount peer.peerid 0) fun _ t =>
      (exists shareable, t = (s.setNodeCount peer.peerid 0).share shareable) ∧ Sharing ids t := by
  have hhas := hshare.shared peer hpeer (.inl hcount)
  have hknown := hknown peer hpeer
  apply Returns.get_bind
  split
  · exact Returns.pure ⟨⟨_, rfl⟩, hshare.setNodeCount hpeer hcount 0⟩
  · rename_i hlocal
    rcases hshare.tree.remove hknown with ⟨hsound, hremoved⟩
    apply Returns.require_bind (hshare.tree.isSome_remove hknown hhas)
    refine Returns.set ⟨⟨_, rfl⟩, hsound, ?_, ?_⟩
    · intro p hp hconnected
      rcases mem_modify.mp hp with ⟨hold, hne⟩ | ⟨q, hq, hid, rfl⟩
      · have hother : p.getProofId ≠ peer.getProofId :=
          fun heq => hne (congrArg Peer.peerid (h.allocation.unique p peer hold hpeer heq))
        exact (hremoved _).mpr ⟨hshare.shared p hold hconnected, hother⟩
      · rcases hconnected with hpos | hlocal'
        · cases hpos
        · rw [eq_of_key_eq hq hpeer hid] at hlocal'
          exact absurd hlocal' hlocal
    · intro id hid
      exact hshare.bound_modify (fun _ => rfl) ((hremoved id).mp hid).left

theorem removeNodeFromPeer_returns {peerid : PeerId}
    (hcount : forall p, p ∈ s.peers -> p.peerid = peerid -> count ≤ p.nodeCount) :
    Returns (removeNodeFromPeer peerid count) s fun b t =>
      Slotted laid t ∧ Sharing ids t ∧ SlotFrame s t ∧ (0 < count -> b = true) ∧
        t.peers = s.peers.modify peerid (Peer.dropNodes count) := by
  apply Returns.get_bind
  cases hfind : s.peers.find? peerid with
  | none =>
    have hnone := find?_eq_none.mp hfind
    refine Returns.pure ⟨h, hshare, SlotFrame.refl s, fun _ => rfl, (modify_eq_self ?_).symm⟩
    intro p hp hid
    exact absurd hid (hnone p hp)
  | some peer =>
    rcases find?_eq_some.mp hfind with ⟨hpeer, rfl⟩
    apply Returns.require_bind (hcount peer hpeer rfl)
    split
    · rename_i hzero
      subst hzero
      exact Returns.pure
        ⟨h, hshare, SlotFrame.refl s, nofun, (modify_eq_self fun _ _ _ => rfl).symm⟩
    · rename_i hsome
      have hpos : 0 < peer.nodeCount := (Nat.pos_of_ne_zero hsome).trans_le (hcount peer hpeer rfl)
      have hpeers : (s.setNodeCount peer.peerid (peer.nodeCount - count)).peers =
          s.peers.modify peer.peerid (Peer.dropNodes count) := modify_congr hpeer rfl
      apply Returns.set_bind
      split
      · rename_i hleft
        exact Returns.pure ⟨setNodeCount_pos h hpeer hpos hleft,
          hshare.setNodeCount hpeer hpos _, by repeat constructor, fun _ => rfl, hpeers⟩
      · rename_i hlast
        have hzero : peer.nodeCount - count = 0 := Nat.eq_zero_of_not_pos hlast
        rw [hzero] at hpeers ⊢
        apply Returns.bind (unshare_returns h hshare hknown hpeer hpos)
        rintro _ _ ⟨⟨shareable, rfl⟩, hmidshare⟩
        have hframe : SlotFrame s ((s.setNodeCount peer.peerid 0).share shareable) := by
          repeat constructor
        generalize hmid : (s.setNodeCount peer.peerid 0).share shareable = mid at *
        have halloc : Allocation mid.nextPeerId s.peers mid.slots mid.connectedPeersScore
            mid.totalPeersScore := hmid ▸ h.allocation
        have hlayout : laid -> Layout mid.slots mid.slotCount mid.fragmentation := hmid ▸ h.layout
        have hmidpeers : mid.peers = s.peers.modify peer.peerid (Peer.setNodeCount 0) := hmid ▸ rfl
        apply Returns.bind (deallocate_returns halloc hlayout hpeer hpos hmidpeers)
        rintro _ _ ⟨ht, hframe', htpeers, htshare⟩
        refine Returns.pure ⟨ht, hmidshare.congr htpeers htshare hframe'.localProof,
          hframe.trans hframe', fun _ => rfl, ?_⟩
        rw [htpeers, hmidpeers]
        exact hpeers

end RemoveNode

theorem addNodeToPeer_returns (h : Slotted laid s) (hpeer : peer ∈ s.peers) :
    Returns (addNodeToPeer peer.peerid) s fun b t =>
      Slotted laid t ∧ SlotFrame s t ∧ b = true ∧ t.shareableProofs = s.shareableProofs ∧
        t.peers = s.peers.modify peer.peerid (Peer.addNode s.slots.length) := by
  apply Returns.get_bind
  rw [find?_eq_some.mpr ⟨hpeer, rfl⟩]
  dsimp only
  split
  · rename_i hcount
    apply Returns.set_bind
    refine Returns.pure ⟨setNodeCount_pos h hpeer hcount (Nat.succ_pos _),
      by repeat constructor, rfl, rfl, modify_congr hpeer ?_⟩
    show ({ peer with nodeCount := peer.nodeCount + 1 } : Peer) =
      { peer with nodeCount := peer.nodeCount + 1, index := if 0 < peer.nodeCount then _ else _ }
    rw [if_pos hcount]
  · rename_i hcount
    have hzero : peer.nodeCount = 0 := Nat.eq_zero_of_not_pos hcount
    apply Returns.set_bind
    refine Returns.pure ⟨⟨?_, ?_⟩, by repeat constructor, rfl, rfl, modify_congr hpeer ?_⟩
    · exact h.allocation.allocate hpeer hzero s.slotCount (Peer.connect s.slots.length) rfl rfl
        (Nat.succ_pos _)
    · intro hlaid
      exact (h.layout hlaid).push peer.getScore peer.peerid
    show ({ peer with nodeCount := peer.nodeCount + 1, index := s.slots.length } : Peer) =
      { peer with nodeCount := peer.nodeCount + 1, index := if 0 < peer.nodeCount then _ else _ }
    rw [if_neg hcount]

end PeerManager

end ECash.Avalanche
