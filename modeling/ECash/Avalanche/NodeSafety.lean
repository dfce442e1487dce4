import ECash.Avalanche.Compaction

/-!
# Pending and bound nodes

A node that waits for a proof should not be bound to a peer as well.  Removing a peer
makes its nodes wait again but keeps those whose request time has not come, so the two
sets stay apart as long as no peer with such a node can be removed.
-/

namespace ECash.Avalanche

open Foundation IndexedSet List

namespace PeerManager

/-- No bound node is pending. -/
def Exclusive (s : PeerManager) : Prop :=
  forall n, n ∈ s.nodes -> s.pendingNodes.contains n.nodeid = false

/-- The request time of a node has come, so that removing its peer erases it. -/
def Due (w : World) (s : PeerManager) (n : Node) : Prop :=
  0 ≤ n.nextRequestTime ∧ n.nextRequestTime ≤ w.steadyTime s.readings

def Spared (w : World) (s : PeerManager) (id : PeerId) : Prop :=
  forall n, n ∈ s.nodes -> n.peerid = id -> Due w s n

variable {w : World} {s : PeerManager} {nodeid : NodeId} {t : PeerManager} {peer : Peer}
  {operation : Operation}

theorem Exclusive.nodeBound (h : Exclusive s) {peerid : PeerId} {id : ProofId}
    (hbound : NodeBound w peerid id nodeid s t) : Exclusive t := by
  intro n hn
  rw [hbound.pendingNodes, contains_eq_false]
  intro x hx heq
  rcases mem_erase.mp hx with ⟨hx, hne⟩
  rcases (hbound.nodes n).mp hn with ⟨hold, _⟩ | rfl
  · exact contains_eq_false.mp (h n hold) x hx heq
  · exact hne (heq.trans (boundNode_spec w s peerid nodeid).left)

/-!
## Within one call
-/

/-- What is kept from the state before a call: the two sets of nodes are apart, and the nodes
of the spared peers are due. -/
structure Tracked (w : World) (s0 s : PeerManager) : Prop where
  next : s0.nextPeerId ≤ s.nextPeerId
  old : forall id proof, HasPeer s.peers id proof -> id < s0.nextPeerId -> HasPeer s0.peers id proof
  exclusive : Exclusive s
  due : forall n, n ∈ s.nodes -> Spared w s0 n.peerid -> s.Live n.peerid -> Due w s n

/-- The peers that a call may remove have only nodes that are due. -/
def SafeStep (w : World) (operation : Operation) (s : PeerManager) : Prop :=
  forall p, p ∈ s.peers -> s.Removes operation p.getProofId -> Spared w s p.peerid

section Tracked

variable (hclock : forall i, 0 < w.steadyTime i) (hmono : Monotone w.steadyTime)
  {k : Scope} {s0 : PeerManager} (h0 : Core k s0)

theorem Due.mono {n : Node} (hmono : Monotone w.steadyTime) (h : Due w s n)
    (hle : s.readings ≤ t.readings) : Due w t n :=
  ⟨h.left, Int.le_trans h.right (hmono hle)⟩

theorem pendNodes_contains {id : NodeId} (h : (s.pendNodes peer).pendingNodes.contains id = true) :
    s.pendingNodes.contains id = true ∨
      exists n, n ∈ s.nodes ∧ n.peerid = peer.peerid ∧ n.nodeid = id := by
  have hfold : forall (nodes : List Node) (pending : IndexedSet PendingNode.nodeid),
      (nodes.foldl (fun pending n => pending.insert ⟨peer.getProofId, n.nodeid⟩)
        pending).contains id = true ->
      pending.contains id = true ∨ exists n, n ∈ nodes ∧ n.nodeid = id := by
    intro nodes
    induction nodes with
    | nil => exact fun pending hcontains => .inl hcontains
    | cons n rest ih =>
      intro pending hcontains
      rcases ih _ hcontains with hinsert | ⟨m, hm, hid⟩
      · rcases contains_iff.mp hinsert with ⟨x, hx, hid⟩
        rcases mem_insert.mp hx with hold | ⟨rfl, _⟩
        · exact .inl (contains_iff.mpr ⟨x, hold, hid⟩)
        · exact .inr ⟨n, mem_cons_self, hid⟩
      · exact .inr ⟨m, mem_cons_of_mem n hm, hid⟩
  rcases hfold _ _ h with hold | ⟨n, hn, hid⟩
  · exact .inl hold
  · rcases mem_filter.mp hn with ⟨hn, hpeer⟩
    exact .inr ⟨n, hn, of_decide_eq_true hpeer, hid⟩

omit h0 in
include hmono in
theorem Tracked.frame (h : Tracked w s0 s) (hpeers : KeepsPeers s t)
    (hnodes : t.nodes = s.nodes) (hpending : t.pendingNodes = s.pendingNodes)
    (hnext : t.nextPeerId = s.nextPeerId) (hreadings : s.readings ≤ t.readings) :
    Tracked w s0 t where
  next := hnext ▸ h.next
  old := fun id proof hid => h.old id proof ((hpeers id proof).mp hid)
  exclusive := by
    intro n hn
    rw [hnodes] at hn
    rw [hpending]
    exact h.exclusive n hn
  due := by
    intro n hn hspared hlive
    rw [hnodes] at hn
    exact (h.due n hn hspared (hpeers.live hlive)).mono hmono hreadings

omit h0 in
include hclock hmono in
/-- A pending node is not bound yet, so it is due at once. -/
theorem Tracked.bound (h : Tracked w s0 s) (hpending : s.pendingNodes.contains nodeid = true)
    (hbound : NodeBound w peer.peerid peer.getProofId nodeid s t) : Tracked w s0 t where
  next := hbound.nextPeerId ▸ h.next
  old := fun id proof hid => h.old id proof ((hbound.peers id proof).mp hid)
  exclusive := h.exclusive.nodeBound hbound
  due := by
    intro n hn hspared hlive
    rcases (hbound.nodes n).mp hn with ⟨hold, _⟩ | rfl
    · exact (h.due n hold hspared (hbound.peers.live hlive)).mono hmono
        hbound.readings
    rcases (boundNode_spec w s peer.peerid nodeid).right.right with ⟨m, hm, hid, _⟩ | ⟨_, htime⟩
    · rw [← hid, h.exclusive m hm] at hpending
      cases hpending
    · unfold Due
      rw [htime]
      exact ⟨Int.le_of_lt (hclock _), hmono hbound.readings⟩

include hmono h0 in
theorem Tracked.removed (hsafe : SafeStep w operation s0) (h : Tracked w s0 s)
    (hpeer : peer ∈ s.peers) (hmay : s0.Removes operation peer.getProofId)
    (hremoved : PeerRemoved w peer s t) : Tracked w s0 t := by
  have hhas : forall id proof, HasPeer t.peers id proof -> HasPeer s.peers id proof := by
    rintro id proof ⟨p, hp, hid⟩
    rw [hremoved.peers] at hp
    exact ⟨p, (mem_erase.mp hp).left, hid⟩
  have hspared : Spared w s0 peer.peerid := by
    intro n hn hid
    rcases h.old peer.peerid peer.proof ⟨peer, hpeer, rfl, rfl⟩ (hid ▸ h0.nodePeer n hn) with
      ⟨q, hq, hqid, hproof⟩
    have hmay' : s0.Removes operation q.getProofId := by
      unfold Peer.getProofId at hmay ⊢
      rw [hproof]
      exact hmay
    exact hsafe q hq hmay' n hn (hid.trans hqid.symm)
  have hnodes : forall n, n ∈ t.nodes -> n ∈ s.nodes ∧ n.peerid ≠ peer.peerid := by
    intro n hn
    rw [hremoved.nodes] at hn
    rcases mem_eraseIf.mp hn with ⟨hold, hkept⟩
    refine ⟨hold, fun hid => of_decide_eq_false hkept ?_⟩
    exact ⟨hid, h.due n hold (hid ▸ hspared) ⟨peer, hpeer, hid.symm⟩⟩
  constructor
  case next => exact hremoved.nextPeerId ▸ h.next
  case old => exact fun id proof hid => h.old id proof (hhas id proof hid)
  case exclusive =>
    intro n hn
    rcases hnodes n hn with ⟨hold, hne⟩
    rw [hremoved.pendingNodes, Bool.eq_false_iff]
    intro hcontains
    rcases pendNodes_contains hcontains with hpending | ⟨_, hm, hid, hsame⟩
    · rw [h.exclusive n hold] at hpending
      cases hpending
    · exact hne (eq_of_key_eq hm hold hsame ▸ hid)
  case due =>
    rintro n hn hspared' ⟨p, hp, hid⟩
    rcases hhas n.peerid p.proof ⟨p, hp, hid, rfl⟩ with ⟨q, hq, hqid, _⟩
    exact (h.due n (hnodes n hn).left hspared' ⟨q, hq, hqid⟩).mono hmono hremoved.readings

omit h0 in
theorem Tracked.inserted (h : Tracked w s0 s) (hcore : Core k s) (proof : Proof)
    (time next : Int) : Tracked w s0 (s.insertPeer proof time next) where
  next := Nat.le_succ_of_le h.next
  old := by
    rintro id _ ⟨p, hp, hid, rfl⟩ hlt
    rcases (mem_insertPeer hcore).mp hp with hold | rfl
    · exact h.old id p.proof ⟨p, hold, hid, rfl⟩ hlt
    · exact absurd (hlt.trans_le h.next) (hid ▸ Nat.lt_irrefl _)
  exclusive := h.exclusive
  due := by
    rintro n hn hspared ⟨p, hp, hid⟩
    rcases (mem_insertPeer hcore).mp hp with hp | rfl
    · exact h.due n hn hspared ⟨p, hp, hid⟩
    · exact absurd (hcore.nodePeer n hn) (hid ▸ Nat.lt_irrefl _)

include hclock hmono h0 in
theorem carried_tracked (hsafe : SafeStep w operation s0) :
    Carried k w (s0.Removes operation) (Tracked w s0) where
  frame := fun _ _ h hpeers hnodes hpending hnext hreadings =>
    h.frame hmono hpeers hnodes hpending hnext hreadings
  bound := fun _ _ _ _ _ h _ hpending hbound => h.bound hclock hmono hpending hbound
  removed := fun _ _ _ _ h hpeer hmay hremoved => h.removed hmono h0 hsafe hpeer hmay hremoved
  inserted := fun _ proof time next hcore h => h.inserted hcore proof time next

omit h0 in
theorem Tracked.start (h : Exclusive s0) : Tracked w s0 s0 where
  next := le_rfl
  old := fun _ _ h _ => h
  exclusive := h
  due := fun n hn hspared _ => hspared n hn rfl

end Tracked

/-!
## Between the calls
-/

section Calls

theorem Exclusive.nodeRemoved (h : Exclusive s) (hremoved : NodeRemoved nodeid s t) :
    Exclusive t ∧ (forall n, n ∈ t.nodes -> n.nodeid ≠ nodeid) ∧
      t.pendingNodes.contains nodeid = false := by
  have hnodes : forall n, n ∈ t.nodes -> n ∈ s.nodes ∧ n.nodeid ≠ nodeid := by
    intro n hn
    rw [hremoved.nodes] at hn
    split at hn
    · rename_i hpending
      refine ⟨hn, fun hid => ?_⟩
      rw [← hid, h n hn] at hpending
      cases hpending
    · exact mem_erase.mp hn
  refine ⟨?_, fun n hn => (hnodes n hn).right, ?_⟩
  · intro n hn
    rw [hremoved.pendingNodes, contains_eq_false]
    intro x hx
    exact contains_eq_false.mp (h n (hnodes n hn).left) x (mem_erase.mp hx).left
  · rw [hremoved.pendingNodes, contains_eq_false]
    intro x hx
    exact (mem_erase.mp hx).right

theorem Exclusive.insertPending (h : Exclusive s) (id : ProofId)
    (hnode : forall n, n ∈ s.nodes -> n.nodeid ≠ nodeid) :
    Exclusive { s with pendingNodes := s.pendingNodes.insert ⟨id, nodeid⟩ } := by
  intro n hn
  rw [contains_eq_false]
  intro x hx heq
  rcases mem_insert.mp hx with hold | ⟨rfl, _⟩
  · exact contains_eq_false.mp (h n hn) x hold heq
  · exact hnode n hn heq.symm

theorem Exclusive.modifyNode (h : Exclusive s) (nodeid : NodeId) (update : Update Node.nodeid) :
    Exclusive { s with nodes := s.nodes.modify nodeid update } := by
  intro n hn
  rcases mem_modify.mp hn with ⟨hold, _⟩ | ⟨m, hm, _, rfl⟩
  · exact h n hold
  · rw [update.keeps]
    exact h m hm

/-- The invariant without the layout of the slots and the request times. -/
abbrev WeakInvariant (hw : w.Sound) : PeerManager -> Prop :=
  Consistent (hw.scope False False) fun _ => True

variable (hw : w.Sound) (hmono : Monotone w.steadyTime)

include hw hmono

/-- A call on proofs keeps the nodes apart if the peers it may remove are spared. -/
theorem perform_onProofs_exclusive (h : WeakInvariant hw s) (hexclusive : Exclusive s)
    (hproofs : operation.OnProofs) (hsafe : SafeStep w operation s) :
    Returns (perform w operation) s fun _ t => WeakInvariant hw t ∧ Exclusive t := by
  have hP := carried_tracked hw.clock hmono h.core hsafe
  apply (perform_onProofs hw hP hw.admissible
    ⟨⟨⟨h.core, Tracked.start hexclusive⟩, h.exact⟩, False.elim⟩ hproofs False.elim).mono
  rintro _ t ⟨ht, _⟩
  exact ⟨⟨⟨ht.core, trivial⟩, ht.exact⟩, ht.carried.exclusive⟩

theorem perform_exclusive (h : WeakInvariant hw s) (hexclusive : Exclusive s)
    (hsafe : SafeStep w operation s) :
    Returns (perform w operation) s fun _ t => WeakInvariant hw t ∧ Exclusive t := by
  by_cases hproofs : operation.OnProofs
  · exact perform_onProofs_exclusive hw hmono h hexclusive hproofs hsafe
  have hcore := h.core
  cases operation with
  | addNode nodeid id =>
    apply Returns.bind (addNode_returns hcore (fun _ => hw.clock) nodeid id)
    rintro _ t ⟨ht, ⟨_, hremoved, rfl⟩ | ⟨_, _, hbound⟩⟩
    · rcases hexclusive.nodeRemoved hremoved with ⟨hu, hnode, _⟩
      exact Returns.pure ⟨h.samePeers ⟨ht, trivial⟩ ⟨hremoved.peers, hremoved.validProofPool⟩,
        hu.insertPending id hnode⟩
    · exact Returns.pure ⟨h.samePeers ⟨ht, trivial⟩ hbound.toSamePeers,
        hexclusive.nodeBound hbound⟩
  | removeNode nodeid =>
    apply Returns.bind (removeNode_returns hcore nodeid)
    rintro _ t ⟨ht, hremoved⟩
    exact Returns.pure ⟨h.samePeers ⟨ht, trivial⟩ ⟨hremoved.peers, hremoved.validProofPool⟩,
      (hexclusive.nodeRemoved hremoved).left⟩
  | updateNextRequestTime nodeid timeout =>
    refine Returns.pure ⟨h.samePeers ⟨?_, trivial⟩ ⟨fun _ _ => Iff.rfl, rfl⟩,
      hexclusive.modifyNode nodeid _⟩
    exact hcore.modifyNode nodeid _ (fun _ => rfl) False.elim
  | latchAvaproofsSent nodeid =>
    refine Returns.pure ⟨h.samePeers ⟨?_, trivial⟩ ⟨fun _ _ => Iff.rfl, rfl⟩,
      hexclusive.modifyNode nodeid _⟩
    exact hcore.modifyNode nodeid _ (fun _ => rfl) False.elim
  | compact =>
    apply Returns.bind (compact_returns hcore)
    rintro _ _ ⟨ht, hrelaid⟩
    refine Returns.pure ⟨h.samePeers ⟨ht, trivial⟩ hrelaid.toSamePeers, ?_⟩
    unfold Exclusive
    rw [hrelaid.nodes, hrelaid.pendingNodes]
    exact hexclusive
  | _ => exact absurd trivial hproofs

end Calls

/-- Every node is due before each call of a run. -/
def nobodyWaits (w : World) : List Operation -> PeerManager -> Bool
  | [], _ => true
  | operation :: rest, s =>
    s.nodes.items.all (fun n =>
      decide (0 ≤ n.nextRequestTime ∧ n.nextRequestTime ≤ w.steadyTime s.readings)) &&
    match perform w operation s with
    | .ok (_, t) => nobodyWaits w rest t
    | .error _ => true

theorem safe_of_nobodyWaits {operations : List Operation} (h : nobodyWaits w operations s = true) :
    MeetsAlong w (SafeStep w) operations s := by
  induction operations generalizing s with
  | nil => trivial
  | cons operation rest ih =>
    rw [nobodyWaits, Bool.and_eq_true, all_eq_true] at h
    constructor
    · intro _ _ _ n hn _
      have hdue := of_decide_eq_true (h.left n hn)
      exact hdue
    · intro t hperform
      have hrest := h.right
      rw [hperform] at hrest
      exact ih hrest

end PeerManager

end ECash.Avalanche
