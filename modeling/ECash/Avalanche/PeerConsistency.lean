import ECash.Avalanche.Registration

/-!
# Consistency of the peer manager

The periodic operations keep the invariant as well, so it holds after every sequence
of calls, and the manager's own consistency check follows from it.  They register only
proofs that they have taken out of their pools before, so they keep the proofs apart.
-/

namespace ECash.Avalanche

open Coins Foundation List IndexedSet

/-- What is known about the world: the clock runs after the epoch, and a proof that is
found valid or immature stakes at least one coin and none twice; the ids of these proofs
differ in their low 64 bits. -/
structure World.Sound (w : World) : Prop where
  clock : forall i, 0 < w.steadyTime i
  stakes : forall i proof, w.Passes i proof -> proof.WellFormed
  apart : forall i j proof other, w.Passes i proof -> w.Passes j other ->
    proof.proofid.val % 2 ^ 64 = other.proofid.val % 2 ^ 64 -> proof.proofid = other.proofid

def World.Sound.ids {w : World} (hw : w.Sound) : KnownIds where
  known id := exists i proof, w.Passes i proof ∧ proof.proofid = id
  apart := by
    rintro _ _ ⟨i, proof, hproof, rfl⟩ ⟨j, other, hother, rfl⟩
    exact hw.apart i j proof other hproof hother

/-- The slots are laid and the nodes have request times if `strict` holds. -/
def World.Sound.scope {w : World} (hw : w.Sound) (apart strict : Prop) : PeerManager.Scope :=
  { ids := hw.ids, apart, laid := strict, timed := strict }

theorem World.Sound.admissible {w : World} (hw : w.Sound) (i : Nat) (proof : Proof)
    (h : w.Passes i proof) : proof.Admissible hw.ids :=
  ⟨hw.stakes i proof h, i, proof, h, rfl⟩

namespace PeerManager

/-!
## Periodic maintenance
-/

variable {proof : Proof} {operations : List Operation} {s : PeerManager} {k : Scope}
  {operation : Operation} {seen : List OutPoint}

section Maintenance

variable {w : World} {R : ProofId -> Prop} {P : PeerManager -> Prop} (hP : Carried k w R P)
  (hclock : k.timed -> forall i, 0 < w.steadyTime i)
  (hverify : forall i proof, w.Passes i proof -> proof.Admissible k.ids)
  (hall : forall id, R id) (h : Sorted k P s)

include hP h

theorem Sorted.observed : Sorted k P { s with readings := s.readings + 1 } :=
  h.quiet (h.toConsistent.observed hP) fun id => quiet_observed id s

theorem isNewlyDangling_returns (now : Int) (peer : Peer) :
    Returns (isNewlyDangling w now peer) s fun _ t => Sorted k P t := by
  apply Returns.get_bind
  split
  · apply observe_bind
    exact Returns.pure (h.observed hP)
  · exact Returns.pure h

theorem isPulledBack_returns (proof : Proof) :
    Returns (isPulledBack w proof) s fun _ t => Sorted k P t :=
  observe_bind (Returns.pure (h.observed hP))

include hclock hverify hall

theorem registerProofs_returns (proofs : List Proof) :
    Returns (registerProofs w proofs) s fun _ t => Sorted k P t := by
  induction proofs generalizing s with
  | nil => exact Returns.pure h
  | cons proof rest ih =>
    apply Returns.modify_bind
    have hgood := h.toGood
    have hremoved : Sorted k P
        { s with danglingProofPool := s.danglingProofPool.removeProof proof.proofid } :=
      h.quiet ⟨hgood.setPool hP (hgood.core.poolsFormed.dangling.removeProof proof.proofid)
        .dangling, h.exact⟩ (quiet_remove .dangling s proof.proofid)
    apply Returns.bind (registerProof_sorted hP hclock hverify hremoved (fun id _ => hall id)
      fun _ => safeRegister_default (containsProof_removeProof_self _ _))
    rintro _ _ ⟨ht, _⟩
    apply Returns.bind (ih ht)
    intro registered u hu
    exact Returns.pure hu

theorem evictDangling_returns (hformed : proof.Admissible k.ids) :
    Returns (evictDangling w proof) s fun _ t => Sorted k P t := by
  apply Returns.bind (rejectProof_returns hP hclock hverify h proof.proofid (fun _ => hall)
    .invalidate)
  rintro _ _ ⟨ht, hrejected⟩
  apply (addToDanglingPool_good hP ht.toGood hformed).mono
  rintro _ _ ⟨hu, henters, hsame⟩
  refine ⟨ht.samePeers hu hsame, fun hapart => ?_⟩
  exact (ht.single hapart).enters henters fun a ha => absurd ha ((hrejected hapart).right rfl a)

theorem cleanupDanglingProofs_returns :
    Returns (cleanupDanglingProofs w) s fun _ t => Sorted k P t := by
  apply observe_bind
  apply Returns.get_bind
  apply Returns.bind (Returns.filterM (Sorted k P)
    (fun peer t _ ht => isNewlyDangling_returns hP ht (w.time s.readings) peer) (h.observed hP))
  rintro newlyDangling t ⟨ht, hnewly⟩
  apply Returns.bind (Returns.filterM (Sorted k P)
    (fun proof u _ hu => isPulledBack_returns hP hu proof) ht)
  rintro previouslyDangling _ ⟨hu, _⟩
  apply Returns.bind (registerProofs_returns hP hclock hverify hall hu previouslyDangling)
  intro registered v hv
  have hevict : Returns ((newlyDangling.map Peer.proof).forM (evictDangling w)) v
      fun _ t => Sorted k P t := by
    refine Returns.forM (Sorted k P) ?_ hv
    intro proof x hproof hx
    rcases mem_map.mp hproof with ⟨peer, hpeer, rfl⟩
    exact evictDangling_returns hP hclock hverify hall hx
      (h.core.peersFormed peer (hnewly peer hpeer))
  apply Returns.bind hevict
  intro _ x hx
  apply Returns.modify_bind
  exact Returns.pure (hx.quiet ⟨hx.setNeedMoreNodes hP _, hx.exact⟩
    fun _ => Quiet.of_le fun _ ha => ha)

/-- The scan registers proofs that are not dangling; all other proofs stay away. -/
theorem rescanEntries_returns {entries : List ProofPoolEntry} (registered : List Proof)
    (hdangling : k.apart ->
      forall entry, entry ∈ entries -> s.isDangling entry.proof.proofid = false) :
    Returns (rescanEntries w entries registered) s fun _ t => Sorted k P t ∧
      (k.apart -> forall id, (forall entry, entry ∈ entries -> entry.proof.proofid ≠ id) ->
        Nowhere s id -> Nowhere t id) := by
  induction entries generalizing s registered with
  | nil => exact Returns.pure ⟨h, fun _ _ _ hs => hs⟩
  | cons entry rest ih =>
    have hrest := fun hapart e he => hdangling hapart e (mem_cons_of_mem entry he)
    unfold rescanEntries
    split
    · apply (ih h registered hrest).mono
      rintro _ t ⟨ht, hnowhere⟩
      exact ⟨ht, fun hapart id hne =>
        hnowhere hapart id (forall_mem_cons.mp hne).2⟩
    · apply Returns.bind (registerProof_sorted hP hclock hverify h (fun id _ => hall id)
        fun hapart => safeRegister_default (hdangling hapart entry mem_cons_self))
      rintro _ t ⟨ht, hplaced⟩
      have hrest' : k.apart -> forall e, e ∈ rest -> t.isDangling e.proof.proofid = false := by
        intro hapart e he
        rw [Bool.eq_false_iff]
        intro hin
        have hold : s.isDangling e.proof.proofid = true := by
          by_cases hid : e.proof.proofid = entry.proof.proofid
          · rw [hid] at hin ⊢
            exact (hplaced hapart).dangling hin
          · exact ((hplaced hapart).others _ hid).dangling hin
        exact absurd hold (hrest hapart e he ▸ Bool.false_ne_true)
      apply (ih ht _ hrest').mono
      rintro _ _ ⟨hu, hnowhere⟩
      refine ⟨hu, fun hapart id hne hs => ?_⟩
      apply hnowhere hapart id (forall_mem_cons.mp hne).2
      exact ((hplaced hapart).others id (hne entry mem_cons_self).symm).nowhere hs

theorem rescan_returns :
    Returns (rescan w) s fun _ t => Sorted k P t ∧
      (k.apart -> forall id, Nowhere s id -> Nowhere t id) := by
  apply Returns.get_bind
  apply Returns.set_bind
  have hquiet : forall id, Quiet id s (s.setPool ProofPool.empty .immature) :=
    fun id => Quiet.of_le fun _ => setPool_le nofun
  have hempty : Sorted k P (s.setPool ProofPool.empty .immature) :=
    h.quiet ⟨h.setPool hP (show PoolFormed k.ids ProofPool.empty from nofun)
      .immature, h.exact⟩ hquiet
  have himmature : forall entry, entry ∈ s.immatureProofPool.pool.items ->
      s.isImmature entry.proof.proofid = true := fun entry hentry =>
    ProofPool.containsProof_iff.mpr ⟨entry, hentry, rfl⟩
  apply (rescanEntries_returns hP hclock hverify hall hempty [] fun hapart entry hentry =>
    Bool.eq_false_iff.mpr fun hin => nomatch h.single hapart _ .immature .dangling
      (himmature entry hentry) hin).mono
  rintro _ _ ⟨ht, hnowhere⟩
  refine ⟨ht, fun hapart id hs => hnowhere hapart id ?_ ((hquiet id).nowhere hs)⟩
  intro entry hentry heq
  exact hs .immature (heq ▸ himmature entry hentry)

omit hclock hverify hall in
theorem addToImmaturePool_loop {proofs : List Proof}
    (hformed : forall proof, proof ∈ proofs -> proof.Admissible k.ids)
    (hnowhere : k.apart -> forall proof, proof ∈ proofs -> Nowhere s proof.proofid) :
    Returns (proofs.forM (addToImmaturePool w)) s fun _ t => Sorted k P t := by
  have hloop : Returns (proofs.forM (addToImmaturePool w)) s fun _ t =>
      Sorted k P t ∧ (k.apart -> forall proof, proof ∈ proofs ->
        forall a, t.At proof.proofid a -> a = .immature) := by
    refine Returns.forM (fun t => Sorted k P t ∧ (k.apart -> forall proof,
      proof ∈ proofs -> forall a, t.At proof.proofid a -> a = .immature)) ?_
      ⟨h, fun hapart proof hproof a ha => absurd ha (hnowhere hapart proof hproof a)⟩
    rintro proof _ hproof ⟨ht, honly⟩
    apply (addToImmaturePool_good hP ht.toGood (hformed proof hproof)).mono
    rintro _ _ ⟨hu, henters, hsame⟩
    exact ⟨⟨ht.samePeers hu hsame, fun hapart =>
      (ht.single hapart).enters henters (honly hapart proof hproof)⟩,
      fun hapart other hother => henters.only (honly hapart other hother)⟩
  exact hloop.mono fun _ _ ht => ht.left

theorem updatedBlockTip_returns : Returns (updatedBlockTip w) s fun _ t => Sorted k P t := by
  apply Returns.get_bind
  have hcheck : Returns (s.peers.items.mapM (verifyPeer w)) s fun checked t =>
      Sorted k P t ∧
        forall c : Proof × ProofValidationResult, c ∈ checked -> c.1.Admissible k.ids := by
    refine Returns.mapM (Sorted k P)
      (fun c : Proof × ProofValidationResult => c.1.Admissible k.ids) ?_ h
    intro peer t hpeer ht
    apply observe_bind
    exact Returns.pure ⟨ht.observed hP, h.core.peersFormed peer hpeer⟩
  apply Returns.bind hcheck
  rintro checked t ⟨ht, hchecked⟩
  have hinvalidate : forall proofs : List Proof, Returns (proofs.forM (invalidate w)) t
      fun _ u => Sorted k P u ∧
        (k.apart -> forall proof, proof ∈ [] ++ proofs -> Nowhere u proof.proofid) := by
    intro proofs
    refine Returns.forM_done (fun (done : List Proof) u => Sorted k P u ∧
      (k.apart -> forall proof, proof ∈ done -> Nowhere u proof.proofid)) ?_
      ⟨ht, fun _ _ hproof => absurd hproof not_mem_nil⟩
    rintro _ proof u _ ⟨hu, hdone⟩
    apply Returns.bind (rejectProof_returns hP hclock hverify hu proof.proofid (fun _ => hall)
      .invalidate)
    rintro _ v ⟨hv, hrejected⟩
    refine Returns.pure ⟨hv, fun hapart other hother => ?_⟩
    rcases hrejected hapart with ⟨hkept, hnowhere⟩
    rcases mem_append.mp hother with hold | hnew
    · exact hkept.nowhere _ (hdone hapart other hold)
    · rw [mem_singleton.mp hnew]
      exact hnowhere rfl
  apply Returns.bind (hinvalidate _)
  rintro _ _ ⟨hu, hgone⟩
  apply Returns.bind (rescan_returns hP hclock hverify hall hu)
  rintro _ _ ⟨hv, hnowhere⟩
  have hmem : forall proof : Proof, proof ∈ (checked.filter fun c : Proof × ProofValidationResult =>
        c.2 = .immatureUtxo).map Prod.fst ->
      proof.Admissible k.ids ∧ proof ∈ (checked.filter fun c : Proof × ProofValidationResult =>
        c.2 ≠ .none).map Prod.fst := by
    intro proof hproof
    rcases mem_map.mp hproof with ⟨c, hc, rfl⟩
    rcases mem_filter.mp hc with ⟨hc, himmature⟩
    refine ⟨hchecked c hc, mem_map.mpr ⟨c, mem_filter.mpr ⟨hc, ?_⟩, rfl⟩⟩
    rw [of_decide_eq_true himmature]
    rfl
  apply Returns.bind (addToImmaturePool_loop hP hv (fun proof hproof => (hmem proof hproof).left)
    fun hapart proof hproof =>
      hnowhere hapart _ (hgone hapart proof (hmem proof hproof).right))
  intro _ x hx
  exact Returns.pure hx

end Maintenance

/-!
## Nodes
-/

variable {w : World}

theorem Core.modifyNode (h : Core k s) (nodeid : NodeId) (update : Update Node.nodeid)
    (hpeer : forall n, (update n).peerid = n.peerid)
    (htime : k.timed -> forall n, n ∈ s.nodes -> 0 < (update n).nextRequestTime) :
    Core k { s with nodes := s.nodes.modify nodeid update } :=
  { h with
    slotted := ⟨h.slotted.allocation, h.slotted.layout⟩
    sharing := { h.sharing with }
    counted := by
      intro p hp
      have hcount : forall id, (s.nodes.modify nodeid update).items.countP
          (fun n => n.peerid = id) = s.boundNodes id := by
        intro id
        show (s.nodes.items.map _).countP _ = s.nodes.items.countP _
        rw [countP_map]
        apply countP_congr
        intro n _
        simp only [Function.comp_apply, decide_eq_true_eq]
        split
        · rw [hpeer]
        · exact Iff.rfl
      exact (h.counted p hp).trans (hcount p.peerid).symm
    nodePeer := by
      intro n hn
      rcases mem_modify.mp hn with ⟨hold, _⟩ | ⟨m, hm, _, rfl⟩
      · exact h.nodePeer n hold
      · exact hpeer m ▸ h.nodePeer m hm
    nodeTime := by
      intro ht n hn
      rcases mem_modify.mp hn with ⟨hold, _⟩ | ⟨m, hm, _, rfl⟩
      · exact h.nodeTime ht n hold
      · exact htime ht m hm }

theorem addNode_returns (h : Core k s) (hclock : k.timed -> forall i, 0 < w.steadyTime i)
    (nodeid : NodeId) (id : ProofId) :
    Returns (addNode w nodeid id) s fun _ t =>
      Core k t ∧
        ((exists u, NodeRemoved nodeid s u ∧
            t = { u with pendingNodes := u.pendingNodes.insert ⟨id, nodeid⟩ }) ∨
          exists peer, peer ∈ s.peers ∧ NodeBound w peer.peerid peer.getProofId nodeid s t) := by
  apply Returns.get_bind
  cases hfind : s.findPeer id with
  | none =>
    apply Returns.bind (removeNode_returns h nodeid)
    rintro _ u ⟨hu, hremoved⟩
    apply Returns.modify_bind
    exact Returns.pure ⟨hu.setPending _, .inl ⟨u, hremoved, rfl⟩⟩
  | some peer =>
    have hpeer := (findPeer_eq_some hfind).left
    exact (addOrUpdateNode_returns h hclock hpeer nodeid).mono
      fun _ t ⟨ht, hbound⟩ => ⟨ht, .inr ⟨peer, hpeer, hbound⟩⟩

/-!
## Runs
-/

theorem carried_true (k : Scope) (w : World) (R : ProofId -> Prop) :
    Carried k w R fun _ => True where
  frame := fun _ _ _ _ _ _ _ _ => trivial
  bound := fun _ _ _ _ _ _ _ _ _ => trivial
  removed := fun _ _ _ _ _ _ _ _ => trivial
  inserted := fun _ _ _ _ _ _ => trivial

theorem Consistent.start (k : Scope) (localProof : Option Proof) :
    Consistent k (fun _ => True) (PeerManager.start localProof) where
  toGood := ⟨Core.start k localProof, trivial⟩
  exact := by
    intro entry
    constructor
    · nofun
    · rintro ⟨⟨_, _, hp, _⟩, _⟩
      cases hp

abbrev Invariant (hw : w.Sound) : PeerManager -> Prop :=
  Consistent (hw.scope False True) fun _ => True

/-- The calls other than compaction; a node is never told to wait for a time before the
epoch. -/
def Operation.Regular : Operation -> Prop
  | .updateNextRequestTime _ timeout => 0 < timeout
  | .compact => False
  | _ => True

/-- The calls that change proofs and peers. -/
def Operation.OnProofs : Operation -> Prop
  | .addNode _ _ => False
  | .removeNode _ => False
  | .updateNextRequestTime _ _ => False
  | .latchAvaproofsSent _ => False
  | .compact => False
  | _ => True

/-- The proofs registered from outside are not left in two places. -/
def SafeOperation (w : World) : Operation -> PeerManager -> Prop
  | .registerProof proof mode, s => SafeRegister w proof mode s
  | _, _ => True

/-- The proofs of the peers that a call may remove, by the state before it. -/
def Removes (s : PeerManager) : Operation -> ProofId -> Prop
  | .registerProof proof _, id => s.Disputed proof id
  | .rejectProof id _, _ => s.isBoundToPeer id = true
  | .removePeer peerid, id => exists p, p ∈ s.peers ∧ p.peerid = peerid ∧ p.getProofId = id
  | .cleanupDanglingProofs, _ => True
  | .updatedBlockTip, _ => True
  | _, _ => False

def MeetsAlong (w : World) (cond : Operation -> PeerManager -> Prop) :
    List Operation -> PeerManager -> Prop
  | [], _ => True
  | operation :: rest, s =>
    cond operation s ∧ forall t, perform w operation s = .ok ((), t) -> MeetsAlong w cond rest t

theorem run_along {w : World} {cond : Operation -> PeerManager -> Prop}
    (inv : PeerManager -> Prop) (hstep : forall operation s, inv s -> cond operation s ->
      Returns (perform w operation) s fun _ t => inv t) (h : inv s)
    (hmeets : MeetsAlong w cond operations s) : Returns (run w operations) s fun _ t => inv t := by
  induction operations generalizing s with
  | nil => exact Returns.pure h
  | cons operation rest ih =>
    rcases hmeets with ⟨hcond, hrest⟩
    rcases hstep operation s h hcond with ⟨_, t, hperform, ht⟩
    rcases ih ht (hrest t hperform) with ⟨_, u, hrun, hu⟩
    exact ⟨(), u, stateT_bind_eq_ok.mpr ⟨(), t, hperform, hrun⟩, hu⟩

section Runs

variable {w : World} (hw : w.Sound)

include hw

/-- The calls on proofs keep the invariant and whatever is carried with it, and they keep
the proofs apart. -/
theorem perform_onProofs {P : PeerManager -> Prop} (hP : Carried k w (s.Removes operation) P)
    (hverify : forall i proof, w.Passes i proof -> proof.Admissible k.ids) (h : Sorted k P s)
    (hproofs : operation.OnProofs) (hsafe : k.apart -> SafeOperation w operation s) :
    Returns (perform w operation) s fun _ t => Sorted k P t := by
  have hclock : k.timed -> forall i, 0 < w.steadyTime i := fun _ => hw.clock
  cases operation with
  | addNode nodeid id => exact hproofs.elim
  | removeNode nodeid => exact hproofs.elim
  | updateNextRequestTime nodeid timeout => exact hproofs.elim
  | latchAvaproofsSent nodeid => exact hproofs.elim
  | compact => exact hproofs.elim
  | registerProof proof mode =>
    apply Returns.bind (registerProof_sorted hP hclock hverify h (fun _ hid => hid) hsafe)
    rintro _ t ⟨ht, _⟩
    exact Returns.pure ht
  | rejectProof id mode =>
    apply Returns.bind (rejectProof_returns hP hclock hverify h id (fun hid _ => hid) mode)
    rintro _ t ⟨ht, _⟩
    exact Returns.pure ht
  | removePeer peerid =>
    cases hfind : s.peers.find? peerid with
    | none =>
      have hreturn : removePeer w peerid s = .ok (false, s) := by
        apply stateT_bind_eq_ok.mpr
        refine ⟨s, s, rfl, ?_⟩
        rw [hfind]
        rfl
      exact ⟨(), s, stateT_bind_eq_ok.mpr ⟨false, s, hreturn, rfl⟩, h⟩
    | some peer =>
      rcases find?_eq_some.mp hfind with ⟨hpeer, rfl⟩
      apply Returns.bind (removePeer_sorted hP h hpeer ⟨peer, hpeer, rfl, rfl⟩)
      rintro _ t ⟨_, ht, _⟩
      exact Returns.pure ht
  | updateNextPossibleConflictTime peerid nextTime =>
    apply Returns.bind (updateNextPossibleConflictTime_good hP h.toGood peerid nextTime)
    rintro _ t ⟨ht, hsame, hsettled⟩
    exact Returns.pure (h.quiet (h.samePeers ht hsame) hsettled.quiet)
  | setFinalized peerid =>
    have hgood := h.modifyPeer hP peerid Peer.finalize (fun _ => rfl) (fun _ => rfl) fun _ => rfl
    have hhas : KeepsPeers s { s with peers := s.peers.modify peerid Peer.finalize } :=
      fun _ _ => hasPeer_modify fun _ => rfl
    exact Returns.pure (h.quiet (h.samePeers hgood ⟨hhas, rfl⟩)
      fun _ => SamePools.quiet_of_peers ⟨rfl, rfl⟩ hhas)
  | cleanupDanglingProofs =>
    apply Returns.bind (cleanupDanglingProofs_returns hP hclock hverify (fun _ => trivial) h)
    intro _ t ht
    exact Returns.pure ht
  | updatedBlockTip =>
    apply Returns.bind (updatedBlockTip_returns hP hclock hverify (fun _ => trivial) h)
    intro _ t ht
    exact Returns.pure ht

theorem perform_onNodes (h : Core k s) (hnodes : ¬ operation.OnProofs)
    (hcompact : operation ≠ .compact) (hregular : k.timed -> operation.Regular) :
    Returns (perform w operation) s fun _ t =>
      Core k t ∧ SamePeers s t ∧ forall id, Quiet id s t := by
  cases operation with
  | addNode nodeid id =>
    apply Returns.bind (addNode_returns h (fun _ => hw.clock) nodeid id)
    rintro _ t ⟨ht, ⟨_, hremoved, rfl⟩ | ⟨_, _, hbound⟩⟩
    · exact Returns.pure ⟨ht, ⟨hremoved.peers, hremoved.validProofPool⟩,
        fun id => (hremoved.quiet id).trans (Quiet.of_le fun _ ha => ha)⟩
    · exact Returns.pure ⟨ht, hbound.toSamePeers, hbound.quiet⟩
  | removeNode nodeid =>
    apply Returns.bind (removeNode_returns h nodeid)
    rintro _ _ ⟨ht, hremoved⟩
    exact Returns.pure ⟨ht, hremoved.toSamePeers, hremoved.quiet⟩
  | updateNextRequestTime nodeid timeout =>
    refine Returns.pure ⟨?_, ⟨fun _ _ => Iff.rfl, rfl⟩, fun _ => Quiet.of_le fun _ ha => ha⟩
    exact h.modifyNode nodeid _ (fun _ => rfl) fun htimed _ _ => hregular htimed
  | latchAvaproofsSent nodeid =>
    refine Returns.pure ⟨?_, ⟨fun _ _ => Iff.rfl, rfl⟩, fun _ => Quiet.of_le fun _ ha => ha⟩
    exact h.modifyNode nodeid _ (fun _ => rfl) h.nodeTime
  | compact => exact absurd rfl hcompact
  | _ => exact absurd trivial hnodes

theorem perform_returns (h : Invariant hw s) (hregular : operation.Regular) :
    Returns (perform w operation) s fun _ t => Invariant hw t := by
  by_cases hproofs : operation.OnProofs
  · exact (perform_onProofs hw (carried_true _ w _) hw.admissible ⟨h, False.elim⟩ hproofs
      False.elim).mono fun _ _ ht => ht.toConsistent
  · have hcompact : operation ≠ .compact := by
      rintro rfl
      exact hregular
    exact (perform_onNodes hw h.core hproofs hcompact fun _ => hregular).mono
      fun _ _ ⟨ht, hsame, _⟩ => h.samePeers ⟨ht, trivial⟩ hsame

theorem run_returns (hregular : forall operation, operation ∈ operations -> operation.Regular)
    (h : Invariant hw s) : Returns (run w operations) s fun _ t => Invariant hw t :=
  Returns.forM (Invariant hw) (fun _ _ hmem ht => perform_returns hw ht (hregular _ hmem)) h

end Runs

/-!
## The consistency check
-/

def peersUtxos (s : PeerManager) : List OutPoint :=
  s.peers.items.flatMap fun p => p.proof.utxos

section Verify

variable {hw : w.Sound} (h : Invariant hw s) {slots : List Slot}

theorem EndToEnd.pairwise {start : Nat} (h : EndToEnd start slots) :
    (forall slot, slot ∈ slots -> start ≤ slot.start) ∧
      slots.Pairwise fun a b => a.getStop ≤ b.start := by
  induction slots generalizing start with
  | nil => exact ⟨nofun, List.Pairwise.nil⟩
  | cons slot rest ih =>
    rcases h with ⟨hstart, hrest⟩
    rcases ih hrest with ⟨hbehind, hpairwise⟩
    constructor
    · intro other hother
      rcases mem_cons.mp hother with rfl | hother
      · exact Nat.le_of_eq hstart.symm
      · exact Nat.le_trans (hstart ▸ Nat.le_add_right _ _) (hbehind other hother)
    · exact List.Pairwise.cons hbehind hpairwise

/-- One round of the loop over the peers. -/
theorem verifyPeers_cons {p : Peer} {rest : List Peer} {totals result : PeerTotals} :
    s.verifyPeers (p :: rest) totals = some result <->
      exists utxos, s.verifyUtxos p.proof p.proof.utxos totals.peersUtxos = some utxos ∧
        p.nodeCount = s.countNodes p.peerid ∧
        (p.nodeCount ≠ 0 -> s.verifyConnected p = true) ∧
        s.verifyPeers rest ⟨totals.scoreFromAllPeers + p.getScore,
          totals.scoreFromPeersWithNodes + p.connectedScore, utxos⟩ = some result := by
  rw [verifyPeers]
  cases s.verifyUtxos p.proof p.proof.utxos totals.peersUtxos with
  | none => simp
  | some utxos =>
    by_cases hcount : p.nodeCount = 0
    · simp [hcount, Peer.connectedScore]
    · simp [hcount, Peer.connectedScore, Nat.pos_of_ne_zero hcount]

theorem verifySlots_eq {i start acc : Nat} (hlaid : EndToEnd start slots)
    (hpeer : forall (j : Nat) (slot : Slot) (id : PeerId), slots[j]? = some slot ->
      slot.peerid = some id -> exists p, p ∈ s.peers ∧ p.peerid = id ∧ p.index = i + j) :
    s.verifySlots slots i start acc = some (acc + (slots.map Slot.liveScore).sum) := by
  induction slots generalizing i start acc with
  | nil => rfl
  | cons slot rest ih =>
    rcases hlaid with ⟨hstart, hrest⟩
    have hnext : forall (j : Nat) (slot : Slot) (id : PeerId), rest[j]? = some slot ->
        slot.peerid = some id -> exists p, p ∈ s.peers ∧ p.peerid = id ∧ p.index = i + 1 + j := by
      intro j other id hother hid
      rcases hpeer (j + 1) other id hother hid with ⟨p, hp, hpid, hindex⟩
      exact ⟨p, hp, hpid, by omega⟩
    unfold verifySlots
    rw [if_neg (not_lt.mpr hstart.ge), map_cons, sum_cons]
    cases hid : slot.peerid with
    | none =>
      have hdead : slot.liveScore = 0 := by
        unfold Slot.liveScore
        rw [hid]
        rfl
      rw [hdead, zero_add]
      exact ih hrest hnext
    | some id =>
      rcases hpeer 0 slot id rfl hid with ⟨_, hp, rfl, hindex⟩
      dsimp only
      rw [find?_eq_some.mpr ⟨hp, rfl⟩]
      dsimp only
      rw [add_zero] at hindex
      rw [if_neg (not_not_intro hindex), Slot.liveScore_of_some hid, ← add_assoc]
      exact ih hrest hnext

theorem verifySlots_allocated (hallocation : Allocation s.nextPeerId s.peers s.slots
      s.connectedPeersScore s.totalPeersScore) (hlaid : EndToEnd 0 s.slots) :
    s.verifySlots s.slots 0 0 0 = some s.connectedPeersScore := by
  rw [verifySlots_eq hlaid, zero_add, hallocation.liveSlots]
  intro j slot id hslot hid
  rcases hallocation.slotPeer j slot id hslot hid with ⟨p, hp, hpid, hindex, _⟩
  exact ⟨p, hp, hpid, hindex.trans (zero_add j).symm⟩

theorem verifyUtxos_eq {utxos : List OutPoint}
    (hpool : forall utxo, utxo ∈ utxos -> s.validProofPool.getProofByUtxo utxo = some proof)
    (hnodup : (seen ++ utxos).Nodup) : s.verifyUtxos proof utxos seen = some (seen ++ utxos) := by
  induction utxos generalizing seen with
  | nil =>
    rw [append_nil]
    rfl
  | cons utxo rest ih =>
    have hnew : utxo ∉ seen := by
      intro hseen
      exact disjoint_of_nodup_append hnodup hseen mem_cons_self
    rw [append_cons] at hnodup ⊢
    unfold verifyUtxos
    rw [if_neg (not_not_intro (hpool utxo mem_cons_self)), if_neg hnew]
    exact ih (forall_mem_cons.mp hpool).2 hnodup

include h

theorem getProofByUtxo_of_peer {p : Peer} (hp : p ∈ s.peers) {utxo : OutPoint}
    (hutxo : utxo ∈ p.proof.utxos) : s.validProofPool.getProofByUtxo utxo = some p.proof :=
  ProofPool.getProofByUtxo_eq_some.mpr
    ((h.exact ⟨utxo, p.proof⟩).mpr ⟨⟨p.peerid, p, hp, rfl, rfl⟩, hutxo⟩)

/-- A coin is staked by one peer only, since the pool has one proof for it. -/
theorem peersUtxos_nodup : s.peersUtxos.Nodup := by
  apply nodup_flatMap.mpr
  constructor
  · intro p hp
    exact (h.core.peersFormed p hp).distinct
  apply List.Pairwise.imp_of_mem _ s.peers.items_nodup
  intro p q hp hq hne utxo hutxo hutxo'
  have hsame := (getProofByUtxo_of_peer h hp hutxo).symm.trans (getProofByUtxo_of_peer h hq hutxo')
  apply hne
  apply h.core.slotted.allocation.unique p q hp hq
  exact congrArg Proof.proofid (Option.some.inj hsame)

theorem validProofPool_perm :
    (s.validProofPool.pool.items.map ProofPoolEntry.utxo).Perm s.peersUtxos := by
  apply (perm_ext_iff_of_nodup s.validProofPool.pool.nodup (peersUtxos_nodup h)).mpr
  intro utxo
  rw [mem_map]
  unfold peersUtxos
  rw [mem_flatMap]
  constructor
  · rintro ⟨entry, hentry, rfl⟩
    rcases (h.exact entry).mp hentry with ⟨⟨_, p, hp, _, hproof⟩, hutxo⟩
    exact ⟨p, hp, hproof ▸ hutxo⟩
  · rintro ⟨p, hp, hutxo⟩
    exact ⟨⟨utxo, p.proof⟩, (h.exact ⟨utxo, p.proof⟩).mpr ⟨⟨p.peerid, p, hp, rfl, rfl⟩, hutxo⟩, rfl⟩

theorem countNodes_eq (id : PeerId) : s.countNodes id = s.boundNodes id := by
  apply countP_congr
  intro n hn
  have htime := h.core.nodeTime trivial n hn
  simp only [decide_eq_true_eq]
  constructor
  · rintro (⟨hid, _⟩ | ⟨_, hearly⟩)
    · exact hid
    · exact absurd htime (Int.not_lt.mpr hearly)
  · intro hid
    exact .inl ⟨hid, Int.le_of_lt htime⟩

theorem verifyConnected_eq {p : Peer} (hp : p ∈ s.peers) (hcount : 0 < p.nodeCount) :
    s.verifyConnected p = true := by
  rcases h.core.slotted.allocation.peerSlot p hp hcount with ⟨_, hslot, hid, hscore⟩
  unfold verifyConnected
  rw [hslot]
  have hsharing := h.core.sharing
  exact decide_eq_true ⟨hid, hscore, (hsharing.tree.isSome_get (h.core.known p hp)).mpr
    (hsharing.shared p hp (.inl hcount))⟩

theorem verifyPeers_eq {peers : List Peer} (hpeers : forall p, p ∈ peers -> p ∈ s.peers)
    {all connected : Nat} (hnodup : (seen ++ peers.flatMap fun p => p.proof.utxos).Nodup) :
    s.verifyPeers peers ⟨all, connected, seen⟩ =
      some ⟨all + (peers.map Peer.getScore).sum,
        connected + (peers.map Peer.connectedScore).sum,
        seen ++ peers.flatMap fun p => p.proof.utxos⟩ := by
  induction peers generalizing all connected seen with
  | nil =>
    rw [flatMap_nil, append_nil]
    rfl
  | cons p rest ih =>
    have hp := hpeers p mem_cons_self
    have hrest := (forall_mem_cons.mp hpeers).2
    rw [flatMap_cons, ← append_assoc] at hnodup ⊢
    have hutxos := verifyUtxos_eq (fun u hu => getProofByUtxo_of_peer h hp hu)
      (Nodup.of_append_left hnodup)
    rw [verifyPeers_cons, countNodes_eq h, map_cons, map_cons, sum_cons, sum_cons, ← add_assoc,
      ← add_assoc]
    refine ⟨_, hutxos, h.core.counted p hp, fun hcount => ?_, ih hrest hnodup⟩
    exact verifyConnected_eq h hp (Nat.pos_of_ne_zero hcount)

theorem verify_eq_true : s.verify = true := by
  have hallocation := h.core.slotted.allocation
  have hslots := verifySlots_allocated hallocation (h.core.slotted.layout trivial).endToEnd
  have hpeers : s.verifyPeers s.peers.items ⟨0, 0, []⟩ =
      some ⟨0 + (s.peers.items.map Peer.getScore).sum,
        0 + (s.peers.items.map Peer.connectedScore).sum, s.peersUtxos⟩ :=
    verifyPeers_eq h (fun _ hp => hp) (peersUtxos_nodup h)
  unfold verify
  rw [hslots]
  dsimp only
  rw [if_neg (not_not_intro rfl), hpeers]
  apply decide_eq_true
  rw [zero_add, zero_add]
  refine ⟨hallocation.allPeers.symm, hallocation.connectedPeers.symm, ?_, ?_⟩
  · unfold ProofPool.size
    rw [← length_map ProofPoolEntry.utxo, (validProofPool_perm h).length_eq]
  · apply all_eq_true.mpr
    intro proof hproof
    rcases h.core.sharing.bound _ ⟨proof, hproof, rfl⟩ with ⟨p, hp, hid⟩
    exact find?_isSome.mpr ⟨p, hp, decide_eq_true hid⟩

/-- The accounts of the manager agree with each other. -/
structure Accounted (s : PeerManager) : Prop where
  verified : s.verify = true
  ordered : s.slots.Pairwise fun a b => a.getStop ≤ b.start
  liveSlot : forall (i : Nat) (slot : Slot) (id : PeerId), s.slots[i]? = some slot ->
    slot.peerid = some id ->
    exists p, p ∈ s.peers ∧ p.peerid = id ∧ p.index = i ∧ slot.score = p.getScore
  connectedSlots : s.connectedPeersScore = (s.slots.map Slot.liveScore).sum
  connectedPeers : s.connectedPeersScore = (s.peers.items.map Peer.connectedScore).sum
  totalPeers : s.totalPeersScore = (s.peers.items.map Peer.getScore).sum
  nodeCount : forall p, p ∈ s.peers -> p.nodeCount = s.boundNodes p.peerid
  validUtxos : (s.validProofPool.pool.items.map ProofPoolEntry.utxo).Perm s.peersUtxos
  utxosOnce : s.peersUtxos.Nodup
  deadSlots : s.fragmentation = (s.slots.map Slot.deadScore).sum
  lastStop : s.slotCount = (s.slots.getLast?.map Slot.getStop).getD 0
  filled : s.slotCount = s.connectedPeersScore + s.fragmentation

omit h in
theorem sum_liveScore_add_deadScore (slots : List Slot) :
    (slots.map Slot.liveScore).sum + (slots.map Slot.deadScore).sum =
      (slots.map Slot.score).sum := by
  rw [← sum_map_add]
  refine congrArg sum (map_congr_left fun slot _ => ?_)
  unfold Slot.liveScore Slot.deadScore
  split <;> simp

theorem Invariant.accounted : Accounted s := by
  have hallocation := h.core.slotted.allocation
  have hlayout := h.core.slotted.layout trivial
  constructor
  case verified => exact verify_eq_true h
  case ordered => exact (EndToEnd.pairwise hlayout.endToEnd).right
  case liveSlot =>
    intro i slot id hslot hid
    rcases hallocation.slotPeer i slot id hslot hid with ⟨p, hp, hpid, hindex, hcount⟩
    rcases hallocation.peerSlot p hp hcount with ⟨_, hslot', _, hscore⟩
    rw [hindex, hslot] at hslot'
    cases hslot'
    exact ⟨p, hp, hpid, hindex, hscore⟩
  case connectedSlots => exact hallocation.liveSlots
  case connectedPeers => exact hallocation.connectedPeers
  case totalPeers => exact hallocation.allPeers
  case nodeCount => exact h.core.counted
  case validUtxos => exact validProofPool_perm h
  case utxosOnce => exact peersUtxos_nodup h
  case deadSlots => exact hlayout.dead
  case lastStop =>
    rw [hlayout.endToEnd.getStop_getLast?, zero_add]
    exact hlayout.stop
  case filled =>
    rw [hlayout.stop, hlayout.dead, hallocation.liveSlots]
    exact (sum_liveScore_add_deadScore s.slots).symm

end Verify

def sampleProof (id : ProofId) (coins : List OutPoint) (amount : Nat) : Proof where
  proofid := id
  sequence := id.val
  master := 0
  stakes := coins.map fun coin => ⟨coin, amount⟩

/-- Every proof with distinct stakes and a small id is valid, and every other one is not. -/
def sampleWorld : World where
  verify _ proof :=
    if proof.stakes = [] then .noStake
    else if proof.utxos.Nodup ∧ proof.proofid.val < 2 ^ 64 then .none
    else .duplicateStake
  time i := i
  steadyTime i := i + 1
  remotePresence _ _ := none
  conflictingProofCooldown := 0
  setOrder := .linear

/-- Two peers with nodes, a conflicting proof that replaces the first one, the
rejection of the second one and another node. -/
def sampleRun : List Operation :=
  [ .registerProof (sampleProof 1 [⟨1, 0⟩] 300000000) .default, .addNode 10 1,
    .registerProof (sampleProof 2 [⟨2, 0⟩, ⟨2, 1⟩] 200000000) .default,
    .addNode 11 2,
    .updateNextRequestTime 10 1000,
    .registerProof (sampleProof 3 [⟨1, 0⟩, ⟨3, 0⟩] 500000000) .forceAccept,
    .rejectProof 2 .invalidate,
    .addNode 12 3,
    .cleanupDanglingProofs,
    .updatedBlockTip ]

theorem sampleWorld_passes {i : Nat} {proof : Proof} (h : sampleWorld.Passes i proof) :
    proof.WellFormed ∧ proof.proofid.val < 2 ^ 64 := by
  unfold World.Passes sampleWorld at h
  dsimp only at h
  split_ifs at h with hstakes hvalid
  · rcases h with h | h <;> cases h
  · exact ⟨⟨hstakes, hvalid.1⟩, hvalid.2⟩
  · rcases h with h | h <;> cases h

theorem sampleWorld_sound : sampleWorld.Sound where
  clock i := Int.lt_add_one_of_le (Int.natCast_nonneg i)
  stakes _ _ h := (sampleWorld_passes h).1
  apart _ _ proof other h h' heq := by
    rw [Nat.mod_eq_of_lt (sampleWorld_passes h).2,
      Nat.mod_eq_of_lt (sampleWorld_passes h').2] at heq
    exact Fin.ext heq

/-- The same world with a check of the stakes that accepts everything. -/
def carelessWorld : World :=
  { sampleWorld with verify := fun _ _ => .none }

/-- Two proofs with ids that have the same low 64 bits.  Only the first one gets into the
radix tree, and it takes the place of both when its node goes. -/
def collidingRun : List Operation :=
  [ .registerProof (sampleProof 1 [⟨1, 0⟩] 300000000) .default,
    .registerProof (sampleProof (OfNat.ofNat (2 ^ 64 + 1)) [⟨2, 0⟩] 300000000) .default,
    .addNode 10 1,
    .addNode 11 (OfNat.ofNat (2 ^ 64 + 1)),
    .removeNode 10 ]

end PeerManager

end ECash.Avalanche
