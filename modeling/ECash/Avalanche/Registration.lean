import ECash.Avalanche.ProofPlaces

/-!
# Registration and rejection of proofs

Every operation on proofs returns, keeps the invariant of the manager and moves only the
proofs it is about.  The operations consist of a few changes to peers and nodes; a
property that these changes keep is carried through all of them.
-/

namespace ECash.Avalanche

open Coins Foundation List IndexedSet

namespace PeerManager

def Live (s : PeerManager) (id : PeerId) : Prop :=
  exists p, p ∈ s.peers ∧ p.peerid = id

variable {t : PeerManager} {conflicting immature : ProofPool} {needMoreNodes : Bool}
  {readings : Nat} {pool : ProofPool} {proof : Proof} {peer : Peer} {proofs : List Proof}
  {c : Proof} {id : ProofId} {time : Int}

theorem KeepsPeers.live {s : PeerManager} (h : KeepsPeers s t) {id : PeerId} (hlive : t.Live id) :
    s.Live id := by
  rcases hlive with ⟨p, hp, hid⟩
  rcases (h id p.proof).mp ⟨p, hp, hid, rfl⟩ with ⟨q, hq, hqid, _⟩
  exact ⟨q, hq, hqid⟩

/-- A property of the peers and nodes that the changes made by registration and
rejection keep, if the peers that are removed have proofs in `R`. -/
structure Carried (k : Scope) (w : World) (R : ProofId -> Prop) (P : PeerManager -> Prop) :
    Prop where
  frame : forall s t, P s -> KeepsPeers s t -> t.nodes = s.nodes ->
    t.pendingNodes = s.pendingNodes -> t.nextPeerId = s.nextPeerId -> s.readings ≤ t.readings -> P t
  bound : forall s t peer nodeid, Core k s -> P s -> peer ∈ s.peers ->
    s.pendingNodes.contains nodeid = true ->
    NodeBound w peer.peerid peer.getProofId nodeid s t -> P t
  removed : forall s t peer, Core k s -> P s -> peer ∈ s.peers ->
    R peer.getProofId -> PeerRemoved w peer s t -> P t
  inserted : forall s proof time next, Core k s -> P s -> P (s.insertPeer proof time next)

/-- The invariant together with the carried property. -/
structure Good (k : Scope) (P : PeerManager -> Prop) (s : PeerManager) : Prop where
  core : Core k s
  carried : P s

def withPools (s : PeerManager) (valid conflicting immature dangling : ProofPool)
    (needMoreNodes : Bool) (readings : Nat) : PeerManager :=
  { s with
    validProofPool := valid
    conflictingProofPool := conflicting
    immatureProofPool := immature
    danglingProofPool := dangling
    needMoreNodes
    readings }

variable {k : Scope} {w : World} {R : ProofId -> Prop} {P : PeerManager -> Prop} {s : PeerManager}
  (hP : Carried k w R P) (hclock : k.timed -> forall i, 0 < w.steadyTime i)
  (hverify : forall i proof, w.Passes i proof -> proof.Admissible k.ids)

section Good

include hP

namespace Good

variable (h : Good k P s)

include h

theorem withPools {valid dangling : ProofPool}
    (hpools : PoolsFormed k.ids (conflicting, immature, dangling))
    (hreadings : s.readings ≤ readings) :
    Good k P (s.withPools valid conflicting immature dangling needMoreNodes readings) where
  core :=
    { h.core with
      slotted := ⟨h.core.slotted.allocation, h.core.slotted.layout⟩
      sharing := { h.core.sharing with }
      poolsFormed := hpools }
  carried := hP.frame s _ h.carried (fun _ _ => Iff.rfl) rfl rfl rfl hreadings

theorem observed : Good k P { s with readings := s.readings + 1 } :=
  h.withPools hP h.core.poolsFormed (Nat.le_succ _)

theorem setValid (pool : ProofPool) : Good k P { s with validProofPool := pool } :=
  h.withPools hP h.core.poolsFormed le_rfl

theorem setPool (hpool : PoolFormed k.ids pool) (place : Place) :
    Good k P (s.setPool pool place) := by
  cases place with
  | peer => exact h.setValid hP pool
  | conflicting => exact h.withPools hP { h.core.poolsFormed with conflicting := hpool } le_rfl
  | immature => exact h.withPools hP { h.core.poolsFormed with immature := hpool } le_rfl
  | dangling => exact h.withPools hP { h.core.poolsFormed with dangling := hpool } le_rfl

theorem setNeedMoreNodes (needed : Bool) : Good k P { s with needMoreNodes := needed } :=
  h.withPools hP h.core.poolsFormed le_rfl

end Good

end Good

/-!
## Pools
-/

theorem PoolFormed.outcome {p : ProofPool} {r : AddProofResult} (h : PoolFormed k.ids p)
    (hproof : proof.Admissible k.ids) (hr : ProofPool.Outcome p proof r) :
    PoolFormed k.ids r.pool := by
  cases hr with
  | duplicated _ => exact h
  | rejected _ _ _ _ => exact h
  | succeed conflicts q hreplaced =>
    intro entry hentry
    rcases (hreplaced.mem entry).mp hentry with ⟨hold, _⟩ | ⟨hnew, _⟩
    · exact h entry hold
    · exact hnew ▸ hproof

section Pools

variable (h : Good k P s)

include hP h

section

variable (hproof : proof.Admissible k.ids)

include hproof

/-- A proof is offered to the pool of a place. -/
theorem offer_good (place : Place) (hpool : place ≠ .peer) :
    exists r, (s.poolAt place).addProofIfPreferred w.setOrder proof = .ok r ∧
      Good k P (s.setPool r.pool place) ∧
      Enters place proof.proofid s (s.setPool r.pool place) := by
  rcases (s.poolAt place).addProofIfPreferred_outcome w.setOrder hproof.distinct with
    ⟨r, hr, houtcome⟩
  exact ⟨r, hr, h.setPool hP ((h.core.poolsFormed.poolAt hpool).outcome hproof houtcome) place,
    enters_outcome place houtcome⟩

theorem addToConflictingPool_good :
    Returns (addToConflictingPool w proof) s fun _ t =>
      Good k P t ∧ Conflicted proof s t := by
  rcases offer_good hP h hproof .conflicting nofun with ⟨_, hr, ht, henters⟩
  apply Returns.get_bind
  apply Returns.lift_bind hr
  apply Returns.set_bind
  exact Returns.pure ⟨ht, rfl, rfl, rfl, henters⟩

theorem addToDanglingPool_good :
    Returns (addToDanglingPool w proof) s fun _ t =>
      Good k P t ∧ Enters .dangling proof.proofid s t ∧ SamePeers s t := by
  rcases offer_good hP h hproof .dangling nofun with ⟨_, hr, ht, henters⟩
  apply Returns.get_bind
  apply Returns.lift_bind hr
  apply Returns.set
  exact ⟨ht, henters, fun _ _ => Iff.rfl, rfl⟩

theorem addToImmaturePool_good :
    Returns (addToImmaturePool w proof) s fun _ t =>
      Good k P t ∧ Enters .immature proof.proofid s t ∧ SamePeers s t := by
  rcases offer_good hP h hproof .immature nofun with ⟨_, hr, ht, henters⟩
  apply Returns.get_bind
  apply Returns.lift_bind hr
  apply Returns.set
  exact ⟨ht, henters, fun _ _ => Iff.rfl, rfl⟩

end

theorem trimImmaturePool_good :
    Good k P s.trimImmaturePool ∧ (forall id, Quiet id s s.trimImmaturePool) ∧
      SamePeers s s.trimImmaturePool := by
  unfold trimImmaturePool
  split
  · split
    · exact ⟨h.setPool hP (h.core.poolsFormed.immature.removeProof _) .immature,
        quiet_remove .immature s _, fun _ _ => Iff.rfl, rfl⟩
    · exact ⟨h, fun id => Quiet.refl id s, fun _ _ => Iff.rfl, rfl⟩
  · exact ⟨h, fun id => Quiet.refl id s, fun _ _ => Iff.rfl, rfl⟩

end Pools

/-!
## Conflicting peers
-/

section Conflicts

variable (h : Good k P s)

include hP h

theorem removePeer_good (hpeer : peer ∈ s.peers) (hR : R peer.getProofId) :
    Returns (removePeer w peer.peerid) s fun b t =>
      b = true ∧ Good k P t ∧ PeerRemoved w peer s t :=
  (removePeer_returns h.core hpeer).mono fun _ t ⟨hb, hcore, hremoved⟩ =>
    ⟨hb, ⟨hcore, hP.removed s t peer h.core h.carried hpeer hR hremoved⟩, hremoved⟩

omit hP h in
theorem PeerRemoved.hasPeer (hremoved : PeerRemoved w peer s t) (hcore : Core k s)
    (hpeer : peer ∈ s.peers) {id : PeerId} :
    HasPeer t.peers id proof <-> HasPeer s.peers id proof ∧ proof.proofid ≠ peer.getProofId := by
  rw [hremoved.peers]
  constructor
  · rintro ⟨p, hp, hid, rfl⟩
    rcases mem_erase.mp hp with ⟨hold, hne⟩
    refine ⟨⟨p, hold, hid, rfl⟩, fun heq => hne ?_⟩
    exact congrArg Peer.peerid (hcore.slotted.allocation.unique p peer hold hpeer heq)
  · rintro ⟨⟨p, hold, hid, rfl⟩, hne⟩
    refine ⟨p, mem_erase.mpr ⟨hold, fun heq => hne ?_⟩, hid, rfl⟩
    rw [eq_of_key_eq hold hpeer heq]
    rfl

/-- The peers of some proofs are gone, and their utxos are free. -/
structure Moved (proofs : List Proof) (s t : PeerManager) : Prop where
  peers : forall id proof, HasPeer t.peers id proof <->
    HasPeer s.peers id proof ∧ forall c, c ∈ proofs -> proof.proofid ≠ c.proofid
  valid : forall entry, entry ∈ t.validProofPool.pool <->
    entry ∈ s.validProofPool.pool ∧ forall c, c ∈ proofs -> entry.proof.proofid ≠ c.proofid

omit hP h in
theorem Moved.refl (s : PeerManager) : Moved [] s s where
  peers := by simp
  valid := by simp

omit hP h in
theorem Moved.snoc {s u : PeerManager} (hmoved : Moved proofs s t)
    (hpeers : forall id proof, HasPeer u.peers id proof <->
      HasPeer t.peers id proof ∧ proof.proofid ≠ c.proofid)
    (hvalid : forall entry, entry ∈ u.validProofPool.pool <->
      entry ∈ t.validProofPool.pool ∧ entry.proof.proofid ≠ c.proofid) :
    Moved (proofs ++ [c]) s u where
  peers := by
    intro id proof
    rw [hpeers, hmoved.peers, and_assoc, forall_mem_append, forall_mem_singleton]
  valid := by
    intro entry
    rw [hvalid, hmoved.valid, and_assoc, forall_mem_append, forall_mem_singleton]

theorem moveProof_good (hformed : c.Admissible k.ids) (hR : R c.proofid) {done : List Proof}
    {s0 : PeerManager}
    (hmoved : Moved done s0 s) (hsettled : Settled s0 s) (hbound : s0.Bound c.proofid) :
    Returns (moveProof w c) s fun _ t =>
      Good k P t ∧ Moved (done ++ [c]) s0 t ∧ Settled s0 t := by
  apply Returns.get_bind
  cases hfind : s.findPeer c.proofid with
  | some peer =>
    rcases findPeer_eq_some hfind with ⟨hpeer, hid⟩
    apply Returns.bind (removePeer_good hP h hpeer (hid ▸ hR))
    rintro _ _ ⟨_, ht, hremoved⟩
    have hunbound := hremoved.unbound h.core hpeer
    rw [hid] at hunbound
    apply Returns.bind (addToConflictingPool_good hP ht hformed)
    rintro _ u ⟨hu, hconflicted⟩
    refine Returns.pure ⟨hu, hmoved.snoc ?_ ?_,
      (hsettled.trans hremoved.settled).conflicted hbound hunbound hconflicted⟩
    · intro id proof
      rw [hconflicted.peers, hremoved.hasPeer h.core hpeer, hid]
    · intro entry
      rw [hconflicted.validProofPool, hremoved.validProofPool, hid]
      exact ProofPool.mem_removeProof
  | none =>
    have hnone := findPeer_eq_none hfind
    have hunbound : ¬ s.Bound c.proofid := fun ⟨p, hp, hid⟩ => hnone p hp hid
    apply Returns.bind (addToConflictingPool_good hP h hformed)
    rintro _ _ ⟨hu, hconflicted⟩
    -- The peer has been removed in an earlier step.
    have hdone : exists c', c' ∈ done ∧ c.proofid = c'.proofid := by
      rcases hbound with ⟨p, hp, hid⟩
      by_contra hnot
      have hstill := (hmoved.peers p.peerid p.proof).mpr
        ⟨⟨p, hp, rfl, rfl⟩, fun c' hc' heq => hnot ⟨c', hc', hid.symm.trans heq⟩⟩
      rcases hstill with ⟨q, hq, _, hproof⟩
      exact hnone q hq ((congrArg Proof.proofid hproof).trans hid)
    rcases hdone with ⟨c', hc', hsame⟩
    refine Returns.pure ⟨hu, hmoved.snoc ?_ ?_, hsettled.conflicted hbound hunbound hconflicted⟩
    · intro id proof
      rw [hconflicted.peers]
      exact (and_iff_left_of_imp fun hhas =>
        hsame ▸ ((hmoved.peers id proof).mp hhas).right c' hc').symm
    · intro entry
      rw [hconflicted.validProofPool]
      exact (and_iff_left_of_imp fun hmem =>
        hsame ▸ ((hmoved.valid entry).mp hmem).right c' hc').symm

/-- The proofs to move are bound to peers, so their utxos go with the peers. -/
theorem moveToConflictingPool_good (hformed : forall c, c ∈ proofs -> c.Admissible k.ids)
    (hR : forall c, c ∈ proofs -> R c.proofid)
    (hbound : forall c, c ∈ proofs -> s.Bound c.proofid) :
    Returns (moveToConflictingPool w proofs) s fun _ t =>
      Good k P t ∧ Moved proofs s t ∧ Settled s t := by
  refine Returns.forM_done (fun done t => Good k P t ∧ Moved done s t ∧ Settled s t) ?_
    ⟨h, Moved.refl s, Settled.refl s⟩
  rintro _ c _ hc ⟨ht, hmoved, hsettled⟩
  exact moveProof_good hP ht (hformed c hc) (hR c hc) hmoved hsettled (hbound c hc)

theorem Good.modifyPeer (id : PeerId) (update : Update Peer.peerid)
    (hproof : forall p, (update p).proof = p.proof) (hindex : forall p, (update p).index = p.index)
    (hcount : forall p, (update p).nodeCount = p.nodeCount) :
    Good k P { s with peers := s.peers.modify id update } where
  core := by
    refine h.core.samePeers ?_ ?_ fun _ hmem => h.core.sharing.bound_modify hproof hmem
    · refine ⟨h.core.slotted.allocation.modify update hproof hindex ?_, h.core.slotted.layout⟩
      intro p _ _
      rw [hcount p]
    · intro p hp
      rcases mem_modify.mp hp with ⟨hold, _⟩ | ⟨q, hq, _, rfl⟩
      · exact ⟨p, hold, rfl, rfl, rfl⟩
      · exact ⟨q, hq, update.keeps q, hproof q, hcount q⟩
  carried := hP.frame s _ h.carried (fun _ _ => hasPeer_modify hproof) rfl rfl rfl le_rfl

theorem updateNextPossibleConflictTime_good (peerid : PeerId) (nextTime : Int) :
    Returns (updateNextPossibleConflictTime peerid nextTime) s fun _ t =>
      Good k P t ∧ SamePeers s t ∧ Settled s t := by
  apply Returns.get_bind
  cases s.peers.find? peerid with
  | none => exact Returns.pure ⟨h, ⟨fun _ _ => Iff.rfl, rfl⟩, Settled.refl s⟩
  | some peer =>
    apply Returns.set_bind
    have hhas : KeepsPeers s
        { s with peers := s.peers.modify peerid (Peer.delayConflicts nextTime) } :=
      fun _ _ => hasPeer_modify fun _ => rfl
    exact Returns.pure ⟨h.modifyPeer hP peerid (Peer.delayConflicts nextTime) (fun _ => rfl)
      (fun _ => rfl) (fun _ => rfl), ⟨hhas, rfl⟩,
      fun _ => SamePools.quiet_of_peers ⟨rfl, rfl⟩ hhas, fun _ hn => hn⟩

theorem bestPossibleConflictTime_good {next : Int} {best : Int}
    (hbound : forall c, c ∈ proofs -> s.Bound c.proofid) :
    Returns (bestPossibleConflictTime next proofs best) s fun _ t =>
      Good k P t ∧ SamePeers s t ∧ Settled s t := by
  induction proofs generalizing s best with
  | nil => exact Returns.pure ⟨h, ⟨fun _ _ => Iff.rfl, rfl⟩, Settled.refl s⟩
  | cons c rest ih =>
    apply Returns.get_bind
    cases hfind : s.findPeer c.proofid with
    | none =>
      rcases hbound c mem_cons_self with ⟨p, hp, hid⟩
      exact absurd hid (findPeer_eq_none hfind p hp)
    | some peer =>
      apply Returns.bind (updateNextPossibleConflictTime_good hP h peer.peerid next)
      rintro _ t ⟨ht, hsame, hsettled⟩
      have hrest : forall c', c' ∈ rest -> t.Bound c'.proofid := fun c' hc' =>
        (hsame.peers.bound _).mpr (hbound c' (mem_cons_of_mem c hc'))
      apply (ih ht hrest).mono
      rintro _ _ ⟨hu, hsame', hsettled'⟩
      exact ⟨hu, ⟨fun id proof => (hsame'.peers id proof).trans (hsame.peers id proof),
        hsame'.validProofPool.trans hsame.validProofPool⟩, hsettled.trans hsettled'⟩

end Conflicts

/-!
## The valid pool
-/

/-- The pool maps the utxos of some proofs, and no others, to these proofs. -/
def Holds (pool : ProofPool) (owned : Proof -> Prop) : Prop :=
  forall entry, entry ∈ pool.pool <-> owned entry.proof ∧ entry.utxo ∈ entry.proof.utxos

def Registered (s : PeerManager) (proof : Proof) : Prop :=
  exists id, HasPeer s.peers id proof

/-- The invariant: the valid pool belongs to the peers. -/
structure Consistent (k : Scope) (P : PeerManager -> Prop) (s : PeerManager) : Prop extends
    Good k P s where
  exact : Holds s.validProofPool s.Registered

/-- The utxos of a proof are in the valid pool, and the proof is not a peer yet. -/
structure Admitted (k : Scope) (P : PeerManager -> Prop) (proof : Proof) (s : PeerManager) :
    Prop extends Good k P s where
  formed : proof.Admissible k.ids
  holds : Holds s.validProofPool fun q => s.Registered q ∨ q = proof
  unbound : forall p, p ∈ s.peers -> p.getProofId ≠ proof.proofid

section Admission

variable (h : Consistent k P s)

include h

/-- A proof that is not in the valid pool has no peer: its first utxo would be there. -/
theorem Consistent.unbound (hfresh : s.validProofPool.containsProof id = false) : ¬ s.Bound id := by
  rintro ⟨p, hp, hid⟩
  have hformed := h.core.peersFormed p hp
  have hutxos : p.proof.utxos ≠ [] := fun hnil => hformed.staked (map_eq_nil_iff.mp hnil)
  rcases exists_mem_of_ne_nil _ hutxos with ⟨utxo, hutxo⟩
  have hentry := (h.exact ⟨utxo, p.proof⟩).mpr ⟨⟨p.peerid, p, hp, rfl, rfl⟩, hutxo⟩
  exact ProofPool.proofid_ne hfresh _ hentry hid

variable {conflicts : ConflictingProofSet}

section

variable (hconflicts : ProofPool.Conflicts s.validProofPool proof.utxos conflicts)

include hconflicts

theorem Consistent.conflict_registered (hc : c ∈ conflicts) :
    exists p, p ∈ s.peers ∧ p.proof = c := by
  rcases hconflicts.mem c hc with ⟨entry, hentry, _, rfl⟩
  rcases ((h.exact entry).mp hentry).left with ⟨_, p, hp, _, hproof⟩
  exact ⟨p, hp, hproof⟩

theorem Consistent.conflict_bound : forall c, c ∈ conflicts -> s.Bound c.proofid := by
  intro c hc
  rcases h.conflict_registered hconflicts hc with ⟨p, hp, hproof⟩
  exact ⟨p, hp, congrArg Proof.proofid hproof⟩

theorem Consistent.conflict_formed : forall c, c ∈ conflicts -> c.Admissible k.ids := by
  intro c hc
  rcases h.conflict_registered hconflicts hc with ⟨p, hp, rfl⟩
  exact h.core.peersFormed p hp

end

/-- The state after the peers of the conflicting proofs have made room. -/
theorem Consistent.admitted (hformed : proof.Admissible k.ids)
    (hfresh : s.validProofPool.containsProof proof.proofid = false) (ht : Good k P t)
    (hpeers : forall id q, HasPeer t.peers id q <->
      HasPeer s.peers id q ∧ forall c, c ∈ conflicts -> q.proofid ≠ c.proofid)
    (hvalid : forall entry, entry ∈ t.validProofPool.pool <->
      (entry ∈ s.validProofPool.pool ∧ forall c, c ∈ conflicts -> entry.proof.proofid ≠ c.proofid) ∨
      (entry.proof = proof ∧ entry.utxo ∈ proof.utxos)) : Admitted k P proof t where
  toGood := ht
  formed := hformed
  holds := by
    intro entry
    rw [hvalid, h.exact]
    constructor
    · rintro (⟨⟨⟨id, hhas⟩, hutxo⟩, hne⟩ | ⟨hproof, hutxo⟩)
      · exact ⟨.inl ⟨id, (hpeers id entry.proof).mpr ⟨hhas, hne⟩⟩, hutxo⟩
      · exact ⟨.inr hproof, hproof ▸ hutxo⟩
    · rintro ⟨⟨id, hhas⟩ | hproof, hutxo⟩
      · rcases (hpeers id entry.proof).mp hhas with ⟨hold, hne⟩
        exact .inl ⟨⟨⟨id, hold⟩, hutxo⟩, hne⟩
      · exact .inr ⟨hproof, hproof ▸ hutxo⟩
  unbound := by
    intro p hp hid
    rcases ((hpeers p.peerid p.proof).mp ⟨p, hp, rfl, rfl⟩).left with ⟨q, hq, _, hproof⟩
    exact h.unbound hfresh ⟨q, hq, (congrArg Proof.proofid hproof).trans hid⟩

omit h in
theorem Conflicted.samePeers {s : PeerManager} (h : Conflicted proof s t) : SamePeers s t :=
  ⟨fun id q => by rw [h.peers], h.validProofPool⟩

theorem Consistent.samePeers (ht : Good k P t) (hsame : SamePeers s t) : Consistent k P t where
  toGood := ht
  exact := by
    intro entry
    rw [hsame.validProofPool, h.exact]
    exact and_congr_left fun _ => exists_congr fun id => (hsame.peers id entry.proof).symm

include hP

section

variable (hformed : proof.Admissible k.ids)
  (hfresh : s.validProofPool.containsProof proof.proofid = false)
  (hconflicts : ProofPool.Conflicts s.validProofPool proof.utxos conflicts)
  (hR : forall c, c ∈ conflicts -> R c.proofid)

include hformed hfresh hconflicts hR

theorem replaceConflicting_returns (now next : Int) :
    Returns (replaceConflicting w proof conflicts now next) s fun refused t =>
      (refused ≠ none -> Consistent k P t) ∧ (refused = none -> Admitted k P proof t) ∧
        Offered proof True s t := by
  have hunbound := h.unbound hfresh
  apply Returns.bind (bestPossibleConflictTime_good hP h.toGood (h.conflict_bound hconflicts))
  rintro _ t ⟨ht, hsame, hsettled⟩
  have hcons := h.samePeers ht hsame
  split
  · exact Returns.pure ⟨fun _ => hcons, nofun, hsettled.offered hunbound⟩
  apply Returns.get_bind
  rcases t.validProofPool.addProofIfPreferred_outcome w.setOrder hformed.distinct with
    ⟨_, hr, houtcome⟩
  apply Returns.lift_bind hr
  apply Returns.set_bind
  rw [← hsame.validProofPool] at hfresh hconflicts
  cases houtcome with
  | duplicated hdup =>
    rw [hfresh] at hdup
    cases hdup
  | rejected _ _ _ _ =>
    apply Returns.bind (addToConflictingPool_good hP hcons.toGood hformed)
    rintro _ u ⟨hu, hconflicted⟩
    have hucons := hcons.samePeers hu hconflicted.samePeers
    have hoffered := hsettled.contested hunbound hconflicted
    split
    · exact Returns.pure ⟨fun _ => hucons, nofun, hoffered⟩
    · exact Returns.pure ⟨fun _ => hucons, nofun, hoffered⟩
  | succeed others q hreplaced =>
    apply Returns.bind (moveToConflictingPool_good hP (hcons.setValid hP q)
      (hcons.conflict_formed hconflicts) hR (hcons.conflict_bound hconflicts))
    rintro _ _ ⟨hu, hmoved, hsettled'⟩
    refine Returns.pure ⟨fun hne => absurd rfl hne, fun _ => ?_,
      ((hsettled.trans (settled_setValid t q)).trans hsettled').offered hunbound⟩
    refine hcons.admitted hformed hfresh hu hmoved.peers ?_
    intro entry
    rw [hmoved.valid, hreplaced.mem]
    constructor
    · rintro ⟨⟨hold, _⟩ | hnew, hne⟩
      · exact .inl ⟨hold, hne⟩
      · exact .inr hnew
    rintro (⟨hold, hne⟩ | hnew)
    · refine ⟨.inl ⟨hold, fun c' hc' heq => ?_⟩, hne⟩
      -- The pool and the manager see the same conflicts.
      rcases hreplaced.conflicting.mem c' hc' with ⟨entry', hentry', hutxo', rfl⟩
      rcases hconflicts.covered entry' hentry' hutxo' with ⟨c, hc, hcid⟩
      exact hne c hc (heq.trans hcid.symm)
    · refine ⟨.inr hnew, fun c hc heq => ?_⟩
      rcases hconflicts.mem c hc with ⟨entry', hentry', _, rfl⟩
      rw [hnew.left] at heq
      exact ProofPool.proofid_ne hfresh entry' hentry' heq.symm

theorem forceConflicting_returns :
    Returns (forceConflicting w proof conflicts) s fun refused t =>
      refused = none ∧ Admitted k P proof t ∧ Offered proof False s t := by
  apply Returns.modify_bind
  have hremoved := h.setPool hP
    (h.core.poolsFormed.conflicting.removeProof proof.proofid) .conflicting
  apply Returns.bind (moveToConflictingPool_good hP hremoved (h.conflict_formed hconflicts)
    hR (h.conflict_bound hconflicts))
  rintro _ t ⟨ht, hmoved, hsettled⟩
  apply Returns.get_bind
  rcases ProofPool.addProofIfNoConflict_removed w.setOrder hformed.distinct hfresh hconflicts
    hmoved.valid with ⟨q, hq, hreplaced⟩
  apply Returns.lift_bind hq
  apply Returns.set_bind
  apply Returns.require_bind rfl
  have hdropped : Settled s
      { s with conflictingProofPool := s.conflictingProofPool.removeProof proof.proofid } :=
    ⟨quiet_remove .conflicting s proof.proofid, fun _ hn => hn⟩
  exact Returns.pure ⟨rfl, h.admitted hformed hfresh (ht.setValid hP q) hmoved.peers hreplaced.mem,
      ((hdropped.trans hsettled).trans (settled_setValid t q)).offered (h.unbound hfresh)⟩

end

theorem admitProof_returns (hformed : proof.Admissible k.ids)
    (hR : forall id, s.Disputed proof id -> R id) (mode : RegistrationMode) (now next : Int) :
    Returns (admitProof w proof mode now next) s fun refused t =>
      (refused ≠ none -> Consistent k P t) ∧
        (refused = none -> Admitted k P proof t) ∧
        (¬ s.Bound proof.proofid ->
          Offered proof (mode ≠ .forceAccept ∧ s.Contested proof) s t) := by
  rcases s.validProofPool.addProofIfNoConflict_outcome w.setOrder hformed.distinct with
    ⟨r, hr, houtcome, hnone⟩
  apply Returns.get_bind
  apply Returns.lift_bind hr
  apply Returns.set_bind
  cases houtcome with
  | duplicated _ => exact Returns.pure ⟨fun _ => h, nofun, (Settled.refl s).offered⟩
  | rejected conflicts hfresh hsome hconflicts =>
    have hR' : forall c, c ∈ conflicts -> R c.proofid := by
      intro c hc
      rcases hconflicts.mem c hc with ⟨entry, hentry, hutxo, rfl⟩
      exact hR _ ⟨entry, hentry, hutxo, rfl⟩
    dsimp only
    split
    · rename_i hmode
      apply (replaceConflicting_returns hP h hformed hfresh hconflicts hR' now next).mono
      rintro refused t ⟨hrefused, hadmitted, ht⟩
      refine ⟨hrefused, hadmitted, fun _ => { ht with
        self := fun a ha => (ht.self a ha).imp_right fun hnew => ⟨hnew.left, hmode, ?_⟩ }⟩
      rcases exists_mem_of_ne_nil _ hsome with ⟨c, hc⟩
      rcases hconflicts.mem c hc with ⟨entry, hentry, hutxo, _⟩
      exact ⟨entry.utxo, hutxo, contains_iff.mpr ⟨entry, hentry, rfl⟩⟩
    · apply (forceConflicting_returns hP h hformed hfresh hconflicts hR').mono
      rintro _ _ ⟨rfl, hadmitted, ht⟩
      exact ⟨fun hne => absurd rfl hne, fun _ => hadmitted, fun _ => { ht with
        self := fun a ha => (ht.self a ha).imp_right fun hnew => hnew.right.elim }⟩
  | succeed conflicts q hreplaced =>
    cases hnone rfl
    refine Returns.pure ⟨fun hne => absurd rfl hne, fun _ => ?_, (settled_setValid s q).offered⟩
    refine h.admitted hformed hreplaced.fresh (h.setValid hP q) ?_ hreplaced.mem
    simp

end Admission

/-!
## New peers
-/

section NewPeer

def newPeer (s : PeerManager) (proof : Proof) (registrationTime next : Int) : Peer where
  peerid := s.nextPeerId
  proof
  registrationTime
  nextPossibleConflictTime := next

theorem contains_nextPeerId (h : Core k s) : s.peers.contains s.nextPeerId = false := by
  rw [contains_eq_false]
  intro p hp
  exact Nat.ne_of_lt (h.slotted.allocation.fresh p hp)

theorem mem_insertPeer (h : Core k s) {next : Int} {p : Peer} :
    p ∈ (s.insertPeer proof time next).peers <-> p ∈ s.peers ∨ p = s.newPeer proof time next := by
  have hmem : p ∈ s.peers.insert (s.newPeer proof time next) <->
      p ∈ s.peers ∨ (p = s.newPeer proof time next ∧ s.peers.contains s.nextPeerId = false) :=
    mem_insert
  exact hmem.trans (or_congr_right (and_iff_left (contains_nextPeerId h)))

theorem insertPeer_shareable (h : Sharing k.ids s) (hproof : k.ids.known proof.proofid)
    (time next : Int) :
    (s.insertPeer proof time next).shareableProofs.Sound k.ids ∧
      forall id, (s.insertPeer proof time next).shareableProofs.Has id <->
        s.shareableProofs.Has id ∨ (s.isLocalProof proof.proofid = true ∧ id = proof.proofid) := by
  show ProofTree.Sound k.ids (if s.isLocalProof proof.proofid = true then
    s.shareableProofs.insert proof else s.shareableProofs) ∧ forall id, ProofTree.Has
      (if s.isLocalProof proof.proofid = true then s.shareableProofs.insert proof
        else s.shareableProofs) id <-> _
  split
  · rename_i hlocal
    rcases h.tree.insert hproof with ⟨hsound, hinserted⟩
    exact ⟨hsound, fun id => (hinserted id).trans (or_congr_right (and_iff_right hlocal).symm)⟩
  · rename_i hlocal
    exact ⟨h.tree, fun id => (or_iff_left fun hid => hlocal hid.1).symm⟩

theorem insertPeer_sharing (h : Core k s) (hproof : k.ids.known proof.proofid)
    (time next : Int) : Sharing k.ids (s.insertPeer proof time next) := by
  rcases insertPeer_shareable h.sharing hproof time next with ⟨hsound, hinserted⟩
  constructor
  case tree => exact hsound
  case shared =>
    intro p hp hconnected
    rw [hinserted]
    rcases (mem_insertPeer h).mp hp with hold | rfl
    · exact .inl (h.sharing.shared p hold hconnected)
    -- The new peer has no node, so its proof is our own.
    rcases hconnected with hpos | hlocal
    · cases hpos
    · exact .inr ⟨hlocal, rfl⟩
  case bound =>
    intro id hid
    rcases (hinserted id).mp hid with hold | ⟨_, rfl⟩
    · rcases h.sharing.bound id hold with ⟨p, hp, hid⟩
      exact ⟨p, (mem_insertPeer h).mpr (.inl hp), hid⟩
    · exact ⟨_, (mem_insertPeer h).mpr (.inr rfl), rfl⟩

theorem insertPeer_core (h : Core k s) (hformed : proof.Admissible k.ids)
    (hunbound : forall p, p ∈ s.peers -> p.getProofId ≠ proof.proofid) (time next : Int) :
    Core k (s.insertPeer proof time next) :=
  { h with
    slotted := ⟨h.slotted.allocation.insert rfl rfl hunbound, h.slotted.layout⟩
    sharing := insertPeer_sharing h hformed.known time next
    counted := by
      intro p hp
      rcases (mem_insertPeer h).mp hp with hold | rfl
      · exact h.counted p hold
      · symm
        apply countP_eq_zero.mpr
        intro n hn
        rw [decide_eq_true_iff]
        exact Nat.ne_of_lt (h.nodePeer n hn)
    nodePeer := fun n hn => Nat.lt_succ_of_lt (h.nodePeer n hn)
    peersFormed := by
      intro p hp
      rcases (mem_insertPeer h).mp hp with hold | rfl
      · exact h.peersFormed p hold
      · exact hformed }

include hP

theorem Admitted.insertPeer (h : Admitted k P proof s) (time next : Int) :
    Consistent k P (s.insertPeer proof time next) where
  toGood := ⟨insertPeer_core h.core h.formed h.unbound time next,
    hP.inserted s proof time next h.core h.carried⟩
  exact := by
    intro entry
    have hholds : entry ∈ s.validProofPool.pool <->
        (s.Registered entry.proof ∨ entry.proof = proof) ∧ entry.utxo ∈ entry.proof.utxos :=
      h.holds entry
    refine hholds.trans (and_congr_left fun _ => ?_)
    constructor
    · rintro (⟨id, p, hp, hid, hproof⟩ | hproof)
      · exact ⟨id, p, (mem_insertPeer h.core).mpr (.inl hp), hid, hproof⟩
      · exact ⟨s.nextPeerId, _, (mem_insertPeer h.core).mpr (.inr rfl), rfl, hproof.symm⟩
    · rintro ⟨id, p, hp, hid, hproof⟩
      rcases (mem_insertPeer h.core).mp hp with hold | rfl
      · exact .inl ⟨id, p, hold, hid, hproof⟩
      · exact .inr hproof.symm

include hclock

/-- The loop over the pending nodes of a new peer takes its proof off the dangling pool. -/
theorem bindWaiting_loop {peerid : PeerId} {nodes : List NodeId} (hnodup : nodes.Nodup)
    (h : Consistent k P s) (hpeer : HasPeer s.peers peerid proof)
    (hpending : forall n, n ∈ nodes -> s.pendingNodes.contains n = true) :
    Returns (nodes.forM (bindWaiting w peerid)) s fun _ t =>
      Consistent k P t ∧ (forall id, Quiet id s t) ∧
        t.conflictingProofPool = s.conflictingProofPool ∧
        (nodes ≠ [] -> t.isDangling proof.proofid = false) := by
  induction nodes generalizing s with
  | nil => exact Returns.pure ⟨h, fun id => Quiet.refl id s, rfl, fun hne => absurd rfl hne⟩
  | cons n rest ih =>
    rcases hpeer with ⟨peer, hmem, rfl, rfl⟩
    rcases nodup_cons.mp hnodup with ⟨hn, hrest⟩
    have hstep : Returns (bindWaiting w peer.peerid n) s fun _ t =>
        Consistent k P t ∧ NodeBound w peer.peerid peer.getProofId n s t := by
      apply Returns.bind (addOrUpdateNode_returns h.core hclock hmem n)
      rintro _ t ⟨hcore, hbound⟩
      have hgood : Good k P t :=
        ⟨hcore, hP.bound s t peer n h.core h.carried hmem (hpending n mem_cons_self) hbound⟩
      exact Returns.pure ⟨h.samePeers hgood hbound.toSamePeers, hbound⟩
    apply Returns.bind hstep
    rintro _ t ⟨ht, hbound⟩
    have hpending' : forall m, m ∈ rest -> t.pendingNodes.contains m = true := by
      intro m hm
      rw [hbound.pendingNodes]
      exact contains_erase (hpending m (mem_cons_of_mem n hm)) fun heq => hn (heq ▸ hm)
    have hgone : t.isDangling peer.proof.proofid = false := by
      have hdangling := congrArg (fun pools => pools.2.2) hbound.pools
      exact (congrArg (ProofPool.containsProof · _) hdangling).trans
        (containsProof_removeProof_self _ _)
    apply (ih hrest ht ((hbound.peers _ _).mpr ⟨peer, hmem, rfl, rfl⟩) hpending').mono
    rintro _ _ ⟨hu, hquiet, hconflicting, _⟩
    refine ⟨hu, fun id => (hbound.quiet id).trans (hquiet id),
      hconflicting.trans (congrArg Prod.fst hbound.pools), fun _ => ?_⟩
    rw [Bool.eq_false_iff]
    intro hin
    exact absurd ((hquiet _).dangling hin) (hgone ▸ Bool.false_ne_true)

omit hP hclock in
theorem waitingNodes_nodup (s : PeerManager) (id : ProofId) : (s.waitingNodes id).Nodup :=
  s.pendingNodes.nodup.sublist (filter_sublist.map PendingNode.nodeid)

omit hP hclock in
theorem waitingNodes_pending {n : NodeId} (h : n ∈ s.waitingNodes id) :
    s.pendingNodes.contains n = true := by
  rcases mem_map.mp h with ⟨x, hx, hid⟩
  exact contains_iff.mpr ⟨x, (mem_filter.mp hx).left, hid⟩

/-- The proof of a new peer is in no pool, if it was not immature and a node waited for
it in case it was dangling. -/
theorem createPeer_returns (h : Admitted k P proof s) (next : Int) :
    Returns (createPeer w proof next) s fun _ t =>
      Consistent k P t ∧ (forall id, id ≠ proof.proofid -> Quiet id s t) ∧
      (forall a, t.At proof.proofid a -> a = .peer ∨
        (s.At proof.proofid a ∧ a ≠ .conflicting ∧
          (a = .dangling -> s.waitingNodes proof.proofid = []))) := by
  apply Returns.modify_bind
  apply observe_bind
  apply Returns.get_bind
  have hgood := (h.setPool hP
    (h.core.poolsFormed.conflicting.removeProof proof.proofid) .conflicting).observed hP
  have hadmitted : Admitted k P proof _ := ⟨hgood, h.formed, h.holds, h.unbound⟩
  apply Returns.require_bind
  · refine ⟨contains_nextPeerId hgood.core, Bool.eq_false_iff.mpr fun hbound => ?_⟩
    rcases isBoundToPeer_iff.mp hbound with ⟨p, hp, hid⟩
    exact h.unbound p hp hid
  apply Returns.set_bind
  apply (bindWaiting_loop hP hclock (waitingNodes_nodup _ _) (hadmitted.insertPeer hP _ next)
    ⟨_, (mem_insertPeer hgood.core).mpr (.inr rfl), rfl, rfl⟩
    fun _ hn => waitingNodes_pending hn).mono
  rintro _ t ⟨ht, hquiet, hconflicting, hdangling⟩
  refine ⟨ht, ?_, ?_⟩
  · intro id hne
    refine Quiet.trans (Quiet.of_le ?_) (hquiet id)
    rintro (_ | _ | _ | _) ha
    · rcases ha with ⟨p, hp, hid⟩
      rcases (mem_insertPeer hgood.core).mp hp with hold | rfl
      · exact ⟨p, hold, hid⟩
      · exact absurd hid.symm hne
    · exact (of_containsProof_removeProof ha).left
    · exact ha
    · exact ha
  · rintro (_ | _ | _ | _) ha
    · exact .inl rfl
    · have hin : t.conflictingProofPool.containsProof proof.proofid = true := ha
      rw [hconflicting] at hin
      exact absurd rfl (of_containsProof_removeProof hin).right
    · exact .inr ⟨(hquiet _).stays (a := .immature) nofun ha, nofun, nofun⟩
    · refine .inr ⟨(hquiet proof.proofid).dangling ha, nofun, fun _ => ?_⟩
      by_contra hne
      exact absurd ha (Bool.eq_false_iff.mp (hdangling hne))

end NewPeer

/-!
## Registration
-/

section Register

variable (h : Consistent k P s)

include hP h

theorem registerInvalidProof_returns {result : ProofValidationResult}
    (hformed : result = .immatureUtxo -> proof.Admissible k.ids) :
    Returns (registerInvalidProof w proof result) s fun _ t =>
      Consistent k P t ∧
        (¬ s.Bound proof.proofid -> Single s proof.proofid ->
          (result = .immatureUtxo ->
            ¬ s.At proof.proofid .conflicting ∧ ¬ s.At proof.proofid .dangling) ->
          Placed proof s t) := by
  unfold registerInvalidProof
  split
  · rename_i himmature
    apply Returns.bind (addToImmaturePool_good hP h.toGood (hformed himmature))
    rintro _ _ ⟨ht, henters, hsame⟩
    rcases trimImmaturePool_good hP ht with ⟨htrim, hquiet, hsame'⟩
    apply Returns.modify_bind
    refine Returns.pure ⟨(h.samePeers ht hsame).samePeers htrim hsame', fun hbound _ hsafe => ?_⟩
    rcases hsafe himmature with ⟨hconflicting, hdangling⟩
    have honly : forall a, s.At proof.proofid a -> a = .immature := by
      rintro (_ | _ | _ | _) ha
      · exact absurd ha hbound
      · exact absurd ha hconflicting
      · rfl
      · exact absurd ha hdangling
    refine ⟨fun id hne => (henters.quiet hne).trans (hquiet id),
      (hquiet proof.proofid).single (Single.of_only (henters.only honly)), fun hin => ?_⟩
    exact nomatch henters.only honly .dangling ((hquiet proof.proofid).dangling hin)
  · split
    · exact Returns.pure ⟨h, fun _ hs _ => Placed.of_quiet hs fun id => Quiet.refl id s⟩
    · exact Returns.pure ⟨h, fun _ hs _ => Placed.of_quiet hs fun id => Quiet.refl id s⟩

theorem Consistent.observed : Consistent k P { s with readings := s.readings + 1 } :=
  ⟨h.toGood.observed hP, h.exact⟩

include hclock

theorem registerValidProof_returns (hformed : proof.Admissible k.ids)
    (hR : forall id, s.Disputed proof id -> R id) (mode : RegistrationMode) :
    Returns (registerValidProof w proof mode) s fun _ t =>
      Consistent k P t ∧
        (Unregistered mode s proof.proofid ->
          (s.isDangling proof.proofid = true -> mode = .forceAccept ∨ ¬ s.Contested proof) ->
          Placed proof s t) := by
  apply observe_bind
  apply Returns.bind (admitProof_returns hP (h.observed hP) hformed hR mode _ _)
  rintro refused t ⟨hrefused, hadmitted, hplaces⟩
  have hothers : Unregistered mode s proof.proofid ->
      forall id, id ≠ proof.proofid -> Quiet id s t := fun hnew id hne =>
    (quiet_observed id s).trans ((hplaces hnew.bound).others id hne)
  cases refused with
  | some state =>
    refine Returns.pure ⟨hrefused nofun, fun hnew hsafe => ?_⟩
    have hself := (hplaces hnew.bound).self
    refine ⟨hothers hnew, ?_, fun hin => (hself .dangling hin).resolve_right nofun⟩
    by_cases hcontested : mode ≠ .forceAccept ∧ s.Contested proof
    · refine Single.of_only fun a ha => (hself a ha).elim (fun hold => ?_) And.left
      cases a with
      | peer => exact absurd hold hnew.bound
      | conflicting => rfl
      | immature => exact absurd hold hnew.immature
      | dangling => exact ((hsafe hold).elim hcontested.left fun hnot => hnot hcontested.right).elim
    · refine Quiet.single (Quiet.of_le fun a ha => ?_) hnew.single
      exact (hself a ha).resolve_right fun hmoved => hcontested hmoved.right
  | none =>
    apply Returns.bind (createPeer_returns hP hclock (hadmitted rfl) _)
    rintro _ u ⟨hu, huothers, huself⟩
    refine Returns.pure ⟨hu, fun hnew _ => ?_⟩
    have hoffered := hplaces hnew.bound
    have honly : forall a, u.At proof.proofid a -> a = .peer := by
      intro a ha
      refine (huself a ha).resolve_right fun ⟨hold, hne, hwaiting⟩ => ?_
      have hs := (hoffered.self a hold).resolve_right fun hmoved => hne hmoved.left
      cases a with
      | peer => exact hnew.bound hs
      | conflicting => exact hne rfl
      | immature => exact hnew.immature hs
      | dangling =>
        -- The nodes that waited for the proof wait until the peer is created.
        rcases exists_mem_of_ne_nil _ (hnew.waiting hs) with ⟨n, hn⟩
        rcases mem_map.mp hn with ⟨x, hx, hid⟩
        rcases mem_filter.mp hx with ⟨hx, hproof⟩
        have hmem : n ∈ t.waitingNodes proof.proofid :=
          mem_map.mpr ⟨x, mem_filter.mpr ⟨hoffered.pending x hx, hproof⟩, hid⟩
        rw [hwaiting rfl] at hmem
        cases hmem
    exact ⟨fun id hne => (hothers hnew id hne).trans (huothers id hne), Single.of_only honly,
      fun hin => nomatch honly .dangling hin⟩

include hverify

theorem registerProof_returns (proof : Proof) (hR : forall id, s.Disputed proof id -> R id)
    (mode : RegistrationMode) :
    Returns (registerProof w proof mode) s fun _ t =>
      Consistent k P t ∧
        (Single s proof.proofid -> SafeRegister w proof mode s -> Placed proof s t) := by
  apply Returns.get_bind
  split
  · exact Returns.pure ⟨h, fun hsingle _ => Placed.of_quiet hsingle fun id => Quiet.refl id s⟩
  rename_i hexists
  split
  · apply Returns.set_bind
    exact Returns.pure ⟨⟨h.setNeedMoreNodes hP true, h.exact⟩, fun hsingle _ =>
      Placed.of_quiet hsingle fun _ => Quiet.of_le fun _ ha => ha⟩
  rename_i hdangling
  have hnew := fun hsingle => unregistered_of_checks hsingle hexists hdangling
  have hback : forall {t}, Placed proof { s with readings := s.readings + 1 } t ->
      Placed proof s t := by
    intro t ht
    exact ⟨fun id hne => (quiet_observed id s).trans (ht.others id hne), ht.single, ht.dangling⟩
  apply observe_bind
  split
  · rename_i hvalid
    apply (registerValidProof_returns hP hclock (h.observed hP)
      (hverify s.readings proof (.inl hvalid)) hR mode).mono
    rintro _ t ⟨ht, hplaced⟩
    refine ⟨ht, fun hsingle hsafe => hback (hplaced ?_ fun hin => ?_)⟩
    · exact ⟨hsingle, (hnew hsingle).bound, (hnew hsingle).immature, (hnew hsingle).conflicting,
        (hnew hsingle).waiting⟩
    · exact (hsafe.dangling hin ((hnew hsingle).waiting hin)).right hvalid
  · apply (registerInvalidProof_returns hP (h.observed hP)
      fun himmature => hverify s.readings proof (.inr himmature)).mono
    rintro _ _ ⟨ht, hplaced⟩
    refine ⟨ht, fun hsingle hsafe => hback (hplaced (hnew hsingle).bound hsingle
      fun himmature => ⟨fun hin => ?_, fun hin => ?_⟩)⟩
    · exact hsafe.conflicting hin ((hnew hsingle).conflicting hin) himmature
    · exact (hsafe.dangling hin ((hnew hsingle).waiting hin)).left himmature

end Register

/-!
## Rejection
-/

/-- The invariant and, if the proofs were kept apart so far, that they still are. -/
structure Sorted (k : Scope) (P : PeerManager -> Prop) (s : PeerManager) : Prop extends
    Consistent k P s where
  single : k.apart -> Apart s

section Reject

variable (h : Sorted k P s)

include hP h

omit hP in
theorem Sorted.quiet (ht : Consistent k P t) (hquiet : forall id, Quiet id s t) : Sorted k P t :=
  ⟨ht, fun hapart => ((h.single hapart).kept hquiet).apart⟩

/-- A proof is taken off the pool of a place. -/
theorem Sorted.removeProof (place : Place) (hpool : place ≠ .peer) (id : ProofId) :
    Sorted k P (s.setPool ((s.poolAt place).removeProof id) place) ∧
      (k.apart -> Kept s (s.setPool ((s.poolAt place).removeProof id) place) ∧
        (s.At id place -> Nowhere (s.setPool ((s.poolAt place).removeProof id) place) id)) := by
  have hquiet := quiet_remove place s id
  have hgood := h.setPool hP ((h.core.poolsFormed.poolAt hpool).removeProof id) place
  have hout := Bool.eq_false_iff.mp (containsProof_removeProof_self (s.poolAt place) id)
  refine ⟨h.quiet ⟨hgood, ?_⟩ hquiet, fun hapart => ⟨(h.single hapart).kept hquiet, fun hin =>
    (h.single hapart id).nowhere place hin hpool (hquiet id) ?_⟩⟩
  · cases place <;> first | exact h.exact | exact absurd rfl hpool
  · cases place <;> first | exact hout | exact absurd rfl hpool

theorem removePeer_sorted (hpeer : peer ∈ s.peers) (hR : R peer.getProofId) :
    Returns (removePeer w peer.peerid) s fun b t =>
      b = true ∧ Sorted k P t ∧ PeerRemoved w peer s t := by
  have hexact := h.exact
  apply (removePeer_good hP h.toGood hpeer hR).mono
  rintro _ _ ⟨hb, ht, hremoved⟩
  refine ⟨hb, h.quiet ⟨ht, ?_⟩ hremoved.settled.quiet, hremoved⟩
  intro entry
  rw [hremoved.validProofPool, ProofPool.mem_removeProof, hexact, and_right_comm]
  refine and_congr_left fun _ => ?_
  unfold Registered
  simp only [hremoved.hasPeer h.core hpeer, exists_and_right]

include hclock hverify

theorem registerProof_sorted {mode : RegistrationMode} (hR : forall id, s.Disputed proof id -> R id)
    (hsafe : k.apart -> SafeRegister w proof mode s) :
    Returns (registerProof w proof mode) s fun _ t =>
      Sorted k P t ∧ (k.apart -> Placed proof s t) := by
  apply (registerProof_returns hP hclock hverify h.toConsistent proof hR mode).mono
  rintro _ _ ⟨ht, hplaced⟩
  have hplaced' := fun hapart => hplaced (h.single hapart proof.proofid) (hsafe hapart)
  exact ⟨⟨ht, fun hapart => (h.single hapart).placed (hplaced' hapart)⟩, hplaced'⟩

section

variable (hall : forall id, R id)

include hall

theorem pullBackUtxo_returns (utxo : OutPoint) :
    Returns (pullBackUtxo w utxo) s fun _ t =>
      Sorted k P t ∧ (k.apart -> Kept s t) := by
  apply Returns.get_bind
  cases hget : s.conflictingProofPool.getProofByUtxo utxo with
  | none => exact Returns.pure ⟨h, fun hapart => (h.single hapart).kept fun id => Quiet.refl id s⟩
  | some conflicting =>
    have hin : s.isInConflictingPool conflicting.proofid = true :=
      ProofPool.containsProof_iff.mpr ⟨_, ProofPool.getProofByUtxo_eq_some.mp hget, rfl⟩
    apply Returns.modify_bind
    have ht := (h.removeProof hP .conflicting nofun conflicting.proofid).left
    have hquiet := quiet_remove .conflicting s conflicting.proofid
    have hdangling : k.apart -> s.isDangling conflicting.proofid = false := by
      intro hapart
      rw [Bool.eq_false_iff]
      intro hdangling
      cases h.single hapart _ .conflicting .dangling hin ((hquiet _).dangling hdangling)
    apply Returns.bind (registerProof_sorted hP hclock hverify ht (fun id _ => hall id)
      fun hapart => safeRegister_default (hdangling hapart))
    rintro _ _ ⟨hu, hplaced⟩
    refine Returns.pure ⟨hu, fun hapart => ⟨hu.single hapart, fun id hs => ?_⟩⟩
    have hne : id ≠ conflicting.proofid := fun heq => hs .conflicting (heq ▸ hin)
    exact ((hquiet id).trans ((hplaced hapart).others id hne)).nowhere hs

theorem pullBack_returns (utxos : List OutPoint) :
    Returns (pullBack w utxos) s fun _ t =>
      Sorted k P t ∧ (k.apart -> Kept s t) := by
  refine Returns.forM (fun t => Sorted k P t ∧ (k.apart -> Kept s t)) ?_
    ⟨h, fun hapart => (h.single hapart).kept fun id => Quiet.refl id s⟩
  rintro utxo _ _ ⟨ht, hkept⟩
  exact (pullBackUtxo_returns hP hclock hverify ht hall utxo).mono fun _ _ ⟨hu, hkept'⟩ =>
    ⟨hu, fun hapart => (hkept hapart).trans (hkept' hapart)⟩

theorem rejectPeer_returns (hbound : s.isBoundToPeer id = true) (mode : RejectionMode) :
    Returns (rejectPeer w id mode) s fun _ t => Sorted k P t ∧
      (k.apart -> Kept s t ∧ (mode = .invalidate -> Nowhere t id)) := by
  apply Returns.get_bind
  cases hfind : s.findPeer id with
  | none =>
    unfold isBoundToPeer at hbound
    rw [hfind] at hbound
    cases hbound
  | some peer =>
    rcases findPeer_eq_some hfind with ⟨hpeer, rfl⟩
    apply Returns.bind (removePeer_sorted hP h hpeer (hall _))
    rintro _ t ⟨rfl, ht, hremoved⟩
    have hkept := fun hapart => (h.single hapart).kept hremoved.settled.quiet
    have hnowhere : k.apart -> Nowhere t peer.getProofId := by
      intro hapart a ha
      by_cases hplace : a = .peer
      · rw [hplace] at ha
        exact hremoved.unbound h.core hpeer ha
      · exact hplace (h.single hapart _ a .peer (hremoved.le hplace ha) ⟨peer, hpeer, rfl⟩)
    apply Returns.bind (pullBack_returns hP hclock hverify ht hall peer.proof.utxos)
    rintro _ _ ⟨hu, hkept'⟩
    split
    · rename_i hmode
      apply Returns.bind (addToConflictingPool_good hP hu.toGood (h.core.peersFormed peer hpeer))
      rintro _ _ ⟨hv, hconflicted⟩
      have happart := fun hapart => (hu.single hapart).enters hconflicted.enters
        fun a ha => absurd ha ((hkept' hapart).nowhere _ (hnowhere hapart) a)
      refine Returns.pure ⟨⟨hu.samePeers hv hconflicted.samePeers, happart⟩,
        fun hapart => ⟨⟨happart hapart, fun x hs => ?_⟩, fun hinvalidate => ?_⟩⟩
      · have hne : x ≠ peer.proof.proofid := fun heq =>
          hs .peer (heq ▸ ⟨peer, hpeer, rfl⟩)
        exact (hconflicted.enters.quiet hne).nowhere
          (((hkept hapart).trans (hkept' hapart)).nowhere x hs)
      · rw [hmode] at hinvalidate
        cases hinvalidate
    · exact Returns.pure ⟨hu, fun hapart => ⟨(hkept hapart).trans (hkept' hapart),
        fun _ => (hkept' hapart).nowhere _ (hnowhere hapart)⟩⟩

end

omit hP h hclock hverify in
theorem isBoundToPeer_of_exists (hexists : s.existsProof id = true)
    (himmature : s.isImmature id = false) (hconflicting : s.isInConflictingPool id = false) :
    s.isBoundToPeer id = true := by
  unfold existsProof getProof at hexists
  unfold isBoundToPeer
  unfold isImmature at himmature
  unfold isInConflictingPool at hconflicting
  rw [← ProofPool.isSome_getProof] at himmature hconflicting
  cases hfind : s.findPeer id with
  | some peer => rfl
  | none =>
    rw [hfind, Option.not_isSome_iff_eq_none.mp (Bool.eq_false_iff.mp hconflicting),
      Option.not_isSome_iff_eq_none.mp (Bool.eq_false_iff.mp himmature)] at hexists
    cases hexists

theorem rejectProof_returns (id : ProofId) (hR : s.isBoundToPeer id = true -> forall other, R other)
    (mode : RejectionMode) :
    Returns (rejectProof w id mode) s fun _ t => Sorted k P t ∧
      (k.apart -> Kept s t ∧ (mode = .invalidate -> Nowhere t id)) := by
  apply Returns.get_bind
  split
  · rename_i hdangling
    apply Returns.set_bind
    exact Returns.pure ((h.removeProof hP .dangling nofun id).imp_right
      fun hkept hapart => (hkept hapart).imp_right fun hnowhere _ => hnowhere hdangling.left)
  rename_i hdangling
  have hsame := fun hapart => (h.single hapart).kept fun other => Quiet.refl other s
  split
  · rename_i hexists
    refine Returns.pure ⟨h, fun hapart => ⟨hsame hapart, fun hmode => ?_⟩⟩
    rcases existsProof_eq_false hexists with ⟨hbound, hconflicting, himmature⟩
    rintro (_ | _ | _ | _) hin
    · exact hbound hin
    · exact Bool.eq_false_iff.mp hconflicting hin
    · exact Bool.eq_false_iff.mp himmature hin
    · exact hdangling ⟨hin, hmode⟩
  rename_i hexists
  split
  · rename_i himmature
    apply Returns.set_bind
    exact Returns.pure ((h.removeProof hP .immature nofun id).imp_right
      fun hkept hapart => (hkept hapart).imp_right fun hnowhere _ => hnowhere himmature)
  rename_i himmature
  split
  · rename_i hdefault
    refine Returns.pure ⟨h, fun hapart => ⟨hsame hapart, fun hmode => ?_⟩⟩
    rw [hdefault.left] at hmode
    cases hmode
  rename_i hdefault
  split
  · rename_i hinvalidate
    apply Returns.modify_bind
    exact Returns.pure ((h.removeProof hP .conflicting nofun id).imp_right
      fun hkept hapart => (hkept hapart).imp_right fun hnowhere _ => hnowhere hinvalidate.right)
  · rename_i hinvalidate
    have hconflicting : s.isInConflictingPool id = false := by
      cases mode with
      | default => exact Bool.eq_false_iff.mpr fun hin => hdefault ⟨rfl, hin⟩
      | invalidate => exact Bool.eq_false_iff.mpr fun hin => hinvalidate ⟨rfl, hin⟩
    have hbound := isBoundToPeer_of_exists (Bool.not_eq_false _ ▸ hexists)
      (Bool.eq_false_iff.mpr himmature) hconflicting
    exact rejectPeer_returns hP hclock hverify h (hR hbound) hbound mode

end Reject

end PeerManager

end ECash.Avalanche
