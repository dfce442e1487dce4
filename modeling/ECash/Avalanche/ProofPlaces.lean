import ECash.Avalanche.PeerInvariant

/-!
# Where a proof is

A proof is bound to a peer, or in the conflicting, the immature or the dangling pool.
A call moves the proof it is about and may move the proofs of peers to the conflicting
pool; all other proofs stay where they are or disappear.
-/

namespace ECash.Avalanche

open Coins Foundation List

namespace PeerManager

def Bound (s : PeerManager) (id : ProofId) : Prop :=
  exists p, p ∈ s.peers ∧ p.getProofId = id

variable {s : PeerManager} {id : ProofId} {t : PeerManager} {x : ProofId} {p : ProofPool}
  {u : PeerManager} {w : World} {nodeid : NodeId} {peer : Peer}

theorem isBoundToPeer_iff : s.isBoundToPeer id = true <-> s.Bound id := by
  unfold isBoundToPeer findPeer
  rw [find?_isSome]
  exact exists_congr fun p => and_congr_right fun _ => decide_eq_true_iff

theorem KeepsPeers.bound (h : KeepsPeers s t) (id : ProofId) : t.Bound id <-> s.Bound id := by
  constructor
  · rintro ⟨p, hp, hid⟩
    rcases (h p.peerid p.proof).mp ⟨p, hp, rfl, rfl⟩ with ⟨q, hq, _, hproof⟩
    exact ⟨q, hq, (congrArg Proof.proofid hproof).trans hid⟩
  · rintro ⟨p, hp, hid⟩
    rcases (h p.peerid p.proof).mpr ⟨p, hp, rfl, rfl⟩ with ⟨q, hq, _, hproof⟩
    exact ⟨q, hq, (congrArg Proof.proofid hproof).trans hid⟩

/-- The places a proof can be in. -/
inductive Place
  | peer
  | conflicting
  | immature
  | dangling

def At (s : PeerManager) (id : ProofId) : Place -> Prop
  | .peer => s.Bound id
  | .conflicting => s.isInConflictingPool id = true
  | .immature => s.isImmature id = true
  | .dangling => s.isDangling id = true

/-- The pool of a place.  The valid proofs are those of the peers. -/
def poolAt (s : PeerManager) : Place -> ProofPool
  | .peer => s.validProofPool
  | .conflicting => s.conflictingProofPool
  | .immature => s.immatureProofPool
  | .dangling => s.danglingProofPool

def setPool (s : PeerManager) (pool : ProofPool) : Place -> PeerManager
  | .peer => { s with validProofPool := pool }
  | .conflicting => { s with conflictingProofPool := pool }
  | .immature => { s with immatureProofPool := pool }
  | .dangling => { s with danglingProofPool := pool }

theorem PoolsFormed.poolAt {ids : KnownIds} (h : PoolsFormed ids s.pools) {place : Place}
    (hpool : place ≠ .peer) : PoolFormed ids (s.poolAt place) := by
  cases place with
  | peer => exact absurd rfl hpool
  | conflicting => exact h.conflicting
  | immature => exact h.immature
  | dangling => exact h.dangling

theorem setPool_ne {a place : Place} (hne : a ≠ place) (ha : (s.setPool p place).At id a) :
    s.At id a := by
  cases place <;> cases a <;> first | exact ha | exact absurd rfl hne

theorem setPool_le {a place : Place}
    (hpool : p.containsProof id = true -> (s.poolAt place).containsProof id = true)
    (ha : (s.setPool p place).At id a) : s.At id a := by
  cases place <;> cases a <;> first | exact ha | exact hpool ha

def Single (s : PeerManager) (id : ProofId) : Prop :=
  forall a b, s.At id a -> s.At id b -> a = b

def Nowhere (s : PeerManager) (id : ProofId) : Prop :=
  forall a, ¬ s.At id a

/-- The proof stays where it is, goes from its peer to the conflicting pool or
disappears. -/
def Quiet (id : ProofId) (s t : PeerManager) : Prop :=
  forall a, t.At id a -> s.At id a ∨ (a = .conflicting ∧ s.Bound id ∧ ¬ t.Bound id)

/-- The proof may enter a place; all other proofs stay where they are or disappear. -/
def Enters (place : Place) (id : ProofId) (s t : PeerManager) : Prop :=
  forall x a, t.At x a -> s.At x a ∨ (a = place ∧ x = id)

variable {a : Place}

variable {place : Place}

theorem Single.of_only (h : forall a, s.At id a -> a = place) : Single s id :=
  fun a b ha hb => (h a ha).trans (h b hb).symm

theorem Nowhere.single (h : Nowhere s id) : Single s id :=
  fun a _ ha => absurd ha (h a)

theorem Quiet.of_le (h : forall a, t.At id a -> s.At id a) : Quiet id s t :=
  fun a ha => .inl (h a ha)

theorem Quiet.refl (id : ProofId) (s : PeerManager) : Quiet id s s :=
  Quiet.of_le fun _ ha => ha

namespace Quiet

variable (h : Quiet id s t)

include h

theorem stays (hne : a ≠ .conflicting) (ha : t.At id a) : s.At id a :=
  (h a ha).resolve_right fun hmoved => hne hmoved.left

theorem bound : t.Bound id -> s.Bound id :=
  h.stays (a := .peer) nofun

theorem dangling : t.isDangling id = true -> s.isDangling id = true :=
  h.stays (a := .dangling) nofun

theorem trans (h' : Quiet id t u) : Quiet id s u := by
  intro a hu
  rcases h' a hu with ht | ⟨rfl, ht, hnot⟩
  · exact (h a ht).imp_right fun ⟨hplace, hs, hnot⟩ => ⟨hplace, hs, fun hu => hnot (h'.bound hu)⟩
  · exact .inr ⟨rfl, h.bound ht, hnot⟩

theorem single (hs : Single s id) : Single t id := by
  intro a b ha hb
  rcases h a ha with ha' | ⟨rfl, hpeer, hnot⟩
  · rcases h b hb with hb' | ⟨rfl, hpeer, hnot⟩
    · exact hs a b ha' hb'
    · cases hs a .peer ha' hpeer
      exact absurd ha hnot
  · rcases h b hb with hb' | ⟨rfl, _, _⟩
    · cases hs b .peer hb' hpeer
      exact absurd hb hnot
    · rfl

theorem nowhere (hs : Nowhere s id) : Nowhere t id := by
  intro a ha
  rcases h a ha with hold | ⟨_, hold, _⟩
  · exact hs a hold
  · exact hs .peer hold

end Quiet

theorem Single.nowhere (hs : Single s id) (place : Place) (hin : s.At id place)
    (hpool : place ≠ .peer) (h : Quiet id s t) (hout : ¬ t.At id place) : Nowhere t id := by
  intro a ha
  rcases h a ha with hold | ⟨_, hold, _⟩
  · exact hout (hs a place hold hin ▸ ha)
  · exact hpool (hs place .peer hin hold)

theorem Enters.quiet (h : Enters place id s t) (hne : x ≠ id) : Quiet x s t :=
  Quiet.of_le fun a ha => (h x a ha).resolve_right fun hnew => hne hnew.right

theorem Enters.only (h : Enters place id s t) (hs : forall a, s.At x a -> a = place) :
    forall a, t.At x a -> a = place :=
  fun a ha => (h x a ha).elim (hs a) And.left

/-!
## Pools
-/

theorem of_containsProof_removeProof {other : ProofId}
    (h : (p.removeProof id).containsProof other = true) :
    p.containsProof other = true ∧ other ≠ id := by
  rcases ProofPool.containsProof_iff.mp h with ⟨entry, hentry, rfl⟩
  rcases ProofPool.mem_removeProof.mp hentry with ⟨hold, hne⟩
  exact ⟨ProofPool.containsProof_iff.mpr ⟨entry, hold, rfl⟩, hne⟩

theorem containsProof_removeProof_self (p : ProofPool) (id : ProofId) :
    (p.removeProof id).containsProof id = false :=
  Bool.eq_false_iff.mpr fun h => (of_containsProof_removeProof h).right rfl

theorem quiet_remove (place : Place) (s : PeerManager) (id other : ProofId) :
    Quiet other s (s.setPool ((s.poolAt place).removeProof id) place) :=
  Quiet.of_le fun _ => setPool_le fun hin => (of_containsProof_removeProof hin).left

variable {proof : Proof} {r : AddProofResult}

theorem containsProof_outcome (h : ProofPool.Outcome p proof r)
    (hne : id ≠ proof.proofid) (hin : r.pool.containsProof id = true) :
    p.containsProof id = true := by
  cases h with
  | duplicated _ => exact hin
  | rejected _ _ _ _ => exact hin
  | succeed conflicts q hreplaced =>
    rcases ProofPool.containsProof_iff.mp hin with ⟨entry, hentry, hid⟩
    rcases (hreplaced.mem entry).mp hentry with ⟨hold, _⟩ | ⟨hproof, _⟩
    · exact ProofPool.containsProof_iff.mpr ⟨entry, hold, hid⟩
    · exact absurd (hid.symm.trans (congrArg Proof.proofid hproof)) hne

theorem enters_outcome (place : Place) (h : ProofPool.Outcome (s.poolAt place) proof r) :
    Enters place proof.proofid s (s.setPool r.pool place) := by
  intro x a ha
  by_cases hx : x = proof.proofid
  · by_cases hplace : a = place
    · exact .inr ⟨hplace, hx⟩
    · exact .inl (setPool_ne hplace ha)
  · exact .inl (setPool_le (containsProof_outcome h hx) ha)

/-- A proof was offered to the conflicting pool. -/
structure Conflicted (proof : Proof) (s t : PeerManager) : Prop where
  peers : t.peers = s.peers
  pendingNodes : t.pendingNodes = s.pendingNodes
  validProofPool : t.validProofPool = s.validProofPool
  enters : Enters .conflicting proof.proofid s t

theorem Conflicted.bound (h : Conflicted proof s t) : t.Bound id -> s.Bound id :=
  fun ⟨p, hp, hid⟩ => ⟨p, h.peers ▸ hp, hid⟩

/-!
## Conflicting peers
-/

/-- Every proof is quiet, and the nodes that wait still do. -/
structure Settled (s t : PeerManager) : Prop where
  quiet : forall id, Quiet id s t
  pending : forall n, n ∈ s.pendingNodes -> n ∈ t.pendingNodes

theorem Settled.refl (s : PeerManager) : Settled s s :=
  ⟨fun id => Quiet.refl id s, fun _ hn => hn⟩

theorem Settled.trans (h : Settled s t) (h' : Settled t u) : Settled s u :=
  ⟨fun id => (h.quiet id).trans (h'.quiet id), fun n hn => h'.pending n (h.pending n hn)⟩

theorem quiet_observed (id : ProofId) (s : PeerManager) :
    Quiet id s { s with readings := s.readings + 1 } :=
  Quiet.of_le fun _ ha => ha

theorem settled_setValid (s : PeerManager) (pool : ProofPool) :
    Settled s { s with validProofPool := pool } :=
  ⟨fun _ => Quiet.of_le fun _ ha => ha, fun _ hn => hn⟩

section SamePools

variable (h : SamePools s t)

include h

theorem SamePools.le (hne : a ≠ .peer) (ha : t.At id a) : s.At id a := by
  rcases Prod.mk.inj h.pools with ⟨hconflicting, hothers⟩
  rcases Prod.mk.inj hothers with ⟨himmature, hdangling⟩
  cases a with
  | peer => exact absurd rfl hne
  | conflicting => exact (congrArg (ProofPool.containsProof · id) hconflicting).symm.trans ha
  | immature => exact (congrArg (ProofPool.containsProof · id) himmature).symm.trans ha
  | dangling => exact (congrArg (ProofPool.containsProof · id) hdangling).symm.trans ha

theorem SamePools.quiet (hbound : t.Bound id -> s.Bound id) : Quiet id s t := by
  refine Quiet.of_le fun a ha => ?_
  by_cases hplace : a = .peer
  · subst hplace
    exact hbound ha
  · exact h.le hplace ha

theorem SamePools.quiet_of_peers (hpeers : KeepsPeers s t) : Quiet id s t :=
  h.quiet (hpeers.bound id).mp

end SamePools

theorem NodeBound.quiet {peerid : PeerId} (h : NodeBound w peerid id nodeid s t) (other : ProofId) :
    Quiet other s t :=
  (quiet_remove .dangling s id other).trans (h.toSamePools.quiet_of_peers h.peers)

theorem NodeRemoved.quiet (h : NodeRemoved nodeid s t) (id : ProofId) : Quiet id s t :=
  h.toSamePools.quiet_of_peers h.peers

theorem pendNodes_mem {x : PendingNode} (h : x ∈ s.pendingNodes) :
    x ∈ (s.pendNodes peer).pendingNodes := by
  have hfold : forall (nodes : List Node) (pending : IndexedSet PendingNode.nodeid),
      x ∈ pending -> x ∈ nodes.foldl
        (fun pending n => pending.insert ⟨peer.getProofId, n.nodeid⟩) pending := by
    intro nodes
    induction nodes with
    | nil => exact fun pending hx => hx
    | cons n rest ih =>
      intro pending hx
      exact ih _ (IndexedSet.mem_insert.mpr (.inl hx))
  exact hfold _ _ h

theorem PeerRemoved.settled (h : PeerRemoved w peer s t) : Settled s t where
  quiet := by
    intro id
    apply h.toSamePools.quiet
    rintro ⟨p, hp, hid⟩
    rw [h.peers] at hp
    exact ⟨p, (IndexedSet.mem_erase.mp hp).left, hid⟩
  pending := by
    intro n hn
    rw [h.pendingNodes]
    exact pendNodes_mem hn

theorem PeerRemoved.unbound {k : Scope} (hs : Core k s) (hpeer : peer ∈ s.peers)
    (h : PeerRemoved w peer s t) : ¬ t.Bound peer.getProofId := by
  rintro ⟨p, hp, hid⟩
  rw [h.peers] at hp
  rcases IndexedSet.mem_erase.mp hp with ⟨hold, hne⟩
  exact hne (congrArg Peer.peerid (hs.slotted.allocation.unique p peer hold hpeer hid))

theorem Settled.conflicted {s0 : PeerManager} (hs : Settled s0 s) {c : Proof}
    (hbound : s0.Bound c.proofid) (hunbound : ¬ s.Bound c.proofid) (h : Conflicted c s t) :
    Settled s0 t where
  quiet := by
    intro id a ha
    rcases h.enters id a ha with hold | ⟨rfl, rfl⟩
    · exact (hs.quiet id a hold).imp_right fun ⟨hplace, hbound, hnot⟩ =>
        ⟨hplace, hbound, fun ht => hnot (h.bound ht)⟩
    · exact .inr ⟨rfl, hbound, fun ht => hunbound (h.bound ht)⟩
  pending := by
    intro n hn
    rw [h.pendingNodes]
    exact hs.pending n hn

/-!
## Registration
-/

/-- A proof without a peer was offered to the valid pool. It may have become conflicting
if it was contested. -/
structure Offered (proof : Proof) (contested : Prop) (s t : PeerManager) : Prop where
  others : forall id, id ≠ proof.proofid -> Quiet id s t
  self : forall a, t.At proof.proofid a -> s.At proof.proofid a ∨ (a = .conflicting ∧ contested)
  pending : forall n, n ∈ s.pendingNodes -> n ∈ t.pendingNodes

theorem Settled.offered {contested : Prop} (h : Settled s t) (hunbound : ¬ s.Bound proof.proofid) :
    Offered proof contested s t where
  others := fun id _ => h.quiet id
  self := fun a ha => (h.quiet _ a ha).imp_right fun hmoved => absurd hmoved.right.left hunbound
  pending := h.pending

theorem Settled.contested (h : Settled s t) (hunbound : ¬ s.Bound proof.proofid)
    (hu : Conflicted proof t u) : Offered proof True s u where
  others := fun id hne => (h.quiet id).trans (hu.enters.quiet hne)
  self := by
    intro a ha
    rcases hu.enters _ a ha with hold | ⟨hplace, _⟩
    · exact (h.offered hunbound).self a hold
    · exact .inr ⟨hplace, trivial⟩
  pending := by
    intro n hn
    rw [hu.pendingNodes]
    exact h.pending n hn

/-- One of the coins of a proof is staked by a peer. -/
def Contested (s : PeerManager) (proof : Proof) : Prop :=
  exists utxo, utxo ∈ proof.utxos ∧ s.validProofPool.pool.contains utxo = true

/-- The proof stakes a coin of the given one in the valid pool. -/
def Disputed (s : PeerManager) (proof : Proof) (id : ProofId) : Prop :=
  exists entry, entry ∈ s.validProofPool.pool ∧ entry.utxo ∈ proof.utxos ∧ entry.proof.proofid = id

/-- A proof that is registered from outside does not become immature or conflicting
while it stays in another pool: a dangling proof with a waiting node is not immature and
does not compete with a peer, and a conflicting proof is not forced while it is
immature. -/
structure SafeRegister (w : World) (proof : Proof) (mode : RegistrationMode)
    (s : PeerManager) : Prop where
  dangling : s.isDangling proof.proofid = true -> s.waitingNodes proof.proofid ≠ [] ->
    w.verify s.readings proof ≠ .immatureUtxo ∧
      (w.verify s.readings proof = .none -> mode = .forceAccept ∨ ¬ s.Contested proof)
  conflicting : s.isInConflictingPool proof.proofid = true -> mode = .forceAccept ->
    w.verify s.readings proof ≠ .immatureUtxo

/-- What registering a proof does to the places of the proofs. -/
structure Placed (proof : Proof) (s t : PeerManager) : Prop where
  others : forall id, id ≠ proof.proofid -> Quiet id s t
  single : Single t proof.proofid
  dangling : t.isDangling proof.proofid = true -> s.isDangling proof.proofid = true

theorem Placed.of_quiet (hs : Single s proof.proofid) (h : forall id, Quiet id s t) :
    Placed proof s t :=
  ⟨fun id _ => h id, (h proof.proofid).single hs, (h proof.proofid).dangling⟩

theorem findPeer_eq_some (h : s.findPeer id = some peer) :
    peer ∈ s.peers ∧ peer.getProofId = id := by
  have hid := find?_some h
  exact ⟨mem_of_find?_eq_some h, of_decide_eq_true hid⟩

theorem findPeer_eq_none (h : s.findPeer id = none) :
    forall p, p ∈ s.peers -> p.getProofId ≠ id := by
  intro p hp hid
  exact find?_eq_none.mp h p hp (decide_eq_true hid)

theorem existsProof_eq_false (h : s.existsProof id = false) :
    ¬ s.Bound id ∧ s.isInConflictingPool id = false ∧ s.isImmature id = false := by
  unfold existsProof getProof at h
  unfold isInConflictingPool isImmature
  rw [← ProofPool.isSome_getProof, ← ProofPool.isSome_getProof]
  cases hfind : s.findPeer id with
  | some peer =>
    rw [hfind] at h
    cases h
  | none =>
    rw [hfind] at h
    cases hconflicting : s.conflictingProofPool.getProof id with
    | some proof =>
      rw [hconflicting] at h
      cases h
    | none =>
      rw [hconflicting] at h
      refine ⟨?_, rfl, h⟩
      rintro ⟨p, hp, hid⟩
      exact findPeer_eq_none hfind p hp hid

/-- A proof that passes the first checks of `registerProof`. -/
structure Unregistered (mode : RegistrationMode) (s : PeerManager) (id : ProofId) : Prop where
  single : Single s id
  bound : ¬ s.Bound id
  immature : ¬ s.At id .immature
  conflicting : s.At id .conflicting -> mode = .forceAccept
  waiting : s.isDangling id = true -> s.waitingNodes id ≠ []

theorem unregistered_of_checks {mode : RegistrationMode} (hsingle : Single s id)
    (hexists : ¬ ((mode ≠ .forceAccept ∨ s.isInConflictingPool id = false) ∧
      s.existsProof id = true)) (hdangling : ¬ (s.isDangling id = true ∧
      s.pendingNodes.items.all (fun n => n.proofid ≠ id) = true)) : Unregistered mode s id := by
  have hwaiting : s.isDangling id = true -> s.waitingNodes id ≠ [] := by
    intro hin hnil
    apply hdangling
    refine ⟨hin, all_eq_true.mpr fun n hn => decide_eq_true fun hid => ?_⟩
    have hempty := map_eq_nil_iff.mp hnil
    exact filter_eq_nil_iff.mp hempty n hn (decide_eq_true hid)
  cases hknown : s.existsProof id with
  | false =>
    rcases existsProof_eq_false hknown with ⟨hbound, hconflicting, himmature⟩
    exact ⟨hsingle, hbound, Bool.eq_false_iff.mp himmature,
      fun hin => absurd hin (Bool.eq_false_iff.mp hconflicting), hwaiting⟩
  | true =>
    -- Only a conflicting proof may be known, and only if it is forced.
    have hforced : mode = .forceAccept ∧ s.isInConflictingPool id = true := by
      constructor
      · by_contra hmode
        exact hexists ⟨.inl hmode, hknown⟩
      · rw [← Bool.not_eq_false]
        exact fun hout => hexists ⟨.inr hout, hknown⟩
    have honly := fun a ha => hsingle a .conflicting ha hforced.right
    exact ⟨hsingle, fun hbound => (nomatch honly .peer hbound),
      fun hin => (nomatch honly .immature hin), fun _ => hforced.left, hwaiting⟩

/-!
## All proofs
-/

def Apart (s : PeerManager) : Prop :=
  forall id, Single s id

/-- No proof is in two places, and a proof that was nowhere still is. -/
structure Kept (s t : PeerManager) : Prop where
  apart : Apart t
  nowhere : forall id, Nowhere s id -> Nowhere t id

theorem Kept.trans (h : Kept s t) (h' : Kept t u) : Kept s u :=
  ⟨h'.apart, fun id hs => h'.nowhere id (h.nowhere id hs)⟩

theorem Apart.kept (h : Apart s) (hquiet : forall id, Quiet id s t) : Kept s t :=
  ⟨fun id => (hquiet id).single (h id), fun id hs => (hquiet id).nowhere hs⟩

theorem Apart.placed (h : Apart s) (ht : Placed proof s t) : Apart t := by
  intro id
  by_cases hid : id = proof.proofid
  · exact hid ▸ ht.single
  · exact (ht.others id hid).single (h id)

theorem safeRegister_default (h : s.isDangling proof.proofid = false) :
    SafeRegister w proof .default s where
  dangling := fun hin => absurd hin (h ▸ Bool.false_ne_true)
  conflicting := fun _ hmode => by cases hmode

theorem Apart.enters {place : Place} (h : Apart s) (ht : Enters place id s t)
    (hs : forall a, s.At id a -> a = place) : Apart t := by
  intro x
  by_cases hx : x = id
  · exact hx ▸ Single.of_only (ht.only hs)
  · exact (ht.quiet hx).single (h x)

end PeerManager

end ECash.Avalanche
