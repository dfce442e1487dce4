import ECash.Avalanche.PeerConsistency
import ECash.Avalanche.Selection

/-!
# Compaction of the slots

Compaction lays the slots of the connected peers anew.  It takes the start of every
new slot from the stop of an old one, so the new slots are end to end only if the old
vector already stops at the sums of the scores.
-/

namespace ECash.Avalanche

open Foundation List IndexedSet

namespace PeerManager

/-!
## What the loop computes
-/

def stopAt (slots : List Slot) (i : Nat) : Nat :=
  (slots[i]?.map Slot.getStop).getD 0

def laidSlots (slots : List Slot) : Nat -> Nat -> List Peer -> List Slot
  | _, _, [] => []
  | i, start, peer :: rest =>
    if peer.nodeCount = 0 then laidSlots slots i start rest
    else
      ⟨start, peer.getScore, some peer.peerid⟩ :: laidSlots slots (i + 1) (stopAt slots i) rest

/-- Where the loop believes that the last new slot stops. -/
def laidStop (slots : List Slot) : Nat -> Nat -> List Peer -> Nat
  | _, start, [] => start
  | i, start, peer :: rest =>
    if peer.nodeCount = 0 then laidStop slots i start rest
    else laidStop slots (i + 1) (stopAt slots i) rest

def reindexed : Nat -> List Peer -> List Peer
  | _, [] => []
  | i, peer :: rest =>
    if peer.nodeCount = 0 then peer :: reindexed i rest
    else Peer.setIndex i peer :: reindexed (i + 1) rest

def connected (peers : List Peer) : List Peer :=
  peers.filter fun p => 0 < p.nodeCount

variable {p : Peer} {slots : List Slot} {peers : List Peer}

theorem connected_cons_of_zero (h : p.nodeCount = 0) (rest : List Peer) :
    connected (p :: rest) = connected rest := by
  unfold connected
  rw [filter_cons, h]
  rfl

theorem connected_cons_of_pos (h : p.nodeCount ≠ 0) (rest : List Peer) :
    connected (p :: rest) = p :: connected rest := by
  unfold connected
  rw [filter_cons, if_pos (decide_eq_true (Nat.pos_of_ne_zero h))]

theorem items_modify_split {peers : IndexedSet Peer.peerid} {done rest : List Peer}
    (hitems : peers.items = done ++ p :: rest) (update : Update Peer.peerid) :
    (peers.modify p.peerid update).items = done ++ update p :: rest := by
  have hnodup := peers.nodup
  have hother : forall q, q ∈ done ∨ q ∈ rest -> q.peerid ≠ p.peerid := by
    rw [hitems, map_append, map_cons, nodup_middle, nodup_cons] at hnodup
    intro q hq heq
    apply hnodup.left
    rw [mem_append, ← heq]
    exact hq.imp (mem_map_of_mem) (mem_map_of_mem)
  have hsame : forall part : List Peer, (forall q, q ∈ part -> q.peerid ≠ p.peerid) ->
      part.map (fun q => if q.peerid = p.peerid then update q else q) = part := by
    intro part hpart
    conv_rhs => rw [← map_id part]
    exact map_congr_left fun q hq => if_neg (hpart q hq)
  show peers.items.map (fun q => if q.peerid = p.peerid then update q else q) = _
  rw [hitems, map_append, map_cons, if_pos rfl,
    hsame done fun q hq => hother q (.inl hq), hsame rest fun q hq => hother q (.inr hq)]

def Compaction.lay (slots : List Slot) (c : Compaction) (peer : Peer) : Compaction where
  newslots := c.newslots ++ [⟨c.prevStop, peer.getScore, some peer.peerid⟩]
  prevStop := stopAt slots c.i
  peers := c.peers.modify peer.peerid (Peer.setIndex c.i)
  i := c.i + 1

theorem compactPeer_of_pos {c : Compaction} (h : p.nodeCount ≠ 0) (hi : c.i < slots.length) :
    compactPeer slots c p = .ok (c.lay slots p) := by
  unfold compactPeer Compaction.lay stopAt
  rw [if_neg h, getElem?_eq_getElem hi]
  rfl

theorem foldlM_compactPeer {rest done : List Peer} {c : Compaction}
    (hitems : c.peers.items = done ++ rest) (hroom : c.i + (connected rest).length ≤ slots.length) :
    exists c', rest.foldlM (compactPeer slots) c = .ok c' ∧
      c'.newslots = c.newslots ++ laidSlots slots c.i c.prevStop rest ∧
      c'.prevStop = laidStop slots c.i c.prevStop rest ∧
      c'.peers.items = done ++ reindexed c.i rest := by
  induction rest generalizing done c with
  | nil => exact ⟨c, rfl, (append_nil _).symm, rfl, hitems⟩
  | cons p rest ih =>
    rw [foldlM_cons]
    unfold laidSlots laidStop reindexed
    by_cases hcount : p.nodeCount = 0
    · rw [if_pos hcount, if_pos hcount, if_pos hcount, compactPeer, if_pos hcount, append_cons]
      rw [connected_cons_of_zero hcount] at hroom
      rw [append_cons] at hitems
      exact ih hitems hroom
    · rw [connected_cons_of_pos hcount, length_cons] at hroom
      have hi : c.i < slots.length := by omega
      have hnext : (c.lay slots p).peers.items = (done ++ [Peer.setIndex c.i p]) ++ rest := by
        rw [← append_cons]
        exact items_modify_split hitems (Peer.setIndex c.i)
      have hroom' : (c.lay slots p).i + (connected rest).length ≤ slots.length := by
        rw [add_comm _ 1, ← add_assoc] at hroom
        exact hroom
      rcases ih hnext hroom' with ⟨c', hc', hslots, hprev, hpeers⟩
      rw [if_neg hcount, if_neg hcount, if_neg hcount, compactPeer_of_pos hcount hi]
      refine ⟨c', hc', ?_, hprev, ?_⟩
      · rw [hslots, append_cons]
        rfl
      · rw [hpeers, ← append_cons]
        rfl

/-!
## The peers and slots after compaction
-/

theorem map_reindexed {b : Type} {f : Peer -> b} (hf : forall i p, f (Peer.setIndex i p) = f p)
    (i : Nat) (peers : List Peer) : (reindexed i peers).map f = peers.map f := by
  induction peers generalizing i with
  | nil => rfl
  | cons p rest ih =>
    unfold reindexed
    split
    · rw [map_cons, map_cons, ih]
    · rw [map_cons, map_cons, ih, hf]

def bearer (p : Peer) : PeerId × Proof × Nat :=
  (p.peerid, p.proof, p.nodeCount)

theorem mem_reindexed {i : Nat} (h : p ∈ reindexed i peers) :
    exists q, q ∈ peers ∧ p.peerid = q.peerid ∧ p.proof = q.proof ∧ p.nodeCount = q.nodeCount := by
  have hmem : bearer p ∈ peers.map bearer := by
    rw [← map_reindexed (f := bearer) (fun _ _ => rfl) i]
    exact mem_map_of_mem h
  rcases mem_map.mp hmem with ⟨q, hq, heq⟩
  simp only [bearer, Prod.mk.injEq] at heq
  exact ⟨q, hq, heq.left.symm, heq.right.left.symm, heq.right.right.symm⟩

theorem laidSlots_peer {i start j : Nat} {slot : Slot}
    (h : (laidSlots slots i start peers)[j]? = some slot) :
    exists p, p ∈ reindexed i peers ∧ slot.peerid = some p.peerid ∧ p.index = i + j ∧
      0 < p.nodeCount ∧ slot.score = p.getScore := by
  induction peers generalizing i start j with
  | nil => cases h
  | cons p rest ih =>
    unfold laidSlots at h
    unfold reindexed
    by_cases hcount : p.nodeCount = 0
    · rw [if_pos hcount] at h ⊢
      rcases ih h with ⟨q, hq, hrest⟩
      exact ⟨q, mem_cons_of_mem p hq, hrest⟩
    rw [if_neg hcount] at h ⊢
    cases j with
    | zero =>
      cases h
      exact ⟨_, mem_cons_self, rfl, rfl, Nat.pos_of_ne_zero hcount, rfl⟩
    | succ j =>
      rcases ih h with ⟨q, hq, hid, _, hrest⟩
      exact ⟨q, mem_cons_of_mem _ hq, hid, by omega, hrest⟩

theorem laidSlots_of_peer {i start : Nat} (hp : p ∈ reindexed i peers) (hcount : 0 < p.nodeCount) :
    exists j slot, p.index = i + j ∧ (laidSlots slots i start peers)[j]? = some slot ∧
      slot.peerid = some p.peerid ∧ slot.score = p.getScore := by
  induction peers generalizing i start with
  | nil => cases hp
  | cons q rest ih =>
    unfold reindexed at hp
    unfold laidSlots
    by_cases hq : q.nodeCount = 0
    · rw [if_pos hq] at hp ⊢
      rcases mem_cons.mp hp with rfl | hp
      · exact absurd hq (Nat.ne_of_gt hcount)
      · exact ih hp
    · rw [if_neg hq] at hp ⊢
      rcases mem_cons.mp hp with rfl | hp
      · exact ⟨0, _, rfl, rfl, rfl, rfl⟩
      · rcases @ih (i + 1) (stopAt slots i) hp with ⟨j, slot, _, hslot, hrest⟩
        exact ⟨j + 1, slot, by omega, hslot, hrest⟩

theorem sum_liveScore_laidSlots (slots : List Slot) (i start : Nat) (peers : List Peer) :
    ((laidSlots slots i start peers).map Slot.liveScore).sum =
      (peers.map Peer.connectedScore).sum := by
  induction peers generalizing i start with
  | nil => rfl
  | cons p rest ih =>
    unfold laidSlots
    rw [map_cons, sum_cons]
    by_cases hcount : p.nodeCount = 0
    · rw [if_pos hcount, ih, Peer.connectedScore_of_zero hcount, zero_add]
    · rw [if_neg hcount, map_cons, sum_cons, ih,
        Peer.connectedScore_of_pos (Nat.pos_of_ne_zero hcount)]
      rfl

def relaid (s : PeerManager) (peers : IndexedSet Peer.peerid) : PeerManager :=
  { s with
    slots := laidSlots s.slots 0 0 s.peers.items
    peers
    slotCount := laidStop s.slots 0 0 s.peers.items
    fragmentation := 0 }

section Compact

variable {s : PeerManager}
  (h : Allocation s.nextPeerId s.peers s.slots s.connectedPeersScore s.totalPeersScore)

include h

theorem connected_length_le : (connected s.peers.items).length ≤ s.slots.length := by
  have hnodup : ((connected s.peers.items).map Peer.index).Nodup := by
    apply List.Nodup.map_on _ (s.peers.items_nodup.filter _)
    intro p hp q hq hindex
    rcases mem_filter.mp hp with ⟨hp, hpcount⟩
    rcases mem_filter.mp hq with ⟨hq, hqcount⟩
    apply eq_of_key_eq (show p ∈ s.peers from hp) hq
    by_contra hne
    exact h.index_ne hp hq (of_decide_eq_true hpcount) (of_decide_eq_true hqcount)
      (Ne.symm hne) hindex.symm
  have hsubset : (connected s.peers.items).map Peer.index ⊆ range s.slots.length := by
    intro i hi
    rcases mem_map.mp hi with ⟨p, hp, rfl⟩
    rcases mem_filter.mp hp with ⟨hp, hcount⟩
    rcases h.peerSlot p hp (of_decide_eq_true hcount) with ⟨_, hslot, _⟩
    exact List.mem_range.mpr (getElem?_lt hslot)
  have hle := (List.subperm_of_subset hnodup hsubset).length_le
  rwa [length_map, length_range] at hle

theorem compact_eq (hfragmentation : s.fragmentation ≠ 0) :
    exists peers : IndexedSet Peer.peerid, peers.items = reindexed 0 s.peers.items ∧
      compact s = .ok (s.slotCount - laidStop s.slots 0 0 s.peers.items, s.relaid peers) := by
  have hroom := connected_length_le h
  rw [← zero_add (length _)] at hroom
  rcases foldlM_compactPeer (c := ⟨[], 0, s.peers, 0⟩) (nil_append _).symm hroom with
    ⟨c, hfold, hslots, hprev, hpeers⟩
  refine ⟨c.peers, hpeers, ?_⟩
  apply stateT_bind_eq_ok.mpr
  refine ⟨s, s, rfl, ?_⟩
  rw [if_neg hfragmentation]
  have hlift : (liftM (s.peers.items.foldlM (compactPeer s.slots)
      { newslots := [], prevStop := 0, peers := s.peers, i := 0 }) : Manager Compaction) s =
      .ok (c, s) := by
    rw [hfold]
    rfl
  apply stateT_bind_eq_ok.mpr
  refine ⟨c, s, hlift, ?_⟩
  rw [hslots, hprev]
  rfl

/-- The new slots belong to the connected peers, wherever they are laid. -/
theorem relaid_allocation {peers : IndexedSet Peer.peerid}
    (hpeers : peers.items = reindexed 0 s.peers.items) :
    Allocation s.nextPeerId peers (laidSlots s.slots 0 0 s.peers.items) s.connectedPeersScore
      s.totalPeersScore := by
  have hmem : forall {p}, p ∈ peers <-> p ∈ reindexed 0 s.peers.items := by
    intro p
    rw [mem_def, hpeers]
  have hsame : forall q, q ∈ peers ->
      exists p, p ∈ s.peers ∧ q.peerid = p.peerid ∧ q.proof = p.proof := by
    intro q hq
    rcases mem_reindexed (hmem.mp hq) with ⟨p, hp, hid, hproof, _⟩
    exact ⟨p, hp, hid, hproof⟩
  constructor
  case fresh => exact h.fresh_of_same hsame
  case unique => exact h.unique_of_same hsame
  case slotPeer =>
    intro i slot id hslot hid
    rcases laidSlots_peer hslot with ⟨p, hp, hpid, hindex, hcount, _⟩
    exact ⟨p, hmem.mpr hp, Option.some.inj (hpid.symm.trans hid), hindex.trans (zero_add i), hcount⟩
  case peerSlot =>
    intro p hp hcount
    rcases laidSlots_of_peer (hmem.mp hp) hcount with ⟨_, slot, hindex, hslot, hrest⟩
    rw [zero_add] at hindex
    exact ⟨slot, hindex ▸ hslot, hrest⟩
  case liveSlots =>
    rw [sum_liveScore_laidSlots]
    exact h.connectedPeers
  case connectedPeers =>
    rw [hpeers, map_reindexed fun _ _ => rfl]
    exact h.connectedPeers
  case allPeers =>
    rw [hpeers, map_reindexed fun _ _ => rfl]
    exact h.allPeers

end Compact

/-- Compaction keeps the peers and leaves everything but the slots alone. -/
structure Relaid (s t : PeerManager) : Prop extends SamePools s t, SamePeers s t where
  nodes : t.nodes = s.nodes
  pendingNodes : t.pendingNodes = s.pendingNodes

theorem relaid_hasPeer {s : PeerManager} {peers : IndexedSet Peer.peerid}
    (hpeers : peers.items = reindexed 0 s.peers.items) (id : PeerId) (proof : Proof) :
    HasPeer peers id proof <-> HasPeer s.peers id proof := by
  have hmem : forall {peers : IndexedSet Peer.peerid}, HasPeer peers id proof <->
      (id, proof) ∈ peers.items.map fun p => (p.peerid, p.proof) := by
    intro peers
    simp [HasPeer, mem_def]
  rw [hmem, hmem, hpeers, map_reindexed fun _ _ => rfl]

theorem compact_returns {k : Scope} {s : PeerManager} (h : Core k s) :
    Returns compact s fun _ t => Core { k with laid := False } t ∧ Relaid s t := by
  by_cases hzero : s.fragmentation = 0
  · apply Returns.get_bind
    rw [if_pos hzero]
    exact Returns.pure ⟨{ h with slotted := ⟨h.slotted.allocation, False.elim⟩ },
      ⟨rfl, rfl⟩, ⟨fun _ _ => Iff.rfl, rfl⟩, rfl, rfl⟩
  · rcases compact_eq h.slotted.allocation hzero with ⟨peers, hpeers, hcompact⟩
    have hhas := relaid_hasPeer hpeers
    refine ⟨_, s.relaid peers, hcompact, ?_, ⟨rfl, rfl⟩, ⟨hhas, rfl⟩, rfl, rfl⟩
    refine h.samePeers ⟨relaid_allocation h.slotted.allocation hpeers, False.elim⟩ ?_ ?_
    · intro p hp
      rw [mem_def, hpeers] at hp
      exact mem_reindexed hp
    · intro id hid
      rcases h.sharing.bound id hid with ⟨q, hq, hid⟩
      rcases (hhas q.peerid q.proof).mpr ⟨q, hq, rfl, rfl⟩ with ⟨p, hp, _, hsame⟩
      exact ⟨p, hp, (congrArg Proof.proofid hsame).trans hid⟩

/-!
## When the new slots are end to end
-/

theorem sum_connectedScore (peers : List Peer) :
    (peers.map Peer.connectedScore).sum = ((connected peers).map Peer.getScore).sum := by
  induction peers with
  | nil => rfl
  | cons p rest ih =>
    rw [map_cons, sum_cons, ih]
    by_cases hcount : p.nodeCount = 0
    · rw [connected_cons_of_zero hcount, Peer.connectedScore_of_zero hcount, zero_add]
    · rw [connected_cons_of_pos hcount, Peer.connectedScore_of_pos (Nat.pos_of_ne_zero hcount),
        map_cons, sum_cons]

variable {slots : List Slot} {peers : List Peer}

theorem laidSlots_start {i start from_ : Nat}
    (hlaid : EndToEnd from_ (laidSlots slots i start peers))
    (hstop : laidStop slots i start peers = from_ + ((connected peers).map Peer.getScore).sum) :
    start = from_ := by
  induction peers with
  | nil => exact hstop
  | cons p rest ih =>
    unfold laidSlots at hlaid
    unfold laidStop at hstop
    by_cases hcount : p.nodeCount = 0
    · rw [if_pos hcount] at hlaid hstop
      rw [connected_cons_of_zero hcount] at hstop
      exact ih hlaid hstop
    · rw [if_neg hcount] at hlaid
      exact hlaid.left

/-- The old vector stops at the sums of the scores of the connected peers. -/
def StopsFit (slots : List Slot) (i start : Nat) (peers : List Peer) : Prop :=
  forall k, k < (connected peers).length ->
    stopAt slots (i + k) = start + (((connected peers).take (k + 1)).map Peer.getScore).sum

theorem laidSlots_endToEnd_iff {i start : Nat} :
    (EndToEnd start (laidSlots slots i start peers) ∧
        laidStop slots i start peers = start + ((connected peers).map Peer.getScore).sum) <->
      StopsFit slots i start peers := by
  induction peers generalizing i start with
  | nil => exact ⟨fun _ _ hk => absurd hk (Nat.not_lt_zero _), fun _ => ⟨trivial, rfl⟩⟩
  | cons p rest ih =>
    unfold laidSlots laidStop StopsFit
    by_cases hcount : p.nodeCount = 0
    · rw [if_pos hcount, if_pos hcount, connected_cons_of_zero hcount]
      exact ih
    rw [if_neg hcount, if_neg hcount, connected_cons_of_pos hcount, map_cons, sum_cons, ← add_assoc]
    constructor
    · rintro ⟨⟨_, hlaid⟩, hstop⟩
      have hnext : stopAt slots i = start + p.getScore := laidSlots_start hlaid hstop
      have hlaid' : EndToEnd (start + p.getScore) _ := hlaid
      rw [hnext] at hlaid' hstop
      have hfit := ih.mp ⟨hlaid', hstop⟩
      intro k hk
      cases k with
      | zero => exact hnext
      | succ k =>
        have hrest := hfit k (Nat.lt_of_succ_lt_succ hk)
        rw [add_right_comm, add_assoc start] at hrest
        exact hrest
    · intro hfit
      have hnext : stopAt slots i = start + p.getScore := by
        have hzero := hfit 0 (Nat.zero_lt_succ _)
        rwa [take_succ_cons] at hzero
      have hrest : StopsFit slots (i + 1) (start + p.getScore) rest := by
        intro k hk
        have hsucc := hfit (k + 1) (Nat.succ_lt_succ hk)
        rw [add_right_comm, add_assoc start]
        exact hsucc
      rcases ih.mpr hrest with ⟨hlaid, hstop⟩
      rw [hnext]
      exact ⟨⟨rfl, hlaid⟩, hstop⟩

theorem EndToEnd.getStop_le {start : Nat} (h : EndToEnd start slots) :
    forall slot, slot ∈ slots -> slot.getStop ≤ start + (slots.map Slot.score).sum := by
  intro slot hslot
  rcases append_of_mem hslot with ⟨before, after, rfl⟩
  have hstart := (endToEnd_append.mp h).right.left
  rw [Slot.getStop, hstart, map_append, sum_append, map_cons, sum_cons]
  omega

/-- The slots as compaction should leave them: those of the connected peers, end to end. -/
structure Compacted (before t : PeerManager) : Prop where
  owned : forall (i : Nat) (slot : Slot), t.slots[i]? = some slot ->
    exists p, p ∈ t.peers ∧ slot.peerid = some p.peerid ∧ p.index = i ∧ 0 < p.nodeCount
  indexed : forall p, p ∈ t.peers -> 0 < p.nodeCount ->
    exists slot, t.slots[p.index]? = some slot ∧ slot.peerid = some p.peerid ∧
      slot.score = p.getScore
  endToEnd : EndToEnd 0 t.slots
  disjoint : t.slots.Pairwise fun a b =>
    forall value, ¬ (a.contains value = true ∧ b.contains value = true)
  slotCount : t.slotCount = t.connectedPeersScore
  fragmentation : t.fragmentation = 0
  verified : before.verify = true -> t.verify = true
  drawn : forall p, p ∈ t.peers -> 0 < p.nodeCount ->
    draws t.slots t.slotCount p.peerid = p.getScore

/-- What the manager keeps about its slots; gaps between them are allowed. -/
structure SlotInvariant (s : PeerManager) : Prop where
  allocation : Allocation s.nextPeerId s.peers s.slots s.connectedPeersScore s.totalPeersScore
  ordered : Ordered s.slots
  dead : s.fragmentation = (s.slots.map Slot.deadScore).sum
  stop : s.slotCount = (s.slots.getLast?.map Slot.getStop).getD 0

/-- With fragmentation, the old slots stop at the sums of the scores of the connected
peers.  Without, there is nothing to do. -/
def CompactsWell (s : PeerManager) : Prop :=
  if s.fragmentation = 0 then
    EndToEnd 0 s.slots ∧ forall slot, slot ∈ s.slots -> slot.peerid.isSome = true
  else StopsFit s.slots 0 0 s.peers.items

section Compacted

variable {s : PeerManager}

theorem verifyUtxos_relaid (peers : IndexedSet Peer.peerid) (proof : Proof)
    (utxos seen : List Coins.OutPoint) :
    (s.relaid peers).verifyUtxos proof utxos seen = s.verifyUtxos proof utxos seen := by
  induction utxos generalizing seen with
  | nil => rfl
  | cons utxo rest ih =>
    unfold verifyUtxos
    rw [ih]
    rfl

variable {peers : IndexedSet Peer.peerid}

theorem verifyPeers_relaid (hconnected : forall p, p ∈ peers -> 0 < p.nodeCount ->
      (s.shareableProofs.get p.getProofId).isSome = true ->
      (s.relaid peers).verifyConnected p = true)
    {rest : List Peer} {i : Nat} (hmem : forall p, p ∈ reindexed i rest -> p ∈ peers)
    {totals result : PeerTotals} (hresult : s.verifyPeers rest totals = some result) :
    (s.relaid peers).verifyPeers (reindexed i rest) totals = some result := by
  induction rest generalizing i totals with
  | nil => exact hresult
  | cons p rest ih =>
    rcases verifyPeers_cons.mp hresult with ⟨utxos, hutxos, hnodes, hverified, hrest⟩
    rw [← verifyUtxos_relaid peers] at hutxos
    unfold reindexed at hmem ⊢
    by_cases hcount : p.nodeCount = 0
    · rw [if_pos hcount] at hmem ⊢
      exact verifyPeers_cons.mpr
        ⟨utxos, hutxos, hnodes, absurd hcount, ih (forall_mem_cons.mp hmem).2 hrest⟩
    · rw [if_neg hcount] at hmem ⊢
      have hshared : (s.shareableProofs.get p.getProofId).isSome = true := by
        have hslot := hverified hcount
        unfold verifyConnected at hslot
        split at hslot
        · cases hslot
        · exact (of_decide_eq_true hslot).right.right
      refine verifyPeers_cons.mpr
        ⟨utxos, hutxos, hnodes, fun _ => ?_, ih (forall_mem_cons.mp hmem).2 hrest⟩
      exact hconnected _ (hmem _ mem_cons_self) (Nat.pos_of_ne_zero hcount) hshared

theorem verify_relaid (hpeers : peers.items = reindexed 0 s.peers.items)
    (hallocation : Allocation s.nextPeerId peers (laidSlots s.slots 0 0 s.peers.items)
      s.connectedPeersScore s.totalPeersScore)
    (hlaid : EndToEnd 0 (laidSlots s.slots 0 0 s.peers.items)) (hverify : s.verify = true) :
    (s.relaid peers).verify = true := by
  have hslots : (s.relaid peers).verifySlots (s.relaid peers).slots 0 0 0 =
      some s.connectedPeersScore := verifySlots_allocated hallocation hlaid
  have hconnected : forall p, p ∈ peers -> 0 < p.nodeCount ->
      (s.shareableProofs.get p.getProofId).isSome = true ->
      (s.relaid peers).verifyConnected p = true := by
    intro p hp hcount hshared
    rcases hallocation.peerSlot p hp hcount with ⟨slot, hslot, hid, hscore⟩
    unfold verifyConnected
    rw [show (s.relaid peers).slots[p.index]? = some slot from hslot]
    exact decide_eq_true ⟨hid, hscore, hshared⟩
  unfold verify at hverify ⊢
  rw [hslots]
  dsimp only
  rw [show (s.relaid peers).connectedPeersScore = s.connectedPeersScore from rfl,
    if_neg (not_not_intro rfl), show (s.relaid peers).peers.items = peers.items from rfl, hpeers]
  split at hverify
  · cases hverify
  split at hverify
  · cases hverify
  split at hverify
  · cases hverify
  rename_i totals htotals
  have hmem : forall p, p ∈ reindexed 0 s.peers.items -> p ∈ peers := by
    intro p hp
    rw [mem_def, hpeers]
    exact hp
  rw [verifyPeers_relaid hconnected hmem htotals]
  apply decide_eq_true
  rcases of_decide_eq_true hverify with ⟨hall, hwith, hsize, hshared⟩
  refine ⟨hall, hwith, hsize, ?_⟩
  rw [all_eq_true] at hshared ⊢
  intro proof hproof
  rcases find?_isSome.mp (hshared proof hproof) with ⟨q, hq, hid⟩
  rcases (relaid_hasPeer hpeers q.peerid q.proof).mpr ⟨q, hq, rfl, rfl⟩ with ⟨p, hp, _, hsame⟩
  apply find?_isSome.mpr
  refine ⟨p, hp, decide_eq_true ?_⟩
  exact (congrArg Proof.proofid hsame).trans (of_decide_eq_true hid)

/-- Slots of the connected peers that are end to end serve every draw. -/
theorem drawn_of_endToEnd {t : PeerManager}
    (hallocation : Allocation t.nextPeerId t.peers t.slots t.connectedPeersScore t.totalPeersScore)
    (hlaid : EndToEnd 0 t.slots) (hcount : t.slotCount = (t.slots.map Slot.score).sum)
    {p : Peer} (hp : p ∈ t.peers) (hconnected : 0 < p.nodeCount) :
    draws t.slots t.slotCount p.peerid = p.getScore := by
  rcases hallocation.peerSlot p hp hconnected with ⟨_, hslot, hid, hscore⟩
  rw [← hscore]
  apply draws_eq (EndToEnd.pairwise hlaid).right _ hslot hid
  · intro j a ha haid
    rcases hallocation.slotPeer j a p.peerid ha haid with ⟨_, hq, hqid, hindex, _⟩
    rw [← hindex, eq_of_key_eq hq hp hqid]
  · intro other hother
    have hle := EndToEnd.getStop_le hlaid other hother
    rwa [zero_add, ← hcount] at hle

theorem disjoint_of_endToEnd {slots : List Slot} (h : EndToEnd 0 slots) :
    slots.Pairwise fun a b =>
      forall value, ¬ (a.contains value = true ∧ b.contains value = true) := by
  apply (EndToEnd.pairwise h).right.imp
  rintro _ _ hab _ ⟨ha, hb⟩
  exact absurd ((Slot.contains_iff.mp ha).right.trans_le hab)
    (not_lt.mpr (Slot.contains_iff.mp hb).left)

theorem sum_score_of_live {slots : List Slot}
    (h : forall slot, slot ∈ slots -> slot.peerid.isSome = true) :
    (slots.map Slot.score).sum = (slots.map Slot.liveScore).sum := by
  congr 1
  apply map_congr_left
  intro slot hslot
  exact (if_pos (h slot hslot)).symm

theorem compacted_of_endToEnd {before t : PeerManager}
    (hallocation : Allocation t.nextPeerId t.peers t.slots t.connectedPeersScore t.totalPeersScore)
    (hlive : forall slot, slot ∈ t.slots -> slot.peerid.isSome = true)
    (hlaid : EndToEnd 0 t.slots) (hcount : t.slotCount = (t.slots.map Slot.score).sum)
    (hzero : t.fragmentation = 0) (hverify : before.verify = true -> t.verify = true) :
    Compacted before t := by
  constructor
  case owned =>
    intro i slot hslot
    rcases Option.isSome_iff_exists.mp (hlive slot (mem_of_getElem? hslot)) with ⟨id, hid⟩
    rcases hallocation.slotPeer i slot id hslot hid with ⟨p, hp, hpid, hrest⟩
    exact ⟨p, hp, hpid ▸ hid, hrest⟩
  case indexed => exact hallocation.peerSlot
  case endToEnd => exact hlaid
  case disjoint => exact disjoint_of_endToEnd hlaid
  case slotCount =>
    rw [hcount, sum_score_of_live hlive]
    exact hallocation.liveSlots.symm
  case fragmentation => exact hzero
  case verified => exact hverify
  case drawn => exact fun p => drawn_of_endToEnd hallocation hlaid hcount

theorem compacted_iff_of_fragmentation_zero (h : SlotInvariant s) (hzero : s.fragmentation = 0) :
    Compacted s s <->
      EndToEnd 0 s.slots ∧ forall slot, slot ∈ s.slots -> slot.peerid.isSome = true := by
  constructor
  · intro hcompacted
    refine ⟨hcompacted.endToEnd, ?_⟩
    intro slot hslot
    rcases mem_iff_getElem?.mp hslot with ⟨i, hi⟩
    rcases hcompacted.owned i slot hi with ⟨_, _, hid, _⟩
    rw [hid]
    rfl
  · rintro ⟨hlaid, hlive⟩
    refine compacted_of_endToEnd h.allocation hlive hlaid ?_ hzero id
    rw [h.stop, hlaid.getStop_getLast?, zero_add]

theorem compacted_relaid_iff (h : SlotInvariant s)
    (hpeers : peers.items = reindexed 0 s.peers.items) :
    Compacted s (s.relaid peers) <-> StopsFit s.slots 0 0 s.peers.items := by
  have hallocation := relaid_allocation h.allocation hpeers
  have hsum : s.connectedPeersScore = 0 + ((connected s.peers.items).map Peer.getScore).sum := by
    rw [zero_add, ← sum_connectedScore]
    exact h.allocation.connectedPeers
  rw [← laidSlots_endToEnd_iff, ← hsum]
  constructor
  · intro hcompacted
    exact ⟨hcompacted.endToEnd, hcompacted.slotCount⟩
  rintro ⟨hlaid, hstop⟩
  have hlive : forall slot, slot ∈ (s.relaid peers).slots -> slot.peerid.isSome = true := by
    intro slot hslot
    rcases mem_iff_getElem?.mp hslot with ⟨_, hi⟩
    rcases laidSlots_peer hi with ⟨_, _, hid, _⟩
    rw [hid]
    rfl
  refine compacted_of_endToEnd hallocation hlive hlaid ?_ rfl
    (verify_relaid hpeers hallocation hlaid)
  rw [sum_score_of_live hlive]
  exact hstop.trans hallocation.liveSlots

/-- Compaction leaves the slots of the connected peers end to end exactly if the old
slots stop where the new ones should. -/
theorem compact_compacted_iff (h : SlotInvariant s) :
    exists saved t, compact s = .ok (saved, t) ∧ (Compacted s t <-> CompactsWell s) := by
  by_cases hzero : s.fragmentation = 0
  · refine ⟨0, s, ?_, ?_⟩
    · apply stateT_bind_eq_ok.mpr
      exact ⟨s, s, rfl, by rw [if_pos hzero]; rfl⟩
    · unfold CompactsWell
      rw [if_pos hzero]
      exact compacted_iff_of_fragmentation_zero h hzero
  · rcases compact_eq h.allocation hzero with ⟨_, hpeers, hcompact⟩
    refine ⟨_, _, hcompact, ?_⟩
    unfold CompactsWell
    rw [if_neg hzero]
    exact compacted_relaid_iff h hpeers

end Compacted

def slottedPeer (id index nodeCount score : Nat) : Peer where
  peerid := id
  index
  nodeCount
  proof := sampleProof (OfNat.ofNat id) [⟨id, 0⟩] (score * 1000000)
  registrationTime := 0
  nextPossibleConflictTime := 0

theorem slottedPeer_getScore {id index nodeCount score : Nat} (h : score < 2 ^ 32) :
    (slottedPeer id index nodeCount score).getScore = score := by
  have hamount : (slottedPeer id index nodeCount score).getScore =
      100 * (score * 1000000 + 0) / 100000000 % 2 ^ 32 := rfl
  omega

/-- Three peers, the first of which has lost its node. -/
def fragmented (first second third : Nat) : PeerManager where
  slots := [⟨0, first, none⟩, ⟨first, second, some 1⟩, ⟨first + second, third, some 2⟩]
  slotCount := first + second + third
  fragmentation := first
  nextPeerId := 3
  peers :=
    { items := [slottedPeer 0 0 0 first, slottedPeer 1 1 1 second, slottedPeer 2 2 1 third]
      nodup := by simp [slottedPeer] }
  totalPeersScore := first + second + third
  connectedPeersScore := second + third
  localProof := none

theorem fragmented_slotInvariant {first second third : Nat} (hfirst : first < 2 ^ 32)
    (hsecond : second < 2 ^ 32) (hthird : third < 2 ^ 32) :
    SlotInvariant (fragmented first second third) := by
  have hmem : forall p, p ∈ (fragmented first second third).peers <->
      p = slottedPeer 0 0 0 first ∨ p = slottedPeer 1 1 1 second ∨ p = slottedPeer 2 2 1 third := by
    intro p
    rw [mem_def]
    simp only [fragmented, mem_cons, not_mem_nil, or_false]
  constructor
  case allocation =>
    constructor
    case fresh =>
      intro p hp
      rcases (hmem p).mp hp with rfl | rfl | rfl <;> simp [slottedPeer, fragmented]
    case unique =>
      intro p q hp hq hid
      rcases (hmem p).mp hp with rfl | rfl | rfl <;> rcases (hmem q).mp hq with rfl | rfl | rfl <;>
          first | rfl | exact absurd hid (show OfNat.ofNat _ ≠ OfNat.ofNat _ by decide)
    case slotPeer =>
      intro i slot id hslot hid
      rcases i with _ | _ | _ | i
      · cases hslot
        cases hid
      · cases hslot
        cases hid
        exact ⟨_, (hmem _).mpr (.inr (.inl rfl)), rfl, rfl, one_pos⟩
      · cases hslot
        cases hid
        exact ⟨_, (hmem _).mpr (.inr (.inr rfl)), rfl, rfl, one_pos⟩
      · cases hslot
    case peerSlot =>
      intro p hp hcount
      rcases (hmem p).mp hp with rfl | rfl | rfl
      · cases hcount
      · exact ⟨_, rfl, rfl, (slottedPeer_getScore hsecond).symm⟩
      · exact ⟨_, rfl, rfl, (slottedPeer_getScore hthird).symm⟩
    case liveSlots => simp [fragmented, Slot.liveScore]
    case connectedPeers =>
      simp only [fragmented, map_cons, map_nil, sum_cons, sum_nil,
        Peer.connectedScore, slottedPeer_getScore hsecond, slottedPeer_getScore hthird]
      simp [slottedPeer]
    case allPeers =>
      simp only [fragmented, map_cons, map_nil, sum_cons, sum_nil,
        slottedPeer_getScore hfirst, slottedPeer_getScore hsecond, slottedPeer_getScore hthird]
      omega
  case ordered => simp [fragmented, Ordered, Slot.getStop]
  case dead => simp [fragmented, Slot.deadScore]
  case stop => simp [fragmented, Slot.getStop]

/-- Peers of the same score are compacted. -/
theorem compact_compacted_iff_even :
    exists saved t, compact (fragmented 2 2 2) = .ok (saved, t) ∧
      Compacted (fragmented 2 2 2) t := by
  rcases compact_compacted_iff
      (fragmented_slotInvariant (show 2 < 2 ^ 32 by decide) (show 2 < 2 ^ 32 by decide)
        (show 2 < 2 ^ 32 by decide)) with
    ⟨saved, t, hcompact, hiff⟩
  refine ⟨saved, t, hcompact, hiff.mpr ?_⟩
  unfold CompactsWell StopsFit
  rw [if_neg (show (fragmented 2 2 2).fragmentation ≠ 0 by decide)]
  decide

/-- The slots of two peers of different scores overlap after compaction. -/
theorem compact_overlaps :
    SlotInvariant (fragmented 1 2 3) ∧
      exists saved t, compact (fragmented 1 2 3) = .ok (saved, t) ∧
        ¬ Compacted (fragmented 1 2 3) t := by
  have hinvariant : SlotInvariant (fragmented 1 2 3) :=
    fragmented_slotInvariant (by decide) (by decide) (by decide)
  have hfragmentation : (fragmented 1 2 3).fragmentation ≠ 0 := by decide
  rcases compact_eq hinvariant.allocation hfragmentation with ⟨_, _, hcompact⟩
  refine ⟨hinvariant, _, _, hcompact, fun hcompacted => ?_⟩
  have hstop : laidStop (fragmented 1 2 3).slots 0 0 (fragmented 1 2 3).peers.items ≠
      (fragmented 1 2 3).connectedPeersScore := by decide
  exact hstop hcompacted.slotCount

end PeerManager

end ECash.Avalanche
