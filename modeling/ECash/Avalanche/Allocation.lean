import ECash.Avalanche.PeerManager

/-!
# Slots and scores of the peers

The part of the manager's state that decides which peer is drawn.  Every peer with a
node owns one live slot of its score, and the running totals of the scores agree
with the peers and with the slots.
-/

namespace ECash.Avalanche

open Foundation List IndexedSet

def Slot.liveScore (slot : Slot) : Nat :=
  if slot.peerid.isSome then slot.score else 0

def Slot.deadScore (slot : Slot) : Nat :=
  if slot.peerid.isSome then 0 else slot.score

variable {slot : Slot} {id : PeerId} {peer p : Peer} {i : Nat} {s : PeerManager}

theorem Slot.liveScore_of_some (h : slot.peerid = some id) : slot.liveScore = slot.score := by
  unfold liveScore
  rw [h]
  rfl

theorem Slot.deadScore_of_some (h : slot.peerid = some id) : slot.deadScore = 0 := by
  unfold deadScore
  rw [h]
  rfl

def Peer.connectedScore (peer : Peer) : Nat :=
  if 0 < peer.nodeCount then peer.getScore else 0

theorem Peer.connectedScore_of_zero (h : peer.nodeCount = 0) : peer.connectedScore = 0 := by
  unfold connectedScore
  rw [h]
  rfl

theorem Peer.connectedScore_of_pos (h : 0 < peer.nodeCount) : peer.connectedScore = peer.getScore :=
  if_pos h

/-!
## The slots of the connected peers
-/

/-- The allocation of slots to the peers. -/
structure Allocation (nextPeerId : PeerId) (peers : IndexedSet Peer.peerid) (slots : List Slot)
    (connected total : Nat) : Prop where
  fresh : forall p, p ∈ peers -> p.peerid < nextPeerId
  unique : forall p q, p ∈ peers -> q ∈ peers -> p.getProofId = q.getProofId -> p = q
  slotPeer : forall (i : Nat) (slot : Slot) (id : PeerId), slots[i]? = some slot ->
    slot.peerid = some id ->
    exists p, p ∈ peers ∧ p.peerid = id ∧ p.index = i ∧ 0 < p.nodeCount
  peerSlot : forall p, p ∈ peers -> 0 < p.nodeCount ->
    exists slot, slots[p.index]? = some slot ∧ slot.peerid = some p.peerid ∧ slot.score = p.getScore
  liveSlots : connected = (slots.map Slot.liveScore).sum
  connectedPeers : connected = (peers.items.map Peer.connectedScore).sum
  allPeers : total = (peers.items.map Peer.getScore).sum

section Allocation

variable {nextPeerId : PeerId} {peers : IndexedSet Peer.peerid} {slots : List Slot}
  {connected total : Nat} (h : Allocation nextPeerId peers slots connected total)

theorem Allocation.empty : Allocation 0 IndexedSet.empty [] 0 0 where
  fresh := nofun
  unique := nofun
  slotPeer := nofun
  peerSlot := nofun
  liveSlots := rfl
  connectedPeers := rfl
  allPeers := rfl

include h

theorem Allocation.no_slot (hp : p ∈ peers) (hcount : p.nodeCount = 0)
    (hslot : slots[i]? = some slot) : slot.peerid ≠ some p.peerid := by
  intro hid
  rcases h.slotPeer i slot p.peerid hslot hid with ⟨_, hq, hqid, _, hqcount⟩
  rw [eq_of_key_eq hq hp hqid, hcount] at hqcount
  exact Nat.lt_irrefl 0 hqcount

theorem Allocation.slot_at (hp : p ∈ peers) (hcount : 0 < p.nodeCount)
    (hslot : slots[p.index]? = some slot) :
    slot.peerid = some p.peerid ∧ slot.score = p.getScore := by
  rcases h.peerSlot p hp hcount with ⟨_, hslot', hrest⟩
  cases hslot.symm.trans hslot'
  exact hrest

theorem Allocation.index_ne {q : Peer} (hp : p ∈ peers) (hq : q ∈ peers)
    (hpcount : 0 < p.nodeCount) (hqcount : 0 < q.nodeCount) (hne : q.peerid ≠ p.peerid) :
    q.index ≠ p.index := by
  intro hindex
  rcases h.peerSlot p hp hpcount with ⟨_, hslot, hid, _⟩
  have hid' := (h.slot_at hq hqcount (hindex ▸ hslot)).left
  exact hne (Option.some.inj (hid'.symm.trans hid))

section Same

variable {peers' : IndexedSet Peer.peerid} (hsame : forall q, q ∈ peers' ->
  exists p, p ∈ peers ∧ q.peerid = p.peerid ∧ q.proof = p.proof)

include hsame

theorem Allocation.fresh_of_same : forall q, q ∈ peers' -> q.peerid < nextPeerId := by
  intro q hq
  rcases hsame q hq with ⟨p, hp, hid, _⟩
  exact hid ▸ h.fresh p hp

theorem Allocation.unique_of_same : forall q q', q ∈ peers' -> q' ∈ peers' ->
    q.getProofId = q'.getProofId -> q = q' := by
  intro q q' hq hq' hproofid
  rcases hsame q hq with ⟨p, hp, hid, hproof⟩
  rcases hsame q' hq' with ⟨p', hp', hid', hproof'⟩
  have heq : p = p' := by
    apply h.unique p p' hp hp'
    unfold Peer.getProofId at hproofid ⊢
    rw [← hproof, ← hproof', hproofid]
  apply eq_of_key_eq hq hq'
  rw [hid, hid', heq]

end Same

omit h in
theorem same_modify {update : Update Peer.peerid}
    (hproof : forall p, p ∈ peers -> p.peerid = id -> (update p).proof = p.proof) :
    forall q, q ∈ peers.modify id update ->
      exists p, p ∈ peers ∧ q.peerid = p.peerid ∧ q.proof = p.proof := by
  intro q hq
  rcases mem_modify.mp hq with ⟨hq, _⟩ | ⟨p, hp, hpid, rfl⟩
  · exact ⟨q, hq, rfl, rfl⟩
  · exact ⟨p, hp, update.keeps p, hproof p hp hpid⟩

theorem Allocation.modify (update : Update Peer.peerid)
    (hproof : forall p, (update p).proof = p.proof) (hindex : forall p, (update p).index = p.index)
    (hcount : forall p, p ∈ peers -> p.peerid = id ->
      (0 < (update p).nodeCount <-> 0 < p.nodeCount)) :
    Allocation nextPeerId (peers.modify id update) slots connected total := by
  have hscore : forall p, (update p).getScore = p.getScore :=
    fun p => congrArg Proof.getScore (hproof p)
  -- Every record of the new set is that of a peer with the same slot and proof.
  have hold : forall q, q ∈ peers.modify id update ->
      exists p, p ∈ peers ∧ q.peerid = p.peerid ∧ q.index = p.index ∧ q.proof = p.proof ∧
        (0 < q.nodeCount <-> 0 < p.nodeCount) := by
    intro q hq
    rcases mem_modify.mp hq with ⟨hq, _⟩ | ⟨p, hp, hpid, rfl⟩
    · exact ⟨q, hq, rfl, rfl, rfl, Iff.rfl⟩
    · exact ⟨p, hp, update.keeps p, hindex p, hproof p, hcount p hp hpid⟩
  have hsame := same_modify fun p (_ : p ∈ peers) (_ : p.peerid = id) => hproof p
  have hsum : forall measure : Peer -> Nat,
      (forall p, p ∈ peers -> p.peerid = id -> measure (update p) = measure p) ->
      ((peers.modify id update).items.map measure).sum = (peers.items.map measure).sum := by
    intro measure hmeasure
    unfold IndexedSet.modify
    rw [map_map]
    congr 1
    apply map_congr_left
    intro p hp
    show measure (if p.peerid = id then update p else p) = measure p
    split
    · exact hmeasure p hp ‹_›
    · rfl
  exact
    { fresh := h.fresh_of_same hsame
      unique := h.unique_of_same hsame
      slotPeer := by
        intro i slot wanted hslot hwanted
        rcases h.slotPeer i slot wanted hslot hwanted with ⟨p, hp, hpid, hpindex, hpcount⟩
        by_cases hmod : p.peerid = id
        · exact ⟨update p, mem_modify.mpr (.inr ⟨p, hp, hmod, rfl⟩),
            (update.keeps p).trans hpid, (hindex p).trans hpindex, (hcount p hp hmod).mpr hpcount⟩
        · exact ⟨p, mem_modify.mpr (.inl ⟨hp, hmod⟩), hpid, hpindex, hpcount⟩
      peerSlot := by
        intro q hq hqcount
        rcases hold q hq with ⟨p, hp, hqid, hqindex, hqproof, hiff⟩
        rcases h.peerSlot p hp (hiff.mp hqcount) with ⟨slot, hslot, hslotid, hslotscore⟩
        refine ⟨slot, hqindex ▸ hslot, hqid ▸ hslotid, hslotscore.trans ?_⟩
        exact congrArg Proof.getScore hqproof.symm
      liveSlots := h.liveSlots
      connectedPeers := by
        rw [hsum Peer.connectedScore]
        · exact h.connectedPeers
        · intro p hp hpid
          unfold Peer.connectedScore
          rw [hscore p]
          exact if_congr (hcount p hp hpid) rfl rfl
      allPeers := by
        rw [hsum Peer.getScore fun p _ _ => hscore p]
        exact h.allPeers }

theorem Allocation.score_le (hp : p ∈ peers) (hcount : 0 < p.nodeCount) :
    p.getScore ≤ connected := by
  rw [h.connectedPeers]
  have hmem : p.connectedScore ∈ peers.items.map Peer.connectedScore := mem_map_of_mem hp
  have hle := single_le_sum (fun _ _ => Nat.zero_le _) _ hmem
  rw [Peer.connectedScore_of_pos hcount] at hle
  exact hle

theorem Allocation.score_le_total (hp : p ∈ peers) : p.getScore ≤ total := by
  rw [h.allPeers]
  exact single_le_sum (fun _ _ => Nat.zero_le _) _ (mem_map_of_mem hp)

/-- The first node of a peer: the peer gets a slot behind the others. -/
theorem Allocation.allocate (hp : p ∈ peers) (hcount : p.nodeCount = 0) (start : Nat)
    (update : Update Peer.peerid) (hproof : (update p).proof = p.proof)
    (hindex : (update p).index = slots.length) (hnode : 0 < (update p).nodeCount) :
    Allocation nextPeerId (peers.modify p.peerid update)
      (slots ++ [⟨start, p.getScore, some p.peerid⟩]) (connected + p.getScore) total := by
  have hself : forall q, q ∈ peers -> q.peerid = p.peerid -> q = p := fun q hq => eq_of_key_eq hq hp
  have hupdate : update p ∈ peers.modify p.peerid update := mem_modify.mpr (.inr ⟨p, hp, rfl, rfl⟩)
  have hscore : (update p).getScore = p.getScore := congrArg Proof.getScore hproof
  have hsame := same_modify fun q hq hid => hself q hq hid ▸ hproof
  exact
    { fresh := h.fresh_of_same hsame
      unique := h.unique_of_same hsame
      slotPeer := by
        intro i slot id hslot hid
        rcases getElem?_concat hslot with hold | ⟨rfl, rfl⟩
        · rcases h.slotPeer i slot id hold hid with ⟨q, hq, hqid, hqindex, hqcount⟩
          have hne : q.peerid ≠ p.peerid := by
            rw [hqid]
            intro heq
            exact h.no_slot hp hcount hold (heq ▸ hid)
          exact ⟨q, mem_modify.mpr (.inl ⟨hq, hne⟩), hqid, hqindex, hqcount⟩
        · cases hid
          exact ⟨update p, hupdate, update.keeps p, hindex, hnode⟩
      peerSlot := by
        intro q hq hqcount
        rcases mem_modify.mp hq with ⟨hq, _⟩ | ⟨p', hp', hid, rfl⟩
        · rcases h.peerSlot q hq hqcount with ⟨slot, hslot, hslotid, hslotscore⟩
          exact ⟨slot, getElem?_append_of_some hslot _, hslotid, hslotscore⟩
        · cases hself p' hp' hid
          refine ⟨⟨start, p.getScore, some p.peerid⟩, ?_,
            congrArg some (update.keeps p).symm, hscore.symm⟩
          rw [hindex, getElem?_append_right le_rfl, Nat.sub_self]
          rfl
      liveSlots := by
        rw [map_append, sum_append, ← h.liveSlots]
        rfl
      connectedPeers := by
        have hsum := sum_modify update Peer.connectedScore hp rfl
        rw [Peer.connectedScore_of_zero hcount, Peer.connectedScore_of_pos hnode, hscore,
          ← h.connectedPeers] at hsum
        exact hsum.symm
      allPeers := by
        have hsum := sum_modify update Peer.getScore hp rfl
        rw [hscore, ← h.allPeers] at hsum
        exact (Nat.add_right_cancel hsum).symm }

/-- The last node of a peer goes: its slot must no longer be live, and the other live
slots must stay where they are. -/
theorem Allocation.free (hp : p ∈ peers) (hcount : 0 < p.nodeCount)
    (hslot : slots[p.index]? = some slot) {slots' : List Slot}
    (hlive : forall (i : Nat) (sl : Slot) (id : PeerId), slots'[i]? = some sl ->
      sl.peerid = some id -> i ≠ p.index ∧ slots[i]? = some sl)
    (hkept : forall (i : Nat) (sl : Slot) (id : PeerId), i ≠ p.index -> slots[i]? = some sl ->
      sl.peerid = some id -> slots'[i]? = some sl)
    (hsum : (slots'.map Slot.liveScore).sum + slot.score = (slots.map Slot.liveScore).sum)
    (update : Update Peer.peerid) (hproof : (update p).proof = p.proof)
    (hnode : (update p).nodeCount = 0) :
    Allocation nextPeerId (peers.modify p.peerid update) slots' (connected - slot.score) total := by
  have hself : forall q, q ∈ peers -> q.peerid = p.peerid -> q = p := fun q hq => eq_of_key_eq hq hp
  have hscore := (h.slot_at hp hcount hslot).right
  have hsame := same_modify fun q hq hid => hself q hq hid ▸ hproof
  exact
    { fresh := h.fresh_of_same hsame
      unique := h.unique_of_same hsame
      slotPeer := by
        intro i sl id hsl hid
        rcases hlive i sl id hsl hid with ⟨hi, hold⟩
        rcases h.slotPeer i sl id hold hid with ⟨q, hq, hqid, hqindex, hqcount⟩
        have hne : q.peerid ≠ p.peerid := by
          intro heq
          cases hself q hq heq
          exact hi hqindex.symm
        exact ⟨q, mem_modify.mpr (.inl ⟨hq, hne⟩), hqid, hqindex, hqcount⟩
      peerSlot := by
        intro q hq hqcount
        rcases mem_modify.mp hq with ⟨hq, hne⟩ | ⟨p', hp', hid, rfl⟩
        · rcases h.peerSlot q hq hqcount with ⟨sl, hsl, hid, hslscore⟩
          have hindex := h.index_ne hp hq hcount hqcount hne
          exact ⟨sl, hkept q.index sl q.peerid hindex hsl hid, hid, hslscore⟩
        · cases hself p' hp' hid
          rw [hnode] at hqcount
          cases hqcount
      liveSlots := by
        rw [h.liveSlots, ← hsum, Nat.add_sub_cancel]
      connectedPeers := by
        have hchange := sum_modify update Peer.connectedScore hp rfl
        rw [Peer.connectedScore_of_pos hcount, Peer.connectedScore_of_zero hnode,
          ← h.connectedPeers, add_zero] at hchange
        rw [← hchange, hscore, Nat.add_sub_cancel]
      allPeers := by
        have hchange := sum_modify update Peer.getScore hp rfl
        rw [show (update p).getScore = p.getScore from congrArg Proof.getScore hproof,
          ← h.allPeers] at hchange
        exact (Nat.add_right_cancel hchange).symm }

theorem Allocation.insert (hid : p.peerid = nextPeerId) (hcount : p.nodeCount = 0)
    (hproof : forall q, q ∈ peers -> q.getProofId ≠ p.getProofId) :
    Allocation (nextPeerId + 1) (peers.insert p) slots connected (total + p.getScore) := by
  have hnew : peers.contains p.peerid = false := by
    rw [contains_eq_false]
    intro q hq heq
    rw [hid] at heq
    exact absurd heq (Nat.ne_of_lt (h.fresh q hq))
  have hmem : forall {q}, q ∈ peers.insert p <-> q ∈ peers ∨ q = p := by
    intro q
    rw [mem_insert]
    exact or_congr_right (and_iff_left hnew)
  exact
    { fresh := by
        intro q hq
        rcases hmem.mp hq with hq | rfl
        · exact Nat.lt_succ_of_lt (h.fresh q hq)
        · exact hid ▸ lt_add_one _
      unique := by
        intro q q' hq hq' hsame
        rcases hmem.mp hq with hold | hnew
        · rcases hmem.mp hq' with hold' | hnew'
          · exact h.unique q q' hold hold' hsame
          · exact absurd (hnew' ▸ hsame) (hproof q hold)
        · rcases hmem.mp hq' with hold' | hnew'
          · exact absurd (hnew ▸ hsame.symm) (hproof q' hold')
          · exact hnew.trans hnew'.symm
      slotPeer := by
        intro i slot id hslot hslotid
        rcases h.slotPeer i slot id hslot hslotid with ⟨q, hq, hrest⟩
        exact ⟨q, hmem.mpr (.inl hq), hrest⟩
      peerSlot := by
        intro q hq hqcount
        rcases hmem.mp hq with hq | rfl
        · exact h.peerSlot q hq hqcount
        · rw [hcount] at hqcount
          cases hqcount
      liveSlots := h.liveSlots
      connectedPeers := by
        rw [sum_insert Peer.connectedScore hnew, ← h.connectedPeers,
          Peer.connectedScore_of_zero hcount, add_zero]
      allPeers := by
        rw [sum_insert Peer.getScore hnew, ← h.allPeers] }

theorem Allocation.erase (hp : p ∈ peers) (hcount : p.nodeCount = 0) :
    Allocation nextPeerId (peers.erase p.peerid) slots connected (total - p.getScore) where
  fresh := fun q hq => h.fresh q (mem_erase.mp hq).left
  unique := fun q q' hq hq' =>
    h.unique q q' (mem_erase.mp hq).left (mem_erase.mp hq').left
  slotPeer := by
    intro i slot id hslot hid
    rcases h.slotPeer i slot id hslot hid with ⟨q, hq, hqid, hrest⟩
    refine ⟨q, mem_erase.mpr ⟨hq, ?_⟩, hqid, hrest⟩
    intro heq
    exact h.no_slot hp hcount hslot (hid.trans (congrArg some (hqid.symm.trans heq)))
  peerSlot := fun q hq => h.peerSlot q (mem_erase.mp hq).left
  liveSlots := h.liveSlots
  connectedPeers := by
    have hsum := sum_erase Peer.connectedScore hp rfl
    rw [Peer.connectedScore_of_zero hcount, add_zero] at hsum
    rw [hsum]
    exact h.connectedPeers
  allPeers := by
    rw [h.allPeers, ← sum_erase Peer.getScore hp rfl, Nat.add_sub_cancel]

end Allocation

/-!
## Slots laid end to end
-/

/-- Each slot starts where the one before it stops. -/
def EndToEnd : Nat -> List Slot -> Prop
  | _, [] => True
  | start, slot :: rest => slot.start = start ∧ EndToEnd slot.getStop rest

theorem endToEnd_append {start : Nat} {left right : List Slot} :
    EndToEnd start (left ++ right) <->
      EndToEnd start left ∧ EndToEnd (start + (left.map Slot.score).sum) right := by
  induction left generalizing start with
  | nil => simp [EndToEnd]
  | cons slot rest ih =>
    rw [cons_append, EndToEnd, EndToEnd, ih, map_cons, sum_cons, and_assoc]
    apply and_congr_right
    intro hstart
    rw [Slot.getStop, hstart, add_assoc]

theorem EndToEnd.getStop_getLast? {start : Nat} {slots : List Slot} (h : EndToEnd start slots) :
    (slots.getLast?.map Slot.getStop).getD start = start + (slots.map Slot.score).sum := by
  rcases slots.eq_nil_or_concat with rfl | ⟨_, _, rfl⟩
  · rfl
  · rw [concat_eq_append] at h ⊢
    have hlast := (endToEnd_append.mp h).right.left
    rw [getLast?_concat, Option.map_some, Slot.getStop, hlast, map_append, sum_append, add_assoc]
    rfl

/-- The positions of the slots and the totals the manager keeps about them. -/
structure Layout (slots : List Slot) (slotCount fragmentation : Nat) : Prop where
  endToEnd : EndToEnd 0 slots
  stop : slotCount = (slots.map Slot.score).sum
  dead : fragmentation = (slots.map Slot.deadScore).sum

theorem Layout.empty : Layout [] 0 0 where
  endToEnd := trivial
  stop := rfl
  dead := rfl

theorem Layout.push {slots : List Slot} {slotCount fragmentation : Nat}
    (h : Layout slots slotCount fragmentation) (score : Nat) (id : PeerId) :
    Layout (slots ++ [⟨slotCount, score, some id⟩]) (slotCount + score) fragmentation where
  endToEnd := by
    rw [endToEnd_append, zero_add, ← h.stop]
    exact ⟨h.endToEnd, rfl, trivial⟩
  stop := by
    rw [map_append, sum_append, ← h.stop]
    rfl
  dead := by
    rw [map_append, sum_append, ← h.dead]
    rfl

/-!
## Freeing a slot
-/

private theorem getElem?_split {a : Type} {xs : List a} {x : a} (h : xs[i]? = some x) :
    exists before after, xs = before ++ x :: after ∧ before.length = i := by
  rcases List.getElem?_eq_some_iff.mp h with ⟨hlt, heq⟩
  refine ⟨xs.take i, xs.drop (i + 1), ?_, List.length_take_of_le hlt.le⟩
  rw [← heq, getElem_cons_drop, take_append_drop]

private theorem getElem?_middle_ne {a : Type} {before after : List a} (x y : a)
    (h : i ≠ before.length) : (before ++ x :: after)[i]? = (before ++ y :: after)[i]? := by
  rcases Nat.lt_or_gt_of_ne h with hlt | hgt
  · rw [getElem?_append_left hlt, getElem?_append_left hlt]
  · rw [getElem?_append_right hgt.le, getElem?_append_right hgt.le]
    rcases Nat.exists_eq_add_of_lt hgt with ⟨k, _⟩
    rw [show i - before.length = k + 1 by omega]
    rfl

/-- The slots once the slot at an index is freed: the last one is dropped, another one
is marked dead. -/
theorem freeSlot_cases (hslot : s.slots[i]? = some slot) :
    (exists before, s.slots = before ++ [slot] ∧ before.length = i ∧
      (s.freeSlot i slot).slots = before ∧
      (s.freeSlot i slot).slotCount = (before.getLast?.map Slot.getStop).getD 0 ∧
      (s.freeSlot i slot).fragmentation = s.fragmentation) ∨
    exists before after, s.slots = before ++ slot :: after ∧ before.length = i ∧
      (s.freeSlot i slot).slots = before ++ slot.withPeerId none :: after ∧
      (s.freeSlot i slot).slotCount = s.slotCount ∧
      (s.freeSlot i slot).fragmentation = s.fragmentation + slot.score := by
  rcases getElem?_split hslot with ⟨before, after, hslots, hlength⟩
  unfold PeerManager.freeSlot
  split
  · rename_i hlast
    have hafter : after = [] := by
      rw [hslots, length_append, length_cons] at hlast
      exact eq_nil_of_length_eq_zero (by omega)
    subst hafter
    have hdrop : s.slots.dropLast = before := by
      rw [hslots]
      exact dropLast_concat
    exact .inl ⟨before, hslots, hlength, hdrop, by rw [hdrop], rfl⟩
  · refine .inr ⟨before, after, hslots, hlength, ?_, rfl, rfl⟩
    rw [hslots, ← hlength, set_append_right _ _ le_rfl, Nat.sub_self]
    rfl

theorem freeSlot_connected :
    (s.freeSlot i slot).connectedPeersScore = s.connectedPeersScore - slot.score := by
  unfold PeerManager.freeSlot
  split <;> rfl

theorem Layout.free (h : Layout s.slots s.slotCount s.fragmentation)
    (hslot : s.slots[i]? = some slot) (hid : slot.peerid = some id) :
    Layout (s.freeSlot i slot).slots (s.freeSlot i slot).slotCount
      (s.freeSlot i slot).fragmentation := by
  rcases freeSlot_cases hslot with ⟨before, hslots, _, hnew, hcount, hfrag⟩ |
    ⟨before, after, hslots, _, hnew, hcount, hfrag⟩
  · have hend := h.endToEnd
    rw [hslots] at hend
    have hbefore := (endToEnd_append.mp hend).left
    rw [hnew, hcount, hfrag]
    refine ⟨hbefore, ?_, ?_⟩
    · rw [hbefore.getStop_getLast?, zero_add]
    · rw [h.dead, hslots, map_append, sum_append]
      show _ + (slot.deadScore + 0) = _
      rw [Slot.deadScore_of_some hid]
      rfl
  · rw [hnew, hcount, hfrag]
    have hend := h.endToEnd
    rw [hslots] at hend
    refine ⟨?_, ?_, ?_⟩
    · rcases endToEnd_append.mp hend with ⟨hbefore, hafter⟩
      exact endToEnd_append.mpr ⟨hbefore, hafter⟩
    · rw [h.stop, hslots]
      simp only [map_append, map_cons]
      rfl
    · rw [h.dead, hslots]
      simp only [map_append, map_cons, sum_append, sum_cons]
      rw [Slot.deadScore_of_some hid]
      have hdead : (slot.withPeerId none).deadScore = slot.score := rfl
      omega

theorem Allocation.freeSlot {peers : IndexedSet Peer.peerid}
    (h : Allocation s.nextPeerId peers s.slots s.connectedPeersScore s.totalPeersScore)
    (hp : p ∈ peers) (hcount : 0 < p.nodeCount) (hslot : s.slots[p.index]? = some slot)
    (update : Update Peer.peerid) (hproof : (update p).proof = p.proof)
    (hnode : (update p).nodeCount = 0) :
    Allocation s.nextPeerId (peers.modify p.peerid update) (s.freeSlot p.index slot).slots
      (s.freeSlot p.index slot).connectedPeersScore s.totalPeersScore := by
  have hlive : slot.liveScore = slot.score :=
    Slot.liveScore_of_some (h.slot_at hp hcount hslot).left
  rw [freeSlot_connected]
  rcases freeSlot_cases hslot with ⟨before, hslots, hlength, hnew, _⟩ |
    ⟨before, after, hslots, hlength, hnew, _⟩
  · rw [hnew]
    refine h.free hp hcount hslot ?_ ?_ ?_ update hproof hnode
    · intro i sl id hsl _
      have hi : i < before.length := getElem?_lt hsl
      refine ⟨by omega, ?_⟩
      rw [hslots]
      exact getElem?_append_of_some hsl _
    · intro i sl id hi hsl _
      rw [hslots] at hsl
      have hlt : i < (before ++ [slot]).length := getElem?_lt hsl
      rw [List.length_append, List.length_singleton] at hlt
      rw [getElem?_append_left (by omega)] at hsl
      exact hsl
    · rw [hslots, map_append, sum_append]
      show _ = _ + (slot.liveScore + 0)
      rw [hlive]
      rfl
  · rw [hnew]
    refine h.free hp hcount hslot ?_ ?_ ?_ update hproof hnode
    · intro i sl id hsl hsome
      by_cases hi : i = before.length
      · rw [hi, getElem?_append_right le_rfl, Nat.sub_self] at hsl
        cases hsl
        cases hsome
      · refine ⟨fun heq => hi (heq.trans hlength.symm), ?_⟩
        rw [hslots, getElem?_middle_ne slot (slot.withPeerId none) hi]
        exact hsl
    · intro i sl id hi hsl _
      rw [hslots] at hsl
      have hne : i ≠ before.length := fun heq => hi (heq.trans hlength)
      rw [getElem?_middle_ne (slot.withPeerId none) slot hne]
      exact hsl
    · rw [hslots]
      simp only [map_append, map_cons, sum_append, sum_cons, hlive]
      have hdead : (slot.withPeerId none).liveScore = 0 := rfl
      omega

end ECash.Avalanche
