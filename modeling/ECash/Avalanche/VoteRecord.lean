import Mathlib.Data.List.Induction
import ECash.Foundation.RecentWindow

/-!
# Vote records

A record keeps the last eight votes on an item in two bytes, the nodes that voted last in a ring of
hashes, and the preference and the confidence in one number.  It behaves like a tally that remembers
all votes.
-/

namespace ECash.Avalanche

open Foundation

def avalancheFinalizationScore : Nat := 128

structure VoteRecord where
  /-- The lowest bit is the preference. -/
  confidence : UInt16
  votes : UInt8
  consider : UInt8
  inflight : UInt8
  seed : UInt32
  successfulVotes : UInt32
  nodeFilter : Vector UInt16 8
deriving DecidableEq

namespace VoteRecord

abbrev NodeId := Int64

def new (accepted : Bool) : VoteRecord :=
  { confidence := if accepted then 1 else 0
    votes := 0
    consider := 0
    inflight := 0
    seed := 0
    successfulVotes := 0
    nodeFilter := Vector.replicate 8 0 }

def isAccepted (record : VoteRecord) : Bool :=
  record.confidence &&& 1 != 0

def getConfidence (record : VoteRecord) : UInt16 :=
  record.confidence >>> 1

def hasFinalized (record : VoteRecord) : Bool :=
  decide (avalancheFinalizationScore ≤ record.getConfidence.toNat)

def clearInflightRequest (record : VoteRecord) : VoteRecord :=
  { record with inflight := record.inflight - 1 }

/-- The hash of a node: a linear congruential generator and Fibonacci hashing. -/
def nodeHash (seed : UInt32) (nodeid : NodeId) : UInt16 :=
  let r1 := 6364136223846793005 * nodeid.toUInt64 + 1442695040888963407
  let r2 := 11400714819323198485 * (nodeid.toUInt64 ^^^ seed.toUInt64)
  ((r1 + r2) >>> 48).toUInt16

def inFilter (record : VoteRecord) (h : UInt16) : Bool :=
  (List.range' 1 7).any fun i =>
    record.nodeFilter[(record.successfulVotes.toNat + i) % 8]? == some h

def addNodeToQuorum (record : VoteRecord) (nodeid : NodeId) : Bool × VoteRecord :=
  let h := nodeHash record.seed nodeid
  if record.inFilter h then (false, record)
  else
    (true,
      { record with
        nodeFilter := record.nodeFilter.set (record.successfulVotes.toNat % 8) h
          (Nat.mod_lt _ (by decide))
        successfulVotes := record.successfulVotes + 1 })

/-- What the votes in the registers mean for the preference. -/
def settleRound (record : VoteRecord) : Bool × VoteRecord :=
  let yes := decide (countBits (record.votes &&& record.consider &&& 0xff) > 6)
  let no := decide (countBits (~~~ record.votes &&& record.consider &&& 0xff) > 6)
  if !yes && !no then (false, record)
  else if record.isAccepted == yes then
    let record := { record with confidence := record.confidence + 2 }
    (decide (record.getConfidence.toNat = avalancheFinalizationScore), record)
  else (true, { record with confidence := if yes then 1 else 0 })

/-- Register a vote; returns whether the preference changed or became final. -/
def registerVote (record : VoteRecord) (nodeid : NodeId) (error : UInt32) : Bool × VoteRecord :=
  match record.clearInflightRequest.addNodeToQuorum nodeid with
  | (false, record) => (false, record)
  | (true, record) =>
    settleRound
      { record with
        votes := (record.votes <<< 1) ||| flagBit (error == 0)
        consider := (record.consider <<< 1) ||| flagBit (decide (0 ≤ error.toInt32)) }

end VoteRecord

/-!
## The tally
-/

structure Vote where
  nodeid : VoteRecord.NodeId
  error : UInt32
deriving DecidableEq

def Vote.isYes (vote : Vote) : Bool := vote.error == 0

def Vote.isConsidered (vote : Vote) : Bool := decide (0 ≤ vote.error.toInt32)

def Vote.hash (vote : Vote) : UInt16 := VoteRecord.nodeHash 0 vote.nodeid

inductive Round where
  | ignored
  | inconclusive
  | agreed
  | flipped
deriving DecidableEq

/-- All that happened, the newest first. -/
structure Tally where
  counted : List Vote
  rounds : List Round
  preference : Bool
  confidence : Nat
deriving DecidableEq

namespace Tally

def new (accepted : Bool) : Tally :=
  { counted := [], rounds := [], preference := accepted, confidence := 0 }

/-- The hash is that of one of the last seven voters; 0 stands for a voter that is missing. -/
def Recent (t : Tally) (h : UInt16) : Prop :=
  exists i, i < 7 ∧ (t.counted.map Vote.hash).getD i 0 = h

instance (t : Tally) (h : UInt16) : Decidable (t.Recent h) :=
  inferInstanceAs (Decidable (exists i, i < 7 ∧ (t.counted.map Vote.hash).getD i 0 = h))

/-- At least seven of the last eight votes are yes, or no. -/
def Conclusive (counted : List Vote) (yes : Bool) : Prop :=
  7 ≤ (counted.take 8).countP fun vote => (vote.isYes == yes) && vote.isConsidered

instance (counted : List Vote) (yes : Bool) : Decidable (Conclusive counted yes) :=
  inferInstanceAs (Decidable (7 ≤ _))

def roundOf (preference : Bool) (counted : List Vote) : Round :=
  if Conclusive counted preference then .agreed
  else if Conclusive counted (!preference) then .flipped
  else .inconclusive

def register (t : Tally) (vote : Vote) : Tally :=
  if t.Recent vote.hash then { t with rounds := .ignored :: t.rounds }
  else
    let counted := vote :: t.counted
    match roundOf t.preference counted with
    | .agreed =>
      { t with
        counted, rounds := .agreed :: t.rounds, confidence := t.confidence + 1 }
    | .flipped =>
      { counted, rounds := .flipped :: t.rounds, preference := !t.preference,
        confidence := 0 }
    | round => { t with counted, rounds := round :: t.rounds }

def changed (t : Tally) : Bool :=
  match t.rounds.head? with
  | some .flipped => true
  | some .agreed => decide (t.confidence = avalancheFinalizationScore)
  | _ => false

/-- The rounds since the preference changed last that agreed with it. -/
def agreements (t : Tally) : Nat :=
  (t.rounds.takeWhile fun round => round != .flipped).count .agreed

theorem not_conclusive {counted : List Vote} {yes : Bool} (h : Conclusive counted yes) :
    ¬ Conclusive counted (!yes) := by
  unfold Conclusive at h ⊢
  have hdisjoint : ((counted.take 8).countP fun vote =>
      (vote.isYes == !yes) && vote.isConsidered) ≤
      (counted.take 8).countP fun vote => !((vote.isYes == yes) && vote.isConsidered) := by
    apply List.countP_mono_left
    intro vote _
    cases vote.isYes <;> cases yes <;> simp
  have hsplit := List.length_eq_countP_add_countP
    (fun vote : Vote => (vote.isYes == yes) && vote.isConsidered) (l := counted.take 8)
  have hlength := List.length_take_le 8 counted
  simp only [Bool.not_eq_true, Bool.decide_eq_false] at hsplit
  omega

variable {vote : Vote} {t : Tally}

theorem register_ignored (h : t.Recent vote.hash) :
    t.register vote = { t with rounds := .ignored :: t.rounds } := by
  unfold register
  rw [if_pos h]

theorem register_agreed (hrecent : ¬ t.Recent vote.hash)
    (h : Conclusive (vote :: t.counted) t.preference) :
    t.register vote =
      { t with
        counted := vote :: t.counted, rounds := .agreed :: t.rounds,
        confidence := t.confidence + 1 } := by
  unfold register roundOf
  rw [if_neg hrecent]
  simp only [if_pos h]

theorem register_flipped (hrecent : ¬ t.Recent vote.hash)
    (h : Conclusive (vote :: t.counted) (!t.preference)) :
    t.register vote =
      { counted := vote :: t.counted, rounds := .flipped :: t.rounds,
        preference := !t.preference, confidence := 0 } := by
  have hnot : ¬ Conclusive (vote :: t.counted) t.preference := by
    have hother := not_conclusive h
    rwa [Bool.not_not] at hother
  unfold register roundOf
  rw [if_neg hrecent]
  simp only [if_neg hnot, if_pos h]

theorem register_inconclusive (hrecent : ¬ t.Recent vote.hash)
    (h : forall yes, ¬ Conclusive (vote :: t.counted) yes) :
    t.register vote =
      { t with counted := vote :: t.counted, rounds := .inconclusive :: t.rounds } := by
  unfold register roundOf
  rw [if_neg hrecent]
  simp only [if_neg (h t.preference), if_neg (h (!t.preference))]

theorem recent_of_voted (h : vote.nodeid ∈ (t.counted.take 7).map Vote.nodeid) :
    t.Recent vote.hash := by
  rcases List.mem_map.mp h with ⟨earlier, hearlier, hsame⟩
  rcases List.mem_iff_getElem?.mp hearlier with ⟨i, hi⟩
  rw [List.getElem?_take, Option.ite_none_right_eq_some] at hi
  refine ⟨i, hi.1, ?_⟩
  rw [List.getD_eq_getElem?_getD, List.getElem?_map, hi.2]
  exact congrArg (VoteRecord.nodeHash 0) hsame

def Counts (t : Tally) : Prop :=
  t.confidence = t.agreements ∧ t.confidence ≤ t.counted.length

theorem counts_register (h : t.Counts) (vote : Vote) : (t.register vote).Counts := by
  rcases h with ⟨heq, hle⟩
  have hother : forall round, round ≠ .flipped -> round ≠ .agreed ->
      ((round :: t.rounds).takeWhile fun round => round != .flipped).count .agreed =
        t.agreements := by
    intro round hflip hagree
    rw [List.takeWhile_cons_of_pos (by simpa using hflip), List.count_cons_of_ne hagree]
    rfl
  unfold register
  split
  · exact ⟨heq.trans (hother .ignored nofun nofun).symm, hle⟩
  simp only
  cases hround : roundOf t.preference (vote :: t.counted) with
  | ignored => exact ⟨heq.trans (hother .ignored nofun nofun).symm, Nat.le_succ_of_le hle⟩
  | inconclusive => exact ⟨heq.trans (hother .inconclusive nofun nofun).symm, Nat.le_succ_of_le hle⟩
  | agreed =>
    refine ⟨?_, Nat.succ_le_succ hle⟩
    rw [heq]
    unfold agreements
    rw [List.takeWhile_cons_of_pos (by decide), List.count_cons_self]
  | flipped => exact ⟨rfl, Nat.zero_le _⟩

theorem counted_register (hrecent : ¬ t.Recent vote.hash) :
    (t.register vote).counted = vote :: t.counted := by
  unfold register
  rw [if_neg hrecent]
  simp only
  cases roundOf t.preference (vote :: t.counted) <;> rfl

theorem length_counted_le (t : Tally) (vote : Vote) :
    t.counted.length ≤ (t.register vote).counted.length := by
  by_cases hrecent : t.Recent vote.hash
  · rw [register_ignored hrecent]
  · rw [counted_register hrecent]
    exact Nat.le_succ _

end Tally

/-!
## The record shows the tally
-/

namespace VoteRecord

/-- The registers and the ring have the last votes. -/
structure Holds (record : VoteRecord) (counted : List Vote) : Prop where
  votes : record.votes = shiftedIn (counted.map Vote.isYes)
  consider : record.consider = shiftedIn (counted.map Vote.isConsidered)
  seed : record.seed = 0
  successfulVotes : record.successfulVotes.toNat = counted.length
  nodeFilter : RingHolds record.nodeFilter 0 (counted.map Vote.hash)

structure Shows (record : VoteRecord) (t : Tally) : Prop where
  holds : record.Holds t.counted
  confidence : record.confidence.toNat = 2 * t.confidence + t.preference.toNat
  counts : t.Counts

theorem shows_new (accepted : Bool) : (new accepted).Shows (Tally.new accepted) where
  holds :=
    { votes := rfl
      consider := rfl
      seed := rfl
      successfulVotes := rfl
      nodeFilter := ringHolds_replicate 0 }
  confidence := by cases accepted <;> rfl
  counts := ⟨rfl, Nat.le_refl 0⟩

variable {record : VoteRecord} {confidence : Nat} {preference : Bool} {t : Tally} {vote : Vote}

theorem isAccepted_eq (h : record.confidence.toNat = 2 * confidence + preference.toNat) :
    record.isAccepted = preference := by
  have hbit : record.confidence &&& 1 = if preference then 1 else 0 := by
    apply UInt16.toNat_inj.mp
    show record.confidence.toNat &&& 1 = _
    rw [h]
    cases preference <;> simp
  rw [VoteRecord.isAccepted, hbit]
  cases preference <;> rfl

theorem getConfidence_eq (record : VoteRecord)
    (h : record.confidence.toNat = 2 * confidence + preference.toNat) :
    record.getConfidence.toNat = confidence := by
  show record.confidence.toNat >>> 1 = _
  have hle := preference.toNat_le
  omega

section Shows

variable (h : record.Shows t)

include h

theorem Shows.hasFinalized : record.hasFinalized = true <-> 128 ≤ t.confidence := by
  unfold VoteRecord.hasFinalized avalancheFinalizationScore
  rw [decide_eq_true_eq, getConfidence_eq record h.confidence]

theorem Shows.filter_place {i : Nat} (hi : i < 7) :
    record.nodeFilter[(record.successfulVotes.toNat + (7 - i)) % 8]? =
      some ((t.counted.map Vote.hash).getD i 0) := by
  have hplace := h.holds.nodeFilter i (by omega)
  rw [List.length_map] at hplace
  rw [h.holds.successfulVotes]
  exact hplace

theorem Shows.inFilter (hash : UInt16) : record.inFilter hash = decide (t.Recent hash) := by
  rw [Bool.eq_iff_iff, decide_eq_true_eq]
  unfold VoteRecord.inFilter Tally.Recent
  rw [List.any_eq_true]
  constructor
  · rintro ⟨i, hi, heq⟩
    rw [List.mem_range'_1] at hi
    have hplace := h.filter_place (i := 7 - i) (by omega)
    have hback : 7 - (7 - i) = i := by omega
    rw [hback, beq_iff_eq.mp heq] at hplace
    exact ⟨7 - i, by omega, (Option.some.inj hplace).symm⟩
  · rintro ⟨i, hi, heq⟩
    refine ⟨7 - i, by rw [List.mem_range'_1]; omega, ?_⟩
    rw [h.filter_place hi, heq, beq_self_eq_true]

end Shows

/-!
## One vote
-/

theorem and_ff (x : UInt8) : x &&& 0xff = x := UInt8.and_neg_one

variable {counted : List Vote}

section

variable (h : record.Holds counted)

include h

theorem Holds.yes :
    countBits (record.votes &&& record.consider &&& 0xff) > 6 <->
      Tally.Conclusive counted true := by
  rw [and_ff, h.votes, h.consider, countBits_and]
  unfold Tally.Conclusive
  simp only [beq_true]
  exact Nat.lt_iff_add_one_le

theorem Holds.no :
    countBits (~~~ record.votes &&& record.consider &&& 0xff) > 6 <->
      Tally.Conclusive counted false := by
  rw [and_ff, h.votes, h.consider, countBits_not_and]
  unfold Tally.Conclusive
  simp only [beq_false]
  exact Nat.lt_iff_add_one_le

theorem Holds.add (hsmall : counted.length + 1 < 2 ^ 32) (vote : Vote) (hlt : _) :
    Holds
      { record with
        nodeFilter := record.nodeFilter.set (record.successfulVotes.toNat % 8) vote.hash hlt
        successfulVotes := record.successfulVotes + 1
        votes := (record.votes <<< 1) ||| flagBit vote.isYes
        consider := (record.consider <<< 1) ||| flagBit vote.isConsidered } (vote :: counted) where
  votes := by
    simp only [h.votes]
    rfl
  consider := by
    simp only [h.consider]
    rfl
  seed := h.seed
  successfulVotes := by
    rw [UInt32.toNat_add, h.successfulVotes]
    exact Nat.mod_eq_of_lt hsmall
  nodeFilter := by
    have hpush := h.nodeFilter.push vote.hash (Nat.mod_lt _ (by decide))
    simp only [List.length_map, ← h.successfulVotes] at hpush
    exact hpush

theorem settleRound_conclusive {yes : Bool} (hyes : Tally.Conclusive counted yes) :
    record.settleRound =
      if record.isAccepted = yes then
        (decide (({ record with confidence := record.confidence + 2 } :
            VoteRecord).getConfidence.toNat = avalancheFinalizationScore),
          { record with confidence := record.confidence + 2 })
      else (true, { record with confidence := if yes then 1 else 0 }) := by
  have hyesBits := h.yes
  have hnoBits := h.no
  have hother := Tally.not_conclusive hyes
  unfold settleRound
  cases yes with
  | true =>
    simp only [hyesBits.mpr hyes, decide_true, Bool.not_true, Bool.false_and,
      Bool.false_eq_true, if_false, beq_iff_eq]
  | false =>
    simp only [hnoBits.mpr hyes, hyesBits, show ¬ Tally.Conclusive counted true from hother,
      decide_false, decide_true, Bool.not_true, Bool.and_false, Bool.false_eq_true, if_false,
      beq_iff_eq]

theorem settleRound_inconclusive (hnone : forall yes, ¬ Tally.Conclusive counted yes) :
    record.settleRound = (false, record) := by
  unfold settleRound
  simp only [h.yes, h.no, hnone, decide_false, Bool.not_false, Bool.and_true, if_true]

end

theorem settleRound_shows (hholds : record.Holds (vote :: t.counted))
    (hconfidence : record.confidence.toNat = 2 * t.confidence + t.preference.toNat)
    (hcounts : t.Counts) (hrecent : ¬ t.Recent vote.hash)
    (hsmall : (vote :: t.counted).length < 2 ^ 15) :
    record.settleRound.1 = (t.register vote).changed ∧
      record.settleRound.2.Shows (t.register vote) := by
  have hcounts' := Tally.counts_register hcounts vote
  have haccepted := isAccepted_eq hconfidence
  by_cases hagreed : Tally.Conclusive (vote :: t.counted) t.preference
  · rw [settleRound_conclusive hholds hagreed, if_pos haccepted]
    rw [Tally.register_agreed hrecent hagreed] at hcounts' ⊢
    -- the confidence has at most one step for each vote, so it does not overflow
    have hsum : (record.confidence + 2).toNat = 2 * (t.confidence + 1) + t.preference.toNat := by
      have hle := hcounts.right
      have hbit := t.preference.toNat_le
      rw [List.length_cons] at hsmall
      rw [UInt16.toNat_add]
      show (_ + 2) % 65536 = _
      omega
    refine ⟨?_, { holds := { hholds with }, confidence := hsum, counts := hcounts' }⟩
    rw [getConfidence_eq { record with confidence := record.confidence + 2 } hsum]
    rfl
  · by_cases hflipped : Tally.Conclusive (vote :: t.counted) (!t.preference)
    · rw [settleRound_conclusive hholds hflipped, haccepted, if_neg (by simp)]
      rw [Tally.register_flipped hrecent hflipped] at hcounts' ⊢
      refine ⟨rfl, { holds := { hholds with }, confidence := ?_, counts := hcounts' }⟩
      cases t.preference <;> rfl
    · have hnone : forall yes, ¬ Tally.Conclusive (vote :: t.counted) yes := by
        intro yes
        rcases Bool.eq_or_eq_not yes t.preference with heq | heq
        · rwa [heq]
        · rwa [heq]
      rw [settleRound_inconclusive hholds hnone]
      rw [Tally.register_inconclusive hrecent hnone] at hcounts' ⊢
      exact ⟨rfl, { holds := hholds, confidence := hconfidence, counts := hcounts' }⟩

theorem Shows.addNodeToQuorum (h : record.Shows t) (vote : Vote) :
    record.addNodeToQuorum vote.nodeid =
      if t.Recent vote.hash then (false, record)
      else
        (true,
          { record with
            nodeFilter := record.nodeFilter.set (record.successfulVotes.toNat % 8) vote.hash
              (Nat.mod_lt _ (by decide))
            successfulVotes := record.successfulVotes + 1 }) := by
  unfold VoteRecord.addNodeToQuorum
  simp only [h.holds.seed, h.inFilter, decide_eq_true_eq]
  rfl

theorem Shows.cleared (h : record.Shows t) : record.clearInflightRequest.Shows t :=
  { holds := { h.holds with }, confidence := h.confidence, counts := h.counts }

theorem registerVote_ignored (h : record.Shows t) (hrecent : t.Recent vote.hash) :
    record.registerVote vote.nodeid vote.error = (false, record.clearInflightRequest) := by
  unfold registerVote
  rw [h.cleared.addNodeToQuorum, if_pos hrecent]

theorem registerVote_shows (h : record.Shows t) (vote : Vote)
    (hsmall : (t.register vote).counted.length < 2 ^ 15) :
    (record.registerVote vote.nodeid vote.error).1 = (t.register vote).changed ∧
      (record.registerVote vote.nodeid vote.error).2.Shows (t.register vote) := by
  by_cases hrecent : t.Recent vote.hash
  · have hcounts' := Tally.counts_register h.counts vote
    rw [registerVote_ignored h hrecent]
    rw [Tally.register_ignored hrecent] at hcounts' ⊢
    exact ⟨rfl, { holds := h.cleared.holds, confidence := h.confidence, counts := hcounts' }⟩
  · rw [Tally.counted_register hrecent] at hsmall
    unfold registerVote
    rw [h.cleared.addNodeToQuorum, if_neg hrecent]
    have hholds := h.cleared.holds.add
      (by rw [List.length_cons] at hsmall; omega) vote (Nat.mod_lt _ (by decide))
    exact settleRound_shows hholds h.confidence h.counts hrecent hsmall

/-!
## All votes
-/

def after (accepted : Bool) (history : List Vote) : VoteRecord :=
  history.foldl (fun record vote => (record.registerVote vote.nodeid vote.error).2) (new accepted)

end VoteRecord

def Tally.after (accepted : Bool) (history : List Vote) : Tally :=
  history.foldl Tally.register (Tally.new accepted)

theorem Tally.after_append (accepted : Bool) (history : List Vote) (vote : Vote) :
    Tally.after accepted (history ++ [vote]) = (Tally.after accepted history).register vote := by
  unfold Tally.after
  rw [List.foldl_append]
  rfl

namespace VoteRecord

theorem after_shows {accepted : Bool} {history : List Vote}
    (hsmall : (Tally.after accepted history).counted.length < 2 ^ 15) :
    (after accepted history).Shows (Tally.after accepted history) := by
  induction history using List.reverseRecOn with
  | nil => exact shows_new accepted
  | append_singleton history vote ih =>
    rw [Tally.after_append] at hsmall ⊢
    have hmono := (Tally.after accepted history).length_counted_le vote
    have hshows := ih (hmono.trans_lt hsmall)
    unfold after
    rw [List.foldl_append]
    exact (registerVote_shows hshows vote hsmall).right

/-- After every history the record has the preference and the confidence of the tally, and the next
vote does and returns what it does to the tally. -/
theorem registerVote_tally (accepted : Bool) (history : List Vote) (vote : Vote)
    (hrounds : (Tally.after accepted (history ++ [vote])).counted.length < 2 ^ 15) :
    (after accepted history).isAccepted = (Tally.after accepted history).preference ∧
    (after accepted history).getConfidence.toNat = (Tally.after accepted history).confidence ∧
    ((after accepted history).hasFinalized = true ->
      128 ≤ (Tally.after accepted history).agreements) ∧
    ((after accepted history).registerVote vote.nodeid vote.error).1 =
      (Tally.after accepted (history ++ [vote])).changed ∧
    (vote.nodeid ∈ ((Tally.after accepted history).counted.take 7).map Vote.nodeid ->
      (after accepted history).registerVote vote.nodeid vote.error =
          (false, (after accepted history).clearInflightRequest) ∧
        (Tally.after accepted (history ++ [vote])).counted =
          (Tally.after accepted history).counted) := by
  rw [Tally.after_append] at hrounds ⊢
  have hmono := (Tally.after accepted history).length_counted_le vote
  have hshows := after_shows (hmono.trans_lt hrounds)
  refine ⟨isAccepted_eq hshows.confidence, getConfidence_eq _ hshows.confidence, ?_,
    (registerVote_shows hshows vote hrounds).left, ?_⟩
  · intro hfinal
    rw [← hshows.counts.left]
    exact hshows.hasFinalized.mp hfinal
  · intro hvoted
    have hrecent := Tally.recent_of_voted hvoted
    exact ⟨registerVote_ignored hshows hrecent, by rw [Tally.register_ignored hrecent]⟩

/-- Yes from the nodes 1 to 6. -/
private def sixYes : List Vote :=
  (List.range' 1 6).map fun n => { nodeid := Int64.ofNat n, error := 0 }

/-- The seventh yes changes the preference. -/
theorem registerVote_tally_flips :
    ((after false sixYes).registerVote 7 0).1 = true ∧
    (after false sixYes).isAccepted = (Tally.after false sixYes).preference ∧
    (after false sixYes).getConfidence.toNat = (Tally.after false sixYes).confidence ∧
    ((after false sixYes).hasFinalized = true -> 128 ≤ (Tally.after false sixYes).agreements) ∧
    ((after false sixYes).registerVote 7 0).1 = (Tally.after false (sixYes ++ [⟨7, 0⟩])).changed ∧
    ((7 : NodeId) ∈ ((Tally.after false sixYes).counted.take 7).map Vote.nodeid ->
      (after false sixYes).registerVote 7 0 =
          (false, (after false sixYes).clearInflightRequest) ∧
        (Tally.after false (sixYes ++ [⟨7, 0⟩])).counted = (Tally.after false sixYes).counted) :=
  ⟨by decide +kernel, registerVote_tally false sixYes ⟨7, 0⟩ (by decide +kernel)⟩

end VoteRecord

end ECash.Avalanche
