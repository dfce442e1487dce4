import ECash.Avalanche.NodeSafety

/-!
# Every proof in one place

Rejection and the periodic operations keep the proofs apart, so it is up to the
registrations from outside whether a proof can end up in two places.
-/

namespace ECash.Avalanche

open Coins Foundation

namespace PeerManager

section Runs

variable {w : World} (hw : w.Sound) {s : PeerManager}

include hw

theorem perform_sorted (h : Sorted (hw.scope True False) (fun _ => True) s)
    {operation : Operation} (hsafe : SafeOperation w operation s) :
    Returns (perform w operation) s fun _ t => Sorted (hw.scope True False) (fun _ => True) t := by
  by_cases hproofs : operation.OnProofs
  · exact perform_onProofs hw (carried_true _ w _) hw.admissible h hproofs fun _ => hsafe
  by_cases hcompact : operation = .compact
  · rw [hcompact]
    apply Returns.bind (compact_returns h.core)
    rintro _ _ ⟨ht, hrelaid⟩
    exact Returns.pure (h.quiet (h.samePeers ⟨ht, trivial⟩ hrelaid.toSamePeers)
      fun _ => hrelaid.toSamePools.quiet_of_peers hrelaid.peers)
  · exact (perform_onNodes hw h.core hproofs hcompact False.elim).mono
      fun _ _ ⟨ht, hsame, hquiet⟩ => h.quiet (h.samePeers ⟨ht, trivial⟩ hsame) hquiet

end Runs

/-- In how many places a proof is. -/
def places (s : PeerManager) (id : ProofId) : Nat :=
  [s.isBoundToPeer id, s.isInConflictingPool id, s.isImmature id, s.isDangling id].count true

theorem Single.places_le {s : PeerManager} {id : ProofId} (h : Single s id) : s.places id ≤ 1 := by
  have hbound : s.isBoundToPeer id = true -> s.At id .peer := isBoundToPeer_iff.mp
  have hpool := h .conflicting
  have himmature : s.isImmature id = true -> s.isDangling id = true -> _ := h .immature .dangling
  unfold places
  cases hb : s.isBoundToPeer id <;> cases hc : s.isInConflictingPool id <;>
    cases hi : s.isImmature id <;> cases hd : s.isDangling id <;>
    first
    | decide
    | cases himmature hi hd
    | cases hpool .immature hc hi
    | cases hpool .dangling hc hd
    | cases h .peer .conflicting (hbound hb) hc
    | cases h .peer .immature (hbound hb) hi
    | cases h .peer .dangling (hbound hb) hd

theorem Nowhere.places_eq {s : PeerManager} {id : ProofId} (h : Nowhere s id) :
    s.places id = 0 := by
  have hbound : s.isBoundToPeer id = false :=
    Bool.eq_false_iff.mpr fun hin => h .peer (isBoundToPeer_iff.mp hin)
  unfold places
  rw [hbound, Bool.eq_false_iff.mpr (h .conflicting), Bool.eq_false_iff.mpr (h .immature),
    Bool.eq_false_iff.mpr (h .dangling)]
  rfl

/-- Proofs are valid at the first checks and immature later. -/
def reorgWorld : World :=
  { sampleWorld with
    verify := fun i proof =>
      if sampleWorld.verify i proof = .none then if i < 3 then .none else .immatureUtxo
      else .duplicateStake
    time := fun i => 1000 * i }

theorem reorgWorld_passes {i : Nat} {proof : Proof} (h : reorgWorld.Passes i proof) :
    sampleWorld.Passes i proof := by
  unfold World.Passes reorgWorld at h
  dsimp only at h
  split_ifs at h with hvalid
  · exact .inl hvalid
  · exact .inl hvalid
  · rcases h with h | h <;> cases h

theorem reorgWorld_sound : reorgWorld.Sound where
  clock := sampleWorld_sound.clock
  stakes i proof h := sampleWorld_sound.stakes i proof (reorgWorld_passes h)
  apart i j proof other h h' :=
    sampleWorld_sound.apart i j proof other (reorgWorld_passes h) (reorgWorld_passes h')

/-- A proof becomes a peer, loses its node and is evicted as dangling. -/
def evictingRun : List Operation :=
  [ .registerProof (sampleProof 1 [⟨1, 0⟩] 300000000) .default, .cleanupDanglingProofs ]

end PeerManager

end ECash.Avalanche
