import ECash.Coins.Coin
import ECash.Radix.Operations

/-!
# Proofs of stake and their order

A proof lists the coins its owner stakes.  Its score grows with the staked amount
and decides how often the peer behind it is polled.
-/

namespace ECash.Avalanche

open Coins List

/-- A 256-bit number. -/
abbrev ProofId := Radix.uint256RadixKey.Key

instance (n : Nat) : OfNat ProofId n :=
  ⟨Fin.ofNat _ n⟩

abbrev PubKey := Nat

structure Stake where
  utxo : OutPoint
  amount : Nat
deriving DecidableEq, Repr

structure Proof where
  proofid : ProofId
  sequence : Nat
  master : PubKey
  stakes : List Stake
deriving DecidableEq, Repr

/-- The result of `Proof::verify`: `none` stands for a valid proof. -/
inductive ProofValidationResult where
  | none
  | noStake
  | dustThreshold
  | duplicateStake
  | wrongStakeOrdering
  | invalidStakeSignature
  | tooManyUtxos
  | invalidPayoutScript
  | invalidProofSignature
  | expired
  | missingUtxo
  | coinbaseMismatch
  | heightMismatch
  | amountMismatch
  | nonStandardDestination
  | destinationNotSupported
  | destinationMismatch
  | immatureUtxo
deriving DecidableEq, Repr

namespace Proof

def COIN : Nat := 100000000

def amountToScore (amount : Nat) : Nat :=
  100 * amount / COIN % 2 ^ 32

def getStakedAmount (proof : Proof) : Nat :=
  (proof.stakes.map Stake.amount).sum

def getScore (proof : Proof) : Nat :=
  amountToScore proof.getStakedAmount

def utxos (proof : Proof) : List OutPoint :=
  proof.stakes.map Stake.utxo

/-- What `Proof::verify` checks about the stakes before it looks at the coins:
there is one, and no coin is staked twice. -/
structure WellFormed (proof : Proof) : Prop where
  staked : proof.stakes ≠ []
  distinct : proof.utxos.Nodup

end Proof

/-!
## Comparators
-/

def proofComparatorByScore (lhs rhs : Proof) : Bool :=
  if lhs.getScore ≠ rhs.getScore then lhs.getScore > rhs.getScore
  else lhs.proofid < rhs.proofid

def conflictingProofComparator (lhs rhs : Proof) : Bool :=
  -- Of two proofs with the same master the later one wins.
  if lhs.master = rhs.master ∧ lhs.sequence ≠ rhs.sequence then lhs.sequence > rhs.sequence
  else if lhs.getScore ≠ rhs.getScore then lhs.getScore > rhs.getScore
  else if lhs.stakes.length ≠ rhs.stakes.length then lhs.stakes.length < rhs.stakes.length
  else lhs.proofid < rhs.proofid

theorem conflictingProofComparator_total {lhs rhs : Proof}
    (h : conflictingProofComparator lhs rhs = false)
    (h' : conflictingProofComparator rhs lhs = false) : lhs.proofid = rhs.proofid := by
  unfold conflictingProofComparator at h h'
  grind

/-!
## The set of conflicting proofs

The comparator is not transitive, so that the order in which a `std::set` iterates over the
proofs depends on how it is balanced.  What is known of an insertion is that the way down
ends between two proofs that the new one has been compared with.
-/

/-- The proofs of a set in the order of its iterators. -/
abbrev ConflictingProofSet := List Proof

/-- What `std::set::insert` does: the new proof goes before one that it is preferred to and
after one that it is not preferred to, unless the latter compares equal. -/
inductive Inserts (proof : Proof) : ConflictingProofSet -> ConflictingProofSet -> Prop where
  | added (before after : ConflictingProofSet)
      (hbefore : forall p, p ∈ before.getLast? ->
        conflictingProofComparator proof p = false ∧ conflictingProofComparator p proof = true)
      (hafter : forall p, p ∈ after.head? -> conflictingProofComparator proof p = true) :
      Inserts proof (before ++ after) (before ++ proof :: after)
  | present {proofs : ConflictingProofSet} (p : Proof) (hp : p ∈ proofs)
      (hproof : conflictingProofComparator proof p = false)
      (hequal : conflictingProofComparator p proof = false) : Inserts proof proofs proofs

theorem Inserts.mem {proof : Proof} {proofs proofs' : ConflictingProofSet}
    (h : Inserts proof proofs proofs') :
    (forall p, p ∈ proofs' -> p = proof ∨ p ∈ proofs) ∧ (forall p, p ∈ proofs -> p ∈ proofs') ∧
      exists p, p ∈ proofs' ∧ p.proofid = proof.proofid := by
  cases h with
  | added before after => grind
  | present p hp hproof hequal =>
    exact ⟨fun _ hq => .inr hq, fun _ hq => hq, p, hp,
      conflictingProofComparator_total hequal hproof⟩

/-- How the sets iterate: the set that a list of insertions leads to, the last one first. -/
structure SetOrder where
  iterate : List Proof -> ConflictingProofSet
  empty : iterate [] = []
  insert : forall proof inserted, Inserts proof (iterate inserted) (iterate (proof :: inserted))

namespace SetOrder

variable {o : SetOrder} {inserted : List Proof} {p : Proof}

theorem mem (h : p ∈ o.iterate inserted) : p ∈ inserted := by
  induction inserted with
  | nil => rwa [o.empty] at h
  | cons proof rest ih => exact mem_cons.mpr (((o.insert proof rest).mem.1 p h).imp_right ih)

theorem exists_mem (o : SetOrder) (h : p ∈ inserted) :
    exists q, q ∈ o.iterate inserted ∧ q.proofid = p.proofid := by
  induction inserted with
  | nil => cases h
  | cons proof rest ih =>
    rcases (o.insert proof rest).mem with ⟨_, hkept, hnew⟩
    rcases mem_cons.mp h with rfl | h
    · exact hnew
    · rcases ih h with ⟨q, hq, hid⟩
      exact ⟨q, hkept q hq, hid⟩

/-- The place of a proof when it is searched from the front. -/
def place (proof : Proof) : ConflictingProofSet -> ConflictingProofSet
  | [] => [proof]
  | first :: rest =>
    if conflictingProofComparator proof first then proof :: first :: rest
    else if conflictingProofComparator first proof then first :: place proof rest
    else first :: rest

theorem place_inserts (proof : Proof) (proofs : ConflictingProofSet) :
    Inserts proof proofs (place proof proofs) := by
  induction proofs with
  | nil => exact .added [] [] nofun nofun
  | cons first rest ih =>
    unfold place
    split_ifs with hbefore hafter
    · exact .added [] (first :: rest) nofun fun p hp => Option.some.inj hp ▸ hbefore
    · have hfirst := And.intro (Bool.eq_false_iff.mpr hbefore) hafter
      generalize place proof rest = placed at ih ⊢
      cases ih with
      | added before after hlast hhead =>
        refine .added (first :: before) after (fun p hp => ?_) hhead
        rw [getLast?_cons] at hp
        grind
      | present p hp hproof hequal => exact .present p (mem_cons_of_mem first hp) hproof hequal
    · exact .present first mem_cons_self (Bool.eq_false_iff.mpr hbefore)
        (Bool.eq_false_iff.mpr hafter)

def linear : SetOrder where
  iterate := foldr place []
  empty := rfl
  insert := fun proof _ => place_inserts proof _

end SetOrder

/-!
## The radix tree of shareable proofs

The tree is given by the trie that its nodes stand for.  It compares ids by their low 64 bits
only, so that it is a map as long as these tell the ids apart.
-/

/-- The ids of the proofs that are around: no two of them have the same low 64 bits. -/
structure KnownIds where
  known : ProofId -> Prop
  apart : forall id id', known id -> known id' -> id.val % 2 ^ 64 = id'.val % 2 ^ 64 -> id = id'

structure Proof.Admissible (ids : KnownIds) (proof : Proof) : Prop extends proof.WellFormed where
  known : ids.known proof.proofid

abbrev ProofTree := Radix.Trie Proof

namespace ProofTree

open Radix Memory

def get (tree : ProofTree) (id : ProofId) : Option Proof :=
  tree.find Proof.proofid id (levels uint256RadixKey)

def insert (tree : ProofTree) (proof : Proof) : ProofTree :=
  (Trie.insert Proof.proofid proof.proofid proof (levels uint256RadixKey) tree).2

def remove (tree : ProofTree) (id : ProofId) : Option Proof × ProofTree :=
  Trie.remove Proof.proofid id (levels uint256RadixKey) tree

def Has (tree : ProofTree) (id : ProofId) : Prop :=
  exists proof, proof ∈ tree.leaves ∧ proof.proofid = id

structure Sound (ids : KnownIds) (tree : ProofTree) : Prop where
  paths : Trie.Sound Proof.proofid (levels uint256RadixKey) 0 tree
  known : forall id, tree.Has id -> ids.known id

section Sound

variable {ids : KnownIds} {tree : ProofTree} {id : ProofId} {proof : Proof} (h : tree.Sound ids)

include h

theorem Sound.pathsAt (id : ProofId) :
    Trie.Sound Proof.proofid (levels uint256RadixKey) (id.val / 16 ^ levels uint256RadixKey)
      tree := by
  rw [key_div_levels]
  exact h.paths

variable (hid : ids.known id)

include hid

theorem Sound.exact : Trie.Exact Proof.proofid id tree :=
  fun proof hproof hsame =>
    ids.apart _ _ (h.known _ ⟨proof, hproof, rfl⟩) hid (of_decide_eq_true hsame)

theorem Sound.isSome_get : (tree.get id).isSome = true <-> tree.Has id := by
  rw [Option.isSome_iff_exists]
  exact exists_congr fun _ => Trie.find_eq_some (h.pathsAt id) (h.exact hid)

theorem Sound.isSome_remove (hhas : tree.Has id) : (tree.remove id).1.isSome = true := by
  unfold remove
  rw [Trie.remove_fst]
  exact (h.isSome_get hid).mpr hhas

theorem Sound.remove : (tree.remove id).2.Sound ids ∧
    forall other, (tree.remove id).2.Has other <-> tree.Has other ∧ other ≠ id := by
  rcases Trie.remove_spec (h.pathsAt id) (h.exact hid) with ⟨hpaths, hleaves⟩
  rw [key_div_levels] at hpaths
  have hhas : forall other, (tree.remove id).2.Has other <-> tree.Has other ∧ other ≠ id := by
    intro other
    constructor
    · rintro ⟨proof, hproof, rfl⟩
      rcases (hleaves proof).mp hproof with ⟨hold, hne⟩
      exact ⟨⟨proof, hold, rfl⟩, hne⟩
    · rintro ⟨⟨proof, hproof, rfl⟩, hne⟩
      exact ⟨proof, (hleaves proof).mpr ⟨hproof, hne⟩, rfl⟩
  exact ⟨⟨hpaths, fun other hother => h.known other ((hhas other).mp hother).1⟩, hhas⟩

omit hid

theorem Sound.insert (hproof : ids.known proof.proofid) : (tree.insert proof).Sound ids ∧
    forall id, (tree.insert proof).Has id <-> tree.Has id ∨ id = proof.proofid := by
  have hinserted := Trie.insert_spec (h.pathsAt proof.proofid) (h.exact hproof)
  have hpaths := hinserted.sound
  rw [key_div_levels] at hpaths
  have hhas : forall id, (tree.insert proof).Has id <-> tree.Has id ∨ id = proof.proofid := by
    intro id
    constructor
    · rintro ⟨p, hp, rfl⟩
      rcases (hinserted.leaves p).mp hp with hold | ⟨_, rfl⟩
      · exact .inl ⟨p, hold, rfl⟩
      · exact .inr rfl
    · rintro (⟨p, hp, rfl⟩ | rfl)
      · exact ⟨p, (hinserted.leaves p).mpr (.inl hp), rfl⟩
      · by_cases hnew : forall p, p ∈ tree.leaves -> p.proofid ≠ proof.proofid
        · exact ⟨proof, (hinserted.leaves proof).mpr (.inr ⟨hinserted.inserted.mpr hnew, rfl⟩), rfl⟩
        · push Not at hnew
          rcases hnew with ⟨p, hp, hid⟩
          exact ⟨p, (hinserted.leaves p).mpr (.inl hp), hid⟩
  refine ⟨⟨hpaths, fun id hid => ?_⟩, hhas⟩
  rcases (hhas id).mp hid with hold | rfl
  · exact h.known id hold
  · exact hproof

end Sound

end ProofTree

end ECash.Avalanche
