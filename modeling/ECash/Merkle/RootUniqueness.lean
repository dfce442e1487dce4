import ECash.Merkle.PartialTree
import Mathlib.Data.Nat.Pairing
import Mathlib.Logic.Relation

/-!
# The list of a Merkle root

Without two equal hashes in a pair a level is known from the one above it, and hashes that
are no pair's are never taken for a level above another list.
-/

namespace ECash.Merkle

open List Relation

variable {hash : Type} {N : NodeHash hash} {xs ys : List hash}

theorem mem_hashPairs {x : hash} (hx : x ∈ hashPairs N xs) : exists a b, x = N.combine a b := by
  fun_induction hashPairs N xs with
  | case1 => cases hx
  | case2 a => exact ⟨a, a, mem_singleton.mp hx⟩
  | case3 a b rest ih =>
    rcases mem_cons.mp hx with heq | hmem
    · exact ⟨a, b, heq⟩
    · exact ih hmem

variable [DecidableEq hash]

theorem hashPairs_inj (hxs : hasEqualPair xs = false) (hys : hasEqualPair ys = false)
    (h : hashPairs N xs = hashPairs N ys) : xs = ys := by
  fun_induction hashPairs N xs generalizing ys with
  | case1 =>
    fun_cases hashPairs N ys with
    | case1 => rfl
    | case2 c => cases h
    | case3 c d rest => cases h
  | case2 a =>
    fun_cases hashPairs N ys with
    | case1 => cases h
    | case2 c => rw [(N.combine_inj (cons.inj h).left).left]
    | case3 c d rest =>
      rcases N.combine_inj (cons.inj h).left with ⟨rfl, rfl⟩
      simp [hasEqualPair] at hys
  | case3 a b rest ih =>
    fun_cases hashPairs N ys with
    | case1 => cases h
    | case2 c =>
      rcases N.combine_inj (cons.inj h).left with ⟨rfl, rfl⟩
      simp [hasEqualPair] at hxs
    | case3 c d rest' =>
      rcases N.combine_inj (cons.inj h).left with ⟨rfl, rfl⟩
      simp only [hasEqualPair, Bool.or_eq_false_iff] at hxs hys
      rw [ih hxs.right hys.right (cons.inj h).right]

/-- One level above another that has no two equal hashes in a pair. -/
def Above (N : NodeHash hash) (level below : List hash) : Prop :=
  level = hashPairs N below ∧ hasEqualPair below = false

theorem above_unmutated (hne : xs ≠ []) {mutation : Bool}
    (h : (computeMerkleRoot N xs mutation).2 = false) :
    mutation = false ∧ ReflTransGen (Above N) [(computeMerkleRoot N xs mutation).1] xs := by
  fun_induction computeMerkleRoot N xs mutation with
  | case1 hashes mutation hlong ih =>
    have hnext : hashPairs N hashes ≠ [] := by
      apply ne_nil_of_length_pos
      rw [length_hashPairs]
      omega
    rcases ih hnext h with ⟨hflags, hlevels⟩
    rcases Bool.or_eq_false_iff.mp hflags with ⟨hmutation, hequal⟩
    exact ⟨hmutation, hlevels.tail ⟨rfl, hequal⟩⟩
  | case2 hashes mutation hshort =>
    rcases length_eq_one_iff.mp (show hashes.length = 1 by
      have hpos := length_pos_iff.mpr hne
      omega) with ⟨x, rfl⟩
    exact ⟨h, .refl⟩

def NotPaired (N : NodeHash hash) (xs : List hash) : Prop :=
  forall x, x ∈ xs -> forall a b, x ≠ N.combine a b

theorem NotPaired.eq_of_above (hleaf : NotPaired N xs) (hne : xs ≠ [])
    (h : ReflTransGen (Above N) xs ys) : xs = ys := by
  rcases h.cases_head with heq | ⟨level, ⟨heq, -⟩, -⟩
  · exact heq
  · rcases exists_mem_of_ne_nil xs hne with ⟨x, hx⟩
    rcases mem_hashPairs (heq ▸ hx) with ⟨a, b, hpair⟩
    exact absurd hpair (hleaf x hx a b)

theorem computeMerkleRoot_unique (N : NodeHash hash) (xs ys : List hash) (hxs : xs ≠ [])
    (hys : ys ≠ []) (hleafX : NotPaired N xs) (hleafY : NotPaired N ys)
    (hmutated : (computeMerkleRoot N xs false).2 = false)
    (hroot : (computeMerkleRoot N xs false).1 = (computeMerkleRoot N ys false).1) :
    ((computeMerkleRoot N ys false).2 = false -> xs = ys) ∧
      (ys ≠ xs -> (computeMerkleRoot N ys false).2 = true) := by
  have hunique : (computeMerkleRoot N ys false).2 = false -> xs = ys := by
    intro hmutated'
    have habove := (above_unmutated hxs hmutated).right
    rw [hroot] at habove
    have hright : Relator.RightUnique (Above N) :=
      fun _ _ _ h h' => hashPairs_inj h.right h'.right (h.left.symm.trans h'.left)
    rcases habove.total_of_right_unique hright (above_unmutated hys hmutated').right with h | h
    · exact hleafX.eq_of_above hxs h
    · exact (hleafY.eq_of_above hys h).symm
  refine ⟨hunique, fun hne => ?_⟩
  by_contra hfalse
  exact hne (hunique (Bool.eq_false_iff.mpr hfalse)).symm

/-- A hash of numbers that leaves the small ones to the leaves. -/
def leafyHash : NodeHash Nat where
  null := 0
  combine := fun a b => Nat.pair a b + 4
  combine_inj := by
    intro a b c d h
    exact Nat.pair_eq_pair.mp (Nat.add_right_cancel h)

theorem computeMerkleRoot_unique_three :
    (computeMerkleRoot leafyHash [1, 2, 3, 3] false).2 = true := by
  have hleaf : forall xs, (forall x, x ∈ xs -> x < 4) -> NotPaired leafyHash xs :=
    fun xs h x hx a b heq => absurd (h x hx) (heq ▸ Nat.not_lt.mpr (Nat.le_add_left 4 _))
  refine (computeMerkleRoot_unique leafyHash [1, 2, 3] [1, 2, 3, 3] nofun nofun
    (hleaf _ (by decide)) (hleaf _ (by decide)) ?_ ?_).right (by decide)
  · simp [computeMerkleRoot, hashPairs, hasEqualPair, leafyHash, Nat.pair]
  · simp [computeMerkleRoot, hashPairs]

end ECash.Merkle
