import Mathlib.Logic.Relation

/-!
# Parent-pointer forests

Nodes with a parent pointer and a depth that counts the steps to the root.  The
ancestors of a node form a chain with exactly one node at each depth up to its
own.
-/

namespace ECash.Foundation

universe u

structure Forest (node : Type u) where
  parent : node -> Option node
  depth : node -> Nat
  depth_parent : forall {x y}, parent x = some y -> depth x = depth y + 1
  depth_root : forall {x}, parent x = none -> depth x = 0

namespace Forest

variable {node : Type u} (F : Forest node)

def Ancestor (a x : node) : Prop :=
  Relation.ReflTransGen (fun y z => F.parent y = some z) x a

def SameBranch (a b : node) : Prop :=
  F.Ancestor a b ∨ F.Ancestor b a

variable {F}

theorem ancestor_refl (x : node) : F.Ancestor x x :=
  Relation.ReflTransGen.refl

variable {a b x : node}

theorem Ancestor.trans (hab : F.Ancestor a b) (hbx : F.Ancestor b x) : F.Ancestor a x :=
  Relation.ReflTransGen.trans hbx hab

theorem ancestor_of_parent {y : node} (h : F.parent x = some y) : F.Ancestor y x :=
  Relation.ReflTransGen.single h

namespace Ancestor

variable (h : F.Ancestor a x)

include h

theorem cases : a = x ∨ exists y, F.parent x = some y ∧ F.Ancestor a y := by
  rcases Relation.ReflTransGen.cases_head h with heq | ⟨y, hparent, hrest⟩
  · exact .inl heq.symm
  · exact .inr ⟨y, hparent, hrest⟩

theorem of_ne {y : node} (hne : a ≠ x) (hparent : F.parent x = some y) : F.Ancestor a y := by
  rcases h.cases with heq | ⟨_, hz, hrest⟩
  · exact absurd heq hne
  · cases hparent.symm.trans hz
    exact hrest

theorem depth_le : F.depth a ≤ F.depth x := by
  induction h with
  | refl => exact Nat.le_refl _
  | tail _ hparent ih =>
    have hdepth := F.depth_parent hparent
    omega

theorem eq_of_depth (hdepth : F.depth x ≤ F.depth a) : a = x := by
  rcases h.cases with heq | ⟨_, hparent, hrest⟩
  · exact heq
  · have hstep := F.depth_parent hparent
    have hle := hrest.depth_le
    omega

end Ancestor

theorem Ancestor.antisymm (hab : F.Ancestor a b) (hba : F.Ancestor b a) : a = b :=
  hab.eq_of_depth hba.depth_le

theorem Ancestor.sameBranch (ha : F.Ancestor a x) (hb : F.Ancestor b x) : F.SameBranch a b := by
  have hunique : Relator.RightUnique fun y z => F.parent y = some z := by
    intro y z w hz hw
    exact Option.some.inj (hz.symm.trans hw)
  rcases Relation.ReflTransGen.total_of_right_unique hunique ha hb with h | h
  · exact .inr h
  · exact .inl h

theorem Ancestor.of_depth_le (ha : F.Ancestor a x) (hb : F.Ancestor b x)
    (hdepth : F.depth a ≤ F.depth b) : F.Ancestor a b := by
  rcases ha.sameBranch hb with h | h
  · exact h
  · rw [h.eq_of_depth hdepth]
    exact ancestor_refl a

theorem Ancestor.unique (ha : F.Ancestor a x) (hb : F.Ancestor b x)
    (hdepth : F.depth a = F.depth b) : a = b :=
  (ha.of_depth_le hb (Nat.le_of_eq hdepth)).eq_of_depth (Nat.le_of_eq hdepth.symm)

theorem exists_parent (h : 0 < F.depth x) : exists y, F.parent x = some y := by
  cases hparent : F.parent x with
  | none =>
    have hroot := F.depth_root hparent
    omega
  | some y => exact ⟨y, rfl⟩

/-!
## Branches
-/

end Forest

end ECash.Foundation
