import Mathlib

/-!
# Counting references

Slots of a memory refer to addresses.  The references to an address are the slots that
refer to it; an update of one slot moves one reference.
-/

namespace ECash.Foundation

open Finset

section References

variable {slot addr : Type} [DecidableEq addr]

/-- One if the target is the address, and zero otherwise. -/
def hit (target : Option addr) (a : addr) : Nat :=
  if target = some a then 1 else 0

@[simp] theorem hit_none (a : addr) : hit none a = 0 := rfl

@[simp] theorem hit_self (a : addr) : hit (some a) a = 1 :=
  if_pos rfl

theorem hit_ne {a b : addr} (h : b ≠ a) : hit (some b) a = 0 :=
  if_neg fun heq => h (Option.some.inj heq)

def refs (slots : Finset slot) (target : slot -> Option addr) (a : addr) : Nat :=
  (slots.filter fun s => target s = some a).card

variable {slots others : Finset slot} {target other : slot -> Option addr} {a : addr}

theorem refs_congr (h : forall s, s ∈ slots -> target s = other s) :
    refs slots target a = refs slots other a := by
  apply congrArg card
  apply filter_congr
  intro s hs
  rw [h s hs]

theorem refs_eq_zero_iff :
    refs slots target a = 0 <-> forall s, s ∈ slots -> target s ≠ some a := by
  unfold refs
  rw [card_eq_zero, filter_eq_empty_iff]

theorem refs_pos {s : slot} (hs : s ∈ slots) (htarget : target s = some a) :
    0 < refs slots target a := by
  apply Nat.pos_of_ne_zero
  intro hzero
  exact refs_eq_zero_iff.mp hzero s hs htarget

theorem slot_unique (h : refs slots target a ≤ 1) {s t : slot} (hs : s ∈ slots) (ht : t ∈ slots)
    (hstarget : target s = some a) (httarget : target t = some a) : s = t :=
  card_le_one.mp h s (mem_filter.mpr ⟨hs, hstarget⟩) t (mem_filter.mpr ⟨ht, httarget⟩)

variable [DecidableEq slot]

theorem refs_insert {s : slot} (hs : s ∉ slots) :
    refs (insert s slots) target a = refs slots target a + hit (target s) a := by
  unfold refs hit
  rw [filter_insert]
  split
  · rw [card_insert_of_notMem]
    intro hmem
    exact hs (mem_filter.mp hmem).left
  · rfl

theorem refs_erase {s : slot} (hs : s ∈ slots) :
    refs (slots.erase s) target a + hit (target s) a = refs slots target a := by
  rw [← refs_insert (notMem_erase s slots), insert_erase hs]

theorem refs_union (h : Disjoint slots others) :
    refs (slots ∪ others) target a = refs slots target a + refs others target a := by
  unfold refs
  rw [filter_union, card_union_of_disjoint]
  exact disjoint_filter_filter h

theorem refs_update {s : slot} (hs : s ∈ slots)
    (hother : forall t, t ∈ slots -> t ≠ s -> other t = target t) :
    refs slots other a + hit (target s) a = refs slots target a + hit (other s) a := by
  have hrest : refs (slots.erase s) other a = refs (slots.erase s) target a := by
    apply refs_congr
    intro t ht
    exact hother t (mem_of_mem_erase ht) (ne_of_mem_erase ht)
  have hold := @refs_erase slot addr _ slots target a _ s hs
  have hnew := @refs_erase slot addr _ slots other a _ s hs
  omega

/-- The references from a family of slots, one for each place of a finite list. -/
theorem refs_image {n : Nat} {place : Fin n -> slot} (hinj : Function.Injective place) :
    refs (Finset.univ.image place) target a =
      ((List.finRange n).map fun i => hit (target (place i)) a).sum := by
  unfold refs
  rw [filter_image, card_image_of_injective _ hinj]
  have hcount : (univ.filter fun i => target (place i) = some a).card =
      (List.finRange n).countP fun i => target (place i) = some a := by
    rw [List.countP_eq_length_filter]
    rfl
  rw [hcount]
  induction List.finRange n with
  | nil => rfl
  | cons i rest ih =>
    rw [List.countP_cons, ih, List.map_cons, add_comm]
    unfold hit
    simp

end References

end ECash.Foundation
