import ECash.Avalanche.PeerManager

/-!
# Drawing a peer

A draw is a position in the slots, found by an interpolation search that ends in a
linear one.  On ordered slots it returns the peer of the slot at the position, so
that a peer is drawn with as many values as its slot is long.
-/

namespace ECash.Avalanche

open List

inductive SelectionFailure where
  | drawAboveMax
  | guessOutOfRange
  | divisionByZero
  | slotOutOfRange
deriving DecidableEq, Repr

def linearSearch (slots : List Slot) (slot first last : Nat) : Option PeerId :=
  (((slots.take last).drop first).find? fun s => s.contains slot).bind Slot.peerid

/-- The interpolation search. `first` and `last` are the `begin` and `end` of the source. -/
def interpolate (slots : List Slot) (slot first last bottom top : Nat) :
    Except SelectionFailure (Option PeerId) :=
  if 8 < last - first then
    if slot < bottom ∨ top ≤ slot then .ok none
    else if top - bottom = 0 then .error .divisionByZero
    else
      -- The product is computed in 64 bits.
      let i := first + (slot - bottom) * (last - first) % 2 ^ 64 / (top - bottom)
      if first ≤ i ∧ i < last then
        match slots[i]? with
        | none => .error .slotOutOfRange
        | some s =>
          if s.contains slot then .ok s.peerid
          else if s.precedes slot then
            if last ≤ i + 1 then .ok none
            else
              match slots[i + 1]? with
              | none => .error .slotOutOfRange
              | some next => interpolate slots slot (i + 1) last next.start top
          else if s.follows slot then interpolate slots slot first i bottom s.start
          else .ok none
      else .error .guessOutOfRange
  else .ok (linearSearch slots slot first last)
termination_by last - first
decreasing_by all_goals omega

def selectPeerImpl (slots : List Slot) (slot max : Nat) : Except SelectionFailure (Option PeerId) :=
  if slot ≤ max then interpolate slots slot 0 slots.length 0 max
  else .error .drawAboveMax

def peerAt (slots : List Slot) (slot : Nat) : Option PeerId :=
  (slots.find? fun s => s.contains slot).bind Slot.peerid

variable {s : Slot} {i slot first last bottom top max : Nat}

theorem Slot.contains_iff {value : Nat} :
    s.contains value = true <-> s.start ≤ value ∧ value < s.getStop :=
  decide_eq_true_iff

theorem Slot.start_le_getStop (s : Slot) : s.start ≤ s.getStop :=
  Nat.le_add_right _ _

/-- No slot reaches into a later one. -/
def Ordered (slots : List Slot) : Prop :=
  slots.Pairwise fun a b => a.getStop ≤ b.start

variable {slots : List Slot}

theorem Ordered.getStop_le (h : Ordered slots) {j : Nat} {a b : Slot}
    (ha : slots[i]? = some a) (hb : slots[j]? = some b) (hij : i < j) : a.getStop ≤ b.start := by
  rcases List.getElem?_eq_some_iff.mp ha with ⟨hi, rfl⟩
  rcases List.getElem?_eq_some_iff.mp hb with ⟨hj, rfl⟩
  exact pairwise_iff_getElem.mp h i j hi hj hij

theorem Ordered.peerAt_eq (h : Ordered slots) (hs : slots[i]? = some s)
    (hcontains : s.contains slot = true) : peerAt slots slot = s.peerid := by
  rcases List.getElem?_eq_some_iff.mp hs with ⟨hi, hget⟩
  have hfind : slots.find? (fun s => s.contains slot) = some s := by
    refine find?_eq_some_iff_getElem.mpr ⟨hcontains, i, hi, hget, ?_⟩
    intro j hj
    have hstop := h.getStop_le (getElem?_eq_getElem (hj.trans hi)) hs hj
    rw [Bool.not_eq_true', Bool.eq_false_iff]
    intro hcontains'
    exact absurd (Nat.lt_of_lt_of_le (Slot.contains_iff.mp hcontains').right
      (hstop.trans (Slot.contains_iff.mp hcontains).left)) (Nat.lt_irrefl slot)
  unfold peerAt
  rw [hfind]
  rfl

theorem peerAt_eq_none
    (h : forall (i : Nat) (s : Slot), slots[i]? = some s -> s.contains slot = false) :
    peerAt slots slot = none := by
  have hfind : slots.find? (fun s => s.contains slot) = none := by
    rw [find?_eq_none]
    intro s hs
    rcases mem_iff_getElem?.mp hs with ⟨i, hi⟩
    rw [h i s hi]
    exact Bool.false_ne_true
  unfold peerAt
  rw [hfind]
  rfl

/-- The window of the search: the position is in no slot outside of it, and the slots in
it are between the bounds. -/
structure Window (slots : List Slot) (slot first last bottom top : Nat) : Prop where
  inside : last ≤ slots.length
  before : forall (i : Nat) (s : Slot), slots[i]? = some s -> i < first -> s.contains slot = false
  after : forall (i : Nat) (s : Slot), slots[i]? = some s -> last ≤ i -> s.contains slot = false
  above : forall (i : Nat) (s : Slot), slots[i]? = some s -> first ≤ i -> bottom ≤ s.start
  below : forall (i : Nat) (s : Slot), slots[i]? = some s -> i < last -> s.getStop ≤ top

section Window

variable {slots : List Slot} (h : Window slots slot first last bottom top)

include h

theorem Window.linearSearch_eq : linearSearch slots slot first last = peerAt slots slot := by
  have hbefore : ((slots.take last).take first).find? (fun s => s.contains slot) = none := by
    rw [find?_eq_none]
    intro s hs
    rcases mem_iff_getElem?.mp hs with ⟨i, hi⟩
    rw [getElem?_take, Option.ite_none_right_eq_some] at hi
    rcases hi with ⟨hlt, hi⟩
    rw [getElem?_take, Option.ite_none_right_eq_some] at hi
    rw [h.before i s hi.right hlt]
    exact Bool.false_ne_true
  have hafter : (slots.drop last).find? (fun s => s.contains slot) = none := by
    rw [find?_eq_none]
    intro s hs
    rcases mem_iff_getElem?.mp hs with ⟨i, hi⟩
    rw [getElem?_drop] at hi
    rw [h.after (last + i) s hi (Nat.le_add_right _ _)]
    exact Bool.false_ne_true
  unfold linearSearch peerAt
  conv_rhs => rw [← take_append_drop last slots, find?_append, hafter, Option.or_none,
    ← take_append_drop first (slots.take last), find?_append, hbefore, Option.none_or]

theorem Window.outside (hout : slot < bottom ∨ top ≤ slot) : peerAt slots slot = none := by
  apply peerAt_eq_none
  intro i s hs
  rw [Bool.eq_false_iff]
  intro hcontains
  rcases Slot.contains_iff.mp hcontains with ⟨_, _⟩
  by_cases hfirst : i < first
  · rw [h.before i s hs hfirst] at hcontains
    cases hcontains
  by_cases hlast : last ≤ i
  · rw [h.after i s hs hlast] at hcontains
    cases hcontains
  have habove := h.above i s hs (not_lt.mp hfirst)
  have hbelow := h.below i s hs (not_le.mp hlast)
  omega

variable (hordered : Ordered slots)

include hordered

theorem Window.undershoot {next : Slot} (hs : slots[i]? = some s) (hprecedes : s.getStop ≤ slot)
    (hnext : slots[i + 1]? = some next) : Window slots slot (i + 1) last next.start top where
  inside := h.inside
  before := by
    intro j a ha hj
    rw [Bool.eq_false_iff]
    intro hcontains
    have hstop := (Slot.contains_iff.mp hcontains).right
    rcases Nat.lt_or_eq_of_le (Nat.le_of_lt_succ hj) with hlt | rfl
    · have hle := (hordered.getStop_le ha hs hlt).trans s.start_le_getStop
      omega
    · rw [ha] at hs
      cases hs
      omega
  after := h.after
  above := by
    intro j a ha hj
    rcases Nat.lt_or_eq_of_le hj with hlt | rfl
    · exact next.start_le_getStop.trans (hordered.getStop_le hnext ha hlt)
    · rw [ha] at hnext
      cases hnext
      exact le_rfl
  below := h.below

theorem Window.overshoot (hs : slots[i]? = some s) (hfollows : slot < s.start) :
    Window slots slot first i bottom s.start where
  inside := Nat.le_of_lt (Foundation.getElem?_lt hs)
  before := h.before
  after := by
    intro j a ha hj
    rw [Bool.eq_false_iff]
    intro hcontains
    have hstart := (Slot.contains_iff.mp hcontains).left
    rcases Nat.lt_or_eq_of_le hj with hlt | rfl
    · have hle := Nat.le_trans s.start_le_getStop (hordered.getStop_le hs ha hlt)
      omega
    · rw [ha] at hs
      cases hs
      omega
  above := h.above
  below := fun j a ha hj => hordered.getStop_le ha hs hj

theorem Window.exhausted (hs : slots[i]? = some s) (hprecedes : s.getStop ≤ slot)
    (hend : last ≤ i + 1) : peerAt slots slot = none := by
  apply peerAt_eq_none
  intro j a ha
  by_cases hj : last ≤ j
  · exact h.after j a ha hj
  rw [Bool.eq_false_iff]
  intro hcontains
  have hstop := (Slot.contains_iff.mp hcontains).right
  rcases Nat.lt_or_eq_of_le (show j ≤ i by omega) with hlt | rfl
  · have hle := (hordered.getStop_le ha hs hlt).trans s.start_le_getStop
    omega
  · rw [ha] at hs
    cases hs
    omega

end Window

/-- The guess lies in the window, even if the product of the guess wraps. -/
theorem guess_lt (hwindow : 8 < last - first) (hbottom : bottom ≤ slot) (htop : slot < top) :
    first + (slot - bottom) * (last - first) % 2 ^ 64 / (top - bottom) < last := by
  have hlt : (slot - bottom) * (last - first) % 2 ^ 64 / (top - bottom) < last - first := by
    apply Nat.div_lt_of_lt_mul
    apply Nat.lt_of_le_of_lt (Nat.mod_le _ _)
    exact Nat.mul_lt_mul_of_pos_right (by omega) (by omega)
  omega

theorem interpolate_eq (hordered : Ordered slots) (h : Window slots slot first last bottom top) :
    interpolate slots slot first last bottom top = .ok (peerAt slots slot) := by
  fun_induction interpolate slots slot first last bottom top with
  | case1 first last bottom top hwindow hout => rw [h.outside hout]
  | case2 first last bottom top hwindow hin _ => omega
  | case3 first last bottom top hwindow hin hpos i hi hnone =>
    have hlt := hi.right.trans_le h.inside
    rw [getElem?_eq_getElem hlt] at hnone
    cases hnone
  | case4 first last bottom top hwindow hin hpos i hi s hs hcontains =>
    rw [hordered.peerAt_eq hs hcontains]
  | case5 first last bottom top hwindow hin hpos i hi s hs hcontains hprecedes hend =>
    rw [h.exhausted hordered hs (of_decide_eq_true hprecedes) hend]
  | case6 first last bottom top hwindow hin hpos i hi s hs hcontains hprecedes hend hnone =>
    have hlt : i + 1 < slots.length := (not_le.mp hend).trans_le h.inside
    rw [getElem?_eq_getElem hlt] at hnone
    cases hnone
  | case7 first last bottom top hwindow hin hpos i hi s hs hcontains hprecedes _ next hnext ih =>
    exact ih (h.undershoot hordered hs (of_decide_eq_true hprecedes) hnext)
  | case8 first last bottom top hwindow hin hpos i hi s hs hcontains hprecedes hfollows ih =>
    exact ih (h.overshoot hordered hs (of_decide_eq_true hfollows))
  | case9 first last bottom top hwindow hin hpos i hi s _ hcontains hprecedes hfollows =>
    -- A position that is not in the slot is before it or behind it.
    rw [Slot.contains_iff] at hcontains
    have hstop : ¬ s.getStop ≤ slot := fun hle => hprecedes (decide_eq_true hle)
    have hstart : ¬ slot < s.start := fun hlt => hfollows (decide_eq_true hlt)
    omega
  | case10 first last bottom top hwindow hin _ i hi =>
    rcases not_or.mp hin with ⟨hbottom, htop⟩
    exact absurd ⟨Nat.le_add_right _ _, guess_lt hwindow (not_lt.mp hbottom) (not_le.mp htop)⟩ hi
  | case11 first last bottom top _ => rw [h.linearSearch_eq]

/-- The search agrees with the linear scan. -/
theorem selectPeerImpl_eq (hordered : Ordered slots)
    (hmax : forall s, s ∈ slots -> s.getStop ≤ max) (hslot : slot ≤ max) :
    selectPeerImpl slots slot max = .ok (peerAt slots slot) := by
  unfold selectPeerImpl
  rw [if_pos hslot]
  apply interpolate_eq hordered
  constructor
  · exact le_rfl
  · intro i s _ hi
    exact absurd hi (Nat.not_lt_zero i)
  · intro i s hs hi
    rw [getElem?_eq_none hi] at hs
    cases hs
  · intro i s _ _
    exact Nat.zero_le _
  · intro i s hs _
    exact hmax s (mem_of_getElem? hs)

/-!
## The number of draws
-/

/-- How many of the values below `max` draw a peer. -/
def draws (slots : List Slot) (max : Nat) (id : PeerId) : Nat :=
  (range max).countP fun slot => selectPeerImpl slots slot max = .ok (some id)

theorem countP_range_interval (low high n : Nat) :
    (range n).countP (fun r => low ≤ r ∧ r < high) = min n high - low := by
  induction n with
  | zero => rw [Nat.zero_min, Nat.zero_sub]; rfl
  | succ n ih =>
    rw [range_succ, countP_append, countP_singleton]
    simp only [decide_eq_true_eq]
    split <;> omega

theorem peerAt_cons (s : Slot) (slots : List Slot) (slot : Nat) :
    peerAt (s :: slots) slot = if s.contains slot then s.peerid else peerAt slots slot := by
  unfold peerAt
  rw [find?_cons]
  cases s.contains slot <;> rfl

theorem Ordered.peerAt_tail (h : Ordered (s :: slots))
    (hcontains : s.contains slot = true) : peerAt slots slot = none := by
  apply peerAt_eq_none
  intro i a ha
  have hle := (pairwise_cons.mp h).left a (mem_of_getElem? ha)
  have hslot := (Slot.contains_iff.mp hcontains).right
  exact decide_eq_false fun hin => absurd hin.left (by omega)

theorem draws_eq_sum (hordered : Ordered slots)
    (hmax : forall s, s ∈ slots -> s.getStop ≤ max) (id : PeerId) :
    draws slots max id = ((slots.filter fun s => s.peerid = some id).map Slot.score).sum := by
  have hdraws : draws slots max id =
      (range max).countP fun slot => peerAt slots slot = some id := by
    apply countP_congr
    intro slot hslot
    rw [selectPeerImpl_eq hordered hmax ((mem_range.mp hslot).le), decide_eq_true_iff,
      decide_eq_true_iff, Except.ok.injEq]
  rw [hdraws]
  clear hdraws
  induction slots with
  | nil => exact countP_eq_zero.mpr fun slot _ => Bool.false_ne_true
  | cons s slots ih =>
    -- The values of the first slot are counted apart from the others.
    rw [countP_eq_countP_filter_add _ _ s.contains, countP_filter, countP_filter]
    have hscore : (range max).countP s.contains = s.score := by
      refine (countP_range_interval s.start s.getStop max).trans ?_
      rw [Nat.min_eq_right (hmax s mem_cons_self)]
      exact Nat.add_sub_cancel_left _ _
    have hfirst : (range max).countP
        (fun slot => decide (peerAt (s :: slots) slot = some id) && s.contains slot) =
          if s.peerid = some id then s.score else 0 := by
      rw [← hscore]
      split
      · exact countP_congr fun slot _ => by grind [peerAt_cons]
      · exact countP_eq_zero.mpr fun slot _ => by grind [peerAt_cons]
    have hlater : (range max).countP
        (fun slot => decide (peerAt (s :: slots) slot = some id) && !s.contains slot) =
          (range max).countP fun slot => peerAt slots slot = some id :=
      countP_congr fun slot _ => by grind [peerAt_cons, hordered.peerAt_tail]
    rw [hfirst, hlater, ih hordered.of_cons (forall_mem_cons.mp hmax).2, filter_cons]
    grind

/-- Only one slot is of the peer, as in the slots of the peer manager. -/
theorem draws_eq (hordered : Ordered slots)
    (hmax : forall s, s ∈ slots -> s.getStop ≤ max) {id : PeerId} (hs : slots[i]? = some s)
    (hid : s.peerid = some id)
    (hunique : forall (j : Nat) (a : Slot), slots[j]? = some a -> a.peerid = some id -> j = i) :
    draws slots max id = s.score := by
  rw [draws_eq_sum hordered hmax]
  rcases List.getElem?_eq_some_iff.mp hs with ⟨hi, hget⟩
  have hbefore : (slots.take i).filter (fun s => s.peerid = some id) = [] := by
    rw [filter_eq_nil_iff]
    intro a ha haid
    rcases mem_take_iff_getElem.mp ha with ⟨j, hj, hget⟩
    have := hunique j a (by grind) (of_decide_eq_true haid)
    grind
  have hbehind : (slots.drop (i + 1)).filter (fun s => s.peerid = some id) = [] := by
    rw [filter_eq_nil_iff]
    intro a ha haid
    rcases mem_drop_iff_getElem.mp ha with ⟨j, _, _⟩
    have := hunique (i + 1 + j) a (by grind) (of_decide_eq_true haid)
    grind
  rw [← take_append_drop i slots, drop_eq_getElem_cons hi]
  grind

/-- The interpolation search succeeds on every value and finds what the scan finds, and a
peer is drawn by as many values as its slots are long. -/
theorem weighted_selection {slots : List Slot} (hordered : Ordered slots)
    (hmax : forall s, s ∈ slots -> s.getStop ≤ max) :
    (forall slot, slot ≤ max -> selectPeerImpl slots slot max = .ok (peerAt slots slot)) ∧
    forall id, draws slots max id =
      ((slots.filter fun s => s.peerid = some id).map Slot.score).sum :=
  ⟨fun _ hslot => selectPeerImpl_eq hordered hmax hslot, draws_eq_sum hordered hmax⟩

/-- Twelve slots with a gap behind each. -/
def gapSlots : List Slot := (range 12).map fun i => ⟨3 * i, 2, some i⟩

theorem weighted_selection_gap :
    selectPeerImpl gapSlots 16 36 = .ok (some 5) ∧ selectPeerImpl gapSlots 17 36 = .ok none ∧
      draws gapSlots 36 5 = 2 :=
  have h := @weighted_selection 36 gapSlots (by unfold Ordered; decide) (by decide)
  ⟨h.left 16 (by decide), h.left 17 (by decide), h.right 5⟩

end ECash.Avalanche
