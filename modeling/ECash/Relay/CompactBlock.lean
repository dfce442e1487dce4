import Std.Data.TreeMap
import ECash.Foundation.Computation
import ECash.Foundation.FreeSlots

/-!
# Compact blocks

A compact message gives some of its items in full, each with its index, and short ids for the rest.
The processor of the short ids finds out which index each of them stands for and takes the items
that the node knows already; the block is filled with those that the peer sends.
-/

namespace ECash.Relay

open Foundation List

abbrev ShortId := UInt64

structure ShortIdProcessor (Item : Type) where
  evenlyDistributed : Bool
  shortIdCollision : Bool
  outOfBoundIndex : Bool
  itemsAvailable : List (Option Item)
  haveItem : List Bool
  shortIdIndexMap : Std.TreeMap ShortId Nat

namespace ShortIdProcessor

variable {Item : Type} (same : Item -> Item -> Bool)

/-- Returns the change of the number of items. -/
def addItem (p : ShortIdProcessor Item) (index : Nat) (item : Item) : Int × ShortIdProcessor Item :=
  if p.itemsAvailable.length <= index then (0, { p with outOfBoundIndex := true })
  else if p.haveItem[index]? = some false then
    (1, { p with
      haveItem := p.haveItem.set index true
      itemsAvailable := p.itemsAvailable.set index (some item) })
  else
    match p.itemsAvailable[index]? with
    | some (some held) =>
      if same held item then (0, p)
      else (-1, { p with itemsAvailable := p.itemsAvailable.set index none })
    | _ => (0, p)

def addItems (p : ShortIdProcessor Item) (items : List (Nat × Item)) : ShortIdProcessor Item :=
  items.foldl (fun p item => (p.addItem same item.1 item.2).2) p

/-- The index of every short id and whether the buckets are small.  There is no result if the loop
reads beyond the items; the size of a bucket is that of the hash table at hand. -/
def mapShortIds (bucketSize : Std.TreeMap ShortId Nat -> ShortId -> Nat) (maxShortIdPerBucket : Nat)
    (itemsAvailable : List (Option Item)) : Nat -> Nat -> List ShortId ->
    Std.TreeMap ShortId Nat × Bool -> Option (Std.TreeMap ShortId Nat × Bool)
  | _, _, [], result => some result
  | i, indexOffset, shortid :: shortids, (map, even) =>
    match skipTaken (itemsAvailable.drop (i + indexOffset)) indexOffset with
    | none => none
    | some indexOffset =>
      let map := map.insert shortid (i + indexOffset)
      mapShortIds bucketSize maxShortIdPerBucket itemsAvailable (i + 1) indexOffset shortids
        (map, even && decide (bucketSize map shortid <= maxShortIdPerBucket))

def empty (size : Nat) : ShortIdProcessor Item :=
  { evenlyDistributed := true
    shortIdCollision := false
    outOfBoundIndex := false
    itemsAvailable := replicate size none
    haveItem := replicate size false
    shortIdIndexMap := ∅ }

/-- Before the short ids are looked at. -/
def start (prefilledItems : List (Nat × Item)) (shortids : List ShortId) : ShortIdProcessor Item :=
  (empty (prefilledItems.length + shortids.length)).addItems same prefilledItems

def new (bucketSize : Std.TreeMap ShortId Nat -> ShortId -> Nat)
    (prefilledItems : List (Nat × Item)) (shortids : List ShortId) (maxShortIdPerBucket : Nat) :
    Option (ShortIdProcessor Item) :=
  let p := start same prefilledItems shortids
  match mapShortIds bucketSize maxShortIdPerBucket p.itemsAvailable 0 0 shortids (∅, true) with
  | none => none
  | some (map, even) =>
    some { p with
      shortIdIndexMap := map
      evenlyDistributed := even
      shortIdCollision := map.size != shortids.length }

def matchKnownItem (p : ShortIdProcessor Item) (shortid : ShortId) (item : Item) :
    Int × ShortIdProcessor Item :=
  match p.shortIdIndexMap[shortid]? with
  | none => (0, p)
  | some index => p.addItem same index item

def matchKnownItems (p : ShortIdProcessor Item) (known : List (ShortId × Item)) :
    ShortIdProcessor Item :=
  known.foldl (fun p item => (p.matchKnownItem same item.1 item.2).2) p

def getItem (p : ShortIdProcessor Item) (index : Nat) : Option Item :=
  p.itemsAvailable[index]?.getD none

end ShortIdProcessor

inductive ReadStatus where
  | ok
  | invalid
  | failed
  | checkblockFailed
deriving DecidableEq

inductive BlockCheck where
  | valid
  | mutated
  | invalid
deriving DecidableEq

def BlockCheck.status : BlockCheck -> ReadStatus
  | .valid => .ok
  | .mutated => .failed
  | .invalid => .checkblockFailed

variable {Item : Type}

/-- The transactions of the block, and the missing ones that were not needed. -/
def fillVtx : List (Option Item) -> List Item -> Option (List Item × List Item)
  | [], missing => some ([], missing)
  | none :: _, [] => none
  | none :: slots, tx :: missing => (fillVtx slots missing).map fun r => (tx :: r.1, r.2)
  | some tx :: slots, missing => (fillVtx slots missing).map fun r => (tx :: r.1, r.2)

def fillBlock (checkBlock : List Item -> BlockCheck) (p : ShortIdProcessor Item)
    (vtxMissing : List Item) : ReadStatus × Option (List Item) :=
  match fillVtx p.itemsAvailable vtxMissing with
  | none => (.invalid, none)
  | some (vtx, rest) =>
    if rest ≠ [] then (.invalid, some vtx) else ((checkBlock vtx).status, some vtx)

theorem fillVtx_missing {slots : List (Option Item)} {items : List Item}
    (h : Forall₂ (fun slot item => forall held, slot = some held -> held = item) slots items)
    (pos : Nat) (all : List Item) (hall : forall i, all[pos + i]? = items[i]?) :
    fillVtx slots ((freeFrom pos slots).filterMap (all[·]?)) = some (items, []) := by
  induction h generalizing pos with
  | nil => rfl
  | @cons slot item slots items hslot _ ih =>
    have hitem : all[pos]? = some item := hall 0
    have hrest := ih (pos + 1) fun i => by
      rw [Nat.add_right_comm]
      exact hall (i + 1)
    cases slot with
    | none => simp [freeFrom, fillVtx, hitem, hrest]
    | some held => simp [freeFrom, fillVtx, hrest, hslot held rfl]

namespace ShortIdProcessor

variable {Item : Type} (same : Item -> Item -> Bool) {p : ShortIdProcessor Item}

/-!
## Bounds
-/

theorem addItem_taken (p : ShortIdProcessor Item) (index : Nat) (item : Item) :
    (p.addItem same index item).2.itemsAvailable.length = p.itemsAvailable.length ∧
      (p.addItem same index item).2.itemsAvailable.countP Option.isSome <=
        p.itemsAvailable.countP Option.isSome + 1 := by
  unfold addItem
  split
  · simp
  rename_i hindex
  have hset : forall slot, (p.itemsAvailable.set index slot).countP Option.isSome <=
      p.itemsAvailable.countP Option.isSome + 1 := by
    intro slot
    rw [countP_set (Nat.lt_of_not_le hindex)]
    have hone : (if slot.isSome = true then 1 else 0) <= 1 := by split <;> decide
    exact Nat.add_le_add (Nat.sub_le _ _) hone
  split
  · exact ⟨length_set .., hset _⟩
  · split
    · split
      · simp
      · exact ⟨length_set .., hset _⟩
    · simp

theorem addItems_taken (p : ShortIdProcessor Item) (items : List (Nat × Item)) :
    (p.addItems same items).itemsAvailable.length = p.itemsAvailable.length ∧
      (p.addItems same items).itemsAvailable.countP Option.isSome <=
        p.itemsAvailable.countP Option.isSome + items.length := by
  induction items generalizing p with
  | nil => simp [addItems]
  | cons item items ih =>
    have hstep := addItem_taken same p item.1 item.2
    have hrest := ih (p.addItem same item.1 item.2).2
    refine ⟨hrest.1.trans hstep.1, Nat.le_trans hrest.2 ?_⟩
    simp only [length_cons]
    omega

theorem mapShortIds_eq {bucketSize : Std.TreeMap ShortId Nat -> ShortId -> Nat} {maxPerBucket : Nat}
    {slots : List (Option Item)} (i indexOffset : Nat) (shortids : List ShortId)
    (map : Std.TreeMap ShortId Nat) (even : Bool)
    (h : shortids.length <= (freeFrom (i + indexOffset) (slots.drop (i + indexOffset))).length) :
    exists even', mapShortIds bucketSize maxPerBucket slots i indexOffset shortids (map, even) =
      some (map.insertMany
        (shortids.zip (freeFrom (i + indexOffset) (slots.drop (i + indexOffset)))), even') := by
  induction shortids generalizing i indexOffset map even with
  | nil => exact ⟨even, by simp [mapShortIds]⟩
  | cons shortid shortids ih =>
    cases hfree : freeFrom (i + indexOffset) (slots.drop (i + indexOffset)) with
    | nil => simp [hfree] at h
    | cons first others =>
      rcases skipTaken_of_free hfree indexOffset with ⟨_, hskip, hothers⟩
      have hfirst : i + (indexOffset + (first - (i + indexOffset))) = first := by omega
      have hnext : i + 1 + (indexOffset + (first - (i + indexOffset))) = first + 1 := by omega
      rw [drop_drop, show i + indexOffset + (first + 1 - (i + indexOffset)) = first + 1 by omega]
        at hothers
      rw [hfree, length_cons, length_cons] at h
      have hrest := ih (i + 1) (indexOffset + (first - (i + indexOffset)))
        (map.insert shortid first)
        (even && decide (bucketSize (map.insert shortid first) shortid <= maxPerBucket))
      rw [hnext, hothers] at hrest
      rcases hrest (by omega) with ⟨even', hmap⟩
      refine ⟨even', ?_⟩
      simp only [mapShortIds, hskip, hfirst, hmap, zip_cons_cons, Std.TreeMap.insertMany_cons]

/-- Whatever the indices, the slots that are taken are no more than the items that were given, so
that every short id gets a slot. -/
theorem new_eq (bucketSize : Std.TreeMap ShortId Nat -> ShortId -> Nat)
    (prefilledItems : List (Nat × Item)) (shortids : List ShortId) (maxPerBucket : Nat) :
    exists even, new same bucketSize prefilledItems shortids maxPerBucket =
      let p := start same prefilledItems shortids
      let map := Std.TreeMap.insertMany ∅ (shortids.zip (freeFrom 0 p.itemsAvailable))
      some { p with
        shortIdIndexMap := map
        evenlyDistributed := even
        shortIdCollision := map.size != shortids.length } := by
  have htaken : _ ∧ _ := addItems_taken same (empty (prefilledItems.length + shortids.length))
    prefilledItems
  have hfree := length_freeFrom 0 (start same prefilledItems shortids).itemsAvailable
  have hroom : shortids.length <=
      (freeFrom 0 (start same prefilledItems shortids).itemsAvailable).length := by
    simp only [start, empty, length_replicate, countP_replicate] at htaken hfree ⊢
    simp only [Option.isSome_none, Bool.false_eq_true, if_false] at htaken
    omega
  rcases @mapShortIds_eq _ bucketSize maxPerBucket _ 0 0 shortids ∅ true hroom with ⟨even, hmap⟩
  refine ⟨even, ?_⟩
  simp only [Nat.add_zero, drop_zero] at hmap
  simp only [new, hmap]

/-!
## Reconstruction
-/

/-- The slots at the given positions hold their items, and no other slot has been touched. -/
structure Holds (items : List Item) (filled : Nat -> Prop) (p : ShortIdProcessor Item) : Prop where
  length : p.itemsAvailable.length = items.length
  taken : forall i item, items[i]? = some item -> filled i ->
    p.itemsAvailable[i]? = some (some item) ∧ p.haveItem[i]? = some true
  free : forall i, i < items.length -> ¬ filled i ->
    p.itemsAvailable[i]? = some none ∧ p.haveItem[i]? = some false

variable {items : List Item} {filled : Nat -> Prop} {same}

theorem Holds.addItem (h : p.Holds items filled) (hsame : forall item, same item item = true)
    {index : Nat} {item : Item} (hitem : items[index]? = some item) :
    (p.addItem same index item).2.Holds items fun i => filled i ∨ i = index := by
  have hindex : index < items.length := getElem?_lt hitem
  have hbound : ¬ p.itemsAvailable.length <= index := by
    rw [h.length]
    exact Nat.not_le.mpr hindex
  unfold ShortIdProcessor.addItem
  rw [if_neg hbound]
  by_cases hfilled : filled index
  · -- the item is there already, and it is the same
    have hheld := h.taken index item hitem hfilled
    simp only [hheld.1, hheld.2, hsame, if_true, Option.some.injEq, Bool.true_eq_false, if_false]
    refine { length := h.length, taken := ?_, free := fun i hi hnot => h.free i hi (hnot ∘ .inl) }
    rintro i t ht (hi | rfl)
    · exact h.taken i t ht hi
    · exact h.taken i t ht hfilled
  · have hfree := h.free index hindex hfilled
    rw [if_pos hfree.2]
    have hhave : index < p.haveItem.length := getElem?_lt hfree.2
    refine { length := (List.length_set ..).trans h.length, taken := ?_, free := ?_ }
    · intro i t ht hi
      by_cases heq : index = i
      · subst heq
        cases hitem.symm.trans ht
        simp [h.length, hindex, hhave]
      · simpa [getElem?_set_ne heq] using h.taken i t ht (hi.resolve_right fun h => heq h.symm)
    · intro i hi hnot
      have heq : index ≠ i := fun h => hnot (.inr h.symm)
      simpa [getElem?_set_ne heq] using h.free i hi (hnot ∘ .inl)

theorem Holds.addItems (h : p.Holds items filled) (hsame : forall item, same item item = true)
    (given : List (Nat × Item)) (hgiven : forall g, g ∈ given -> items[g.1]? = some g.2) :
    (p.addItems same given).Holds items fun i => filled i ∨ i ∈ given.map Prod.fst := by
  induction given generalizing p filled with
  | nil => simpa [ShortIdProcessor.addItems] using h
  | cons g given ih =>
    have hstep := h.addItem hsame (hgiven g mem_cons_self)
    simp only [map_cons, mem_cons, ← or_assoc]
    exact ih hstep (forall_mem_cons.mp hgiven).2

theorem empty_holds (items : List Item) : (empty items.length).Holds items fun _ => False := by
  refine { length := length_replicate, taken := fun _ _ _ h => h.elim, free := ?_ }
  intro i hi _
  simp [empty, hi]

theorem addItem_map (same : Item -> Item -> Bool) (p : ShortIdProcessor Item) (index : Nat)
    (item : Item) : (p.addItem same index item).2.shortIdIndexMap = p.shortIdIndexMap := by
  unfold ShortIdProcessor.addItem
  repeat' split
  all_goals rfl

namespace Holds

variable (h : p.Holds items filled)

include h

/-- Known items are matched to the indices of their short ids; other items change nothing. -/
theorem matchKnownItems (hsame : forall item, same item item = true) (known : List (ShortId × Item))
    (hknown : forall k, k ∈ known -> forall i, p.shortIdIndexMap[k.1]? = some i ->
      items[i]? = some k.2) :
    (p.matchKnownItems same known).Holds items fun i => filled i ∨
      exists k, k ∈ known ∧ p.shortIdIndexMap[k.1]? = some i := by
  induction known generalizing p filled with
  | nil => simpa [ShortIdProcessor.matchKnownItems] using h
  | cons k known ih =>
    have hmap := addItem_map same p
    have hrest : forall k, k ∈ known -> forall i, p.shortIdIndexMap[k.1]? = some i ->
        items[i]? = some k.2 := (forall_mem_cons.mp hknown).2
    cases hfind : p.shortIdIndexMap[k.1]? with
    | none =>
      have hskip : p.matchKnownItems same (k :: known) = p.matchKnownItems same known := by
        simp only [ShortIdProcessor.matchKnownItems, foldl_cons, matchKnownItem, hfind]
      simpa [hskip, hfind] using ih h hrest
    | some index =>
      have hadd := h.addItem hsame (hknown k mem_cons_self index hfind)
      have hstep : p.matchKnownItems same (k :: known) =
          (p.addItem same index k.2).2.matchKnownItems same known := by
        simp only [ShortIdProcessor.matchKnownItems, foldl_cons, matchKnownItem, hfind]
      have hafter := ih hadd (by simpa only [hmap] using hrest)
      simpa [hstep, hmap, hfind, or_assoc, eq_comm] using hafter

theorem getItem_eq_none {i : Nat} (hi : i < items.length) : p.getItem i = none <-> ¬ filled i := by
  constructor
  · intro hnone hfilled
    have hheld := h.taken i items[i] (getElem?_eq_getElem hi) hfilled
    simp [getItem, hheld.1] at hnone
  · intro hnot
    simp [getItem, (h.free i hi hnot).1]

theorem freeFrom_eq :
    freeFrom 0 p.itemsAvailable = (range items.length).filter fun i => (p.getItem i).isNone := by
  rw [Foundation.freeFrom_eq, h.length]
  simp [getItem]

theorem fillVtx_eq :
    fillVtx p.itemsAvailable ((freeFrom 0 p.itemsAvailable).filterMap (items[·]?)) =
      some (items, []) := by
  refine fillVtx_missing (forall₂_iff_get.mpr ⟨h.length, ?_⟩) 0 items (fun i => by simp)
  intro i hi hitem held hheld
  have hslot : p.itemsAvailable[i]? = some (some held) := by
    simpa [getElem?_eq_getElem hi] using hheld
  by_cases hfilled : filled i
  · have htaken := (h.taken i items[i] (getElem?_eq_getElem hitem) hfilled).1
    simpa using (hslot.symm.trans htaken)
  · cases hslot.symm.trans (h.free i hitem hfilled).1

end Holds

theorem getElem?_indexMap {shortids : List ShortId} {free : List Nat} (hnodup : shortids.Nodup)
    (hlength : shortids.length = free.length) {id : ShortId} {i : Nat} :
    (Std.TreeMap.insertMany (∅ : Std.TreeMap ShortId Nat) (shortids.zip free))[id]? = some i <->
      exists k : Nat, shortids[k]? = some id ∧ free[k]? = some i := by
  have hdistinct : (shortids.zip free).Pairwise fun a b => ¬ compare a.1 b.1 = .eq := by
    have hmap : ((shortids.zip free).map Prod.fst).Nodup := by
      rwa [map_fst_zip (Nat.le_of_eq hlength)]
    exact (pairwise_map.mp hmap).imp fun hne heq => hne (Std.LawfulEqOrd.eq_of_compare heq)
  have hfound : forall k : Nat, shortids[k]? = some id -> forall j, free[k]? = some j ->
      (Std.TreeMap.insertMany (∅ : Std.TreeMap ShortId Nat) (shortids.zip free))[id]? = some j := by
    intro k hk j hj
    refine Std.TreeMap.getElem?_insertMany_list_of_mem Std.ReflCmp.compare_self hdistinct ?_
    exact mem_of_getElem? (getElem?_zip_eq_some.mpr ⟨hk, hj⟩)
  constructor
  · intro h
    by_cases hmem : id ∈ shortids
    · rcases List.getElem?_of_mem hmem with ⟨k, hk⟩
      have hfree : k < free.length := hlength ▸ getElem?_lt hk
      have hj := hfound k hk free[k] (List.getElem?_eq_getElem hfree)
      cases h.symm.trans hj
      exact ⟨k, hk, getElem?_eq_getElem hfree⟩
    · rw [Std.TreeMap.getElem?_insertMany_list_of_contains_eq_false] at h
      · simp at h
      · rw [map_fst_zip (Nat.le_of_eq hlength)]
        simpa using hmem
  · rintro ⟨k, hk, hfree⟩
    exact hfound k hk i hfree

def rest (items : List Item) (chosen : Nat -> Bool) : List Nat :=
  (range items.length).filter fun i => !chosen i

/-- The message gives the chosen items in full, in any order, and has distinct short ids for the
rest. -/
structure Describes (items : List Item) (chosen : Nat -> Bool) (prefilledItems : List (Nat × Item))
    (shortids : List ShortId) : Prop where
  prefilled : prefilledItems.Perm ((items.zipIdx.filter fun x => chosen x.2).map Prod.swap)
  nodup : shortids.Nodup
  length : shortids.length = (rest items chosen).length

variable {chosen : Nat -> Bool} {prefilledItems : List (Nat × Item)} {shortids : List ShortId}

theorem Describes.mem_iff (h : Describes items chosen prefilledItems shortids) {i : Nat}
    {item : Item} : (i, item) ∈ prefilledItems <-> items[i]? = some item ∧ chosen i = true := by
  rw [h.prefilled.mem_iff]
  simp [mem_zipIdx_iff_getElem?]

theorem Describes.length_add (h : Describes items chosen prefilledItems shortids) :
    prefilledItems.length + shortids.length = items.length := by
  have hcount : prefilledItems.length = (range items.length).countP chosen := by
    rw [h.prefilled.length_eq, length_map, ← countP_eq_length_filter,
      range_eq_range', ← zipIdx_map_snd, countP_map]
    rfl
  have hsplit := length_eq_countP_add_countP chosen (l := range items.length)
  simp only [length_range, Bool.not_eq_true, Bool.decide_eq_false] at hsplit
  rw [h.length, hcount, rest, ← countP_eq_length_filter]
  exact hsplit.symm

theorem start_holds (hsame : forall item, same item item = true)
    (h : Describes items chosen prefilledItems shortids) :
    (start same prefilledItems shortids).Holds items fun i => chosen i = true := by
  have hholds := (empty_holds items).addItems hsame prefilledItems fun g hg => (h.mem_iff.mp hg).1
  rw [start, h.length_add]
  refine { length := hholds.length, taken := ?_, free := ?_ }
  · intro i item hitem hchosen
    exact hholds.taken i item hitem
      (.inr (mem_map.mpr ⟨(i, item), h.mem_iff.mpr ⟨hitem, hchosen⟩, rfl⟩))
  intro i hi hnot
  refine hholds.free i hi ?_
  rintro (hfalse | hmem)
  · exact hfalse
  · rcases mem_map.mp hmem with ⟨_, hg, rfl⟩
    exact hnot (h.mem_iff.mp hg).2

theorem new_of_describes (hsame : forall item, same item item = true)
    (h : Describes items chosen prefilledItems shortids)
    (bucketSize : Std.TreeMap ShortId Nat -> ShortId -> Nat) (maxShortIdPerBucket : Nat) :
    exists p, new same bucketSize prefilledItems shortids maxShortIdPerBucket = some p ∧
      p.Holds items (fun i => chosen i = true) ∧
      forall id i, p.shortIdIndexMap[id]? = some i <->
        exists k : Nat, shortids[k]? = some id ∧ (rest items chosen)[k]? = some i := by
  rcases new_eq same bucketSize prefilledItems shortids maxShortIdPerBucket with ⟨_, hnew⟩
  have hstart := start_holds hsame h
  have hfree : freeFrom 0 (start same prefilledItems shortids).itemsAvailable =
      rest items chosen := by
    rw [hstart.freeFrom_eq]
    refine filter_congr fun i hi => ?_
    have hnone := hstart.getItem_eq_none (mem_range.mp hi)
    cases hchosen : chosen i with
    | false => simpa [hchosen] using hnone
    | true => simpa [hchosen, Option.isSome_iff_ne_none] using hnone
  simp only [hfree] at hnew
  exact ⟨_, hnew, ⟨hstart.length, hstart.taken, hstart.free⟩,
    fun id i => getElem?_indexMap h.nodup h.length⟩

theorem unavailable_iff (h : Describes items chosen prefilledItems shortids)
    (hmap : forall id i, p.shortIdIndexMap[id]? = some i <->
      exists k : Nat, shortids[k]? = some id ∧ (rest items chosen)[k]? = some i)
    (known : List (ShortId × Item)) (i : Nat) :
    (i < items.length ∧ ¬ (chosen i = true ∨
      exists call, call ∈ known ∧ p.shortIdIndexMap[call.1]? = some i)) <->
    exists (k : Nat) (id : ShortId), (rest items chosen)[k]? = some i ∧ shortids[k]? = some id ∧
      id ∉ known.map Prod.fst := by
  constructor
  · rintro ⟨hi, hnot⟩
    have hmem : i ∈ rest items chosen := by
      simpa [rest, hi] using fun hchosen => hnot (.inl hchosen)
    rcases List.getElem?_of_mem hmem with ⟨k, hk⟩
    have hlt : k < shortids.length := h.length ▸ getElem?_lt hk
    refine ⟨k, shortids[k], hk, List.getElem?_eq_getElem hlt, fun hknown => ?_⟩
    rcases mem_map.mp hknown with ⟨call, hcall, hid⟩
    exact hnot (.inr ⟨call, hcall, (hmap _ i).mpr ⟨k, hid ▸ getElem?_eq_getElem hlt, hk⟩⟩)
  · rintro ⟨k, _, hk, hid, hnot⟩
    have hmem := mem_filter.mp (mem_of_getElem? hk)
    refine ⟨mem_range.mp hmem.1, ?_⟩
    rintro (hchosen | ⟨call, hcall, hfound⟩)
    · simp [hchosen] at hmem
    · rcases (hmap _ i).mp hfound with ⟨_, hj, hrest⟩
      have hlt : k < (rest items chosen).length := getElem?_lt hk
      cases (List.getElem?_inj hlt (List.nodup_range.filter _)).mp (hk.trans hrest.symm)
      cases hid.symm.trans hj
      exact hnot (mem_map_of_mem hcall)

/-- The short ids are mapped to the positions that are not prefilled, in order; known items leave
exactly the others unavailable, with which the block is the original one.  However malformed the
message is, no item is read beyond the list. -/
theorem compactBlock_reconstruction (hsame : forall item : Item, same item item = true)
    (bucketSize : Std.TreeMap ShortId Nat -> ShortId -> Nat) (maxShortIdPerBucket : Nat) :
    (forall (items : List Item) (chosen : Nat -> Bool) (prefilledItems : List (Nat × Item))
        (shortids : List ShortId) (checkBlock : List Item -> BlockCheck),
      Describes items chosen prefilledItems shortids ->
      exists p, new same bucketSize prefilledItems shortids maxShortIdPerBucket = some p ∧
        (forall (k : Nat) id, shortids[k]? = some id ->
          p.shortIdIndexMap[id]? = (rest items chosen)[k]?) ∧
        forall known : List (ShortId × Item),
          (forall call, call ∈ known -> forall k : Nat, shortids[k]? = some call.1 ->
            (rest items chosen)[k]?.bind (items[·]?) = some call.2) ->
          let q := p.matchKnownItems same known
          let unavailable := (range items.length).filter fun i => (q.getItem i).isNone
          (forall i, i ∈ unavailable <-> exists (k : Nat) (id : ShortId),
            (rest items chosen)[k]? = some i ∧ shortids[k]? = some id ∧ id ∉ known.map Prod.fst) ∧
          fillBlock checkBlock q (unavailable.filterMap (items[·]?)) =
            ((checkBlock items).status, some items)) ∧
    forall (prefilledItems : List (Nat × Item)) (shortids : List ShortId),
      (new same bucketSize prefilledItems shortids maxShortIdPerBucket).isSome = true := by
  constructor
  · intro items chosen prefilledItems shortids checkBlock h
    rcases new_of_describes hsame h bucketSize maxShortIdPerBucket with ⟨p, hnew, hholds, hmap⟩
    refine ⟨p, hnew, ?_, ?_⟩
    · intro k id hk
      have hlt : k < (rest items chosen).length := h.length ▸ getElem?_lt hk
      rw [List.getElem?_eq_getElem hlt]
      exact (hmap id _).mpr ⟨k, hk, getElem?_eq_getElem hlt⟩
    · intro known hknown q unavailable
      have hq : q.Holds items _ := hholds.matchKnownItems hsame known <| by
        intro call hcall i hfound
        rcases (hmap call.1 i).mp hfound with ⟨k, hk, hrest⟩
        simpa [hrest] using hknown call hcall k hk
      constructor
      · intro i
        rw [← unavailable_iff h hmap]
        simp only [unavailable, mem_filter, mem_range, Option.isNone_iff_eq_none]
        exact and_congr_right fun hi => hq.getItem_eq_none hi
      · have hfill := hq.fillVtx_eq
        rw [hq.freeFrom_eq] at hfill
        simp only [fillBlock, unavailable, hfill, ne_eq, not_true, if_false]
  · intro prefilledItems shortids
    rcases new_eq same bucketSize prefilledItems shortids maxShortIdPerBucket with ⟨_, hnew⟩
    rw [hnew]
    rfl

theorem compactBlock_reconstruction_three :
    exists p, new (fun a b : Nat => a == b) (fun _ _ => 1) [(1, 20)] [7, 8] 12 = some p ∧
      p.shortIdIndexMap[(8 : ShortId)]? = some 2 :=
  ((@compactBlock_reconstruction Nat (fun a b => a == b) beq_self_eq_true
    (fun _ _ => 1) 12).1 [10, 20, 30] (· == 1) [(1, 20)] [7, 8] (fun _ => .valid)
    ⟨Perm.refl _, by decide, rfl⟩).imp fun _ h => ⟨h.1, h.2.1 1 8 rfl⟩

end ShortIdProcessor

end ECash.Relay
