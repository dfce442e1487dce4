import ECash.Foundation.Computation
import Mathlib.Data.List.Nodup
import Mathlib.Order.Compare
import Std.Data.TreeMap

/-!
# Write batches

A key-value store is changed by a batch of operations, which are applied in order.  An operation
reads and writes one key only, so what a batch leaves at a key depends on what was there and on
the operations on that key.
-/

namespace ECash.Foundation

open List

abbrev Store (key value : Type) := key -> Option value

inductive BatchOp (key value operand : Type) where
  | put (k : key) (v : value)
  | delete (k : key)
  | merge (k : key) (operand : operand)

section Batch

variable {key value operand error : Type} [DecidableEq key]

def BatchOp.target : BatchOp key value operand -> key
  | put k _ => k
  | delete k => k
  | merge k _ => k

variable (mergeOp : key -> Option value -> operand -> Except error value)

/-- What an operation makes of the value under its key. -/
def BatchOp.change : BatchOp key value operand -> Option value -> Except error (Option value)
  | put _ v, _ => .ok (some v)
  | delete _, _ => .ok none
  | merge k operand, v => (mergeOp k v operand).map some

def applyOp (store : Store key value) (op : BatchOp key value operand) :
    Except error (Store key value) := do
  let v ← op.change mergeOp (store op.target)
  .ok (Function.update store op.target v)

def writeBatch (store : Store key value) (ops : List (BatchOp key value operand)) :
    Except error (Store key value) :=
  ops.foldlM (applyOp mergeOp) store

/-- What a batch makes of the value under one key. -/
def valueAfter (k : key) (v : Option value) :
    List (BatchOp key value operand) -> Except error (Option value)
  | [] => .ok v
  | op :: ops =>
    if op.target = k then do
      let v ← op.change mergeOp v
      valueAfter k v ops
    else valueAfter k v ops

variable {mergeOp} {k : key} {v : Option value} {op : BatchOp key value operand}

theorem valueAfter_cons_self (h : op.target = k) (ops : List (BatchOp key value operand)) :
    valueAfter mergeOp k v (op :: ops) =
      op.change mergeOp v >>= fun v => valueAfter mergeOp k v ops :=
  if_pos h

theorem valueAfter_cons_ne (h : op.target ≠ k) (ops : List (BatchOp key value operand)) :
    valueAfter mergeOp k v (op :: ops) = valueAfter mergeOp k v ops :=
  if_neg h

variable {ops : List (BatchOp key value operand)}

theorem writeBatch_eq_ok {store store' : Store key value} :
    writeBatch mergeOp store ops = .ok store' <->
      forall k, valueAfter mergeOp k (store k) ops = .ok (store' k) := by
  induction ops generalizing store with
  | nil =>
    show Except.ok store = .ok store' <-> forall k, Except.ok (store k) = .ok (store' k)
    simp only [Except.ok.injEq, funext_iff]
  | cons op ops ih =>
    have hcons : writeBatch mergeOp store (op :: ops) =
        op.change mergeOp (store op.target) >>= fun v =>
          writeBatch mergeOp (Function.update store op.target v) ops := by
      simp only [writeBatch, foldlM_cons, applyOp, bind_assoc]
      rfl
    -- after the operation, each key holds what the rest of the batch starts with
    have hkeys : forall v, op.change mergeOp (store op.target) = .ok v ->
        ((forall k, valueAfter mergeOp k (store k) (op :: ops) = .ok (store' k)) <->
          forall k, valueAfter mergeOp k (Function.update store op.target v k) ops =
            .ok (store' k)) := by
      intro v hv
      apply forall_congr'
      intro k
      by_cases hk : op.target = k
      · subst hk
        rw [valueAfter_cons_self rfl, hv, Function.update_self]
        rfl
      · rw [valueAfter_cons_ne hk, Function.update_of_ne (Ne.symm hk)]
    rw [hcons]
    cases hchange : op.change mergeOp (store op.target) with
    | error err =>
      constructor
      · nofun
      · intro h
        have hk := h op.target
        rw [valueAfter_cons_self rfl, hchange] at hk
        cases hk
    | ok v => exact ih.trans (hkeys v hchange).symm

theorem valueAfter_append (ops ops' : List (BatchOp key value operand)) :
    valueAfter mergeOp k v (ops ++ ops') =
      valueAfter mergeOp k v ops >>= fun v => valueAfter mergeOp k v ops' := by
  induction ops generalizing v with
  | nil => rfl
  | cons op ops ih =>
    rw [cons_append]
    by_cases hk : op.target = k
    · rw [valueAfter_cons_self hk, valueAfter_cons_self hk, bind_assoc]
      congr 1
      funext w
      exact ih
    · rw [valueAfter_cons_ne hk, valueAfter_cons_ne hk, ih]

theorem valueAfter_untouched (h : forall op, op ∈ ops -> op.target ≠ k) :
    valueAfter mergeOp k v ops = .ok v := by
  induction ops with
  | nil => rfl
  | cons op ops ih =>
    rw [valueAfter_cons_ne (h op mem_cons_self)]
    exact ih (forall_mem_cons.mp h).2

theorem valueAfter_flatMap {entry : Type} {parts : entry -> List (BatchOp key value operand)}
    {entries : List entry} (hnodup : entries.Nodup) {e : entry} (he : e ∈ entries)
    (h : forall e', e' ∈ entries -> e' ≠ e -> forall op, op ∈ parts e' -> op.target ≠ k) :
    valueAfter mergeOp k v (entries.flatMap parts) = valueAfter mergeOp k v (parts e) := by
  rcases append_of_mem he with ⟨before, after, heq⟩
  subst heq
  have hsplit := (perm_middle.nodup_iff).mp hnodup
  have hothers : forall e', e' ∈ before ++ after -> forall op, op ∈ parts e' -> op.target ≠ k := by
    intro e' he'
    exact h e' (perm_middle.symm.subset (mem_cons_of_mem e he'))
      (ne_of_mem_of_not_mem he' (nodup_cons.mp hsplit).left)
  have huntouched : forall es : List entry, (forall e', e' ∈ es -> e' ∈ before ++ after) ->
      forall op, op ∈ es.flatMap parts -> op.target ≠ k := by
    intro es hes op hop
    rcases mem_flatMap.mp hop with ⟨e', he', hmem⟩
    exact hothers e' (hes e' he') op hmem
  rw [flatMap_append, valueAfter_append,
    valueAfter_untouched (huntouched before fun _ hmem => mem_append_left after hmem)]
  show valueAfter mergeOp k v (parts e ++ after.flatMap parts) = _
  rw [valueAfter_append]
  cases hvalue : valueAfter mergeOp k v (parts e) with
  | error err => rfl
  | ok w => exact valueAfter_untouched (huntouched after fun _ hmem => mem_append_right before hmem)

def ofKey {entry : Type} (k : key) (entries : List (key × entry)) : List entry :=
  (entries.filter fun e => decide (e.1 = k)).map Prod.snd

theorem mem_ofKey {entry : Type} {entries : List (key × entry)} {e : entry} :
    e ∈ ofKey k entries <-> (k, e) ∈ entries := by
  simp [ofKey]

theorem nodup_ofKey {entry label : Type} {entries : List (key × entry)} {f : entry -> label}
    (k : key) (h : (entries.map fun e => (e.1, f e.2)).Nodup) :
    ((ofKey k entries).map f).Nodup := by
  unfold ofKey
  rw [map_map]
  have hfiltered := ((@filter_sublist _ (fun e => decide (e.1 = k)) entries).map _).nodup h
  rw [Nodup, pairwise_map] at hfiltered ⊢
  refine hfiltered.imp_of_mem ?_
  intro first second hfirst hsecond hne heq
  have hkeys : first.1 = second.1 := by
    rw [of_decide_eq_true (mem_filter.mp hfirst).right,
      of_decide_eq_true (mem_filter.mp hsecond).right]
  exact hne (Prod.ext hkeys heq)

end Batch

section Merges

variable {key record operand error entry : Type} [DecidableEq key] {k : key}
  (mergeOp : key -> Option (List record) -> operand -> Except error (List record))

/-- A batch of merges works on the records of a key as a loop over the entries with that key. -/
theorem valueAfter_merges (op : key × entry -> BatchOp key (List record) operand)
    {step : List record -> entry -> Except error (List record)}
    (htarget : forall e, (op e).target = e.1)
    (hchange : forall e v, (op (k, e)).change mergeOp v = (step (v.getD []) e).map some)
    {entries : List (key × entry)} {v : Option (List record)} {xs : List record}
    (h : (ofKey k entries).foldlM step (v.getD []) = .ok xs) :
    exists v', valueAfter mergeOp k v (entries.map op) = .ok v' ∧ v'.getD [] = xs := by
  induction entries generalizing v with
  | nil => exact ⟨v, rfl, Except.ok.inj h⟩
  | cons first entries ih =>
    rcases first with ⟨k', e⟩
    rw [map_cons]
    unfold ofKey at h ih
    by_cases hkey : k' = k
    · subst hkey
      rw [filter_cons_of_pos (by simp), map_cons, foldlM_cons] at h
      rw [valueAfter_cons_self (htarget (k', e)), hchange]
      cases hstep : step (v.getD []) e with
      | error err =>
        rw [hstep] at h
        cases h
      | ok ys =>
        rw [hstep] at h
        exact @ih (some ys) h
    · rw [filter_cons_of_neg (by simpa using hkey)] at h
      rw [valueAfter_cons_ne (htarget (k', e) ▸ hkey)]
      exact ih h

end Merges

section OfMap

variable {key value operand error entry : Type} [LinearOrder key]
  {mergeOp : key -> Option value -> operand -> Except error value}

theorem nodup_toList (entries : Std.TreeMap key entry) : entries.toList.Nodup := by
  refine entries.distinct_keys_toList.imp ?_
  intro first second hne heq
  exact hne (Std.LawfulEqCmp.compare_eq_iff_eq.mpr (congrArg Prod.fst heq))

theorem valueAfter_toList (entries : Std.TreeMap key entry)
    {op : key × entry -> BatchOp key value operand} (hop : forall e, (op e).target = e.1)
    (k : key) (v : Option value) :
    valueAfter mergeOp k v (entries.toList.map op) =
      match entries[k]? with
      | none => .ok v
      | some e => (op (k, e)).change mergeOp v := by
  have hmem := @Std.TreeMap.mem_toList_iff_getElem?_eq_some key entry compare entries _ _
  cases hget : entries[k]? with
  | none =>
    apply valueAfter_untouched
    intro other hother htarget
    rcases mem_map.mp hother with ⟨⟨_, e⟩, he, heq⟩
    rw [← heq, hop] at htarget
    subst htarget
    cases hget.symm.trans (hmem.mp he)
  | some e =>
    have hone : valueAfter mergeOp k v [op (k, e)] = (op (k, e)).change mergeOp v := by
      rw [valueAfter_cons_self (hop (k, e))]
      exact bind_pure _
    rw [map_eq_flatMap, valueAfter_flatMap (nodup_toList entries) (hmem.mpr hget), hone]
    intro other hother hne op' hop' htarget
    rw [mem_singleton.mp hop', hop] at htarget
    subst htarget
    cases hget.symm.trans (hmem.mp hother)
    exact hne rfl

end OfMap

end ECash.Foundation
