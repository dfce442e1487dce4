import ECash.Foundation.SortedSearch
import ECash.Index.Prepare

/-!
# Which inputs have spent the outputs of a transaction

For each transaction with spent outputs the index stores by which inputs they were spent, in the
order of the outputs.
-/

namespace ECash.Index

open Foundation List

structure SpentByEntry where
  outIdx : Nat
  txNum : TxNum
  inputIdx : Nat
deriving DecidableEq

inductive SpentByError where
  | duplicateSpentByEntry (txNum : TxNum) (existing new : SpentByEntry)
  | mismatchedSpentByEntry (txNum : TxNum) (expected actual : SpentByEntry)
  | missingSpentByEntry (txNum : TxNum) (expected : SpentByEntry)
  | panic
deriving DecidableEq

abbrev SpentByDb := Store TxNum (List SpentByEntry)

abbrev SpentByOp := BatchOp TxNum (List SpentByEntry) (List SpentByEntry)

def addSpentBy (key : TxNum) (entries : List SpentByEntry) (spentBy : SpentByEntry) :
    Except SpentByError (List SpentByEntry) :=
  match binarySearchByKey SpentByEntry.outIdx entries spentBy.outIdx with
  | .ok idx =>
    match entries[idx]? with
    | some existing => .error (.duplicateSpentByEntry key existing spentBy)
    | none => .error .panic
  | .error insertIdx => .ok (insertAt entries insertIdx spentBy)

def applyMergeSpentBy (key : TxNum) (entries extraEntries : List SpentByEntry) :
    Except SpentByError (List SpentByEntry) :=
  extraEntries.foldlM (addSpentBy key) entries

def mergeSpentBy (key : TxNum) (existing : Option (List SpentByEntry))
    (operand : List SpentByEntry) : Except SpentByError (List SpentByEntry) :=
  applyMergeSpentBy key (existing.getD []) operand

/-- The transactions whose outputs are spent, with the entries for them. -/
def blockSpends (txs : List (IndexTx Tx)) : List (TxNum × SpentByEntry) :=
  (txs.filter fun tx => !tx.isCoinbase).flatMap fun tx =>
    (tx.tx.inputs.zip tx.inputNums).mapIdx fun inputIdx entry =>
      (entry.2, { outIdx := entry.1.prevOut.outIdx, txNum := tx.txNum, inputIdx })

def pushSpentBy (spentByMap : Std.TreeMap TxNum (List SpentByEntry))
    (spend : TxNum × SpentByEntry) : Std.TreeMap TxNum (List SpentByEntry) :=
  spentByMap.alter spend.1 fun entries => some (entries.getD [] ++ [spend.2])

def insertSpentBy (db : SpentByDb) (txs : List (IndexTx Tx)) : Except SpentByError SpentByDb :=
  let spentByMap := (blockSpends txs).foldl pushSpentBy ∅
  writeBatch mergeSpentBy db (spentByMap.toList.map fun entry => .merge entry.1 entry.2)

/-- Remove an entry from those of its transaction, which are fetched from the index when they
are needed first. -/
def removeSpentBy (db : SpentByDb) (spentByMap : Std.TreeMap TxNum (List SpentByEntry))
    (spend : TxNum × SpentByEntry) : Except SpentByError (Std.TreeMap TxNum (List SpentByEntry)) :=
  let spentByEntries := (spentByMap[spend.1]?).getD ((db spend.1).getD [])
  match binarySearchByKey SpentByEntry.outIdx spentByEntries spend.2.outIdx with
  | .ok idx =>
    match spentByEntries[idx]? with
    | none => .error .panic
    | some actual =>
      if actual ≠ spend.2 then
        .error (.mismatchedSpentByEntry spend.1 spend.2 actual)
      else .ok (spentByMap.insert spend.1 (spentByEntries.eraseIdx idx))
  | .error _ => .error (.missingSpentByEntry spend.1 spend.2)

def writeSpentBy (entry : TxNum × List SpentByEntry) : SpentByOp :=
  if entry.2 = [] then .delete entry.1 else .put entry.1 entry.2

def deleteSpentBy (db : SpentByDb) (txs : List (IndexTx Tx)) :
    Except SpentByError SpentByDb := do
  let spentByMap ← (blockSpends txs).foldlM (removeSpentBy db) ∅
  writeBatch mergeSpentBy db (spentByMap.toList.map writeSpentBy)

/-!
## What is stored for a transaction
-/

/-- The entries of a transaction are in the order of the outputs, and are just those of a set. -/
structure ListsSpends (db : SpentByDb) (txNum : TxNum) (spends : SpentByEntry -> Prop) : Prop where
  sorted : SortedBy SpentByEntry.outIdx ((db txNum).getD [])
  mem : forall entry, entry ∈ (db txNum).getD [] <-> spends entry

theorem addSpentBy_missing {key : TxNum} (entries : List SpentByEntry) (new : SpentByEntry)
    (idx : Nat) (h : binarySearchByKey SpentByEntry.outIdx entries new.outIdx = .error idx) :
    addSpentBy key entries new = .ok (insertAt entries idx new) := by
  unfold addSpentBy
  rw [h]

theorem getElem?_pushSpentBy (spends : List (TxNum × SpentByEntry))
    (spentByMap : Std.TreeMap TxNum (List SpentByEntry)) (txNum : TxNum) :
    (spends.foldl pushSpentBy spentByMap)[txNum]? =
      if txNum ∈ spends.map Prod.fst then
        some ((spentByMap[txNum]?).getD [] ++ ofKey txNum spends)
      else spentByMap[txNum]? := by
  induction spends generalizing spentByMap with
  | nil => simp
  | cons spend spends ih =>
    have hpush : (pushSpentBy spentByMap spend)[txNum]? =
        if spend.1 = txNum then some ((spentByMap[txNum]?).getD [] ++ [spend.2])
        else spentByMap[txNum]? := by
      simp only [pushSpentBy, Std.TreeMap.getElem?_alter, Std.LawfulEqCmp.compare_eq_iff_eq]
      split
      · rename_i heq
        rw [heq]
      · rfl
    rw [foldl_cons, ih, hpush]
    unfold ofKey
    by_cases heq : spend.1 = txNum
    · by_cases hmem : txNum ∈ spends.map Prod.fst
      · simp [heq, hmem]
      · have hnone : spends.filter (fun spend => decide (spend.1 = txNum)) = [] := by
          rw [filter_eq_nil_iff]
          intro other hother hsame
          exact hmem (of_decide_eq_true hsame ▸ mem_map_of_mem hother)
        simp [heq, hmem, hnone]
    · have hsame : txNum ∈ (spend :: spends).map Prod.fst <-> txNum ∈ spends.map Prod.fst := by
        rw [map_cons, mem_cons]
        exact or_iff_right (Ne.symm heq)
      rw [if_neg heq, filter_cons_of_neg (by simpa using heq)]
      simp only [hsame]

variable {db : SpentByDb} {spentByMap : Std.TreeMap TxNum (List SpentByEntry)}
  {txs : List (IndexTx Tx)}

theorem insertSpentBy_lists {before after : TxNum -> SpentByEntry -> Prop}
    (h : forall txNum, ListsSpends db txNum (before txNum))
    (hnodup : ((blockSpends txs).map fun spend => (spend.1, spend.2.outIdx)).Nodup)
    (hnew : forall txNum entry, (txNum, entry) ∈ blockSpends txs ->
      forall other, before txNum other -> other.outIdx ≠ entry.outIdx)
    (hafter : forall txNum entry, after txNum entry <->
      before txNum entry ∨ (txNum, entry) ∈ blockSpends txs) :
    exists db', insertSpentBy db txs = .ok db' ∧
      forall txNum, ListsSpends db' txNum (after txNum) := by
  have hkeys : forall txNum, exists v, valueAfter mergeSpentBy txNum (db txNum)
      (((blockSpends txs).foldl pushSpentBy ∅).toList.map fun entry =>
        .merge entry.1 entry.2) = .ok v ∧
      SortedBy SpentByEntry.outIdx (v.getD []) ∧
      forall entry, entry ∈ v.getD [] <-> after txNum entry := by
    intro txNum
    rw [valueAfter_toList _ (fun _ => rfl), getElem?_pushSpentBy]
    by_cases hspent : txNum ∈ (blockSpends txs).map Prod.fst
    · rw [if_pos hspent]
      rcases (h txNum).sorted.foldlM_insert addSpentBy_missing (nodup_ofKey txNum hnodup)
        (fun entry hentry other hother => hnew txNum entry (mem_ofKey.mp hentry) other
          (((h txNum).mem other).mp hother)) with ⟨entries, hmerge, hsorted, hmem⟩
      refine ⟨some entries, ?_, hsorted, ?_⟩
      · show (applyMergeSpentBy txNum ((db txNum).getD []) _).map some = _
        unfold applyMergeSpentBy
        rw [Std.TreeMap.getElem?_emptyc, Option.getD_none, nil_append, hmerge]
        rfl
      · intro entry
        show entry ∈ entries <-> _
        rw [hmem entry, (h txNum).mem entry, mem_ofKey, hafter txNum entry]
    · rw [if_neg hspent]
      refine ⟨db txNum, rfl, (h txNum).sorted, ?_⟩
      intro entry
      rw [(h txNum).mem entry, hafter txNum entry]
      exact (or_iff_left fun hmem => hspent (mem_map_of_mem hmem)).symm
  choose db' hdb' using hkeys
  refine ⟨db', writeBatch_eq_ok.mpr fun txNum => (hdb' txNum).left, ?_⟩
  intro txNum
  exact ⟨(hdb' txNum).right.left, (hdb' txNum).right.right⟩

def fetchedSpentBy (db : SpentByDb) (spentByMap : Std.TreeMap TxNum (List SpentByEntry))
    (txNum : TxNum) : List SpentByEntry :=
  (spentByMap[txNum]?).getD ((db txNum).getD [])

theorem removeSpentBy_ok {txNum : TxNum} {entry : SpentByEntry}
    (hsorted : forall other, SortedBy SpentByEntry.outIdx (fetchedSpentBy db spentByMap other))
    (hentry : entry ∈ fetchedSpentBy db spentByMap txNum) :
    exists spentByMap', removeSpentBy db spentByMap (txNum, entry) = .ok spentByMap' ∧
      forall other, SortedBy SpentByEntry.outIdx (fetchedSpentBy db spentByMap' other) ∧
        forall e, e ∈ fetchedSpentBy db spentByMap' other <->
          e ∈ fetchedSpentBy db spentByMap other ∧ (other, e) ≠ (txNum, entry) := by
  rcases binarySearchByKey_found (hsorted txNum) hentry with ⟨idx, hsearch, hat⟩
  have hnew : forall other, fetchedSpentBy db
      (spentByMap.insert txNum ((fetchedSpentBy db spentByMap txNum).eraseIdx idx)) other =
      if txNum = other then (fetchedSpentBy db spentByMap txNum).eraseIdx idx
      else fetchedSpentBy db spentByMap other := by
    intro other
    simp only [fetchedSpentBy, Std.TreeMap.getElem?_insert, Std.LawfulEqCmp.compare_eq_iff_eq]
    split <;> rfl
  refine ⟨spentByMap.insert txNum ((fetchedSpentBy db spentByMap txNum).eraseIdx idx), ?_, ?_⟩
  · unfold fetchedSpentBy at hsearch hat
    simp only [removeSpentBy, hsearch, hat, ne_eq, not_true_eq_false, if_false]
    rfl
  · intro other
    rw [hnew other]
    by_cases heq : txNum = other
    · subst heq
      rw [if_pos rfl]
      refine ⟨(hsorted txNum).eraseIdx idx, fun e => ?_⟩
      rw [(hsorted txNum).mem_eraseIdx hat]
      simp
    · rw [if_neg heq]
      exact ⟨hsorted other, fun e => by simp [Ne.symm heq]⟩

theorem foldlM_removeSpentBy {spends : List (TxNum × SpentByEntry)}
    (hsorted : forall txNum, SortedBy SpentByEntry.outIdx (fetchedSpentBy db spentByMap txNum))
    (hnodup : spends.Nodup) (hthere : forall txNum entry, (txNum, entry) ∈ spends ->
      entry ∈ fetchedSpentBy db spentByMap txNum) :
    exists spentByMap', spends.foldlM (removeSpentBy db) spentByMap = .ok spentByMap' ∧
      forall txNum, SortedBy SpentByEntry.outIdx (fetchedSpentBy db spentByMap' txNum) ∧
        forall entry, entry ∈ fetchedSpentBy db spentByMap' txNum <->
          entry ∈ fetchedSpentBy db spentByMap txNum ∧ (txNum, entry) ∉ spends := by
  induction spends generalizing spentByMap with
  | nil =>
    refine ⟨spentByMap, rfl, ?_⟩
    intro txNum
    refine ⟨hsorted txNum, ?_⟩
    intro entry
    simp
  | cons spend spends ih =>
    rcases spend with ⟨n, removed⟩
    rw [nodup_cons] at hnodup
    rcases removeSpentBy_ok hsorted (hthere n removed mem_cons_self) with ⟨next, hnext, hleft⟩
    have hthere' : forall txNum entry, (txNum, entry) ∈ spends ->
        entry ∈ fetchedSpentBy db next txNum := by
      intro txNum entry hentry
      exact ((hleft txNum).right entry).mpr ⟨hthere txNum entry (mem_cons_of_mem _ hentry),
        ne_of_mem_of_not_mem hentry hnodup.left⟩
    rcases ih (fun txNum => (hleft txNum).left) hnodup.right hthere' with ⟨final, hfinal, hlists⟩
    refine ⟨final, ?_, ?_⟩
    · rw [foldlM_cons, hnext]
      exact hfinal
    · intro txNum
      refine ⟨(hlists txNum).left, ?_⟩
      intro entry
      rw [(hlists txNum).right entry, (hleft txNum).right entry, mem_cons]
      tauto

theorem writeSpentBy_change (entry : TxNum × List SpentByEntry) (v : Option (List SpentByEntry)) :
    exists v', (writeSpentBy entry).change mergeSpentBy v = .ok v' ∧ v'.getD [] = entry.2 := by
  unfold writeSpentBy
  split
  · rename_i hnil
    exact ⟨none, rfl, hnil.symm⟩
  · exact ⟨some entry.2, rfl, rfl⟩

theorem deleteSpentBy_lists {before after : TxNum -> SpentByEntry -> Prop}
    (h : forall txNum, ListsSpends db txNum (before txNum)) (hnodup : (blockSpends txs).Nodup)
    (hthere : forall txNum entry, (txNum, entry) ∈ blockSpends txs -> before txNum entry)
    (hafter : forall txNum entry, after txNum entry <->
      before txNum entry ∧ (txNum, entry) ∉ blockSpends txs) :
    exists db', deleteSpentBy db txs = .ok db' ∧
      forall txNum, ListsSpends db' txNum (after txNum) := by
  have hstart : forall txNum, fetchedSpentBy db ∅ txNum = (db txNum).getD [] := fun _ => rfl
  rcases @foldlM_removeSpentBy db ∅ (blockSpends txs)
    (fun txNum => by rw [hstart]; exact (h txNum).sorted) hnodup
    (fun txNum entry hentry => by
      rw [hstart, (h txNum).mem]
      exact hthere txNum entry hentry) with ⟨spentByMap, hfold, hlists⟩
  -- the rows hold what was fetched and is left of it
  have hvalue : forall txNum, exists v, valueAfter mergeSpentBy txNum (db txNum)
      (spentByMap.toList.map writeSpentBy) = .ok v ∧
      v.getD [] = fetchedSpentBy db spentByMap txNum := by
    intro txNum
    rw [valueAfter_toList spentByMap (fun _ => by unfold writeSpentBy; split <;> rfl)]
    unfold fetchedSpentBy
    cases hget : spentByMap[txNum]? with
    | none => exact ⟨db txNum, rfl, rfl⟩
    | some entries => exact writeSpentBy_change (txNum, entries) (db txNum)
  choose db' hdb' using hvalue
  refine ⟨db', ?_, ?_⟩
  · simp only [deleteSpentBy, hfold, bind, Except.bind]
    exact writeBatch_eq_ok.mpr fun txNum => (hdb' txNum).left
  intro txNum
  constructor
  · rw [(hdb' txNum).right]
    exact (hlists txNum).left
  · intro entry
    rw [(hdb' txNum).right, (hlists txNum).right entry, hstart, (h txNum).mem entry,
      hafter txNum entry]

end ECash.Index
