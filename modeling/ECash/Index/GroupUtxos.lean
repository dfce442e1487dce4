import ECash.Foundation.SortedSearch
import ECash.Index.Prepare

/-!
# The utxos of a group

For each member the index stores the unspent outputs with this member, in the order of their
outpoints.  A block first adds all outputs and then removes what its inputs spend.
-/

namespace ECash.Index

open Foundation

/-- An outpoint with the number of the transaction. -/
structure DbOutpoint where
  txNum : TxNum
  outIdx : Nat
deriving DecidableEq

def DbOutpoint.order (outpoint : DbOutpoint) : Nat ×ₗ Nat :=
  toLex (outpoint.txNum, outpoint.outIdx)

structure UtxoEntry (data : Type) where
  outpoint : DbOutpoint
  data : data
deriving DecidableEq

def UtxoEntry.order {data : Type} (entry : UtxoEntry data) : Nat ×ₗ Nat :=
  entry.outpoint.order

inductive GroupUtxoError where
  | duplicateUtxo (outpoint : DbOutpoint)
  | utxoDoesntExist (outpoint : DbOutpoint)
  | panic
deriving DecidableEq

inductive UtxoOperand (data : Type) where
  | insert (entry : UtxoEntry data)
  | delete (outpoint : DbOutpoint)

/-- What is stored with a utxo. -/
structure UtxoData (data : Type) where
  fromOutput : TxOutput -> data
  default : data

variable {data : Type}

abbrev UtxoDb (data : Type) := Store Bytes (List (UtxoEntry data))

abbrev UtxoOp (data : Type) := BatchOp Bytes (List (UtxoEntry data)) (UtxoOperand data)

def applyMergeUtxos (entries : List (UtxoEntry data)) :
    UtxoOperand data -> Except GroupUtxoError (List (UtxoEntry data))
  | .insert newEntry =>
    match binarySearchByKey UtxoEntry.order entries newEntry.outpoint.order with
    | .ok _ => .error (.duplicateUtxo newEntry.outpoint)
    | .error insertIdx => .ok (insertAt entries insertIdx newEntry)
  | .delete deleteOutpoint =>
    match binarySearchByKey UtxoEntry.order entries deleteOutpoint.order with
    | .ok deleteIdx => .ok (entries.eraseIdx deleteIdx)
    | .error _ => .error (.utxoDoesntExist deleteOutpoint)

def mergeUtxos (_ : Bytes) (existing : Option (List (UtxoEntry data)))
    (operand : UtxoOperand data) : Except GroupUtxoError (List (UtxoEntry data)) :=
  applyMergeUtxos (existing.getD []) operand

section Writer

variable {member aux data : Type} (group : Group Tx member aux) (utxoData : UtxoData data)

def outputUtxo (indexTx : IndexTx Tx) (idx : Nat) : Except GroupUtxoError (UtxoEntry data) :=
  match indexTx.tx.outputs[idx]? with
  | some output => .ok { outpoint := ⟨indexTx.txNum, idx⟩, data := utxoData.fromOutput output }
  | none => .error .panic

def inputUtxo (indexTx : IndexTx Tx) (idx : Nat) : Except GroupUtxoError (UtxoEntry data) :=
  match indexTx.inputNums[idx]?, indexTx.tx.inputs[idx]? with
  | some inputNum, some input =>
    .ok
      { outpoint := ⟨inputNum, input.prevOut.outIdx⟩,
        data :=
          match input.coin with
          | some coin => utxoData.fromOutput coin.output
          | none => utxoData.default }
  | _, _ => .error .panic

def outputEntries (block : Block Tx aux) : Except GroupUtxoError (List (Bytes × UtxoEntry data)) :=
  (block.txs.flatMap fun indexTx =>
    (group.outputMembers indexTx.query block.aux).map fun item => (indexTx, item)).mapM
      fun entry => do
        let utxo ← outputUtxo utxoData entry.1 entry.2.idx
        .ok (group.serMember entry.2.member, utxo)

def inputEntries (block : Block Tx aux) : Except GroupUtxoError (List (Bytes × UtxoEntry data)) :=
  ((block.txs.filter fun indexTx => !indexTx.isCoinbase).flatMap fun indexTx =>
    (group.inputMembers indexTx.query block.aux).map fun item => (indexTx, item)).mapM
      fun entry => do
        let utxo ← inputUtxo utxoData entry.1 entry.2.idx
        .ok (group.serMember entry.2.member, utxo)

def insertUtxoEntry (entry : Bytes × UtxoEntry data) : UtxoOp data :=
  .merge entry.1 (.insert entry.2)

def deleteUtxoEntry (entry : Bytes × UtxoEntry data) : UtxoOp data :=
  .merge entry.1 (.delete entry.2.outpoint)

def insertUtxos (db : UtxoDb data) (block : Block Tx aux) :
    Except GroupUtxoError (UtxoDb data) := do
  let created ← outputEntries group utxoData block
  let spent ← inputEntries group utxoData block
  writeBatch mergeUtxos db (created.map insertUtxoEntry ++ spent.map deleteUtxoEntry)

def deleteUtxos (db : UtxoDb data) (block : Block Tx aux) :
    Except GroupUtxoError (UtxoDb data) := do
  let spent ← inputEntries group utxoData block
  let created ← outputEntries group utxoData block
  writeBatch mergeUtxos db (spent.map insertUtxoEntry ++ created.map deleteUtxoEntry)

end Writer

/-!
## What a batch does to the entries of a key
-/

theorem DbOutpoint.order_inj {o o' : DbOutpoint} : o.order = o'.order <-> o = o' := by
  unfold DbOutpoint.order
  rw [toLex_inj, Prod.mk.injEq, DbOutpoint.mk.injEq]

/-- The entries under a key are in order, and are just those of a set. -/
structure Lists (db : UtxoDb data) (key : Bytes) (utxos : UtxoEntry data -> Prop) : Prop where
  sorted : SortedBy UtxoEntry.order ((db key).getD [])
  mem : forall entry, entry ∈ (db key).getD [] <-> utxos entry

variable {key : Bytes} {v : Option (List (UtxoEntry data))}
  {entries : List (Bytes × UtxoEntry data)}

theorem valueAfter_insert (hsorted : SortedBy UtxoEntry.order (v.getD []))
    (hnodup : (entries.map fun entry => (entry.1, entry.2.outpoint)).Nodup)
    (hnew : forall entry, (key, entry) ∈ entries -> forall other, other ∈ v.getD [] ->
      other.outpoint ≠ entry.outpoint) :
    exists v', valueAfter mergeUtxos key v (entries.map insertUtxoEntry) = .ok v' ∧
      SortedBy UtxoEntry.order (v'.getD []) ∧
      forall entry, entry ∈ v'.getD [] <-> entry ∈ v.getD [] ∨ (key, entry) ∈ entries := by
  have hstep : forall (entries : List (UtxoEntry data)) (entry : UtxoEntry data) idx,
      binarySearchByKey UtxoEntry.order entries entry.order = .error idx ->
      applyMergeUtxos entries (.insert entry) = .ok (insertAt entries idx entry) := by
    intro entries entry idx hsearch
    change binarySearchByKey _ _ entry.outpoint.order = _ at hsearch
    simp only [applyMergeUtxos, hsearch]
  have horders : ((ofKey key entries).map UtxoEntry.order).Nodup := by
    have hmap := (nodup_ofKey key hnodup).map fun _ _ heq => DbOutpoint.order_inj.mp heq
    rw [List.map_map] at hmap
    exact hmap
  rcases hsorted.foldlM_insert hstep horders (fun entry hentry other hother heq =>
    hnew entry (mem_ofKey.mp hentry) other hother (DbOutpoint.order_inj.mp heq)) with
    ⟨utxos, hfold, hsorted', hmem⟩
  rcases valueAfter_merges mergeUtxos insertUtxoEntry (fun _ => rfl) (fun _ _ => rfl) hfold with
    ⟨v', hv', rfl⟩
  refine ⟨v', hv', hsorted', fun entry => ?_⟩
  rw [hmem entry, mem_ofKey]

theorem valueAfter_delete (hsorted : SortedBy UtxoEntry.order (v.getD []))
    (hnodup : (entries.map fun entry => (entry.1, entry.2.outpoint)).Nodup)
    (hthere : forall entry, (key, entry) ∈ entries -> entry ∈ v.getD []) :
    exists v', valueAfter mergeUtxos key v (entries.map deleteUtxoEntry) = .ok v' ∧
      SortedBy UtxoEntry.order (v'.getD []) ∧
      forall entry, entry ∈ v'.getD [] <-> entry ∈ v.getD [] ∧ (key, entry) ∉ entries := by
  have hstep : forall (entries : List (UtxoEntry data)) (entry : UtxoEntry data) idx,
      binarySearchByKey UtxoEntry.order entries entry.order = .ok idx ->
      applyMergeUtxos entries (.delete entry.outpoint) = .ok (entries.eraseIdx idx) := by
    intro entries entry idx hsearch
    change binarySearchByKey _ _ entry.outpoint.order = _ at hsearch
    simp only [applyMergeUtxos, hsearch]
  rcases hsorted.foldlM_erase hstep (nodup_ofKey key hnodup).of_map
    (fun entry hentry => hthere entry (mem_ofKey.mp hentry)) with ⟨utxos, hfold, hsorted', hmem⟩
  rcases valueAfter_merges mergeUtxos deleteUtxoEntry (fun _ => rfl) (fun _ _ => rfl) hfold with
    ⟨v', hv', rfl⟩
  refine ⟨v', hv', hsorted', fun entry => ?_⟩
  rw [hmem entry, mem_ofKey]

/-- Entries are added and then others are removed, so that what was there or is added is what
stays or is removed. -/
theorem writeUtxos_lists {db : UtxoDb data} {before after : Bytes -> UtxoEntry data -> Prop}
    {adds removes : List (Bytes × UtxoEntry data)} (h : forall key, Lists db key (before key))
    (hadds : (adds.map fun entry => (entry.1, entry.2.outpoint)).Nodup)
    (hremoves : (removes.map fun entry => (entry.1, entry.2.outpoint)).Nodup)
    (hnew : forall key entry other, before key other -> (key, entry) ∈ adds ->
      other.outpoint ≠ entry.outpoint)
    (hgone : forall key entry other, after key other -> (key, entry) ∈ removes ->
      other.outpoint ≠ entry.outpoint)
    (hexchange : forall key entry, before key entry ∨ (key, entry) ∈ adds <->
      after key entry ∨ (key, entry) ∈ removes) :
    exists db', writeBatch mergeUtxos db
        (adds.map insertUtxoEntry ++ removes.map deleteUtxoEntry) = .ok db' ∧
      forall key, Lists db' key (after key) := by
  have hkeys : forall key, exists v, valueAfter mergeUtxos key (db key)
      (adds.map insertUtxoEntry ++ removes.map deleteUtxoEntry) = .ok v ∧
      SortedBy UtxoEntry.order (v.getD []) ∧
      forall entry, entry ∈ v.getD [] <-> after key entry := by
    intro key
    rcases valueAfter_insert (h key).sorted hadds
      (fun entry hentry other hother => hnew key entry other (((h key).mem other).mp hother) hentry)
      with ⟨v, hv, hsorted, hmem⟩
    rcases valueAfter_delete hsorted hremoves (by
        intro entry hentry
        rw [hmem entry, (h key).mem entry]
        exact (hexchange key entry).mpr (.inr hentry)) with ⟨v', hv', hsorted', hmem'⟩
    refine ⟨v', ?_, hsorted', ?_⟩
    · rw [valueAfter_append, hv]
      exact hv'
    · intro entry
      rw [hmem' entry, hmem entry, (h key).mem entry, hexchange key entry]
      tauto
  choose db' hdb' using hkeys
  refine ⟨db', writeBatch_eq_ok.mpr fun key => (hdb' key).left, ?_⟩
  intro key
  exact ⟨(hdb' key).right.left, (hdb' key).right.right⟩

end ECash.Index
