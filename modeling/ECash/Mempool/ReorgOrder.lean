import ECash.Mempool.ReorgMemory

/-!
# The order of the reorganisation queue

Every queued transaction comes before the queued ones it spends from.  A new transaction
goes to the end, and then its queued ancestors do, level by level; at every moment only
those still to be moved are out of order.
-/

namespace ECash.Mempool

open Coins Foundation List IndexedSet

namespace DisconnectedBlockTransactions

def parentIds (tx : Transaction) : List TxId :=
  tx.vin.map fun txin => txin.prevout.txid

abbrev ChildrenFirst (except : List TxId) (txs : List Transaction) : Prop :=
  ReferrersFirst Transaction.txid parentIds except txs

variable {parents : List TxId} {rounds : Nat} {q : DisconnectedBlockTransactions}
  {tx : Transaction} {vtx : List Transaction}

theorem mem_insertParents {vin : List TxIn} {u : TxId} :
    u ∈ insertParents vin parents <-> u ∈ parents ∨ u ∈ vin.map fun txin => txin.prevout.txid := by
  unfold insertParents
  induction vin generalizing parents with
  | nil => simp
  | cons txin vin ih =>
    rw [foldl_cons, ih, mem_insert_iff, map_cons, mem_cons, or_assoc, or_left_comm]

/-!
## The levels of ancestors
-/

variable {start : IndexedSet Transaction.txid}

/-- Some chain of spends with a given number of queued transactions leads to the id. -/
def AtLevel (start : IndexedSet Transaction.txid) (level : Nat) (u : TxId) : Prop :=
  exists chain, Trail Transaction.txid parentIds start.items chain u ∧ chain.length = level

/--
The state within a level: the queue has the same transactions, only the ids still to be
walked and those of the next level are out of order, and the latter are one level up.
-/
structure LevelInv (start : IndexedSet Transaction.txid) (level : Nat) (left : List TxId)
    (state : IndexedSet Transaction.txid × List TxId) : Prop where
  perm : state.1.items.Perm start.items
  ordered : ChildrenFirst (left ++ state.2) state.1.items
  next : forall u, u ∈ state.2 -> AtLevel start (level + 1) u

variable {state : IndexedSet Transaction.txid × List TxId} {level : Nat}

theorem LevelInv.reinsertParent {txid : TxId} {left : List TxId}
    (h : LevelInv start level (txid :: left) state) (hlevel : AtLevel start level txid) :
    LevelInv start level left (reinsertParent state txid) := by
  unfold DisconnectedBlockTransactions.reinsertParent
  cases hfind : state.1.find? txid with
  | none =>
    refine { perm := h.perm, ordered := ?_, next := h.next }
    apply h.ordered.mono
    intro tx htx hexcept
    exact mem_of_ne_of_mem (find?_eq_none.mp hfind tx htx) hexcept
  | some ptx =>
    rcases find?_eq_some.mp hfind with ⟨hmem, hkey⟩
    subst hkey
    have hstart : ptx ∈ start.items := h.perm.mem_iff.mp hmem
    refine { perm := (moveToEnd_perm hmem).trans h.perm, ordered := ?_, next := ?_ }
    · apply h.ordered.moveToEnd
      · intro u hu hne
        rcases mem_append.mp (mem_of_ne_of_mem hne hu) with hleft | hnext
        · exact mem_append_left _ hleft
        · exact mem_append_right _ (mem_insertParents.mpr (.inl hnext))
      · intro u hu
        exact mem_append_right _ (mem_insertParents.mpr (.inr hu))
    · intro u hu
      rcases mem_insertParents.mp hu with hnext | hparent
      · exact h.next u hnext
      · rcases hlevel with ⟨chain, htrail, hlength⟩
        exact ⟨ptx.txid :: chain, .step htrail hstart hparent, by simp [hlength]⟩

theorem LevelInv.foldl {worklist : List TxId} (h : LevelInv start level worklist state)
    (hlevel : forall u, u ∈ worklist -> AtLevel start level u) :
    LevelInv start level []
      (worklist.foldl DisconnectedBlockTransactions.reinsertParent state) := by
  induction worklist generalizing state with
  | nil => exact h
  | cons txid worklist ih =>
    exact ih (h.reinsertParent (hlevel txid mem_cons_self)) (forall_mem_cons.mp hlevel).2

variable {known : Transaction -> Prop}

theorem reinsertParents_spec (hacyclic : NoCycles Transaction.txid parentIds known)
    (hknown : forall tx, tx ∈ start -> known tx) {walk : Nat -> List TxId -> List TxId}
    (hwalk : forall n xs, (walk n xs).Perm xs)
    (hrounds : start.items.length + 1 = rounds + level) {queuedTx : IndexedSet Transaction.txid}
    (hperm : queuedTx.items.Perm start.items) (hordered : ChildrenFirst parents queuedTx.items)
    (hlevel : forall u, u ∈ parents -> AtLevel start level u) :
    exists queue, reinsertParents walk rounds queuedTx parents = some queue ∧
      queue.items.Perm start.items ∧ ChildrenFirst [] queue.items := by
  induction rounds generalizing level queuedTx parents with
  | zero =>
    cases parents with
    | nil => exact ⟨queuedTx, rfl, hperm, hordered⟩
    | cons u parents =>
      rcases hlevel u mem_cons_self with ⟨_, htrail, _⟩
      have hle := htrail.length_le hknown hacyclic
      omega
  | succ rounds ih =>
    cases parents with
    | nil => exact ⟨queuedTx, rfl, hperm, hordered⟩
    | cons u parents =>
      have hmem : forall v, v ∈ walk rounds (u :: parents) <-> v ∈ u :: parents :=
        fun v => (hwalk rounds (u :: parents)).mem_iff
      have hstart : LevelInv start level (walk rounds (u :: parents)) (queuedTx, []) := by
        refine { perm := hperm, ordered := ?_, next := ?_ }
        · apply hordered.mono
          intro tx _ htx
          rw [append_nil]
          exact (hmem _).mpr htx
        · nofun
      have hdone := hstart.foldl fun v hv => hlevel v ((hmem v).mp hv)
      exact ih (by omega) hdone.perm hdone.ordered hdone.next

/-!
## The invariant
-/

variable {usage : Transaction -> Nat} {p : DisconnectedBlockTransactions}

structure QueueInv (known : Transaction -> Prop) (usage : Transaction -> Nat)
    (p : DisconnectedBlockTransactions) : Prop where
  ordered : ChildrenFirst [] p.queuedTx.items
  known : forall tx, tx ∈ p.queuedTx -> known tx
  cached : p.cachedInnerUsage = (p.queuedTx.items.map usage).sum

theorem new_inv : QueueInv known usage new where
  ordered := List.Pairwise.nil
  known := nofun
  cached := rfl

theorem new_fits : Fits new := by
  unfold Fits
  decide

theorem fits_of_contains (h : Fits p) (htable : q.bucketCount = p.bucketCount)
    (hinfo : q.txInfo = p.txInfo)
    (hmore : forall txid, p.queuedTx.contains txid = true -> q.queuedTx.contains txid = true) :
    Fits q := by
  unfold Fits at h ⊢
  rw [htable, hinfo]
  have hcount : p.txInfo.items.countP (fun saved => !q.queuedTx.contains saved.txid) ≤
      p.txInfo.items.countP fun saved => !p.queuedTx.contains saved.txid := by
    apply countP_mono_left
    intro saved _ hsaved
    cases hp : p.queuedTx.contains saved.txid with
    | false => rfl
    | true =>
      rw [hmore _ hp] at hsaved
      cases hsaved
  have hmul := Nat.mul_le_mul_left txInfoUsage hcount
  omega

/-!
## Taking out one transaction
-/

theorem QueueInv.removeEntry (h : QueueInv known usage p) (htx : tx ∈ p.queuedTx) :
    QueueInv known usage (p.removeEntry usage tx) where
  ordered := h.ordered.sublist filter_sublist
  known := by
    intro other hother
    exact h.known other (mem_erase.mp hother).left
  cached := Accounted.removeEntry h.cached htx

/-!
## The memory limit
-/

/-- What a call leaves behind. -/
structure Kept (known : Transaction -> Prop) (usage : Transaction -> Nat)
    (p : DisconnectedBlockTransactions) (dropped : List Transaction) : Prop where
  inv : QueueInv known usage p
  fits : Fits p
  /-- No queued transaction spends from a dropped one. -/
  childless : forall d, d ∈ dropped -> forall tx, tx ∈ p.queuedTx -> d.txid ∉ parentIds tx

/-- A result of the limit: it keeps the invariant, unless the saved data does not fit. -/
def Limits (known : Transaction -> Prop) (usage : Transaction -> Nat)
    (p : DisconnectedBlockTransactions)
    (result : Except ReorgError (DisconnectedBlockTransactions × List Transaction)) : Prop :=
  (exists p' dropped, result = .ok (p', dropped) ∧ Kept known usage p' dropped ∧
    (forall d, d ∈ dropped -> d ∈ p.queuedTx) ∧
    forall tx, tx ∈ p'.queuedTx -> tx ∈ p.queuedTx) ∨
  (result = .error .emptyQueue ∧ ¬ Fits p)

section

variable (h : QueueInv known usage p)

include h

theorem limitSize_limits (hrounds : p.queuedTx.items.length = rounds) :
    Limits known usage p (limitSize usage rounds p) := by
  rcases limitSize_spec h.cached hrounds with
    ⟨-, p', dropped, hok, hfront, haccounted, hsmall⟩ | ⟨hover, herror⟩
  · have hordered := h.ordered
    rw [hfront] at hordered
    have hkept : forall tx, tx ∈ p'.queuedTx -> tx ∈ p.queuedTx := by
      intro tx htx
      rw [mem_def, hfront]
      exact mem_append_right _ htx
    refine .inl ⟨p', dropped, hok, ⟨⟨?_, ?_, haccounted⟩, fits_of_usage hsmall, ?_⟩, ?_, hkept⟩
    · exact hordered.sublist (sublist_append_right _ _)
    · intro tx htx
      exact h.known tx (hkept tx htx)
    · intro d hd tx htx hspends
      exact not_mem_nil ((pairwise_append.mp hordered).right.right d hd tx htx hspends)
    · intro d hd
      rw [mem_def, hfront]
      exact mem_append_left _ hd
  · exact .inr ⟨herror, hover⟩

/-!
## Adding a block
-/

theorem QueueInv.removeForBlockTx (hfits : Fits p) (tx : Transaction) :
    QueueInv known usage (p.removeForBlockTx usage tx) ∧ Fits (p.removeForBlockTx usage tx) := by
  cases hfind : p.queuedTx.find? tx.txid with
  | none =>
    have hsame : p.removeForBlockTx usage tx = p := by
      simp only [DisconnectedBlockTransactions.removeForBlockTx, hfind]
    rw [hsame]
    exact ⟨h, hfits⟩
  | some queued =>
    rw [removeEntry_eq p hfind]
    have hqueued := (find?_eq_some.mp hfind).left
    exact ⟨h.removeEntry hqueued, (fits_removeEntry hqueued).mpr hfits⟩

theorem QueueInv.removeForBlock (hfits : Fits p) (vtx : List Transaction) :
    QueueInv known usage (p.removeForBlock usage vtx) ∧ Fits (p.removeForBlock usage vtx) := by
  unfold DisconnectedBlockTransactions.removeForBlock
  split
  · exact ⟨h, hfits⟩
  · exact foldlRecOn (motive := fun q => QueueInv known usage q ∧ Fits q) vtx _ ⟨h, hfits⟩
      fun _ hq tx _ => hq.left.removeForBlockTx hq.right tx

end

theorem mem_removeForBlock {p : DisconnectedBlockTransactions} :
    tx ∈ (p.removeForBlock usage vtx).queuedTx <->
      tx ∈ p.queuedTx ∧ forall other, other ∈ vtx -> tx.txid ≠ other.txid := by
  unfold removeForBlock
  split
  · rename_i hnone
    rw [mem_def, List.isEmpty_iff.mp hnone]
    simp
  rename_i hsome
  clear hsome
  induction vtx generalizing p with
  | nil => simp
  | cons other vtx ih =>
    have hqueue : (p.removeForBlockTx usage other).queuedTx = p.queuedTx.erase other.txid := by
      unfold removeForBlockTx
      split
      · rename_i hfind
        exact (erase_of_notMem (find?_eq_none.mp hfind)).symm
      · rfl
    rw [foldl_cons, ih, hqueue, mem_erase, and_assoc, forall_mem_cons]

variable {pool : Type} {ops : PoolOps pool}

section Adding

variable (hacyclic : NoCycles Transaction.txid parentIds known) (order : HashOrder)
  (h : QueueInv known usage p) (hfits : Fits p)

include hacyclic order h hfits

theorem QueueInv.addForBlockTx (htx : known tx) :
    exists p', addForBlockTx usage order p tx = .ok p' ∧ QueueInv known usage p' ∧ Fits p' := by
  unfold DisconnectedBlockTransactions.addForBlockTx
  cases hcontains : p.queuedTx.contains tx.txid with
  | true => exact ⟨p, rfl, h, hfits⟩
  | false =>
    have hitems : (p.addTransaction usage tx).queuedTx.items = p.queuedTx.items ++ [tx] :=
      items_insert hcontains
    have hknown : forall other, other ∈ (p.addTransaction usage tx).queuedTx -> known other := by
      intro other hother
      rcases mem_insert.mp hother with hold | ⟨heq, -⟩
      · exact h.known other hold
      · rw [heq]
        exact htx
    have hparents : forall u, u ∈ insertParents tx.vin [] <-> u ∈ parentIds tx := by
      intro u
      rw [mem_insertParents]
      simp [parentIds]
    have hordered : ChildrenFirst (insertParents tx.vin [])
        (p.addTransaction usage tx).queuedTx.items := by
      rw [hitems]
      refine ReferrersFirst.concat ?_ fun u hu => (hparents u).mpr hu
      exact h.ordered.mono fun _ _ hnil => absurd hnil not_mem_nil
    have hlast : tx ∈ (p.addTransaction usage tx).queuedTx.items := by
      rw [hitems]
      exact mem_append_right _ mem_cons_self
    rcases reinsertParents_spec hacyclic hknown (order.perm tx.txid) rfl (Perm.refl _)
      hordered (fun u hu => ⟨[tx.txid], .start hlast ((hparents u).mp hu), rfl⟩) with
      ⟨queue, hqueue, hperm, hdone⟩
    refine ⟨{ p.addTransaction usage tx with queuedTx := queue }, ?_, ?_, ?_⟩
    · simp only [Bool.false_eq_true, if_false, hqueue]
    · refine { ordered := hdone, known := ?_, cached := ?_ }
      · intro other hother
        exact hknown other (hperm.mem_iff.mp hother)
      · show p.cachedInnerUsage + usage tx = (queue.items.map usage).sum
        rw [(hperm.map usage).sum_eq, hitems, h.cached]
        simp
    · refine fits_of_contains hfits (by rfl) (by rfl) ?_
      intro txid hmem
      rcases IndexedSet.contains_iff.mp hmem with ⟨other, hother, hkey⟩
      apply IndexedSet.contains_iff.mpr
      refine ⟨other, hperm.mem_iff.mpr ?_, hkey⟩
      rw [hitems]
      exact mem_append_left _ hother

namespace QueueInv

variable (hvtx : forall tx, tx ∈ vtx -> known tx)

include hvtx

theorem addAll :
    exists p', vtx.foldlM (DisconnectedBlockTransactions.addForBlockTx usage order) p =
        .ok p' ∧ QueueInv known usage p' ∧ Fits p' := by
  induction vtx generalizing p with
  | nil => exact ⟨p, rfl, h, hfits⟩
  | cons tx vtx ih =>
    rcases h.addForBlockTx hacyclic order hfits (hvtx tx mem_cons_self) with
      ⟨p₁, hadd, hinv, hfits₁⟩
    rcases ih hinv hfits₁ (forall_mem_cons.mp hvtx).2 with ⟨p', hrest, hinv', hfits'⟩
    refine ⟨p', ?_, hinv', hfits'⟩
    rw [foldlM_cons, hadd]
    exact hrest

/-!
## The calls
-/

theorem addForBlock (mempool : pool) :
    exists out, addForBlock usage order ops p vtx mempool = .ok out ∧
      Kept known usage out.queue out.dropped ∧ forall d, d ∈ out.dropped -> known d := by
  rcases h.addAll hacyclic order hfits (fun tx htx => hvtx tx (mem_reverse.mp htx)) with
    ⟨p₁, hadd, hinv, hfits₁⟩
  rcases limitSize_limits hinv rfl with ⟨p', dropped, hlimit, hkept, hdropped, -⟩ | ⟨-, hover⟩
  · refine ⟨{ queue := p', mempool := dropped.foldl ops.removeRecursive mempool, dropped }, ?_,
      hkept, fun d hd => hinv.known d (hdropped d hd)⟩
    simp only [DisconnectedBlockTransactions.addForBlock, hadd, hlimit, Except.bind, bind]
  · exact absurd hfits₁ hover

theorem removeForBlockFromPool (mempool : pool) :
    exists out, removeForBlockFromPool usage order ops p vtx mempool = .ok out ∧
      Kept known usage out.queue out.dropped := by
  unfold DisconnectedBlockTransactions.removeForBlockFromPool
  split
  · exact ⟨_, rfl, h, hfits, nofun⟩
  rcases h.addForBlock hacyclic order hfits hvtx mempool with ⟨_, hadd, hkept, -⟩
  rcases hkept.inv.removeForBlock hkept.fits vtx with ⟨hinv, hfits'⟩
  rw [hadd]
  refine ⟨_, rfl, hinv, hfits', ?_⟩
  intro d hd tx htx
  exact hkept.childless d hd tx (mem_removeForBlock.mp htx).left

end QueueInv

end Adding

/-!
## Importing the mempool
-/

theorem foldl_saveInfo (entries : List MempoolEntry) (p : DisconnectedBlockTransactions) :
    (entries.foldl saveInfo p).queuedTx = p.queuedTx ∧
      (entries.foldl saveInfo p).cachedInnerUsage = p.cachedInnerUsage := by
  induction entries generalizing p with
  | nil => exact ⟨rfl, rfl⟩
  | cons e entries ih => exact ih (saveInfo p e)

/-- No imported transaction is queued already or a parent of a queued one. -/
def Importable (known : Transaction -> Prop) (p : DisconnectedBlockTransactions)
    (entries : List MempoolEntry) : Prop :=
  forall e, e ∈ entries -> known e.tx ∧ forall tx, tx ∈ p.queuedTx ->
    e.tx.txid ≠ tx.txid ∧ e.tx.txid ∉ parentIds tx

theorem items_splice {front back : IndexedSet Transaction.txid}
    (hnew : forall tx, tx ∈ front -> back.contains tx.txid = false) :
    (splice front back).items = front.items ++ back.items := by
  have hall : front.items.filter (fun tx => !back.contains tx.txid) = front.items := by
    apply filter_eq_self.mpr
    intro tx htx
    rw [hnew tx htx]
    rfl
  show front.items.filter _ ++ back.items = _
  rw [hall]

theorem QueueInv.splice {front : DisconnectedBlockTransactions}
    (hfront : QueueInv known usage front) (hback : QueueInv known usage p)
    (hnew : forall tx, tx ∈ front.queuedTx -> p.queuedTx.contains tx.txid = false)
    (hnone : forall tx, tx ∈ front.queuedTx -> forall other, other ∈ p.queuedTx ->
      tx.txid ∉ parentIds other)
    (hqueued : q.queuedTx = DisconnectedBlockTransactions.splice front.queuedTx p.queuedTx)
    (hcached : q.cachedInnerUsage = p.cachedInnerUsage + front.cachedInnerUsage) :
    QueueInv known usage q := by
  have hitems : q.queuedTx.items = front.queuedTx.items ++ p.queuedTx.items := by
    rw [hqueued, items_splice hnew]
  refine { ordered := ?_, known := ?_, cached := ?_ }
  · rw [hitems]
    exact hfront.ordered.append hback.ordered fun tx other htx hother => hnone tx htx other hother
  · intro tx htx
    rw [mem_def, hitems] at htx
    exact forall_mem_append.mpr ⟨hfront.known, hback.known⟩ tx htx
  · rw [hcached, hitems, hfront.cached, hback.cached, map_append, sum_append]
    exact add_comm _ _

/-- An import may fail only as there is nothing left to drop. -/
theorem QueueInv.importMempool (hacyclic : NoCycles Transaction.txid parentIds known)
    (order : HashOrder) (h : QueueInv known usage p) {mempool : pool}
    (himport : Importable known p (ops.entries mempool)) (bucketCount : Nat) :
    (exists out, importMempool usage order ops p mempool bucketCount = .ok out ∧
      Kept known usage out.queue out.dropped) ∨
    importMempool usage order ops p mempool bucketCount = .error .emptyQueue := by
  rcases foldl_saveInfo (ops.entries mempool) { p with bucketCount } with
    ⟨hqueued, hcached⟩
  -- The ordered pool holds imported transactions only.
  let imported : Transaction -> Prop := fun tx =>
    known tx ∧ forall other, other ∈ p.queuedTx -> tx.txid ≠ other.txid ∧ tx.txid ∉ parentIds other
  have hvtx : forall tx, tx ∈ (ops.entries mempool).map MempoolEntry.tx -> imported tx :=
    forall_mem_map.mpr himport
  have hacyclic' : NoCycles Transaction.txid parentIds imported :=
    hacyclic.mono fun _ htx => htx.left
  rcases @QueueInv.addForBlock _ imported usage new pool ops hacyclic' order new_inv new_fits
    hvtx (ops.clear mempool) with ⟨ordered, hadd, hkept, hdropped⟩
  have hnew : forall tx, tx ∈ ordered.queue.queuedTx -> p.queuedTx.contains tx.txid = false := by
    intro tx htx
    rw [contains_eq_false]
    intro other hother
    exact ((hkept.inv.known tx htx).right other hother).left.symm
  have hleft : (ordered.queue.queuedTx.items.filter fun tx =>
      p.queuedTx.contains tx.txid) = [] := by
    apply filter_eq_nil_iff.mpr
    intro tx htx
    rw [hnew tx htx]
    exact Bool.false_ne_true
  have hfront : QueueInv known usage ordered.queue :=
    { hkept.inv with known := fun tx htx => (hkept.inv.known tx htx).left }
  have hchild : forall tx, imported tx -> forall other, other ∈ p.queuedTx ->
      tx.txid ∉ parentIds other :=
    fun tx htx other hother => (htx.right other hother).right
  unfold DisconnectedBlockTransactions.importMempool
  simp only [hadd, Except.bind, bind, hqueued, hcached, hleft]
  generalize hjoined : (DisconnectedBlockTransactions.mk _ _ _ _) = joined
  have hjoinedQueue : joined.queuedTx =
      DisconnectedBlockTransactions.splice ordered.queue.queuedTx p.queuedTx := by
    rw [← hjoined]
  have hinv : QueueInv known usage joined := by
    apply hfront.splice h hnew _ hjoinedQueue
    · rw [← hjoined]
    · intro tx htx
      exact hchild tx (hkept.inv.known tx htx)
  have hlength : joined.queuedTx.items.length =
      (DisconnectedBlockTransactions.splice ordered.queue.queuedTx p.queuedTx).items.length := by
    rw [hjoinedQueue]
  rcases limitSize_limits hinv hlength with ⟨_, _, hlimit, hkept', -, hsub⟩ | ⟨hlimit, -⟩
  · rw [hlimit]
    refine .inl ⟨_, rfl, hkept'.inv, hkept'.fits, ?_⟩
    intro d hd tx htx
    rcases mem_append.mp hd with hinner | houter
    · have hmem : tx ∈ joined.queuedTx.items := hsub tx htx
      rw [hjoinedQueue, items_splice hnew] at hmem
      rcases mem_append.mp hmem with hordered | hqueue
      · exact hkept.childless d hinner tx hordered
      · exact hchild d (hdropped d hinner) tx hqueue
    · exact hkept'.childless d houter tx htx
  · rw [hlimit]
    exact .inr rfl

/-!
## Runs
-/

section Runs

variable {pool : Type} (usage : Transaction -> Nat) (ops : PoolOps pool)
  (known : Transaction -> Prop)

inductive Call (pool : Type) where
  | addForBlock (order : HashOrder) (vtx : List Transaction) (mempool : pool)
  | removeForBlock (vtx : List Transaction)
  | removeForBlockFromPool (order : HashOrder) (vtx : List Transaction) (mempool : pool)
  | importMempool (order : HashOrder) (mempool : pool) (bucketCount : Nat)

/-- The queue after a call, with the transactions it dropped for memory. -/
def Call.run (p : DisconnectedBlockTransactions) :
    Call pool -> Except ReorgError (DisconnectedBlockTransactions × List Transaction)
  | addForBlock order vtx mempool =>
    (p.addForBlock usage order ops vtx mempool).map fun out => (out.queue, out.dropped)
  | removeForBlock vtx => .ok (p.removeForBlock usage vtx, [])
  | removeForBlockFromPool order vtx mempool =>
    (p.removeForBlockFromPool usage order ops vtx mempool).map fun out =>
      (out.queue, out.dropped)
  | importMempool order mempool bucketCount =>
    (p.importMempool usage order ops mempool bucketCount).map fun out =>
      (out.queue, out.dropped)

def Call.Allowed (p : DisconnectedBlockTransactions) : Call pool -> Prop
  | addForBlock _ vtx _ => forall tx, tx ∈ vtx -> known tx
  | removeForBlock _ => True
  | removeForBlockFromPool _ vtx _ => forall tx, tx ∈ vtx -> known tx
  | importMempool _ mempool _ => Importable known p (ops.entries mempool)

def Call.IsImport : Call pool -> Prop
  | importMempool _ _ _ => True
  | _ => False

inductive Reachable : DisconnectedBlockTransactions -> Prop where
  | new : Reachable new
  | call {p p' : DisconnectedBlockTransactions} {call : Call pool} {dropped : List Transaction}
      (hp : Reachable p) (hallowed : call.Allowed ops known p)
      (hrun : call.run usage ops p = .ok (p', dropped)) : Reachable p'

variable {usage ops known} {p : DisconnectedBlockTransactions}

theorem Call.run_kept (hacyclic : NoCycles Transaction.txid parentIds known)
    (h : QueueInv known usage p) (hfits : Fits p) {call : Call pool}
    (hallowed : call.Allowed ops known p) :
    (exists p' dropped, call.run usage ops p = .ok (p', dropped) ∧ Kept known usage p' dropped) ∨
    (call.IsImport ∧ call.run usage ops p = .error .emptyQueue) := by
  cases call with
  | addForBlock order vtx mempool =>
    rcases @QueueInv.addForBlock vtx known usage p pool ops hacyclic order h hfits hallowed
      mempool with ⟨out, hout, hkept, -⟩
    exact .inl ⟨out.queue, out.dropped, by simp [Call.run, hout, Except.map], hkept⟩
  | removeForBlock vtx =>
    rcases h.removeForBlock hfits vtx with ⟨hinv, hfits'⟩
    exact .inl ⟨_, [], rfl, hinv, hfits', nofun⟩
  | removeForBlockFromPool order vtx mempool =>
    rcases @QueueInv.removeForBlockFromPool vtx known usage p pool ops hacyclic order h hfits
      hallowed mempool with ⟨out, hout, hkept⟩
    exact .inl ⟨out.queue, out.dropped, by simp [Call.run, hout, Except.map], hkept⟩
  | importMempool order mempool bucketCount =>
    rcases h.importMempool hacyclic order hallowed bucketCount with ⟨out, hout, hkept⟩ | herror
    · exact .inl ⟨out.queue, out.dropped, by simp [Call.run, hout, Except.map], hkept⟩
    · exact .inr ⟨trivial, by simp [Call.run, herror, Except.map]⟩

theorem Reachable.inv (hacyclic : NoCycles Transaction.txid parentIds known)
    (hp : Reachable usage ops known p) : QueueInv known usage p ∧ Fits p := by
  induction hp with
  | new => exact ⟨new_inv, new_fits⟩
  | call _ hallowed hrun ih =>
    rcases Call.run_kept hacyclic ih.left ih.right hallowed with
      ⟨p', dropped, hok, hkept⟩ | ⟨-, herror⟩
    · rw [hrun] at hok
      cases hok
      exact ⟨hkept.inv, hkept.fits⟩
    · rw [hrun] at herror
      cases herror

def Before (x y : Transaction) (txs : List Transaction) : Prop :=
  [x, y].Sublist txs

theorem QueueInv.before (hacyclic : NoCycles Transaction.txid parentIds known)
    (h : QueueInv known usage p) {parent : Transaction} (htx : tx ∈ p.queuedTx)
    (hparent : parent ∈ p.queuedTx) (hspends : parent.txid ∈ parentIds tx) :
    Before tx parent p.queuedTx.items := by
  apply h.ordered.before htx hparent _ hspends
  intro heq
  rw [← heq] at hspends
  exact hacyclic tx.txid (Relation.TransGen.single ⟨tx, h.known tx htx, rfl, hspends⟩)

theorem before_offeredTxs {x y : Transaction} (h : Before x y p.queuedTx.items)
    (hx : x ∈ p.offeredTxs) (hy : y ∈ p.offeredTxs) : Before y x p.offeredTxs := by
  have hreverse : [y, x].Sublist p.queuedTx.items.reverse := reverse_sublist.mpr h
  have hfilter := hreverse.filter fun tx => !tx.isCoinBase
  have hpair : [y, x].filter (fun tx => !tx.isCoinBase) = [y, x] := by
    apply filter_eq_self.mpr
    intro tx htx
    rcases mem_pair.mp htx with heq | heq
    · rw [heq]
      exact (mem_filter.mp hy).right
    · rw [heq]
      exact (mem_filter.mp hx).right
  rw [hpair] at hfilter
  exact hfilter

/--
After every run, each queued transaction comes before its queued parents, no id occurs
twice, and the reverse walk offers parents first.  Every further call returns and leaves no
child of what it dropped, but for an import whose saved data alone is over the limit.
-/
theorem reorgQueue_childrenFirst (hacyclic : NoCycles Transaction.txid parentIds known)
    (hp : Reachable usage ops known p) :
    (forall tx parent, tx ∈ p.queuedTx -> parent ∈ p.queuedTx ->
      parent.txid ∈ parentIds tx -> Before tx parent p.queuedTx.items) ∧
    (p.queuedTx.items.map Transaction.txid).Nodup ∧
    (forall tx parent, tx ∈ p.offeredTxs -> parent ∈ p.offeredTxs ->
      parent.txid ∈ parentIds tx -> Before parent tx p.offeredTxs) ∧
    forall call : Call pool, call.Allowed ops known p ->
      (exists p' dropped, call.run usage ops p = .ok (p', dropped) ∧
        forall d, d ∈ dropped -> forall tx, tx ∈ p'.queuedTx -> d.txid ∉ parentIds tx) ∨
      (call.IsImport ∧ call.run usage ops p = .error .emptyQueue) := by
  rcases hp.inv hacyclic with ⟨hinv, hfits⟩
  have hqueued : forall tx, tx ∈ p.offeredTxs -> tx ∈ p.queuedTx := by
    intro tx htx
    exact mem_reverse.mp (mem_filter.mp htx).left
  refine ⟨fun tx parent htx hparent hspends => hinv.before hacyclic htx hparent hspends,
    p.queuedTx.nodup, ?_, ?_⟩
  · intro tx parent htx hparent hspends
    exact before_offeredTxs
      (hinv.before hacyclic (hqueued tx htx) (hqueued parent hparent) hspends) htx hparent
  · intro call hallowed
    rcases Call.run_kept hacyclic hinv hfits hallowed with ⟨p', dropped, hok, hkept⟩ | herror
    · exact .inl ⟨p', dropped, hok, hkept.childless⟩
    · exact .inr herror

/-!
A block that lists a transaction before the one it spends from.
-/

def fundingTx : Transaction :=
  { txid := 12, vin := [{ prevout := { txid := 1, n := 0 } }], vout := [] }

def spendingTx : Transaction :=
  { txid := 11, vin := [{ prevout := { txid := 12, n := 0 } }], vout := [] }

def walkInOrder : HashOrder where
  walk := fun _ _ parents => parents
  perm := fun _ _ parents => Perm.refl parents

def emptyPoolOps : PoolOps Unit where
  isEmpty := fun _ => true
  entries := fun _ => []
  contains := fun _ _ => false
  clear := id
  removeRecursive := fun _ _ => ()
  removeStaged := fun _ _ => ()
  removeConflicts := fun _ _ => ()
  clearPrioritisation := fun _ _ => ()
  updateFeeForBlock := id
  setDelta := fun _ _ _ => ()
  eraseDelta := fun _ _ => ()
  acceptToMemoryPool := fun _ _ _ _ => (true, ())
  limitSize := id

def chainedQueue : DisconnectedBlockTransactions :=
  { new with
    queuedTx := { items := [spendingTx, fundingTx], nodup := by decide }
    cachedInnerUsage := 2 }

theorem chained_acyclic :
    NoCycles Transaction.txid parentIds (fun tx => tx ∈ [spendingTx, fundingTx]) := by
  apply noCycles_of_rank fun txid => if txid = 11 then 2 else if txid = 12 then 1 else 0
  decide

theorem chainedQueue_reachable (ops : PoolOps Unit) :
    Reachable (fun _ => 1) ops (fun tx => tx ∈ [spendingTx, fundingTx]) chainedQueue := by
  have hallowed : (Call.addForBlock walkInOrder [spendingTx, fundingTx] ()).Allowed
      ops (fun tx => tx ∈ [spendingTx, fundingTx]) new := fun tx htx => htx
  exact .call .new hallowed rfl

theorem reorgQueue_childrenFirst_chained :
    Before spendingTx fundingTx chainedQueue.queuedTx.items :=
  (reorgQueue_childrenFirst chained_acyclic (chainedQueue_reachable emptyPoolOps)).left spendingTx
    fundingTx mem_cons_self (mem_cons_of_mem _ mem_cons_self) (by decide)

/-!
## Confirmed transactions
-/

/-- A connected block leaves the queue, unless the mempool is empty: the block is not
looked at then. -/
theorem removeForBlock_confirmed_iff (hacyclic : NoCycles Transaction.txid parentIds known)
    (hp : Reachable usage ops known p) (order : HashOrder) {vtx : List Transaction}
    (hvtx : forall tx, tx ∈ vtx -> known tx) (mempool : pool) :
    (exists out, p.removeForBlockFromPool usage order ops vtx mempool = .ok out ∧
      forall tx, tx ∈ vtx -> out.queue.queuedTx.contains tx.txid = false) <->
    (ops.isEmpty mempool = true -> forall tx, tx ∈ vtx -> p.queuedTx.contains tx.txid = false) := by
  rcases hp.inv hacyclic with ⟨hinv, hfits⟩
  unfold removeForBlockFromPool
  cases hempty : ops.isEmpty mempool with
  | true => simp
  | false =>
    rcases @QueueInv.addForBlock vtx known usage p pool ops hacyclic order hinv hfits hvtx
      mempool with ⟨_, hadd, -, -⟩
    rw [hadd]
    refine iff_of_true ⟨_, rfl, ?_⟩ (by simp)
    intro tx htx
    rw [contains_eq_false]
    intro queued hqueued
    exact (mem_removeForBlock.mp hqueued).right tx htx

theorem removeForBlock_confirmed_iff_funding :
    exists out, chainedQueue.removeForBlockFromPool (fun _ => 1) walkInOrder
        { emptyPoolOps with isEmpty := fun _ => false } [fundingTx] () = .ok out ∧
      forall tx, tx ∈ [fundingTx] -> out.queue.queuedTx.contains tx.txid = false :=
  (removeForBlock_confirmed_iff chained_acyclic (chainedQueue_reachable _) walkInOrder (by simp)
    ()).mpr (by simp)

theorem removeForBlock_emptyPool :
    Reachable (fun _ => 1) emptyPoolOps (fun tx => tx ∈ [spendingTx, fundingTx]) chainedQueue ∧
    exists out, chainedQueue.removeForBlockFromPool (fun _ => 1) walkInOrder emptyPoolOps
        [fundingTx] () = .ok out ∧ fundingTx ∈ out.queue.offeredTxs :=
  ⟨chainedQueue_reachable _, _, rfl, by decide⟩

/-!
## The cached usage
-/

def clear (p : DisconnectedBlockTransactions) : DisconnectedBlockTransactions :=
  { p with cachedInnerUsage := 0, queuedTx := IndexedSet.empty, txInfo := IndexedSet.empty }

inductive Operation (pool : Type) where
  | call (made : Call pool)
  | removeEntry (index : Nat)
  | updateMempoolForReorg (fAddToMempool : Bool) (mempool : pool)
  | clear

namespace Operation

section

variable (usage : Transaction -> Nat) (ops : PoolOps pool) (p : DisconnectedBlockTransactions)

def run : Operation pool -> Except ReorgError DisconnectedBlockTransactions
  | call made => (made.run usage ops p).map Prod.fst
  | removeEntry index =>
    match p.queuedTx.items[index]? with
    | some entry => .ok (p.removeEntry usage entry)
    | none => .error .emptyQueue
  | updateMempoolForReorg fAddToMempool mempool =>
    .ok (p.updateMempoolForReorg ops fAddToMempool mempool).1
  | clear => .ok p.clear

/-- A failed operation changes nothing. -/
def next (op : Operation pool) : DisconnectedBlockTransactions :=
  match op.run usage ops p with
  | .ok p' => p'
  | .error _ => p

end

def Allowed (ops : PoolOps pool) (known : Transaction -> Prop) (p : DisconnectedBlockTransactions) :
    Operation pool -> Prop
  | call made => made.Allowed ops known p
  | _ => True

def IsOffer : Operation pool -> Prop
  | updateMempoolForReorg _ _ => True
  | _ => False

end Operation

theorem clear_inv (hfits : Fits p) : QueueInv known usage p.clear ∧ Fits p.clear := by
  refine ⟨⟨List.Pairwise.nil, nofun, rfl⟩, ?_⟩
  unfold Fits at hfits ⊢
  show txInfoUsage * 0 + _ ≤ _
  exact (Nat.add_le_add_right (Nat.mul_le_mul_left _ (Nat.zero_le _)) _).trans hfits

theorem Operation.run_inv (hacyclic : NoCycles Transaction.txid parentIds known)
    (h : QueueInv known usage p) (hfits : Fits p) {op : Operation pool}
    (hallowed : op.Allowed ops known p) (hoffer : op.IsOffer -> p.cachedInnerUsage = 0)
    {p' : DisconnectedBlockTransactions} (hrun : op.run usage ops p = .ok p') :
    QueueInv known usage p' ∧ Fits p' := by
  cases op with
  | call made =>
    change (made.run usage ops p).map Prod.fst = _ at hrun
    rcases Call.run_kept hacyclic h hfits hallowed with ⟨_, _, hok, hkept⟩ | ⟨-, herror⟩
    · rw [hok] at hrun
      cases hrun
      exact ⟨hkept.inv, hkept.fits⟩
    · rw [herror] at hrun
      cases hrun
  | removeEntry index =>
    dsimp only [Operation.run] at hrun
    split at hrun
    · rename_i entry hentry
      cases hrun
      have hmem : entry ∈ p.queuedTx := mem_of_getElem? hentry
      exact ⟨h.removeEntry hmem, (fits_removeEntry hmem).mpr hfits⟩
    · cases hrun
  | updateMempoolForReorg fAddToMempool mempool =>
    have hclear : p' = p.clear := by
      cases hrun
      unfold DisconnectedBlockTransactions.clear
      rw [← hoffer trivial]
      rfl
    rw [hclear]
    exact clear_inv hfits
  | clear =>
    cases hrun
    exact clear_inv hfits

/--
The cached usage is right after each operation of a sequence exactly if the queue is
offered to the mempool only while nothing that uses memory is queued.  Where it is right,
the limiting loop finds entries to drop until the queue is below the limit, unless the
saved data alone is above it.
-/
theorem reorgQueue_accounted_iff (hacyclic : NoCycles Transaction.txid parentIds known)
    {operations : List (Operation pool)}
    (hallowed : AllowedRun (Operation.next usage ops) (Operation.Allowed ops known) new
      operations) :
    (AllowedRun (Operation.next usage ops) (fun p op => forall p', op.run usage ops p = .ok p' ->
        Accounted usage p') new operations <->
      AllowedRun (Operation.next usage ops)
        (fun p op => op.IsOffer -> forall tx, tx ∈ p.queuedTx -> usage tx = 0) new operations) ∧
    forall p, Accounted usage p ->
      ((exists p' dropped, limitSize usage p.queuedTx.items.length p = .ok (p', dropped) ∧
        p'.dynamicMemoryUsage ≤ MAX_DISCONNECTED_TX_POOL_SIZE) <-> Fits p) := by
  constructor
  · refine AllowedRun.iff (fun p => QueueInv known usage p ∧ Fits p) ?_
      ⟨new_inv, new_fits⟩ hallowed
    rintro p op ⟨hinv, hfits⟩ hop
    have hright : (forall p', op.run usage ops p = .ok p' -> Accounted usage p') ->
        op.IsOffer -> p.cachedInnerUsage = 0 := by
      intro hall hoffer
      cases op with
      | updateMempoolForReorg fAddToMempool mempool => exact hall _ rfl
      | _ => cases hoffer
    have hnothing : p.cachedInnerUsage = 0 <-> forall tx, tx ∈ p.queuedTx -> usage tx = 0 := by
      rw [hinv.cached, List.sum_eq_zero_iff]
      exact forall_mem_map
    refine ⟨⟨fun hall hoffer => hnothing.mp (hright hall hoffer), fun hoffer p' hrun => ?_⟩,
      fun hall => ?_⟩
    · exact (Operation.run_inv hacyclic hinv hfits hop (fun h => hnothing.mpr (hoffer h))
        hrun).left.cached
    · unfold Operation.next
      split
      · rename_i hrun
        exact Operation.run_inv hacyclic hinv hfits hop (hright hall) hrun
      · exact ⟨hinv, hfits⟩
  · intro p h
    rcases limitSize_spec h rfl with ⟨hfits, p', dropped, hok, -, -, hsmall⟩ | ⟨hover, herror⟩
    · exact iff_of_true ⟨p', dropped, hok, hsmall⟩ hfits
    · refine iff_of_false ?_ hover
      rintro ⟨p', dropped, hok, -⟩
      rw [herror] at hok
      cases hok

theorem reorgQueue_accounted_iff_chained :
    AllowedRun (Operation.next (fun _ => 1) emptyPoolOps) (fun p op => forall p',
        op.run (fun _ => 1) emptyPoolOps p = .ok p' -> Accounted (fun _ => 1) p') new
      [.call (.addForBlock walkInOrder [spendingTx, fundingTx] ()), .clear,
        .updateMempoolForReorg true ()] := by
  refine (reorgQueue_accounted_iff chained_acyclic ?_).left.mpr
    ⟨nofun, nofun, fun _ => nofun, trivial⟩
  exact ⟨fun _ htx => htx, trivial, trivial, trivial⟩

theorem updateMempoolForReorg_leaves_usage :
    exists offered, Operation.run (fun _ => 1) emptyPoolOps new
        (.call (.addForBlock walkInOrder [spendingTx, fundingTx] ())) = .ok chainedQueue ∧
      Operation.run (fun _ => 1) emptyPoolOps chainedQueue (.updateMempoolForReorg true ()) =
        .ok offered ∧ offered.queuedTx.items = [] ∧ offered.cachedInnerUsage = 2 :=
  ⟨_, rfl, rfl, rfl, rfl⟩

end Runs

end DisconnectedBlockTransactions

end ECash.Mempool
