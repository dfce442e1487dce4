import ECash.Foundation.Computation
import ECash.Foundation.Precedence
import ECash.Foundation.Simulation
import ECash.Mempool.DisconnectedTransactions

/-!
# The memory of the reorganisation queue

The cached usage is the sum over the queued transactions, so that dropping entries brings
the queue below its limit unless the saved data alone is above it.  The offer to the
mempool breaks this: it empties the queue and leaves the cached usage.
-/

namespace ECash.Mempool

open Coins Foundation List IndexedSet

namespace DisconnectedBlockTransactions

variable {usage : Transaction -> Nat} {p q : DisconnectedBlockTransactions} {tx : Transaction}
  {vtx : List Transaction} {rounds : Nat}

def Accounted (usage : Transaction -> Nat) (p : DisconnectedBlockTransactions) : Prop :=
  p.cachedInnerUsage = (p.queuedTx.items.map usage).sum

/-- The saved data without a queued transaction would fit in the memory limit alone. -/
def Fits (p : DisconnectedBlockTransactions) : Prop :=
  txInfoUsage * p.txInfo.items.countP (fun saved => !p.queuedTx.contains saved.txid) +
    Script.mallocUsage (8 * p.bucketCount) ≤ MAX_DISCONNECTED_TX_POOL_SIZE

theorem fits_of_usage (h : p.dynamicMemoryUsage ≤ MAX_DISCONNECTED_TX_POOL_SIZE) : Fits p := by
  have hcount := countP_le_length
    (p := fun saved : SavedInfo => !p.queuedTx.contains saved.txid) (l := p.txInfo.items)
  have hmul := Nat.mul_le_mul_left txInfoUsage hcount
  unfold dynamicMemoryUsage at h
  unfold Fits
  omega

/-!
## Taking out one transaction
-/

/-- The two ways to remove a transaction do the same to the queue. -/
theorem removeEntry_eq (p : DisconnectedBlockTransactions) {queued : Transaction}
    (hfind : p.queuedTx.find? tx.txid = some queued) :
    p.removeForBlockTx usage tx = p.removeEntry usage queued := by
  have hkey : queued.txid = tx.txid := (find?_eq_some.mp hfind).right
  simp only [removeForBlockTx, hfind, removeEntry, hkey]

theorem Accounted.removeEntry (h : Accounted usage p) (htx : tx ∈ p.queuedTx) :
    Accounted usage (p.removeEntry usage tx) := by
  have hsum := sum_erase usage htx rfl
  unfold Accounted at h
  show p.cachedInnerUsage - usage tx = ((p.queuedTx.erase tx.txid).items.map usage).sum
  omega

theorem fits_removeEntry (htx : tx ∈ p.queuedTx) : Fits (p.removeEntry usage tx) <-> Fits p := by
  have hcount : (p.removeEntry usage tx).txInfo.items.countP
        (fun saved => !(p.removeEntry usage tx).queuedTx.contains saved.txid) =
      p.txInfo.items.countP fun saved => !p.queuedTx.contains saved.txid := by
    show (p.txInfo.items.filter _).countP (fun saved =>
      !(p.queuedTx.erase tx.txid).contains saved.txid) = _
    rw [countP_filter]
    apply countP_congr
    intro saved _
    simp only [Bool.and_eq_true, Bool.not_eq_true', decide_eq_false_iff_not, contains_eq_false,
      mem_erase]
    constructor
    · rintro ⟨hout, hne⟩ other hother heq
      exact hout other ⟨hother, fun hsame => hne (heq.symm.trans hsame)⟩ heq
    · intro hout
      exact ⟨fun other hother => hout other hother.left, fun heq => hout tx htx heq.symm⟩
  unfold Fits
  rw [hcount]
  rfl

/-!
## The memory limit
-/

theorem not_fits_of_empty (h : Accounted usage p) (hitems : p.queuedTx.items = [])
    (hlarge : p.dynamicMemoryUsage > MAX_DISCONNECTED_TX_POOL_SIZE) : ¬ Fits p := by
  have hcount : p.txInfo.items.countP (fun saved => !p.queuedTx.contains saved.txid) =
      p.txInfo.items.length := by
    apply countP_eq_length.mpr
    intro saved _
    rw [Bool.not_eq_true', contains_eq_false]
    intro tx htx
    rw [mem_def, hitems] at htx
    cases htx
  unfold Accounted at h
  unfold dynamicMemoryUsage at hlarge
  rw [hitems] at h hlarge
  unfold Fits
  rw [hcount]
  simp only [length_nil, map_nil, sum_nil] at h hlarge
  omega

theorem items_erase_head {set : IndexedSet Transaction.txid} {rest : List Transaction}
    (hitems : set.items = tx :: rest) : (set.erase tx.txid).items = rest := by
  have hnodup := set.nodup
  rw [hitems] at hnodup
  have hhead := (nodup_cons.mp hnodup).left
  show set.items.filter _ = rest
  rw [hitems, filter_cons_of_neg (by simp)]
  apply filter_eq_self.mpr
  intro other hother
  rw [Bool.not_eq_true', decide_eq_false_iff_not]
  intro heq
  apply hhead
  rw [← heq]
  exact mem_map_of_mem hother

/-- The loop drops entries from the front of the queue until it is below the limit. -/
theorem limitSize_spec (h : Accounted usage p) (hrounds : p.queuedTx.items.length = rounds) :
    (Fits p ∧ exists p' dropped, limitSize usage rounds p = .ok (p', dropped) ∧
      p.queuedTx.items = dropped ++ p'.queuedTx.items ∧ Accounted usage p' ∧
      p'.dynamicMemoryUsage ≤ MAX_DISCONNECTED_TX_POOL_SIZE) ∨
    (¬ Fits p ∧ limitSize usage rounds p = .error .emptyQueue) := by
  induction rounds generalizing p with
  | zero =>
    have hitems : p.queuedTx.items = [] := length_eq_zero_iff.mp hrounds
    unfold limitSize
    split
    · rename_i hlarge
      rw [hitems]
      exact .inr ⟨not_fits_of_empty h hitems hlarge, rfl⟩
    · rename_i hsmall
      exact .inl ⟨fits_of_usage (not_lt.mp hsmall), p, [], rfl, rfl, h, not_lt.mp hsmall⟩
  | succ rounds ih =>
    rw [limitSize.eq_def]
    dsimp only
    split
    · rcases exists_cons_of_length_eq_add_one hrounds with ⟨tx, rest, hitems⟩
      have htx : tx ∈ p.queuedTx := by
        rw [mem_def, hitems]
        exact mem_cons_self
      have hrest : (p.removeEntry usage tx).queuedTx.items = rest := items_erase_head hitems
      have hlength : (p.removeEntry usage tx).queuedTx.items.length = rounds := by
        rw [hitems] at hrounds
        rw [hrest]
        exact Nat.succ.inj hrounds
      rw [hitems, ← fits_removeEntry htx]
      rcases ih (h.removeEntry htx) hlength with
        ⟨hfits, p', dropped, hok, hfront, haccounted, hsmall⟩ | ⟨hover, herror⟩
      · refine .inl ⟨hfits, p', tx :: dropped, ?_, ?_, haccounted, hsmall⟩
        · simp only [hok]
          rfl
        · rw [← hrest, hfront]
          rfl
      · refine .inr ⟨hover, ?_⟩
        simp only [herror]
        rfl
    · rename_i hsmall
      exact .inl ⟨fits_of_usage (not_lt.mp hsmall), p, [], rfl, rfl, h, not_lt.mp hsmall⟩

end DisconnectedBlockTransactions

end ECash.Mempool
