import ECash.Index.GroupHistory

/-!
# What the loops do to the pages of a member

Inserting goes forward over the pages and always gives the pages of the longer list.  Deleting
goes back over them, and gives the pages of the shorter list exactly if the number of bytes it
cuts off is the one of the numbers that are there.
-/

namespace ECash.Index

open Foundation List

/-!
## Pages of a list

What is appended within the last page changes this page only.
-/

section Paging

variable {a : Type} {size : Nat}

def page (size : Nat) (xs : List a) (p : Nat) : List a :=
  (xs.drop (p * size)).take size

theorem page_nil (p : Nat) : page size ([] : List a) p = [] := by
  simp [page]

theorem page_append (hsize : 0 < size) {xs ys : List a}
    (h : ys.length ≤ size - xs.length % size) (p : Nat) :
    page size (xs ++ ys) p =
      if p = xs.length / size then page size xs p ++ ys else page size xs p := by
  have hlength : xs.length / size * size + xs.length % size = xs.length := by
    rw [Nat.mul_comm]
    exact Nat.div_add_mod xs.length size
  have hmod := Nat.mod_lt xs.length hsize
  generalize xs.length / size = q at *
  unfold page
  rw [drop_append]
  rcases Nat.lt_trichotomy p q with hlt | heq | hgt
  · -- the page is full without the new elements
    have hfull : (p + 1) * size ≤ q * size := Nat.mul_le_mul_right size hlt
    rw [Nat.add_mul] at hfull
    rw [if_neg (by omega), take_append_of_le_length]
    rw [length_drop]
    omega
  · subst heq
    rw [if_pos rfl, Nat.sub_eq_zero_of_le (by omega), drop_zero, take_of_length_le,
      take_of_length_le]
    · rw [length_drop]
      omega
    · rw [length_append, length_drop]
      omega
  · have hbehind : (q + 1) * size ≤ p * size := Nat.mul_le_mul_right size hgt
    rw [Nat.add_mul] at hbehind
    rw [if_neg (by omega), drop_eq_nil_of_le (by omega : ys.length ≤ p * size - xs.length),
      append_nil]

end Paging

/-!
## Pages and numbers
-/

def pageValue (pageSize : Nat) (txNums : List TxNum) (pageNum : Nat) : Option Bytes :=
  if page pageSize txNums pageNum = [] then none
  else some (dbSerializeVec (page pageSize txNums pageNum))

def numTxsValue (numTxs : Nat) : Option Bytes :=
  if numTxs = 0 then none else some (bigEndian 4 numTxs)

theorem dbSerializeVec_append (txNums txNums' : List TxNum) :
    dbSerializeVec (txNums ++ txNums') = dbSerializeVec txNums ++ dbSerializeVec txNums' := by
  unfold dbSerializeVec Format.writeAll
  rw [flatMap_append]

theorem getD_pageValue (pageSize : Nat) (txNums : List TxNum) (pageNum : Nat) :
    (pageValue pageSize txNums pageNum).getD [] =
      dbSerializeVec (page pageSize txNums pageNum) := by
  unfold pageValue
  split
  · rename_i hnil
    rw [hnil]
    rfl
  · rfl

variable {pageNum : Nat} {memberSer' : Bytes} {pageNum' other numTxs : Nat} {old : List TxNum}
  {rounds : Nat}

theorem pageValue_of_ne_nil {pageSize : Nat} {txNums : List TxNum}
    (h : page pageSize txNums pageNum ≠ []) :
    pageValue pageSize txNums pageNum = some (dbSerializeVec (page pageSize txNums pageNum)) :=
  if_neg h

theorem keyForMemberPage_inj {memberSer : Bytes} (hlt : pageNum < 2 ^ 32) (hlt' : pageNum' < 2 ^ 32)
    (h : keyForMemberPage memberSer pageNum = keyForMemberPage memberSer' pageNum') :
    memberSer = memberSer' ∧ pageNum = pageNum' := by
  have hwidth : (256 : Nat) ^ 4 = 2 ^ 32 := by norm_num
  have hsplit := append_inj' h (by rw [bigEndian_length, bigEndian_length])
  exact ⟨hsplit.left, bigEndian_inj (hwidth ▸ hlt) (hwidth ▸ hlt') hsplit.right⟩

variable {pageSize : Nat} {memberSer : Bytes}

/-- The row of a page, and the row with the number of transactions. -/
def pageRow (memberSer : Bytes) (pageNum : Nat) : HistoryKey :=
  (.page, keyForMemberPage memberSer pageNum)

def numTxsRow (memberSer : Bytes) : HistoryKey :=
  (.numTxs, memberSer)

def IsRow (memberSer : Bytes) (key : HistoryKey) : Prop :=
  key = numTxsRow memberSer ∨ exists pageNum, pageNum < 2 ^ 32 ∧ key = pageRow memberSer pageNum

/-- The operations are on the rows of one member. -/
def OnMember (memberSer : Bytes) (ops : List HistoryOp) : Prop :=
  forall op, op ∈ ops -> IsRow memberSer op.target

theorem numTxsRow_ne (memberSer memberSer' : Bytes) (pageNum : Nat) :
    pageRow memberSer pageNum ≠ numTxsRow memberSer' := by
  intro h
  cases congrArg Prod.fst h

theorem pageRow_inj (hlt : pageNum < 2 ^ 32) (hlt' : pageNum' < 2 ^ 32)
    (h : pageRow memberSer pageNum = pageRow memberSer' pageNum') :
    memberSer = memberSer' ∧ pageNum = pageNum' :=
  keyForMemberPage_inj hlt hlt' (congrArg Prod.snd h)

theorem IsRow.unique {key : HistoryKey} (h : IsRow memberSer key) (h' : IsRow memberSer' key) :
    memberSer = memberSer' := by
  rcases h with hkey | ⟨pageNum, hlt, hkey⟩
  · rcases h' with hkey' | ⟨pageNum', _, hkey'⟩
    · exact congrArg Prod.snd (hkey.symm.trans hkey')
    · exact absurd (hkey'.symm.trans hkey) (numTxsRow_ne memberSer' memberSer pageNum')
  · rcases h' with hkey' | ⟨_, hlt', hkey'⟩
    · exact absurd (hkey.symm.trans hkey') (numTxsRow_ne memberSer memberSer' pageNum)
    · exact (pageRow_inj hlt hlt' (hkey.symm.trans hkey')).left

def LeavesPages (memberSer : Bytes) (pageSize : Nat) (before after : List TxNum)
    (ops : List HistoryOp) : Prop :=
  forall pageNum, pageNum < 2 ^ 32 ->
    valueAfter mergeHistory (pageRow memberSer pageNum) (pageValue pageSize before pageNum) ops =
      .ok (pageValue pageSize after pageNum)

/-- The operations are on the rows of the member and leave this number of transactions. -/
structure LeavesNumTxs (memberSer : Bytes) (numTxs : Nat) (ops : List HistoryOp) : Prop where
  onMember : OnMember memberSer ops
  numTxs : forall v, valueAfter mergeHistory (numTxsRow memberSer) v ops = .ok (numTxsValue numTxs)

/-- An operation on one page, after which the pages are those of another list. -/
structure Turns (memberSer : Bytes) (pageSize : Nat) (before after : List TxNum)
    (pageNum : Nat) (op : HistoryOp) : Prop where
  lt : pageNum < 2 ^ 32
  target : op.target = pageRow memberSer pageNum
  change : op.change mergeHistory (pageValue pageSize before pageNum) =
    .ok (pageValue pageSize after pageNum)
  others : forall other, other ≠ pageNum ->
    pageValue pageSize after other = pageValue pageSize before other

variable {before middle after new : List TxNum} {op : HistoryOp} {ops : List HistoryOp}

theorem Turns.valueAfter_cons (h : Turns memberSer pageSize before after pageNum op)
    (hlt : other < 2 ^ 32) :
    valueAfter mergeHistory (pageRow memberSer other) (pageValue pageSize before other)
        (op :: ops) =
      valueAfter mergeHistory (pageRow memberSer other) (pageValue pageSize after other) ops := by
  by_cases heq : other = pageNum
  · subst heq
    rw [valueAfter_cons_self h.target, h.change]
    rfl
  · rw [h.others other heq]
    apply valueAfter_cons_ne
    intro hrow
    rw [h.target] at hrow
    exact heq (pageRow_inj h.lt hlt hrow).right.symm

theorem Turns.leavesPages_cons (hop : Turns memberSer pageSize before middle pageNum op) :
    LeavesPages memberSer pageSize before after (op :: ops) <->
      LeavesPages memberSer pageSize middle after ops := by
  apply forall_congr'
  intro other
  apply forall_congr'
  intro hlt
  rw [hop.valueAfter_cons hlt]

theorem LeavesNumTxs.cons (h : LeavesNumTxs memberSer numTxs ops) (hlt : pageNum < 2 ^ 32)
    (hop : op.target = pageRow memberSer pageNum) : LeavesNumTxs memberSer numTxs (op :: ops) where
  onMember := forall_mem_cons.mpr ⟨.inr ⟨pageNum, hlt, hop⟩, h.onMember⟩
  numTxs := by
    intro v
    rw [valueAfter_cons_ne]
    · exact h.numTxs v
    · rw [hop]
      exact numTxsRow_ne memberSer memberSer pageNum

theorem leavesNumTxs_last (htarget : op.target = numTxsRow memberSer)
    (hchange : forall v, op.change mergeHistory v = .ok (numTxsValue numTxs)) :
    LeavesNumTxs memberSer numTxs [op] where
  onMember := by
    intro other hother
    rw [mem_singleton.mp hother]
    exact .inl htarget
  numTxs := by
    intro v
    rw [valueAfter_cons_self htarget, hchange v]
    rfl

theorem leavesPages_last (htarget : op.target = numTxsRow memberSer) :
    LeavesPages memberSer pageSize after after [op] := by
  intro other _
  apply valueAfter_cons_ne
  rw [htarget]
  exact (numTxsRow_ne memberSer memberSer other).symm

/-!
## Inserting
-/

theorem pageValue_append_of_ne (hsize : 0 < pageSize)
    (hspace : new.length ≤ pageSize - old.length % pageSize) (hne : other ≠ old.length / pageSize) :
    pageValue pageSize (old ++ new) other = pageValue pageSize old other := by
  unfold pageValue
  rw [page_append hsize hspace, if_neg hne]

theorem turns_concat (hsize : 0 < pageSize) (hnew : new ≠ [])
    (hlt : old.length < 2 ^ 32) (hspace : new.length ≤ pageSize - old.length % pageSize) :
    Turns memberSer pageSize old (old ++ new) (old.length / pageSize)
      (.merge (pageRow memberSer (old.length / pageSize)) (CONCAT :: dbSerializeVec new)) where
  lt := (Nat.div_le_self _ _).trans_lt hlt
  target := rfl
  change := by
    have hpage : page pageSize (old ++ new) (old.length / pageSize) =
        page pageSize old (old.length / pageSize) ++ new := by
      rw [page_append hsize hspace, if_pos rfl]
    have hne : page pageSize (old ++ new) (old.length / pageSize) ≠ [] := by
      rw [hpage]
      exact fun hnil => hnew (append_eq_nil_iff.mp hnil).right
    rw [pageValue_of_ne_nil hne, hpage, dbSerializeVec_append, ← getD_pageValue]
    rfl
  others := fun _ hne => pageValue_append_of_ne hsize hspace hne

theorem insertLoop_leaves (hsize : 0 < pageSize) (hnew : new ≠ [])
    (hrounds : new.length ≤ rounds) (hcount : (old ++ new).length < 2 ^ 32) :
    exists ops, insertLoop pageSize memberSer rounds new old.length (old.length / pageSize)
        (old.length % pageSize) = .ok ops ∧
      LeavesNumTxs memberSer (old ++ new).length ops ∧
      LeavesPages memberSer pageSize old (old ++ new) ops := by
  induction rounds generalizing old new with
  | zero => exact absurd (length_eq_zero_iff.mp (Nat.le_zero.mp hrounds)) hnew
  | succ rounds ih =>
    have hmod := Nat.mod_lt old.length hsize
    have hpos := length_pos_iff.mpr hnew
    -- the part of the new numbers that goes to the last page, and the others
    generalize htaken : new.take (min (pageSize - old.length % pageSize) new.length) = taken
    generalize hrest : new.drop (min (pageSize - old.length % pageSize) new.length) = rest
    have hsplit : new = taken ++ rest := by rw [← htaken, ← hrest, take_append_drop]
    have hlength : min (pageSize - old.length % pageSize) new.length = taken.length := by
      rw [← htaken, length_take, Nat.min_assoc, Nat.min_self]
    have htakenNe : taken ≠ [] := by
      intro hnil
      rw [hnil, length_nil] at hlength
      omega
    rw [hlength] at htaken hrest
    rw [hsplit, length_append, length_append] at hcount
    have hop := @turns_concat old pageSize memberSer taken hsize htakenNe (by omega) (by omega)
    have hnum : (old.length + taken.length) % 2 ^ 32 = (old ++ taken).length := by
      rw [length_append]
      omega
    by_cases hlast : rest = []
    · simp only [insertLoop, htaken, hrest, hlength, hnum, if_pos hlast]
      rw [hsplit, hlast, append_nil]
      refine ⟨_, rfl, (leavesNumTxs_last rfl ?_).cons hop.lt hop.target,
        hop.leavesPages_cons.mpr (leavesPages_last rfl)⟩
      intro v
      have hne : (old ++ taken).length ≠ 0 := by
        intro hzero
        exact htakenNe (append_eq_nil_iff.mp (length_eq_zero_iff.mp hzero)).right
      unfold numTxsValue
      rw [if_neg hne]
      rfl
    · -- the last page is full now, and the loop goes on with a new one
      have hrestPos := length_pos_iff.mpr hlast
      have hnewLength : new.length = taken.length + rest.length := by rw [hsplit, length_append]
      have hfull : (old ++ taken).length = (old.length / pageSize + 1) * pageSize := by
        have hdiv := Nat.div_add_mod old.length pageSize
        rw [add_mul, mul_comm]
        omega
      have hnextPage : (old.length / pageSize + 1) % 2 ^ 32 = (old ++ taken).length / pageSize := by
        rw [hfull, Nat.mul_div_cancel _ hsize]
        apply Nat.mod_eq_of_lt
        have hle := Nat.le_mul_of_pos_right (old.length / pageSize + 1) hsize
        omega
      have hnextLast : 0 = (old ++ taken).length % pageSize := by rw [hfull, Nat.mul_mod_left]
      rcases @ih (old ++ taken) rest hlast (by omega) (by rw [length_append]; omega) with
        ⟨ops, hops, hnumTxs, hpages⟩
      rw [← hnextLast] at hops
      simp only [insertLoop, htaken, hrest, hlength, hnum, if_neg hlast, hnextPage, hops]
      rw [hsplit, ← append_assoc]
      exact ⟨_, rfl, hnumTxs.cons hop.lt hop.target, hop.leavesPages_cons.mpr hpages⟩

/-!
## Deleting
-/

/-- How many of the removed transactions are on a page with transactions that are kept. -/
def onSharedPage (pageSize : Nat) (kept removed : List TxNum) : Nat :=
  min (pageSize - kept.length % pageSize) removed.length

/-- The last transactions that are removed take as many bytes as the first ones, which are those
on the shared page. -/
def TrimsRight (pageSize : Nat) (kept removed : List TxNum) : Prop :=
  kept.length % pageSize = 0 ∨
    (dbSerializeVec (removed.drop (removed.length - onSharedPage pageSize kept removed))).length %
        2 ^ 32 =
      (dbSerializeVec (removed.take (onSharedPage pageSize kept removed))).length

/-- Cutting off bytes gives the first numbers exactly if these are the bytes of the others. -/
theorem change_trim {kept removed : List TxNum} {trimLen : Nat} (hlt : trimLen < 2 ^ 32) :
    (.merge (pageRow memberSer pageNum) (TRIM :: bigEndian 4 trimLen) :
        HistoryOp).change mergeHistory (some (dbSerializeVec (kept ++ removed))) =
      .ok (some (dbSerializeVec kept)) <->
    trimLen = (dbSerializeVec removed).length := by
  have hwidth : (256 : Nat) ^ 4 = 2 ^ 32 := by norm_num
  have htake : (bigEndian 4 trimLen).take 4 = bigEndian 4 trimLen :=
    take_of_length_le ((bigEndian_length 4 trimLen).le)
  have hread : readBigEndian (bigEndian 4 trimLen) = trimLen :=
    readBigEndian_bigEndian (hwidth ▸ hlt)
  have happly : (.merge (pageRow memberSer pageNum) (TRIM :: bigEndian 4 trimLen) :
      HistoryOp).change mergeHistory (some (dbSerializeVec (kept ++ removed))) =
      if (bigEndian 4 trimLen).length < 4 ∨ (dbSerializeVec (kept ++ removed)).length < trimLen then
        .error .panic
      else .ok (some ((dbSerializeVec (kept ++ removed)).take
        ((dbSerializeVec (kept ++ removed)).length - trimLen))) := by
    show (applyConcatTrim (dbSerializeVec (kept ++ removed))
      (TRIM :: bigEndian 4 trimLen)).map some = _
    have htrim : TRIM ≠ CONCAT := by decide
    simp only [applyConcatTrim, if_neg htrim, if_true, htake, hread]
    split
    · rfl
    · rfl
  rw [happly, bigEndian_length, dbSerializeVec_append, length_append]
  by_cases hlong : (dbSerializeVec kept).length + (dbSerializeVec removed).length < trimLen
  · rw [if_pos (.inr hlong)]
    constructor
    · nofun
    · intro h
      omega
  · rw [if_neg (by omega), Except.ok.injEq, Option.some.injEq]
    constructor
    · intro h
      have hlength := congrArg length h
      rw [length_take, length_append] at hlength
      omega
    · intro h
      rw [h, Nat.add_sub_cancel, take_left]

theorem numTxs_sub {n k : Nat} (hk : k ≤ n) (hn : n < 2 ^ 32) :
    (n + 2 ^ 32 - k % 2 ^ 32) % 2 ^ 32 = n - k := by
  omega

theorem writeNumTxs_target (numTxs : Nat) :
    (writeNumTxs memberSer numTxs).target = numTxsRow memberSer := by
  unfold writeNumTxs
  split
  · rfl
  · rfl

theorem writeNumTxs_change (numTxs : Nat) (v : Option Bytes) :
    (writeNumTxs memberSer numTxs).change mergeHistory v = .ok (numTxsValue numTxs) := by
  unfold writeNumTxs numTxsValue
  by_cases hzero : numTxs = 0
  · rw [if_pos hzero, if_neg (by omega)]
    rfl
  · rw [if_neg hzero, if_pos (by omega)]
    rfl

theorem writeNumTxs_leaves (numTxs : Nat) :
    LeavesNumTxs memberSer numTxs [writeNumTxs memberSer numTxs] :=
  leavesNumTxs_last (writeNumTxs_target numTxs) (writeNumTxs_change numTxs)

variable {remaining lastPage : Nat} {removed : List TxNum}

theorem deleteLoop_wholeLast (hn : lastPage ≤ numTxs) (hlt : numTxs < 2 ^ 32) :
    deleteLoop pageSize memberSer (rounds + 1) removed lastPage numTxs pageNum lastPage =
      .ok [.delete (pageRow memberSer pageNum), writeNumTxs memberSer (numTxs - lastPage)] := by
  unfold deleteLoop
  simp only [Nat.min_self, if_true, Nat.sub_self, numTxs_sub hn hlt]
  rfl

theorem deleteLoop_whole (hmore : lastPage < remaining) (hn : lastPage ≤ numTxs)
    (hlt : numTxs < 2 ^ 32) (hpage : 0 < pageNum) :
    deleteLoop pageSize memberSer (rounds + 1) removed remaining numTxs pageNum lastPage =
      (deleteLoop pageSize memberSer rounds removed (remaining - lastPage) (numTxs - lastPage)
        (pageNum - 1) pageSize >>= fun ops =>
          .ok (.delete (pageRow memberSer pageNum) :: ops)) := by
  have hmin : min lastPage remaining = lastPage := by omega
  have hne : remaining - lastPage ≠ 0 := by omega
  rw [deleteLoop]
  simp only [hmin, if_true, if_neg hne, if_pos hpage, numTxs_sub hn hlt]
  rfl

theorem deleteLoop_trim (hless : remaining < lastPage) (hn : remaining ≤ numTxs)
    (hlt : numTxs < 2 ^ 32) :
    deleteLoop pageSize memberSer (rounds + 1) removed remaining numTxs pageNum lastPage =
      .ok
        [.merge (pageRow memberSer pageNum) (TRIM :: bigEndian 4
            ((dbSerializeVec (removed.drop (removed.length - remaining))).length % 2 ^ 32)),
          writeNumTxs memberSer (numTxs - remaining)] := by
  have hmin : min lastPage remaining = remaining := by omega
  have hne : remaining ≠ lastPage := by omega
  rw [deleteLoop]
  simp only [hmin, if_neg hne, Nat.sub_self, if_true, numTxs_sub hn hlt]
  rfl

theorem turns_delete (hsize : 0 < pageSize)
    (hfull : old.length = pageNum * pageSize) (hlt : pageNum < 2 ^ 32)
    (hspace : new.length ≤ pageSize) :
    Turns memberSer pageSize (old ++ new) old pageNum (.delete (pageRow memberSer pageNum)) where
  lt := hlt
  target := rfl
  change := by
    have hnil : page pageSize old pageNum = [] := by
      unfold page
      rw [drop_eq_nil_of_le hfull.le, take_nil]
    unfold pageValue
    rw [if_pos hnil]
    rfl
  others := by
    intro other hne
    refine (pageValue_append_of_ne hsize ?_ ?_).symm
    · rw [hfull, Nat.mul_mod_left]
      exact hspace
    · rw [hfull, Nat.mul_div_cancel _ hsize]
      exact hne

theorem leavesPages_pair {last : HistoryOp} (hlt : pageNum < 2 ^ 32)
    (htarget : op.target = pageRow memberSer pageNum) (hlast : last.target = numTxsRow memberSer)
    (hothers : forall other, other ≠ pageNum ->
      pageValue pageSize after other = pageValue pageSize before other) :
    LeavesPages memberSer pageSize before after [op, last] <->
      op.change mergeHistory (pageValue pageSize before pageNum) =
        .ok (pageValue pageSize after pageNum) := by
  constructor
  · intro h
    have hpage := h pageNum hlt
    rw [valueAfter_cons_self htarget] at hpage
    cases hchange : op.change mergeHistory (pageValue pageSize before pageNum) with
    | error err =>
      rw [hchange] at hpage
      cases hpage
    | ok v =>
      rw [hchange] at hpage
      rw [← hpage]
      refine (valueAfter_cons_ne ?_ []).symm
      rw [hlast]
      exact (numTxsRow_ne memberSer memberSer pageNum).symm
  · intro hchange
    have hop : Turns memberSer pageSize before after pageNum op := ⟨hlt, htarget, hchange, hothers⟩
    exact hop.leavesPages_cons.mpr (leavesPages_last hlast)

theorem append_take_split (kept removed : List TxNum) (k n : Nat) :
    kept ++ removed.take n = (kept ++ removed.take (n - k)) ++ (removed.take n).drop (n - k) := by
  have htake : removed.take (n - k) = (removed.take n).take (n - k) := by
    rw [take_take, Nat.min_eq_left (Nat.sub_le n k)]
  rw [append_assoc, htake, take_append_drop]

/-- The removed numbers on the page of the last kept ones are cut off that page. -/
theorem leavesPages_trim (hsize : 0 < pageSize) {kept removed : List TxNum} {remaining : Nat}
    (hshared : onSharedPage pageSize kept removed = remaining) (hmod : 0 < kept.length % pageSize)
    (hlt : kept.length / pageSize < 2 ^ 32) :
    LeavesPages memberSer pageSize (kept ++ removed.take remaining) kept
        [.merge (pageRow memberSer (kept.length / pageSize)) (TRIM :: bigEndian 4
            ((dbSerializeVec (removed.drop (removed.length - remaining))).length % 2 ^ 32)),
          writeNumTxs memberSer kept.length] <->
      TrimsRight pageSize kept removed := by
  have hspace : (removed.take remaining).length ≤ pageSize - kept.length % pageSize := by
    unfold onSharedPage at hshared
    rw [length_take]
    omega
  have hpage : page pageSize (kept ++ removed.take remaining) (kept.length / pageSize) =
      page pageSize kept (kept.length / pageSize) ++ removed.take remaining := by
    rw [page_append hsize hspace, if_pos rfl]
  have hne : page pageSize kept (kept.length / pageSize) ≠ [] := by
    intro hnil
    have hzero := congrArg length hnil
    have hdiv := Nat.div_add_mod' kept.length pageSize
    unfold page at hzero
    rw [length_take, length_drop, length_nil] at hzero
    omega
  have hne' : page pageSize (kept ++ removed.take remaining) (kept.length / pageSize) ≠ [] := by
    rw [hpage]
    exact fun hnil => hne (append_eq_nil_iff.mp hnil).left
  rw [leavesPages_pair hlt rfl (writeNumTxs_target _), pageValue_of_ne_nil hne,
    pageValue_of_ne_nil hne', hpage, change_trim (Nat.mod_lt _ (by decide))]
  · unfold TrimsRight
    rw [hshared, or_iff_right hmod.ne']
  · exact fun other hother => (pageValue_append_of_ne hsize hspace hother).symm

theorem deleteLoop_trims (hsize : 0 < pageSize) {remaining lastPage : Nat}
    {kept removed : List TxNum} (hpos : 0 < remaining) (hle : remaining ≤ removed.length)
    (hlength : kept.length + remaining = pageNum * pageSize + lastPage)
    (hlast : lastPage ≤ pageSize) (hfirst : remaining = removed.length ∨ lastPage = pageSize)
    (hlt : kept.length + remaining < 2 ^ 32) (hrounds : pageNum < rounds) :
    exists ops, deleteLoop pageSize memberSer rounds removed remaining
        (kept.length + remaining) pageNum lastPage = .ok ops ∧
      LeavesNumTxs memberSer kept.length ops ∧
      (LeavesPages memberSer pageSize (kept ++ removed.take remaining) kept ops <->
        TrimsRight pageSize kept removed) := by
  induction rounds generalizing remaining lastPage pageNum with
  | zero => cases hrounds
  | succ rounds ih =>
    have hpageLt : pageNum < 2 ^ 32 := by
      have hmul := Nat.le_mul_of_pos_right pageNum hsize
      omega
    rcases Nat.lt_trichotomy remaining lastPage with hless | heq | hmore
    · -- the removed numbers are on the page of the last ones that are kept
      have hkept : kept.length = pageNum * pageSize + (lastPage - remaining) := by omega
      have hdiv : kept.length / pageSize = pageNum := by
        rw [hkept, add_comm, Nat.add_mul_div_right _ _ hsize, Nat.div_eq_of_lt (by omega), zero_add]
      have hmod : kept.length % pageSize = lastPage - remaining := by
        rw [hkept, Nat.mul_add_mod_self_right]
        exact Nat.mod_eq_of_lt (by omega)
      have hshared : onSharedPage pageSize kept removed = remaining := by
        unfold onSharedPage
        omega
      refine ⟨_, deleteLoop_trim hless (by omega) hlt, ?_, ?_⟩
      · rw [Nat.add_sub_cancel]
        exact (writeNumTxs_leaves kept.length).cons hpageLt rfl
      · rw [Nat.add_sub_cancel, ← hdiv]
        exact leavesPages_trim hsize hshared (by omega) (hdiv ▸ hpageLt)
    · -- the page holds just the numbers that are left to remove
      subst heq
      have hfull : kept.length = pageNum * pageSize := by omega
      have hop := @turns_delete pageNum kept pageSize memberSer (removed.take remaining) hsize
        hfull hpageLt (by rw [length_take]; omega)
      refine ⟨_, deleteLoop_wholeLast (by omega) hlt, ?_, ?_⟩
      · rw [Nat.add_sub_cancel]
        exact (writeNumTxs_leaves kept.length).cons hpageLt rfl
      · refine iff_of_true ?_ (.inl (by rw [hfull, Nat.mul_mod_left]))
        exact hop.leavesPages_cons.mpr (leavesPages_last (writeNumTxs_target _))
    · -- the whole page is removed, and the page before it is full
      have hfull : (kept ++ removed.take (remaining - lastPage)).length = pageNum * pageSize := by
        rw [length_append, length_take]
        omega
      have hpagePos : 0 < pageNum := by
        rw [length_append, length_take] at hfull
        by_contra hzero
        rw [Nat.eq_zero_of_not_pos hzero] at hfull
        omega
      have hpred : (pageNum - 1) * pageSize + pageSize = pageNum * pageSize := by
        rw [Nat.sub_mul, one_mul]
        exact Nat.sub_add_cancel (Nat.le_mul_of_pos_left pageSize hpagePos)
      have hop := @turns_delete pageNum (kept ++ removed.take (remaining - lastPage))
        pageSize memberSer ((removed.take remaining).drop (remaining - lastPage)) hsize
        hfull hpageLt (by rw [length_drop, length_take]; omega)
      rcases @ih (pageNum - 1) (remaining - lastPage) pageSize (by omega) (by omega) (by omega)
        le_rfl (.inr rfl) (by omega) (by omega) with ⟨ops, hops, hnumTxs, hpages⟩
      have hsub : kept.length + remaining - lastPage = kept.length + (remaining - lastPage) := by
        omega
      refine ⟨.delete (pageRow memberSer pageNum) :: ops, ?_, hnumTxs.cons hpageLt rfl, ?_⟩
      · rw [deleteLoop_whole hmore (by omega) hlt hpagePos, hsub, hops]
        rfl
      · rw [append_take_split kept removed lastPage remaining, hop.leavesPages_cons]
        exact hpages

theorem deleteMember_trims {kept removed : List TxNum} (hsize : 0 < pageSize)
    (hne : removed ≠ []) (hlt : kept.length + removed.length < 2 ^ 32) :
    exists ops, deleteMember pageSize ⟨removed, memberSer, kept.length + removed.length⟩ =
        .ok ops ∧
      LeavesNumTxs memberSer kept.length ops ∧
      (LeavesPages memberSer pageSize (kept ++ removed) kept ops <->
        TrimsRight pageSize kept removed) := by
  have hparts := (Nat.div_add_mod' (kept.length + removed.length) pageSize).symm
  have hall : kept ++ removed = kept ++ removed.take removed.length := by rw [take_length]
  rw [hall]
  exact deleteLoop_trims hsize (length_pos_iff.mpr hne) le_rfl hparts (Nat.mod_lt _ hsize).le
    (.inl rfl) hlt (by omega)

end ECash.Index
