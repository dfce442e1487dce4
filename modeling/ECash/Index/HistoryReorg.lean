import ECash.Foundation.Simulation
import ECash.Index.HistoryPages
import Mathlib.Data.List.Induction

/-!
# The history index over connects and disconnects

The rows of all members, for a chain of blocks that grows and is cut back.
-/

namespace ECash.Index

open Foundation List

section Reorg

variable {tx member aux : Type} [LinearOrder member] (group : Group tx member aux)

/-!
## The transactions of a member
-/

def memberTxNums (block : Block tx aux) (m : member) : List TxNum :=
  (block.txs.filter fun indexTx =>
    decide (m ∈ txMembersForGroup group indexTx.query block.aux)).map IndexTx.txNum

def chainTxNums (chain : List (Block tx aux)) (m : member) : List TxNum :=
  chain.flatMap fun block => memberTxNums group block m

theorem chainTxNums_append (chain : List (Block tx aux)) (block : Block tx aux) (m : member) :
    chainTxNums group (chain ++ [block]) m =
      chainTxNums group chain m ++ memberTxNums group block m := by
  unfold chainTxNums
  rw [flatMap_append, flatMap_singleton]

variable {chain : List (Block tx aux)}

theorem Numbered.ascending (h : Numbered chain) :
    ((chain.flatMap Block.txs).map IndexTx.txNum).Pairwise (· < ·) := by
  rw [h]
  exact pairwise_lt_range

variable {block : Block tx aux}

theorem Numbered.init (h : Numbered (chain ++ [block])) : Numbered chain := by
  unfold Numbered at h ⊢
  rw [flatMap_append, map_append, length_append, range_add] at h
  exact append_inj_left h (by simp)

theorem Numbered.block_ascending
    (h : Numbered (chain ++ [block])) : (block.txs.map IndexTx.txNum).Pairwise (· < ·) := by
  have hall := h.ascending
  rw [flatMap_append, flatMap_singleton, map_append] at hall
  exact (pairwise_append.mp hall).right.left

theorem memberTxNums_sublist (block : Block tx aux) (m : member) :
    (memberTxNums group block m).Sublist (block.txs.map IndexTx.txNum) :=
  filter_sublist.map IndexTx.txNum

theorem chainTxNums_ascending (h : Numbered chain) (m : member) :
    (chainTxNums group chain m).Pairwise (· < ·) := by
  have hsub : forall blocks : List (Block tx aux), (chainTxNums group blocks m).Sublist
      ((blocks.flatMap Block.txs).map IndexTx.txNum) := by
    intro blocks
    induction blocks with
    | nil => exact Sublist.slnil
    | cons block blocks ih =>
      rw [flatMap_cons, map_append]
      exact (memberTxNums_sublist group block m).append ih
  exact h.ascending.sublist (hsub chain)

/-!
## Grouping
-/

def optionList (txNums : List TxNum) : Option (List TxNum) :=
  if txNums = [] then none else some txNums

theorem getD_optionList (txNums : List TxNum) : (optionList txNums).getD [] = txNums := by
  unfold optionList
  split
  · rename_i hnil
    rw [hnil]
    rfl
  · rfl

theorem optionList_concat (txNums : List TxNum) (txNum : TxNum) :
    optionList (txNums ++ [txNum]) = some (txNums ++ [txNum]) :=
  if_neg (by simp)

theorem noteTxNum_optionList {txNum : TxNum} {txNums : List TxNum}
    (h : forall other, other ∈ txNums -> other < txNum) :
    noteTxNum txNum (optionList txNums) = some (txNums ++ [txNum]) := by
  unfold noteTxNum
  rw [getD_optionList]
  exact if_neg fun hlast => Nat.lt_irrefl txNum (h txNum (mem_of_getLast? hlast))

theorem note_members {txNum : TxNum} {noted : member -> List TxNum}
    (h : forall m other, other ∈ noted m -> other < txNum) (members : List member)
    (grouped : Std.TreeMap member (List TxNum))
    (hgrouped : forall m, grouped[m]? = optionList (noted m)) (m : member) :
    (members.foldl (fun grouped member => grouped.alter member (noteTxNum txNum)) grouped)[m]? =
      optionList (noted m ++ if m ∈ members then [txNum] else []) := by
  induction members using reverseRecOn generalizing m with
  | nil => simp [hgrouped]
  | append_singleton members last ih =>
    rw [foldl_append, foldl_cons, foldl_nil, Std.TreeMap.getElem?_alter]
    by_cases hlast : last = m
    · subst hlast
      have hnew : last ∈ members ++ [last] := by simp
      rw [if_pos (Std.LawfulEqCmp.compare_eq_iff_eq.mpr rfl), ih last, if_pos hnew,
        optionList_concat]
      by_cases hmem : last ∈ members
      · rw [if_pos hmem, optionList_concat]
        exact if_pos getLast?_concat
      · rw [if_neg hmem, append_nil]
        exact noteTxNum_optionList (h last)
    · have hsame : m ∈ members ++ [last] <-> m ∈ members := by
        simp [Ne.symm hlast]
      rw [if_neg (fun heq => hlast (Std.LawfulEqCmp.compare_eq_iff_eq.mp heq)), ih m]
      simp only [hsame]

theorem memberTxNums_concat (txs : List (IndexTx tx)) (indexTx : IndexTx tx) (a : aux)
    (m : member) :
    memberTxNums group { txs := txs ++ [indexTx], aux := a } m =
      memberTxNums group { txs, aux := a } m ++
        if m ∈ txMembersForGroup group indexTx.query a then [indexTx.txNum] else [] := by
  unfold memberTxNums
  by_cases hmem : m ∈ txMembersForGroup group indexTx.query a
  · simp [hmem]
  · simp [hmem]

theorem getElem?_groupTxs (h : (block.txs.map IndexTx.txNum).Pairwise (· < ·)) (m : member) :
    (groupTxs group block)[m]? = optionList (memberTxNums group block m) := by
  rcases block with ⟨txs, a⟩
  induction txs using reverseRecOn generalizing m with
  | nil => rfl
  | append_singleton txs indexTx ih =>
    rw [map_append, pairwise_append] at h
    have hbefore : forall m other, other ∈ memberTxNums group ⟨txs, a⟩ m ->
        other < indexTx.txNum := by
      intro m other hother
      exact h.right.right other ((memberTxNums_sublist group ⟨txs, a⟩ m).subset hother)
        indexTx.txNum (by simp)
    rw [memberTxNums_concat]
    unfold groupTxs
    rw [foldl_append]
    exact note_members hbefore _ _ (fun other => ih other h.left) m

theorem mem_groupTxs
    (h : (block.txs.map IndexTx.txNum).Pairwise (· < ·)) {entry : member × List TxNum} :
    entry ∈ (groupTxs group block).toList <->
      entry.2 = memberTxNums group block entry.1 ∧ memberTxNums group block entry.1 ≠ [] := by
  rcases entry with ⟨m, _⟩
  rw [Std.TreeMap.mem_toList_iff_getElem?_eq_some, getElem?_groupTxs group h]
  unfold optionList
  by_cases hnil : memberTxNums group block m = []
  · simp [hnil]
  · simp [hnil, eq_comm]

/-!
## Writing a block
-/

section Update

variable {group} {block : Block tx aux} {db : HistoryDb} {count : member -> Nat}
  {updateMember : Nat -> FetchedNumTxs -> Except GroupHistoryError (List HistoryOp)}
  {ops : member -> List HistoryOp}

/-- The batch of a block acts on the rows of a member by the operations of this member. -/
theorem updateHistory_rows (hser : Function.Injective group.serMember)
    (hblock : (block.txs.map IndexTx.txNum).Pairwise (· < ·))
    (hcount : forall m, getNumTxs db (group.serMember m) = .ok (count m))
    (hops : forall m, memberTxNums group block m ≠ [] ->
      updateMember group.txHistoryConf.pageSize
          ⟨memberTxNums group block m, group.serMember m, count m⟩ = .ok (ops m) ∧
        OnMember (group.serMember m) (ops m)) :
    exists batch, updateHistory group updateMember db block = writeBatch mergeHistory db batch ∧
      (forall m key v, IsRow (group.serMember m) key ->
        valueAfter mergeHistory key v batch =
          if memberTxNums group block m = [] then .ok v
          else valueAfter mergeHistory key v (ops m)) ∧
      forall key v, (forall m, ¬ IsRow (group.serMember m) key) ->
        valueAfter mergeHistory key v batch = .ok v := by
  have hentry : forall entry, entry ∈ (groupTxs group block).toList ->
      entry.2 = memberTxNums group block entry.1 ∧ memberTxNums group block entry.1 ≠ [] :=
    fun entry => (mem_groupTxs group hblock).mp
  have honRow : forall entry, entry ∈ (groupTxs group block).toList ->
      forall op, op ∈ ops entry.1 -> IsRow (group.serMember entry.1) op.target :=
    fun entry hmem => (hops entry.1 (hentry entry hmem).right).right
  refine ⟨(groupTxs group block).toList.flatMap fun entry => ops entry.1, ?_, ?_, ?_⟩
  · have hfetch : fetchMembersNumTxs group db block = .ok
        ((groupTxs group block).toList.map fun entry =>
          ⟨memberTxNums group block entry.1, group.serMember entry.1, count entry.1⟩) := by
      apply mapM_eq_map
      intro entry hmem
      simp only [fetchMember, hcount, (hentry entry hmem).left, bind, Except.bind]
    have hbatch : ((groupTxs group block).toList.map fun entry =>
        (⟨memberTxNums group block entry.1, group.serMember entry.1, count entry.1⟩ :
          FetchedNumTxs)).mapM (updateMember group.txHistoryConf.pageSize) =
        .ok ((groupTxs group block).toList.map fun entry => ops entry.1) := by
      rw [mapM_map]
      apply mapM_eq_map
      intro entry hmem
      exact (hops entry.1 (hentry entry hmem).right).left
    simp only [updateHistory, hfetch, hbatch, bind, Except.bind]
    rfl
  · intro m key v hrow
    by_cases hnil : memberTxNums group block m = []
    · rw [if_pos hnil]
      apply valueAfter_untouched
      intro op hop htarget
      rcases mem_flatMap.mp hop with ⟨entry, hmem, hop⟩
      have hsame := hser ((htarget ▸ honRow entry hmem op hop).unique hrow)
      exact (hentry entry hmem).right (hsame ▸ hnil)
    · have hmem : (m, memberTxNums group block m) ∈ (groupTxs group block).toList :=
        (mem_groupTxs group hblock).mpr ⟨rfl, hnil⟩
      rw [if_neg hnil]
      refine valueAfter_flatMap (nodup_toList _) hmem ?_
      intro entry hentryMem hne op hop htarget
      have hsame := hser ((htarget ▸ honRow entry hentryMem op hop).unique hrow)
      apply hne
      apply Prod.ext hsame
      rw [(hentry entry hentryMem).left, hsame]
  · intro key v hkey
    apply valueAfter_untouched
    intro op hop htarget
    rcases mem_flatMap.mp hop with ⟨entry, hmem, hop⟩
    exact hkey entry.1 (htarget ▸ honRow entry hmem op hop)

end Update

/-!
## The index of a chain
-/

/-- The index holds for each member the number of its transactions in the chain, and their
numbers in pages, and nothing else. -/
structure Holds (chain : List (Block tx aux)) (db : HistoryDb) : Prop where
  ascending : forall m, (chainTxNums group chain m).Pairwise (· < ·)
  count_lt : forall m, (chainTxNums group chain m).length < 2 ^ 32
  numTxs : forall m, db (numTxsRow (group.serMember m)) =
    numTxsValue (chainTxNums group chain m).length
  pages : forall m pageNum, pageNum < 2 ^ 32 -> db (pageRow (group.serMember m) pageNum) =
    pageValue group.txHistoryConf.pageSize (chainTxNums group chain m) pageNum
  others : forall key, (forall m, ¬ IsRow (group.serMember m) key) -> db key = none

section Blocks

variable {group} {chain : List (Block tx aux)} {block : Block tx aux} {db db' : HistoryDb}

theorem Holds.unique (h : Holds group chain db) (h' : Holds group chain db') : db = db' := by
  funext key
  by_cases hrow : exists m, IsRow (group.serMember m) key
  · rcases hrow with ⟨m, hkey | ⟨pageNum, hlt, hkey⟩⟩
    · rw [hkey, h.numTxs, h'.numTxs]
    · rw [hkey, h.pages m pageNum hlt, h'.pages m pageNum hlt]
  · rw [h.others key (not_exists.mp hrow), h'.others key (not_exists.mp hrow)]

theorem getNumTxs_of_value {memberSer : Bytes} {numTxs : Nat} (hlt : numTxs < 2 ^ 32)
    (h : db (numTxsRow memberSer) = numTxsValue numTxs) : getNumTxs db memberSer = .ok numTxs := by
  have hwidth : (256 : Nat) ^ 4 = 2 ^ 32 := by norm_num
  unfold numTxsRow at h
  unfold getNumTxs
  rw [h]
  unfold numTxsValue
  by_cases hzero : numTxs = 0
  · rw [if_pos hzero, hzero]
  · rw [if_neg hzero]
    simp only [bytesToNumTxs, bigEndian_length, if_true]
    rw [readBigEndian_bigEndian (hwidth ▸ hlt)]

theorem updateHistory_holds {blocks : List (Block tx aux)}
    {updateMember : Nat -> FetchedNumTxs -> Except GroupHistoryError (List HistoryOp)}
    {ops : member -> List HistoryOp} (hser : Function.Injective group.serMember)
    (hblock : (block.txs.map IndexTx.txNum).Pairwise (· < ·)) (h : Holds group chain db)
    (hascending : forall m, (chainTxNums group blocks m).Pairwise (· < ·))
    (hlt : forall m, (chainTxNums group blocks m).length < 2 ^ 32)
    (hsame : forall m, memberTxNums group block m = [] ->
      chainTxNums group blocks m = chainTxNums group chain m)
    (hops : forall m, memberTxNums group block m ≠ [] ->
      updateMember group.txHistoryConf.pageSize
          ⟨memberTxNums group block m, group.serMember m, (chainTxNums group chain m).length⟩ =
        .ok (ops m) ∧
      LeavesNumTxs (group.serMember m) (chainTxNums group blocks m).length (ops m)) :
    (exists db', updateHistory group updateMember db block = .ok db' ∧
        Holds group blocks db') <->
      forall m, memberTxNums group block m ≠ [] ->
        LeavesPages (group.serMember m) group.txHistoryConf.pageSize
          (chainTxNums group chain m) (chainTxNums group blocks m) (ops m) := by
  rcases updateHistory_rows hser hblock (fun m => getNumTxs_of_value (h.count_lt m) (h.numTxs m))
    (fun m hne => ⟨(hops m hne).left, (hops m hne).right.onMember⟩) with
    ⟨batch, hbatch, hrows, hothers⟩
  rw [hbatch]
  constructor
  · rintro ⟨db', hdb', hholds⟩ m hne pageNum hpage
    have hrow := writeBatch_eq_ok.mp hdb' (pageRow (group.serMember m) pageNum)
    rw [hrows m _ _ (.inr ⟨pageNum, hpage, rfl⟩), if_neg hne, h.pages m pageNum hpage,
      hholds.pages m pageNum hpage] at hrow
    exact hrow
  · intro hpages
    -- what each row holds in the end
    have hnumTxs : forall m, valueAfter mergeHistory (numTxsRow (group.serMember m))
        (db (numTxsRow (group.serMember m))) batch =
        .ok (numTxsValue (chainTxNums group blocks m).length) := by
      intro m
      rw [hrows m _ _ (.inl rfl)]
      by_cases hnil : memberTxNums group block m = []
      · rw [if_pos hnil, h.numTxs, hsame m hnil]
      · rw [if_neg hnil]
        exact (hops m hnil).right.numTxs _
    have hpage : forall m pageNum, pageNum < 2 ^ 32 ->
        valueAfter mergeHistory (pageRow (group.serMember m) pageNum)
          (db (pageRow (group.serMember m) pageNum)) batch =
        .ok (pageValue group.txHistoryConf.pageSize (chainTxNums group blocks m) pageNum) := by
      intro m pageNum hlt
      rw [hrows m _ _ (.inr ⟨pageNum, hlt, rfl⟩), h.pages m pageNum hlt]
      by_cases hnil : memberTxNums group block m = []
      · rw [if_pos hnil, hsame m hnil]
      · rw [if_neg hnil]
        exact hpages m hnil pageNum hlt
    have hwritten : forall key, exists v, valueAfter mergeHistory key (db key) batch = .ok v := by
      intro key
      by_cases hrow : exists m, IsRow (group.serMember m) key
      · rcases hrow with ⟨m, hkey | ⟨pageNum, hlt, hkey⟩⟩
        · exact ⟨_, hkey ▸ hnumTxs m⟩
        · exact ⟨_, hkey ▸ hpage m pageNum hlt⟩
      · exact ⟨_, hothers key (db key) (not_exists.mp hrow)⟩
    choose db' hvalue using hwritten
    refine ⟨db', writeBatch_eq_ok.mpr hvalue, hascending, hlt, ?_, ?_, ?_⟩
    · intro m
      exact Except.ok.inj ((hvalue _).symm.trans (hnumTxs m))
    · intro m pageNum hlt
      exact Except.ok.inj ((hvalue _).symm.trans (hpage m pageNum hlt))
    · intro key hkey
      rw [← h.others key hkey]
      exact Except.ok.inj ((hvalue key).symm.trans (hothers key (db key) hkey))

theorem insertHistory_holds (hser : Function.Injective group.serMember)
    (hnumbered : Numbered (chain ++ [block])) (h : Holds group chain db) :
    (exists db', insertHistory group db block = .ok db' ∧
        Holds group (chain ++ [block]) db') <->
      forall m, (chainTxNums group (chain ++ [block]) m).length < 2 ^ 32 := by
  constructor
  · rintro ⟨_, _, hholds⟩ m
    exact hholds.count_lt m
  intro hlt
  have hloop : forall m, memberTxNums group block m ≠ [] -> exists ops,
      insertMember group.txHistoryConf.pageSize ⟨memberTxNums group block m,
        group.serMember m, (chainTxNums group chain m).length⟩ = .ok ops ∧
      LeavesNumTxs (group.serMember m) (chainTxNums group (chain ++ [block]) m).length ops ∧
      LeavesPages (group.serMember m) group.txHistoryConf.pageSize
        (chainTxNums group chain m) (chainTxNums group (chain ++ [block]) m) ops := by
    intro m hne
    have hcount := hlt m
    rw [chainTxNums_append] at hcount ⊢
    exact insertLoop_leaves group.txHistoryConf.pageSize_pos hne le_rfl hcount
  choose! ops hops using hloop
  refine (updateHistory_holds hser hnumbered.block_ascending h
    (chainTxNums_ascending group hnumbered) hlt ?_
    (fun m hne => ⟨(hops m hne).left, (hops m hne).right.left⟩)).mpr
    (fun m hne => (hops m hne).right.right)
  intro m hnil
  rw [chainTxNums_append, hnil, append_nil]

/-- A block is disconnected exactly if the right number of bytes is cut off for each member. -/
theorem deleteHistory_holds (hser : Function.Injective group.serMember)
    (hnumbered : Numbered (chain ++ [block])) (h : Holds group (chain ++ [block]) db) :
    (exists db', deleteHistory group db block = .ok db' ∧ Holds group chain db') <->
      forall m, TrimsRight group.txHistoryConf.pageSize (chainTxNums group chain m)
        (memberTxNums group block m) := by
  have hlt := h.count_lt
  simp only [chainTxNums_append, length_append] at hlt
  have hloop : forall m, memberTxNums group block m ≠ [] -> exists ops,
      deleteMember group.txHistoryConf.pageSize ⟨memberTxNums group block m,
        group.serMember m, (chainTxNums group (chain ++ [block]) m).length⟩ = .ok ops ∧
      LeavesNumTxs (group.serMember m) (chainTxNums group chain m).length ops ∧
      (LeavesPages (group.serMember m) group.txHistoryConf.pageSize
          (chainTxNums group (chain ++ [block]) m) (chainTxNums group chain m) ops <->
        TrimsRight group.txHistoryConf.pageSize (chainTxNums group chain m)
          (memberTxNums group block m)) := by
    intro m hne
    rw [chainTxNums_append, length_append]
    exact deleteMember_trims group.txHistoryConf.pageSize_pos hne (hlt m)
  choose! ops hops using hloop
  refine (updateHistory_holds hser hnumbered.block_ascending h
    (chainTxNums_ascending group hnumbered.init) (fun m => by have := hlt m; omega) ?_
    (fun m hne => ⟨(hops m hne).left, (hops m hne).right.left⟩)).trans ?_
  · intro m hnil
    rw [chainTxNums_append, hnil, append_nil]
  apply forall_congr'
  intro m
  by_cases hnil : memberTxNums group block m = []
  · rw [hnil]
    exact iff_of_true (fun hne => absurd rfl hne) (.inr (by rw [drop_nil, take_nil]; rfl))
  · rw [← (hops m hnil).right.right]
    exact ⟨fun himp => himp hnil, fun hpages _ => hpages⟩

end Blocks

/-!
## Runs
-/

inductive ChainStep (tx aux : Type) where
  | connect (block : Block tx aux)
  | disconnect (block : Block tx aux)

def stepHistory (db : HistoryDb) : ChainStep tx aux -> Except GroupHistoryError HistoryDb
  | .connect block => insertHistory group db block
  | .disconnect block => deleteHistory group db block

def stepChain (chain : List (Block tx aux)) : ChainStep tx aux -> List (Block tx aux)
  | .connect block => chain ++ [block]
  | .disconnect _ => chain.dropLast

/-- A connected block continues the numbering, and no member has too many transactions; a
disconnected block is the tip, and the right number of bytes is cut off. -/
def AllowedStep (chain : List (Block tx aux)) : ChainStep tx aux -> Prop
  | .connect block => Numbered (chain ++ [block]) ∧
      forall m, (chainTxNums group (chain ++ [block]) m).length < 2 ^ 32
  | .disconnect block => exists below, chain = below ++ [block] ∧
      forall m, TrimsRight group.txHistoryConf.pageSize (chainTxNums group below m)
        (memberTxNums group block m)

def emptyHistory : HistoryDb := fun _ => none

theorem holds_empty : Holds group [] emptyHistory where
  ascending := fun _ => List.Pairwise.nil
  count_lt := fun _ => Nat.two_pow_pos 32
  numTxs := fun _ => rfl
  pages := by
    intro m pageNum _
    exact (if_pos (page_nil pageNum)).symm
  others := fun _ _ => rfl

theorem stepHistory_holds {group : Group tx member aux}
    (hser : Function.Injective group.serMember) {db : HistoryDb}
    (step : ChainStep tx aux) (h : Numbered chain ∧ Holds group chain db)
    (hallowed : AllowedStep group chain step) :
    exists db', stepHistory group db step = .ok db' ∧
      Numbered (stepChain chain step) ∧ Holds group (stepChain chain step) db' := by
  cases step with
  | connect block =>
    rcases hallowed with ⟨hnumbered, hlt⟩
    rcases (insertHistory_holds hser hnumbered h.right).mpr hlt with ⟨db', hdb', hholds⟩
    exact ⟨db', hdb', hnumbered, hholds⟩
  | disconnect block =>
    rcases hallowed with ⟨_, hchain, htrims⟩
    subst hchain
    rcases (deleteHistory_holds hser h.left h.right).mpr htrims with ⟨db', hdb', hholds⟩
    refine ⟨db', hdb', ?_⟩
    unfold stepChain
    rw [dropLast_concat]
    exact ⟨h.left.init, hholds⟩

/-- The index holds the chain in every run in which each disconnect cuts off the right number of
bytes and no member has too many transactions; and a disconnect that does not, does not restore
the index. -/
theorem history_reorg_iff (hser : Function.Injective group.serMember) :
    (forall steps, AllowedRun stepChain (AllowedStep group) [] steps ->
      exists db, steps.foldlM (stepHistory group) emptyHistory = .ok db ∧
        Holds group (steps.foldl stepChain []) db) ∧
    forall chain block db, Numbered (chain ++ [block]) -> Holds group chain db ->
      ((exists db', insertHistory group db block = .ok db' ∧
          Holds group (chain ++ [block]) db') <->
        forall m, (chainTxNums group (chain ++ [block]) m).length < 2 ^ 32) ∧
      forall db', insertHistory group db block = .ok db' ->
        Holds group (chain ++ [block]) db' ->
        (deleteHistory group db' block = .ok db <->
          forall m, TrimsRight group.txHistoryConf.pageSize (chainTxNums group chain m)
            (memberTxNums group block m)) := by
  constructor
  · intro steps hallowed
    have hempty : Numbered ([] : List (Block tx aux)) := rfl
    rcases foldlM_simulates (fun db chain => Numbered chain ∧ Holds group chain db)
      (fun _ _ => stepHistory_holds hser) steps ⟨hempty, holds_empty group⟩ hallowed with
      ⟨db, hrun, hholds⟩
    exact ⟨db, hrun, hholds.right⟩
  · intro chain block db hnumbered h
    refine ⟨insertHistory_holds hser hnumbered h, ?_⟩
    intro db' _ h'
    rw [← deleteHistory_holds hser hnumbered h']
    constructor
    · intro hdeleted
      exact ⟨db, hdeleted, h⟩
    · rintro ⟨_, hrestored, hholds⟩
      rw [hrestored, h.unique hholds]

end Reorg

def exampleGroup (conf : GroupHistoryConf) : Group Bool Unit Unit where
  inputMembers := fun _ _ => []
  outputMembers := fun query _ => if query.tx then [⟨0, ()⟩] else []
  serMember := fun _ => [0]
  txHistoryConf := conf

def exampleBlock (first : Nat) (txs : List Bool) : Block Bool Unit where
  txs := txs.mapIdx fun idx tx => ⟨tx, first + idx, false, []⟩
  aux := ()

def pagesOfFour : GroupHistoryConf where
  pageSize := 4
  pageSize_pos := by decide
  pageSize_lt := by decide

theorem exampleGroup_injective (conf : GroupHistoryConf) :
    Function.Injective (exampleGroup conf).serMember :=
  fun _ _ _ => rfl

/-- Of five transactions the last four are disconnected again: a page is deleted, and the
other one is cut. -/
theorem history_reorg_iff_five :
    exists db, [.connect (exampleBlock 0 [true]), .connect (exampleBlock 1 (replicate 4 true)),
        .disconnect (exampleBlock 1 (replicate 4 true))].foldlM
          (stepHistory (exampleGroup pagesOfFour)) emptyHistory = .ok db ∧
      Holds (exampleGroup pagesOfFour) [exampleBlock 0 [true]] db := by
  refine (history_reorg_iff (exampleGroup pagesOfFour) (exampleGroup_injective _)).left
    [.connect (exampleBlock 0 [true]), .connect (exampleBlock 1 (replicate 4 true)),
      .disconnect (exampleBlock 1 (replicate 4 true))]
    ⟨⟨rfl, ?_⟩, ⟨rfl, ?_⟩, ⟨[exampleBlock 0 [true]], rfl, ?_⟩, trivial⟩
  · rintro ⟨⟩
    decide
  · rintro ⟨⟩
    decide
  · rintro ⟨⟩
    exact .inr (by decide +kernel)

/-- The transaction 0, and then the transactions 127 to 130, which come to two pages. -/
def exampleBelow : Block Bool Unit := exampleBlock 0 (true :: replicate 126 false)
def exampleTip : Block Bool Unit := exampleBlock 127 [true, true, true, true]

/-- Transaction 0 is lost from its page: three transactions are to be removed from this page, and
for the last three, 128 to 130, one byte more is cut off than for 127 to 129. -/
theorem deleteHistory_loses_first :
    Function.Injective (exampleGroup pagesOfFour).serMember ∧
    Numbered [exampleBelow, exampleTip] ∧
    (do
      let below ← insertHistory (exampleGroup pagesOfFour) emptyHistory exampleBelow
      let tip ← insertHistory (exampleGroup pagesOfFour) below exampleTip
      let restored ← deleteHistory (exampleGroup pagesOfFour) tip exampleTip
      let before ← getPageTxs below [0] 0
      let first ← getPageTxs tip [0] 0
      let second ← getPageTxs tip [0] 1
      let after ← getPageTxs restored [0] 0
      .ok (before, first, second, after)) =
    .ok (some [0], some [0, 127, 128, 129], some [130], some []) :=
  ⟨exampleGroup_injective _, by unfold Numbered; decide +kernel, by decide +kernel⟩

end ECash.Index
