import ECash.Index.UtxoChain

/-!
# What a block does to the utxos and spends of a chain

A block adds its outputs to the unspent ones and takes away what it spends, and all of this is
undone when it is disconnected.  The order of the transactions within the block does not matter.
-/

namespace ECash.Index

open Foundation List

/-!
## Groups of output content
-/

variable {member aux : Type}

/-- The members of outputs, with the index of the output. -/
def itemsOf (membersOf : TxOutput -> List member) (outputs : List TxOutput) :
    List (MemberItem member) :=
  outputs.zipIdx.flatMap fun entry => (membersOf entry.1).map fun m => ⟨entry.2, m⟩

def coinOutput (input : TxInput) : Option TxOutput :=
  input.coin.map Coin.output

/-- The members of a transaction are those of the content of its outputs, and of the coins of
its inputs; the members of one output have different keys. -/
structure OfOutputs (group : Group Tx member aux) (membersOf : TxOutput -> List member) : Prop where
  outputs : forall query aux, group.outputMembers query aux = itemsOf membersOf query.tx.outputs
  inputs : forall query aux, query.isCoinbase = false ->
    (forall input, input ∈ query.tx.inputs -> input.coin.isSome) ->
    group.inputMembers query aux = itemsOf membersOf (query.tx.inputs.filterMap coinOutput)
  keys : forall output, ((membersOf output).map group.serMember).Nodup

variable {key : Bytes} {points : List (DbOutpoint × TxOutput)}

section Entries

variable {member aux data : Type} {group : Group Tx member aux} {utxoData : UtxoData data}
  {membersOf : TxOutput -> List member}

variable (group utxoData membersOf) in
def entriesAt (point : DbOutpoint × TxOutput) : List (Bytes × UtxoEntry data) :=
  (membersOf point.2).map fun m =>
    (group.serMember m, ⟨point.1, utxoData.fromOutput point.2⟩)

theorem mem_entriesAt {point : DbOutpoint × TxOutput} {entry : UtxoEntry data} :
    (key, entry) ∈ entriesAt group utxoData membersOf point <->
      entry = ⟨point.1, utxoData.fromOutput point.2⟩ ∧
        key ∈ (membersOf point.2).map group.serMember := by
  unfold entriesAt
  rw [mem_map, mem_map]
  constructor
  · rintro ⟨m, hm, ⟨⟩⟩
    exact ⟨rfl, m, hm, rfl⟩
  · rintro ⟨heq, m, hm, hkey⟩
    exact ⟨m, hm, by rw [heq, hkey]⟩

theorem nodup_entries (hof : OfOutputs group membersOf) (h : (points.map Prod.fst).Nodup) :
    ((points.flatMap (entriesAt group utxoData membersOf)).map fun entry =>
      (entry.1, entry.2.outpoint)).Nodup := by
  rw [map_flatMap, nodup_flatMap]
  constructor
  · intro point _
    refine Nodup.of_map Prod.fst ?_
    unfold entriesAt
    rw [map_map, map_map]
    exact hof.keys point.2
  · refine (pairwise_map.mp h).imp ?_
    intro point point' hne
    rw [Function.onFun]
    intro pair hmem hmem'
    unfold entriesAt at hmem hmem'
    rw [map_map, mem_map] at hmem hmem'
    rcases hmem with ⟨_, _, heq⟩
    rcases hmem' with ⟨_, _, heq'⟩
    exact hne (congrArg Prod.snd (heq.trans heq'.symm))

variable {indexTx : IndexTx Tx}

theorem mapM_items {outputs : List (TxOutput × Nat)}
    {utxo : IndexTx Tx -> Nat -> Except GroupUtxoError (UtxoEntry data)}
    (point : TxOutput × Nat -> DbOutpoint × TxOutput)
    (h : forall entry, entry ∈ outputs -> (point entry).2 = entry.1 ∧
      utxo indexTx entry.2 = .ok ⟨(point entry).1, utxoData.fromOutput entry.1⟩) :
    (((outputs.flatMap fun entry => (membersOf entry.1).map fun m =>
        (⟨entry.2, m⟩ : MemberItem member)).map fun item => (indexTx, item)).mapM
      fun entry => do
        let utxo ← utxo entry.1 entry.2.idx
        .ok (group.serMember entry.2.member, utxo)) =
      .ok ((outputs.map point).flatMap (entriesAt group utxoData membersOf)) := by
  rw [map_flatMap, flatMap_map]
  apply mapM_flatMap_eq
  intro entry hentry
  rcases h entry hentry with ⟨houtput, hutxo⟩
  have hentries : entriesAt group utxoData membersOf (point entry) =
      (((membersOf entry.1).map fun m => (⟨entry.2, m⟩ : MemberItem member)).map fun item =>
        (indexTx, item)).map fun pair =>
          (group.serMember pair.2.member, ⟨(point entry).1, utxoData.fromOutput entry.1⟩) := by
    unfold entriesAt
    rw [map_map, map_map, houtput]
    rfl
  rw [hentries]
  apply mapM_eq_map
  intro pair hpair
  rcases mem_map.mp hpair with ⟨_, hitem, heq⟩
  rcases mem_map.mp hitem with ⟨_, _, hm⟩
  subst heq hm
  rw [hutxo]
  rfl

theorem outputEntries_eq (hof : OfOutputs group membersOf) (block : Block Tx aux) :
    outputEntries group utxoData block =
      .ok ((blockOutputs block.txs).flatMap (entriesAt group utxoData membersOf)) := by
  unfold outputEntries blockOutputs
  rw [flatMap_assoc]
  apply mapM_flatMap_eq
  intro indexTx _
  rw [hof.outputs]
  apply mapM_items
  rintro ⟨output, outIdx⟩ hentry
  refine ⟨rfl, ?_⟩
  have hat : indexTx.tx.outputs[outIdx]? = some output := mk_mem_zipIdx_iff_getElem?.mp hentry
  unfold outputUtxo
  rw [hat]

def coinsAt (indexTx : IndexTx Tx) : List (DbOutpoint × TxOutput) :=
  (indexTx.tx.inputs.filterMap coinOutput).zipIdx.map fun entry =>
    (⟨(indexTx.inputNums[entry.2]?).getD 0,
      ((indexTx.tx.inputs[entry.2]?).map fun input => input.prevOut.outIdx).getD 0⟩, entry.1)

theorem getElem?_filterMap {a b : Type} {f : a -> Option b} {xs : List a}
    (h : forall x, x ∈ xs -> (f x).isSome) (idx : Nat) :
    (xs.filterMap f)[idx]? = (xs[idx]?).bind f := by
  induction xs generalizing idx with
  | nil => rfl
  | cons x xs ih =>
    rcases Option.isSome_iff_exists.mp (h x mem_cons_self) with ⟨_, hy⟩
    rw [filterMap_cons_some hy]
    cases idx with
    | zero => exact hy.symm
    | succ idx => exact ih (forall_mem_cons.mp h).2 idx

def HasCoins (indexTx : IndexTx Tx) : Prop :=
  indexTx.inputNums.length = indexTx.tx.inputs.length ∧
    forall input, input ∈ indexTx.tx.inputs -> input.coin.isSome

theorem HasCoins.input (h : HasCoins indexTx) {inputIdx : Nat} {input : TxInput}
    (hinput : indexTx.tx.inputs[inputIdx]? = some input) :
    exists inputNum coin, indexTx.inputNums[inputIdx]? = some inputNum ∧
      input.coin = some coin := by
  have hlt := getElem?_lt hinput
  rw [← h.left] at hlt
  rcases Option.isSome_iff_exists.mp (h.right input (mem_of_getElem? hinput)) with ⟨coin, hcoin⟩
  exact ⟨_, coin, getElem?_eq_getElem hlt, hcoin⟩

theorem HasCoins.getElem?_outputs (h : HasCoins indexTx) (inputIdx : Nat) :
    (indexTx.tx.inputs.filterMap coinOutput)[inputIdx]? =
      (indexTx.tx.inputs[inputIdx]?).bind coinOutput := by
  apply getElem?_filterMap
  intro input hinput
  unfold coinOutput
  rw [Option.isSome_map]
  exact h.right input hinput

theorem HasCoins.coinsAt_eq (h : HasCoins indexTx) :
    (((indexTx.tx.inputs.zip indexTx.inputNums).mapIdx fun inputIdx entry =>
      (⟨indexTx.txNum, inputIdx, entry.1, entry.2⟩ : InputAt)).filterMap fun place =>
        place.input.coin.map fun coin => (place.outpoint, coin.output)) = coinsAt indexTx := by
  apply ext_getElem?
  intro idx
  rw [getElem?_filterMap, getElem?_mapIdx]
  · unfold coinsAt
    rw [getElem?_map, getElem?_zipIdx, h.getElem?_outputs]
    cases hinput : indexTx.tx.inputs[idx]? with
    | none =>
      have hzip : (indexTx.tx.inputs.zip indexTx.inputNums)[idx]? = none := by
        rw [getElem?_eq_none_iff] at hinput ⊢
        rw [length_zip]
        omega
      rw [hzip]
      rfl
    | some input =>
      rcases h.input hinput with ⟨inputNum, _, hnum, hcoin⟩
      have hzip : (indexTx.tx.inputs.zip indexTx.inputNums)[idx]? = some (input, inputNum) :=
        getElem?_zip_eq_some.mpr ⟨hinput, hnum⟩
      simp [hzip, hinput, hnum, hcoin, coinOutput, InputAt.outpoint]
  · intro place hplace
    rcases mem_mapIdx.mp hplace with ⟨_, hlt, heq⟩
    have hmem := of_mem_zip (getElem_mem hlt)
    subst heq
    rw [Option.isSome_map]
    exact h.right _ hmem.left

theorem blockCoins_eq {indexTxs : List (IndexTx Tx)}
    (h : forall indexTx, indexTx ∈ indexTxs -> indexTx.isCoinbase = false -> HasCoins indexTx) :
    blockCoins indexTxs = (indexTxs.filter fun indexTx => !indexTx.isCoinbase).flatMap coinsAt := by
  unfold blockCoins blockInputs
  rw [filterMap_flatMap]
  apply flatMap_congr
  intro indexTx hmem
  rcases mem_filter.mp hmem with ⟨hin, hcoinbase⟩
  exact (h indexTx hin (by simpa using hcoinbase)).coinsAt_eq

theorem inputEntries_eq (hof : OfOutputs group membersOf) {block : Block Tx aux}
    (h : forall indexTx, indexTx ∈ block.txs -> indexTx.isCoinbase = false -> HasCoins indexTx) :
    inputEntries group utxoData block =
      .ok ((blockCoins block.txs).flatMap (entriesAt group utxoData membersOf)) := by
  rw [blockCoins_eq h, flatMap_assoc]
  apply mapM_flatMap_eq
  intro indexTx hmem
  rcases mem_filter.mp hmem with ⟨hin, hcoinbase⟩
  have hfalse : indexTx.isCoinbase = false := by simpa using hcoinbase
  have hcoins := h indexTx hin hfalse
  rw [hof.inputs _ _ hfalse hcoins.right]
  apply mapM_items
  rintro ⟨output, inputIdx⟩ hentry
  refine ⟨rfl, ?_⟩
  have hat : (indexTx.tx.inputs.filterMap coinOutput)[inputIdx]? = some output :=
    mk_mem_zipIdx_iff_getElem?.mp hentry
  rw [hcoins.getElem?_outputs] at hat
  rcases Option.bind_eq_some_iff.mp hat with ⟨_, hinput, houtput⟩
  rcases hcoins.input hinput with ⟨_, _, hnum, hcoin⟩
  unfold coinOutput at houtput
  rw [hcoin] at houtput
  cases houtput
  unfold inputUtxo
  simp only [hnum, hinput, hcoin, Option.map_some, Option.getD_some]

end Entries

/-!
## The unspent outputs before and after a block
-/

def Unspent (txs : List (Bool × Tx)) (outpoint : DbOutpoint) (output : TxOutput) : Prop :=
  HasOutput txs outpoint output ∧ forall txNum inputIdx, ¬ Spends txs outpoint txNum inputIdx

section Unspent

variable {txs : List (Bool × Tx)} {block : List Tx} {outpoint : DbOutpoint} {output : TxOutput}
  (hvalid : ValidTxs txs) (hvalid' : ValidTxs (txs ++ blockTxs block))

include hvalid hvalid'

omit hvalid' in
/-- The outputs that can be spent by the block: the unspent ones and those of the block. -/
theorem unspent_or_created :
    Unspent txs outpoint output ∨
        (txs.length ≤ outpoint.txNum ∧ HasOutput (txs ++ blockTxs block) outpoint output) <->
      HasOutput (txs ++ blockTxs block) outpoint output ∧
        forall txNum inputIdx, ¬ Spends txs outpoint txNum inputIdx := by
  constructor
  · rintro (⟨hout, hunspent⟩ | ⟨hle, hout⟩)
    · exact ⟨(hasOutput_append hout.lt).mpr hout, hunspent⟩
    · refine ⟨hout, ?_⟩
      intro txNum inputIdx hspends
      rcases hspends.hasOutput hvalid with ⟨_, hsource⟩
      exact not_lt.mpr hle hsource.lt
  · rintro ⟨hout, hunspent⟩
    by_cases hlt : outpoint.txNum < txs.length
    · exact .inl ⟨(hasOutput_append hlt).mp hout, hunspent⟩
    · exact .inr ⟨not_lt.mp hlt, hout⟩

/-- They are unspent afterwards or spent by the block. -/
theorem unspent_or_spent :
    Unspent (txs ++ blockTxs block) outpoint output ∨
        ((exists txNum inputIdx, txs.length ≤ txNum ∧
          Spends (txs ++ blockTxs block) outpoint txNum inputIdx) ∧
        HasOutput (txs ++ blockTxs block) outpoint output) <->
      HasOutput (txs ++ blockTxs block) outpoint output ∧
        forall txNum inputIdx, ¬ Spends txs outpoint txNum inputIdx := by
  constructor
  · rintro (⟨hout, hunspent⟩ | ⟨⟨txNum, inputIdx, hle, hspends⟩, hout⟩)
    · exact ⟨hout, fun txNum inputIdx hspends => hunspent txNum inputIdx hspends.append⟩
    · refine ⟨hout, ?_⟩
      intro txNum' inputIdx' hspends'
      rw [(hspends.unique hvalid' hspends'.append).left] at hle
      rcases hspends' with ⟨_, _, _, _, htx, _⟩
      exact not_lt.mpr hle (getElem?_lt htx)
  · rintro ⟨hout, hunspent⟩
    by_cases hspent : exists txNum inputIdx, Spends (txs ++ blockTxs block) outpoint txNum inputIdx
    · rcases hspent with ⟨txNum, inputIdx, hspends⟩
      refine .inr ⟨⟨txNum, inputIdx, ?_, hspends⟩, hout⟩
      by_contra hlt
      exact hunspent txNum inputIdx (hspends.of_append hvalid hvalid' (not_le.mp hlt))
    · refine .inl ⟨hout, ?_⟩
      intro txNum inputIdx hspends
      exact hspent ⟨txNum, inputIdx, hspends⟩

end Unspent

section Utxos

variable {member aux data : Type} (group : Group Tx member aux) (utxoData : UtxoData data)
  (membersOf : TxOutput -> List member)

/-- The entries of a key: the unspent outputs with a member that has this key. -/
def UtxoUnder (txs : List (Bool × Tx)) (key : Bytes) (entry : UtxoEntry data) : Prop :=
  exists output, Unspent txs entry.outpoint output ∧
    entry.data = utxoData.fromOutput output ∧ key ∈ (membersOf output).map group.serMember

variable {group utxoData membersOf} {entry other : UtxoEntry data} {db : UtxoDb data}

theorem mem_entries :
    (key, entry) ∈ points.flatMap (entriesAt group utxoData membersOf) <->
      exists output, (entry.outpoint, output) ∈ points ∧
        entry.data = utxoData.fromOutput output ∧ key ∈ (membersOf output).map group.serMember := by
  rw [mem_flatMap]
  constructor
  · rintro ⟨⟨_, output⟩, hmem, hentry⟩
    rcases mem_entriesAt.mp hentry with ⟨heq, hkey⟩
    subst heq
    exact ⟨output, hmem, rfl, hkey⟩
  · rintro ⟨output, hmem, hdata, hkey⟩
    refine ⟨(entry.outpoint, output), hmem, mem_entriesAt.mpr ⟨?_, hkey⟩⟩
    rw [← hdata]

variable {txs : List (Bool × Tx)} {block : List Tx} (hof : OfOutputs group membersOf)
  (hvalid : ValidTxs txs) (hvalid' : ValidTxs (txs ++ blockTxs block))

include hvalid hvalid'

theorem utxoUnder_exchange (key : Bytes) (entry : UtxoEntry data) :
    UtxoUnder group utxoData membersOf txs key entry ∨
        (key, entry) ∈ (blockOutputs (indexBlock txs block)).flatMap
          (entriesAt group utxoData membersOf) <->
      UtxoUnder group utxoData membersOf (txs ++ blockTxs block) key entry ∨
        (key, entry) ∈ (blockCoins (indexBlock txs block)).flatMap
          (entriesAt group utxoData membersOf) := by
  unfold UtxoUnder
  rw [mem_entries, mem_entries, ← exists_or, ← exists_or]
  apply exists_congr
  intro output
  rw [← or_and_right, ← or_and_right, mem_blockOutputs, mem_blockCoins hvalid',
    unspent_or_created hvalid, unspent_or_spent hvalid hvalid']

omit hvalid hvalid' in
theorem UtxoUnder.outpoint_ne_created (hother : UtxoUnder group utxoData membersOf txs key other)
    (hentry : (key, entry) ∈ (blockOutputs (indexBlock txs block)).flatMap
      (entriesAt group utxoData membersOf)) : other.outpoint ≠ entry.outpoint := by
  rcases hother with ⟨_, ⟨hout, _⟩, _⟩
  rcases mem_entries.mp hentry with ⟨_, hmem, _⟩
  have hlt := hout.lt
  intro heq
  rw [heq] at hlt
  exact not_lt.mpr (mem_blockOutputs.mp hmem).left hlt

omit hvalid in
theorem UtxoUnder.outpoint_ne_spent
    (hother : UtxoUnder group utxoData membersOf (txs ++ blockTxs block) key other)
    (hentry : (key, entry) ∈ (blockCoins (indexBlock txs block)).flatMap
      (entriesAt group utxoData membersOf)) : other.outpoint ≠ entry.outpoint := by
  rcases hother with ⟨_, ⟨_, hunspent⟩, _⟩
  rcases mem_entries.mp hentry with ⟨_, hmem, _⟩
  rcases ((mem_blockCoins hvalid').mp hmem).left with ⟨txNum, inputIdx, _, hspends⟩
  intro heq
  rw [← heq] at hspends
  exact hunspent txNum inputIdx hspends

omit hvalid in
theorem hasCoins_indexBlock {indexTx : IndexTx Tx} (hmem : indexTx ∈ indexBlock txs block)
    (hcoinbase : indexTx.isCoinbase = false) : HasCoins indexTx := by
  rcases mem_indexBlock.mp hmem with ⟨txIdx, tx, hat, heq⟩
  subst heq
  have hzero : txIdx ≠ 0 := of_decide_eq_false hcoinbase
  have htx := getElem?_spender txs hat hzero
  constructor
  · simp [indexTxAt, hzero]
  · intro input hinput
    rcases hvalid'.sources tx (mem_of_getElem? htx) input hinput with ⟨_, _, _, _, _, _, hcoin⟩
    rw [hcoin]
    rfl

include hof

theorem insertUtxos_lists (aux : aux)
    (h : forall key, Lists db key (UtxoUnder group utxoData membersOf txs key)) :
    exists db', insertUtxos group utxoData db ⟨indexBlock txs block, aux⟩ = .ok db' ∧
      forall key, Lists db' key
        (UtxoUnder group utxoData membersOf (txs ++ blockTxs block) key) := by
  unfold insertUtxos
  rw [outputEntries_eq hof, inputEntries_eq hof fun _ hmem => hasCoins_indexBlock hvalid' hmem]
  exact writeUtxos_lists h (nodup_entries hof nodup_blockOutputs)
    (nodup_entries hof (nodup_blockCoins hvalid'))
    (fun _ _ _ hother hentry => hother.outpoint_ne_created hentry)
    (fun _ _ _ hother hentry => hother.outpoint_ne_spent hvalid' hentry)
    (utxoUnder_exchange hvalid hvalid')

theorem deleteUtxos_lists (aux : aux) (h : forall key, Lists db key
      (UtxoUnder group utxoData membersOf (txs ++ blockTxs block) key)) :
    exists db', deleteUtxos group utxoData db ⟨indexBlock txs block, aux⟩ = .ok db' ∧
      forall key, Lists db' key (UtxoUnder group utxoData membersOf txs key) := by
  unfold deleteUtxos
  rw [outputEntries_eq hof, inputEntries_eq hof fun _ hmem => hasCoins_indexBlock hvalid' hmem]
  exact writeUtxos_lists h (nodup_entries hof (nodup_blockCoins hvalid'))
    (nodup_entries hof nodup_blockOutputs)
    (fun _ _ _ hother hentry => hother.outpoint_ne_spent hvalid' hentry)
    (fun _ _ _ hother hentry => hother.outpoint_ne_created hentry)
    (fun key entry => (utxoUnder_exchange hvalid hvalid' key entry).symm)

end Utxos

section Spends

variable {txs : List (Bool × Tx)} {block : List Tx}

def SpendUnder (txs : List (Bool × Tx)) (txNum : TxNum) (entry : SpentByEntry) : Prop :=
  Spends txs ⟨txNum, entry.outIdx⟩ entry.txNum entry.inputIdx

theorem SpendUnder.lt {txNum : TxNum} {entry : SpentByEntry} (h : SpendUnder txs txNum entry) :
    entry.txNum < txs.length := by
  rcases h with ⟨_, _, _, _, htx, _⟩
  exact getElem?_lt htx

variable (hvalid : ValidTxs txs) (hvalid' : ValidTxs (txs ++ blockTxs block))

include hvalid hvalid'

theorem spendUnder_append (txNum : TxNum) (entry : SpentByEntry) :
    SpendUnder (txs ++ blockTxs block) txNum entry <->
      SpendUnder txs txNum entry ∨ (txNum, entry) ∈ blockSpends (indexBlock txs block) := by
  rw [mem_blockSpends hvalid']
  constructor
  · intro h
    by_cases hlt : entry.txNum < txs.length
    · exact .inl (Spends.of_append hvalid hvalid' h hlt)
    · exact .inr ⟨not_lt.mp hlt, h⟩
  · rintro (h | h)
    · exact Spends.append h
    · exact h.right

theorem insertSpentBy_spends {db : SpentByDb}
    (h : forall txNum, ListsSpends db txNum (SpendUnder txs txNum)) :
    exists db', insertSpentBy db (indexBlock txs block) = .ok db' ∧
      forall txNum, ListsSpends db' txNum (SpendUnder (txs ++ blockTxs block) txNum) := by
  apply insertSpentBy_lists h (nodup_blockSpends hvalid') _ (spendUnder_append hvalid hvalid')
  intro txNum entry hentry other hother heq
  rcases (mem_blockSpends hvalid').mp hentry with ⟨hle, hspends⟩
  have hlt := hother.lt
  unfold SpendUnder at hother
  rw [heq] at hother
  rw [(hother.append.unique hvalid' hspends).left] at hlt
  exact not_lt.mpr hle hlt

theorem deleteSpentBy_spends {db : SpentByDb}
    (h : forall txNum, ListsSpends db txNum (SpendUnder (txs ++ blockTxs block) txNum)) :
    exists db', deleteSpentBy db (indexBlock txs block) = .ok db' ∧
      forall txNum, ListsSpends db' txNum (SpendUnder txs txNum) := by
  apply deleteSpentBy_lists h (nodup_blockSpends hvalid').of_map
  · intro txNum entry hentry
    exact (spendUnder_append hvalid hvalid' txNum entry).mpr (.inr hentry)
  intro txNum entry
  have hapart : SpendUnder txs txNum entry ->
      (txNum, entry) ∉ blockSpends (indexBlock txs block) := by
    intro hspend hentry
    exact not_lt.mpr ((mem_blockSpends hvalid').mp hentry).left hspend.lt
  have := spendUnder_append hvalid hvalid' txNum entry
  tauto

end Spends

end ECash.Index
