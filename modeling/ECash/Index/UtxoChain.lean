import ECash.Foundation.Simulation
import ECash.Index.GroupUtxos
import ECash.Index.SpentBy

/-!
# Utxos and spends over connects and disconnects

The utxos of a group and the spent outputs, for a chain of blocks that grows and is cut back.
-/

namespace ECash.Index

open Foundation List

/-!
## The chain
-/

def blockTxs (txs : List Tx) : List (Bool × Tx) :=
  txs.zipIdx.map fun entry => (decide (entry.2 = 0), entry.1)

/-- The transactions of a chain of blocks; the number of a transaction is its index. -/
def chainTxs (chain : List (List Tx)) : List (Bool × Tx) :=
  chain.flatMap blockTxs

section Content

variable (txs : List (Bool × Tx))

def HasOutput (outpoint : DbOutpoint) (output : TxOutput) : Prop :=
  exists isCoinbase tx, txs[outpoint.txNum]? = some (isCoinbase, tx) ∧
    tx.outputs[outpoint.outIdx]? = some output

def Spends (outpoint : DbOutpoint) (txNum : TxNum) (inputIdx : Nat) : Prop :=
  exists tx input isCoinbase source, txs[txNum]? = some (false, tx) ∧
    tx.inputs[inputIdx]? = some input ∧
    txs[outpoint.txNum]? = some (isCoinbase, source) ∧
    input.prevOut = ⟨source.txid, outpoint.outIdx⟩

def spentOutPoints : List OutPoint :=
  txs.flatMap fun entry => if entry.1 then [] else entry.2.inputs.map TxInput.prevOut

/-- Ids are different, each spent output exists and is the coin of the input, and no output is
spent twice. -/
structure ValidTxs : Prop where
  txids : (txs.map fun entry => entry.2.txid).Nodup
  sources : forall tx, (false, tx) ∈ txs -> forall input, input ∈ tx.inputs ->
    exists isCoinbase source output, (isCoinbase, source) ∈ txs ∧ source.txid = input.prevOut.txid ∧
      source.outputs[input.prevOut.outIdx]? = some output ∧ input.coin = some ⟨output⟩
  once : (spentOutPoints txs).Nodup

def txNumOf (txid : TxId) : Option TxNum :=
  txs.findIdx? fun entry => entry.2.txid == txid

end Content

def ValidChain (chain : List (List Tx)) : Prop :=
  forall height, ValidTxs (chainTxs (chain.take height))

variable {txNum : TxNum} {isCoinbase : Bool} {tx : Tx} {txid : TxId} {txNum' : TxNum}
  {txIdx : Nat}

variable {txs block : List (Bool × Tx)}

theorem ValidTxs.txNumOf_eq (h : ValidTxs txs) (hat : txs[txNum]? = some (isCoinbase, tx)) :
    txNumOf txs tx.txid = some txNum := by
  rcases List.getElem?_eq_some_iff.mp hat with ⟨hlt, heq⟩
  unfold txNumOf
  rw [findIdx?_eq_some_iff_getElem]
  refine ⟨hlt, by simp [heq], ?_⟩
  intro j hj
  have hne := pairwise_iff_getElem.mp h.txids j txNum (by rw [length_map]; omega)
    (by rw [length_map]; exact hlt) hj
  rw [getElem_map, getElem_map, heq] at hne
  simpa using hne

theorem txNumOf_spec (h : txNumOf txs txid = some txNum) :
    exists isCoinbase tx, txs[txNum]? = some (isCoinbase, tx) ∧ tx.txid = txid := by
  rcases findIdx?_eq_some_iff_getElem.mp h with ⟨hlt, heq, _⟩
  exact ⟨txs[txNum].1, txs[txNum].2, getElem?_eq_getElem hlt, by simpa using heq⟩

theorem ValidTxs.txNum_inj (h : ValidTxs txs) {isCoinbase' : Bool} {tx' : Tx}
    (hat : txs[txNum]? = some (isCoinbase, tx)) (hat' : txs[txNum']? = some (isCoinbase', tx'))
    (htxid : tx.txid = tx'.txid) : txNum = txNum' := by
  have hnum := h.txNumOf_eq hat
  rw [htxid, h.txNumOf_eq hat'] at hnum
  exact (Option.some.inj hnum).symm

theorem txNumOf_append_of_notMem (h : txid ∉ block.map fun entry => entry.2.txid) :
    txNumOf (txs ++ block) txid = txNumOf txs txid := by
  unfold txNumOf
  rw [findIdx?_append]
  have hnone : block.findIdx? (fun entry => entry.2.txid == txid) = none := by
    rw [findIdx?_eq_none_iff]
    intro entry hentry
    rw [beq_eq_false_iff_ne]
    exact fun heq => h (heq ▸ mem_map_of_mem hentry)
  rw [hnone]
  simp

/-!
## What is in a longer chain
-/

section Longer

variable {txs block : List (Bool × Tx)} {outpoint : DbOutpoint} {output : TxOutput}

theorem hasOutput_append (hlt : outpoint.txNum < txs.length) :
    HasOutput (txs ++ block) outpoint output <-> HasOutput txs outpoint output := by
  unfold HasOutput
  rw [getElem?_append_left hlt]

theorem HasOutput.lt (h : HasOutput txs outpoint output) : outpoint.txNum < txs.length := by
  rcases h with ⟨_, _, hat, _⟩
  exact getElem?_lt hat

theorem HasOutput.unique {output' : TxOutput} (h : HasOutput txs outpoint output)
    (h' : HasOutput txs outpoint output') : output = output' := by
  rcases h with ⟨_, _, hat, hout⟩
  rcases h' with ⟨_, _, hat', hout'⟩
  rw [hat] at hat'
  cases hat'
  rw [hout] at hout'
  cases hout'
  rfl

variable {inputIdx : Nat}

theorem Spends.append (h : Spends txs outpoint txNum inputIdx) :
    Spends (txs ++ block) outpoint txNum inputIdx := by
  rcases h with ⟨tx, input, isCoinbase, source, htx, hinput, hsource, hprev⟩
  exact ⟨tx, input, isCoinbase, source, getElem?_append_of_some htx _, hinput,
    getElem?_append_of_some hsource _, hprev⟩

theorem Spends.of_append (hvalid : ValidTxs txs) (hvalid' : ValidTxs (txs ++ block))
    (h : Spends (txs ++ block) outpoint txNum inputIdx) (hlt : txNum < txs.length) :
    Spends txs outpoint txNum inputIdx := by
  rcases h with ⟨tx, input, isCoinbase, source, htx, hinput, hsource, hprev⟩
  rw [getElem?_append_left hlt] at htx
  rcases hvalid.sources tx (mem_of_getElem? htx) input (mem_of_getElem? hinput) with
    ⟨isCoinbase', source', _, hmem, htxid, _⟩
  rcases mem_iff_getElem?.mp hmem with ⟨n, hn⟩
  have hsame : outpoint.txNum = n := by
    refine hvalid'.txNum_inj hsource (getElem?_append_of_some hn _) ?_
    rw [htxid, hprev]
  rw [hsame, getElem?_append_of_some hn _] at hsource
  cases hsource
  exact ⟨tx, input, isCoinbase, source, htx, hinput, by rw [hsame]; exact hn, hprev⟩

theorem ValidTxs.spends (h : ValidTxs txs) {input : TxInput}
    (htx : txs[txNum]? = some (false, tx)) (hinput : tx.inputs[inputIdx]? = some input) :
    exists sourceNum output, txNumOf txs input.prevOut.txid = some sourceNum ∧
      Spends txs ⟨sourceNum, input.prevOut.outIdx⟩ txNum inputIdx ∧
      HasOutput txs ⟨sourceNum, input.prevOut.outIdx⟩ output ∧ input.coin = some ⟨output⟩ := by
  rcases h.sources tx (mem_of_getElem? htx) input (mem_of_getElem? hinput) with
    ⟨isCoinbase, source, output, hmem, htxid, hout, hcoin⟩
  rcases mem_iff_getElem?.mp hmem with ⟨n, hn⟩
  refine ⟨n, output, ?_, ⟨tx, input, isCoinbase, source, htx, hinput, hn, ?_⟩,
    ⟨isCoinbase, source, hn, hout⟩, hcoin⟩
  · rw [← htxid]
    exact h.txNumOf_eq hn
  · rw [htxid]

theorem Spends.hasOutput (hvalid : ValidTxs txs) (h : Spends txs outpoint txNum inputIdx) :
    exists output, HasOutput txs outpoint output := by
  rcases h with ⟨_, input, _, source, htx, hinput, hsource, hprev⟩
  rcases hvalid.spends htx hinput with ⟨_, output, hnum, _, hout, _⟩
  have htxid : input.prevOut.txid = source.txid := by rw [hprev]
  have houtIdx : input.prevOut.outIdx = outpoint.outIdx := by rw [hprev]
  rw [htxid, hvalid.txNumOf_eq hsource] at hnum
  cases hnum
  rw [houtIdx] at hout
  exact ⟨output, hout⟩

/-- An element of a list without duplicates is at one place only, also when the list is put
together of parts. -/
theorem nodup_flatMap_place {a b : Type} {f : a -> List b} {xs : List a}
    (h : (xs.flatMap f).Nodup) {i i' j j' : Nat} {x x' : a} {y : b} (hx : xs[i]? = some x)
    (hy : (f x)[j]? = some y) (hx' : xs[i']? = some x') (hy' : (f x')[j']? = some y) :
    i = i' ∧ j = j' := by
  rw [nodup_flatMap] at h
  have hapart : forall {k l : Nat} {z w : a}, k < l -> xs[k]? = some z -> xs[l]? = some w ->
      y ∈ f z -> y ∉ f w := by
    intro k l z w hlt hz hw
    rcases List.getElem?_eq_some_iff.mp hz with ⟨hk, rfl⟩
    rcases List.getElem?_eq_some_iff.mp hw with ⟨hl, rfl⟩
    exact fun hin => pairwise_iff_getElem.mp h.right k l hk hl hlt hin
  rcases Nat.lt_trichotomy i i' with hlt | rfl | hlt
  · exact absurd (mem_of_getElem? hy') (hapart hlt hx hx' (mem_of_getElem? hy))
  · cases hx.symm.trans hx'
    exact ⟨rfl, (List.getElem?_inj (getElem?_lt hy)
      (h.left x (mem_of_getElem? hx))).mp (hy.trans hy'.symm)⟩
  · exact absurd (mem_of_getElem? hy) (hapart hlt hx' hx (mem_of_getElem? hy'))

theorem Spends.unique (hvalid : ValidTxs txs) {inputIdx' : Nat}
    (h : Spends txs outpoint txNum inputIdx) (h' : Spends txs outpoint txNum' inputIdx') :
    txNum = txNum' ∧ inputIdx = inputIdx' := by
  rcases h with ⟨tx, input, _, source, htx, hinput, hsource, hprev⟩
  rcases h' with ⟨_, _, _, _, htx', hinput', hsource', hprev'⟩
  rw [hsource] at hsource'
  cases hsource'
  have hplace : forall {tx : Tx} {inputIdx : Nat} {input : TxInput},
      tx.inputs[inputIdx]? = some input -> input.prevOut = ⟨source.txid, outpoint.outIdx⟩ ->
      (if (false, tx).1 then [] else (false, tx).2.inputs.map TxInput.prevOut)[inputIdx]? =
        some (⟨source.txid, outpoint.outIdx⟩ : OutPoint) := by
    intro tx inputIdx input hinput hprev
    rw [if_neg Bool.false_ne_true, getElem?_map, hinput, ← hprev]
    rfl
  exact nodup_flatMap_place hvalid.once htx (hplace hinput hprev) htx' (hplace hinput' hprev')

end Longer

/-!
## The transactions of a block as they are indexed
-/

variable {place : InputAt}

section Block

variable (txs : List (Bool × Tx)) (block : List Tx)

def indexTxAt (txIdx : Nat) (tx : Tx) : IndexTx Tx where
  tx
  txNum := txs.length + txIdx
  isCoinbase := decide (txIdx = 0)
  inputNums :=
    if txIdx = 0 then []
    else tx.inputs.map fun input =>
      (txNumOf (txs ++ blockTxs block) input.prevOut.txid).getD 0

def indexBlock : List (IndexTx Tx) :=
  block.zipIdx.map fun entry => indexTxAt txs block entry.2 entry.1

variable {txs block}

theorem getElem?_blockTxs (txIdx : Nat) :
    (blockTxs block)[txIdx]? = block[txIdx]?.map fun tx => (decide (txIdx = 0), tx) := by
  unfold blockTxs
  rw [getElem?_map, getElem?_zipIdx]
  cases block[txIdx]? with
  | none => rfl
  | some tx => simp

theorem getElem?_append_blockTxs (txIdx : Nat) :
    (txs ++ blockTxs block)[txs.length + txIdx]? =
      block[txIdx]?.map fun tx => (decide (txIdx = 0), tx) := by
  rw [getElem?_append_right (Nat.le_add_right _ _), Nat.add_sub_cancel_left, getElem?_blockTxs]

variable (txs) in
theorem getElem?_atBlock (h : block[txIdx]? = some tx) :
    (txs ++ blockTxs block)[txs.length + txIdx]? = some (decide (txIdx = 0), tx) := by
  rw [getElem?_append_blockTxs, h]
  rfl

variable (txs) in
theorem getElem?_spender (h : block[txIdx]? = some tx) (hzero : txIdx ≠ 0) :
    (txs ++ blockTxs block)[txs.length + txIdx]? = some (false, tx) := by
  rw [getElem?_atBlock txs h, decide_eq_false hzero]

theorem txids_blockTxs : (blockTxs block).map (fun entry => entry.2.txid) = block.map Tx.txid := by
  apply ext_getElem?
  intro txIdx
  rw [getElem?_map, getElem?_blockTxs, getElem?_map, Option.map_map]
  rfl

theorem blockTxNum_spec (hvalid : ValidTxs (txs ++ blockTxs block)) (txid : TxId) :
    blockTxNum txs.length block txid =
      if txid ∈ block.map Tx.txid then txNumOf (txs ++ blockTxs block) txid else none := by
  unfold blockTxNum
  cases hlookup : (block.mapIdx fun txIdx tx => (tx.txid, txs.length + txIdx)).reverse.lookup
      txid with
  | none =>
    rw [if_neg]
    intro hmem
    rcases mem_map.mp hmem with ⟨tx, htx, heq⟩
    rcases mem_iff_getElem?.mp htx with ⟨txIdx, hat⟩
    rw [lookup_eq_none_iff] at hlookup
    have hne := hlookup (tx.txid, txs.length + txIdx) (by
      rw [mem_reverse]
      apply mem_of_getElem? (i := txIdx)
      rw [getElem?_mapIdx, hat]
      rfl)
    rw [heq] at hne
    simp at hne
  | some txNum =>
    have hmem := mem_of_lookup_eq_some hlookup
    rw [mem_reverse] at hmem
    rcases mem_iff_getElem?.mp hmem with ⟨_, hat⟩
    rw [getElem?_mapIdx] at hat
    rcases Option.map_eq_some_iff.mp hat with ⟨_, htx, heq⟩
    cases heq
    rw [if_pos (mem_map_of_mem (mem_of_getElem? htx)), hvalid.txNumOf_eq (getElem?_atBlock txs htx)]

theorem prepareIndexedTxs_eq (hvalid : ValidTxs (txs ++ blockTxs block))
    {dbTxNum : TxId -> Option TxNum} {cache : TxNumCache}
    (hdb : forall txid, txid ∉ block.map Tx.txid ->
      dbTxNum txid = txNumOf (txs ++ blockTxs block) txid)
    (hcache : cache.Sound (txNumOf (txs ++ blockTxs block))) :
    prepareIndexedTxs dbTxNum cache txs.length block = .ok (indexBlock txs block) := by
  apply mapM_eq_map
  intro entry hentry
  rcases entry with ⟨tx, txIdx⟩
  have hat : block[txIdx]? = some tx := mk_mem_zipIdx_iff_getElem?.mp hentry
  unfold prepareIndexedTx indexTxAt
  by_cases hzero : txIdx = 0
  · simp only [hzero, if_true]
    rfl
  have htx := getElem?_spender txs hat hzero
  have hinputs : tx.inputs.mapM (inputTxNum dbTxNum cache txs.length block) =
      .ok (tx.inputs.map fun input =>
        (txNumOf (txs ++ blockTxs block) input.prevOut.txid).getD 0) := by
    apply mapM_eq_map
    intro input hinput
    rcases mem_iff_getElem?.mp hinput with ⟨_, hinputAt⟩
    rcases hvalid.spends htx hinputAt with ⟨_, _, hnum, _⟩
    unfold inputTxNum
    rw [blockTxNum_spec hvalid, hnum]
    by_cases hmem : input.prevOut.txid ∈ block.map Tx.txid
    · rw [if_pos hmem]
      rfl
    rw [if_neg hmem]
    cases hget : cache.get input.prevOut.txid with
    | some txNum =>
      have hsame := hcache.get hget
      rw [hnum] at hsame
      cases hsame
      rfl
    | none =>
      simp only [hdb _ hmem, hnum]
      rfl
  simp only [if_neg hzero, hinputs, bind, Except.bind]

def blockOutputs (indexTxs : List (IndexTx Tx)) : List (DbOutpoint × TxOutput) :=
  indexTxs.flatMap fun indexTx =>
    indexTx.tx.outputs.zipIdx.map fun entry => (⟨indexTx.txNum, entry.2⟩, entry.1)

/-- An input with its place and the number of the transaction it spends. -/
structure InputAt where
  txNum : TxNum
  inputIdx : Nat
  input : TxInput
  sourceNum : TxNum

def InputAt.outpoint (place : InputAt) : DbOutpoint :=
  ⟨place.sourceNum, place.input.prevOut.outIdx⟩

def blockInputs (indexTxs : List (IndexTx Tx)) : List InputAt :=
  (indexTxs.filter fun indexTx => !indexTx.isCoinbase).flatMap fun indexTx =>
    (indexTx.tx.inputs.zip indexTx.inputNums).mapIdx fun inputIdx entry =>
      ⟨indexTx.txNum, inputIdx, entry.1, entry.2⟩

def blockCoins (indexTxs : List (IndexTx Tx)) : List (DbOutpoint × TxOutput) :=
  (blockInputs indexTxs).filterMap fun place =>
    place.input.coin.map fun coin => (place.outpoint, coin.output)

theorem mem_indexBlock {indexTx : IndexTx Tx} :
    indexTx ∈ indexBlock txs block <->
      exists txIdx tx, block[txIdx]? = some tx ∧ indexTx = indexTxAt txs block txIdx tx := by
  unfold indexBlock
  rw [mem_map]
  constructor
  · rintro ⟨⟨tx, txIdx⟩, hmem, heq⟩
    exact ⟨txIdx, tx, mk_mem_zipIdx_iff_getElem?.mp hmem, heq.symm⟩
  · rintro ⟨txIdx, tx, hat, heq⟩
    exact ⟨(tx, txIdx), mk_mem_zipIdx_iff_getElem?.mpr hat, heq.symm⟩

theorem exists_indexTx (hle : txs.length ≤ txNum)
    (hat : (txs ++ blockTxs block)[txNum]? = some (isCoinbase, tx)) :
    exists txIdx, txNum = txs.length + txIdx ∧ block[txIdx]? = some tx ∧
      isCoinbase = decide (txIdx = 0) := by
  rcases Nat.exists_eq_add_of_le hle with ⟨txIdx, heq⟩
  subst heq
  rw [getElem?_append_blockTxs] at hat
  rcases Option.map_eq_some_iff.mp hat with ⟨_, htx, heq⟩
  cases heq
  exact ⟨txIdx, rfl, htx, rfl⟩

theorem mem_blockOutputs {outpoint : DbOutpoint} {output : TxOutput} :
    (outpoint, output) ∈ blockOutputs (indexBlock txs block) <->
      txs.length ≤ outpoint.txNum ∧ HasOutput (txs ++ blockTxs block) outpoint output := by
  unfold blockOutputs
  rw [mem_flatMap]
  constructor
  · rintro ⟨_, hmem, hout⟩
    rcases mem_indexBlock.mp hmem with ⟨txIdx, tx, hat, heq⟩
    rcases mem_map.mp hout with ⟨⟨_, _⟩, hzip, hpair⟩
    have houtAt := mk_mem_zipIdx_iff_getElem?.mp hzip
    subst heq
    cases hpair
    exact ⟨Nat.le_add_right _ _, decide (txIdx = 0), tx, getElem?_atBlock txs hat, houtAt⟩
  · rintro ⟨hle, _, tx, hat, hout⟩
    rcases exists_indexTx hle hat with ⟨txIdx, hnum, htx, _⟩
    refine ⟨indexTxAt txs block txIdx tx, mem_indexBlock.mpr ⟨txIdx, tx, htx, rfl⟩, ?_⟩
    rw [mem_map]
    refine ⟨(output, outpoint.outIdx), mk_mem_zipIdx_iff_getElem?.mpr hout, ?_⟩
    show ((⟨txs.length + txIdx, outpoint.outIdx⟩ : DbOutpoint), output) = _
    rw [← hnum]

variable (txs block) in
theorem nodup_txNums : ((indexBlock txs block).map IndexTx.txNum).Nodup := by
  have hnums : (indexBlock txs block).map IndexTx.txNum =
      (block.zipIdx.map Prod.snd).map (txs.length + ·) := by
    unfold indexBlock
    rw [map_map, map_map]
    rfl
  rw [hnums, zipIdx_map_snd]
  exact Nodup.map (fun _ _ => Nat.add_left_cancel) nodup_range'

/-- What the parts of different transactions have is told apart by the transaction, and what one
part has by its place. -/
theorem nodup_parts {part : Type} {indexTxs : List (IndexTx Tx)} {f : IndexTx Tx -> List part}
    {key : part -> TxNum × Nat} (hnums : (indexTxs.map IndexTx.txNum).Nodup)
    (hplaces : forall indexTx, ((f indexTx).map key).map Prod.snd = range' 0 (f indexTx).length)
    (hkey : forall indexTx part, part ∈ f indexTx -> (key part).1 = indexTx.txNum) :
    ((indexTxs.flatMap f).map key).Nodup := by
  rw [map_flatMap, nodup_flatMap]
  constructor
  · intro indexTx _
    refine Nodup.of_map Prod.snd ?_
    rw [hplaces]
    exact nodup_range'
  · refine (pairwise_map.mp hnums).imp ?_
    intro indexTx indexTx' hne place hmem hmem'
    rcases mem_map.mp hmem with ⟨part, hpart, rfl⟩
    rcases mem_map.mp hmem' with ⟨part', hpart', heq⟩
    rw [← hkey indexTx part hpart, ← hkey indexTx' part' hpart', heq] at hne
    exact hne rfl

theorem nodup_blockOutputs : ((blockOutputs (indexBlock txs block)).map Prod.fst).Nodup := by
  refine Nodup.of_map (fun outpoint => (outpoint.txNum, outpoint.outIdx)) ?_
  rw [map_map]
  refine nodup_parts (nodup_txNums txs block) ?_ ?_
  · intro indexTx
    rw [map_map, map_map, length_map, length_zipIdx]
    exact zipIdx_map_snd 0 _
  · intro indexTx part hpart
    rcases mem_map.mp hpart with ⟨_, _, rfl⟩
    rfl

theorem mem_blockInputs (hvalid : ValidTxs (txs ++ blockTxs block)) :
    place ∈ blockInputs (indexBlock txs block) <->
      txs.length ≤ place.txNum ∧
      exists tx, (txs ++ blockTxs block)[place.txNum]? = some (false, tx) ∧
        tx.inputs[place.inputIdx]? = some place.input ∧
        txNumOf (txs ++ blockTxs block) place.input.prevOut.txid = some place.sourceNum := by
  have hnums : forall {txIdx : Nat} {tx : Tx} {inputIdx : Nat} {input : TxInput},
      block[txIdx]? = some tx -> txIdx ≠ 0 -> tx.inputs[inputIdx]? = some input ->
      exists sourceNum, (indexTxAt txs block txIdx tx).inputNums[inputIdx]? = some sourceNum ∧
        txNumOf (txs ++ blockTxs block) input.prevOut.txid = some sourceNum := by
    intro txIdx tx inputIdx input hat hzero hinput
    rcases hvalid.spends (getElem?_spender txs hat hzero) hinput with ⟨sourceNum, _, hnum, _⟩
    refine ⟨sourceNum, ?_, hnum⟩
    unfold indexTxAt
    simp only [if_neg hzero, getElem?_map, hinput, Option.map_some, hnum, Option.getD_some]
  unfold blockInputs
  rw [mem_flatMap]
  constructor
  · rintro ⟨_, hmem, hplace⟩
    rcases mem_filter.mp hmem with ⟨hblock, hnotCoinbase⟩
    rcases mem_indexBlock.mp hblock with ⟨txIdx, tx, hat, heq⟩
    subst heq
    have hzero : txIdx ≠ 0 := by simpa [indexTxAt] using hnotCoinbase
    rcases mem_iff_getElem?.mp hplace with ⟨_, hplaceAt⟩
    rw [getElem?_mapIdx] at hplaceAt
    rcases Option.map_eq_some_iff.mp hplaceAt with ⟨⟨_, sourceNum⟩, hzip, heq⟩
    rcases getElem?_zip_eq_some.mp hzip with ⟨hinput, hsource⟩
    rcases hnums hat hzero hinput with ⟨_, hsource', hnum⟩
    rw [hsource] at hsource'
    cases hsource'
    subst heq
    exact ⟨Nat.le_add_right _ _, tx, getElem?_spender txs hat hzero, hinput, hnum⟩
  · rintro ⟨hle, tx, hat, hinput, hnum⟩
    rcases exists_indexTx hle hat with ⟨txIdx, htxNum, htx, hcoinbase⟩
    have hzero : txIdx ≠ 0 := of_decide_eq_false hcoinbase.symm
    rcases hnums htx hzero hinput with ⟨_, hsource, hnum'⟩
    rw [hnum] at hnum'
    cases hnum'
    refine ⟨indexTxAt txs block txIdx tx, mem_filter.mpr
      ⟨mem_indexBlock.mpr ⟨txIdx, tx, htx, rfl⟩, by simp [indexTxAt, hzero]⟩, ?_⟩
    have hzip : ((indexTxAt txs block txIdx tx).tx.inputs.zip
        (indexTxAt txs block txIdx tx).inputNums)[place.inputIdx]? =
        some (place.input, place.sourceNum) :=
      getElem?_zip_eq_some.mpr ⟨hinput, hsource⟩
    apply mem_of_getElem? (i := place.inputIdx)
    rw [getElem?_mapIdx, hzip]
    show some (⟨txs.length + txIdx, place.inputIdx, place.input, place.sourceNum⟩ : InputAt) = _
    rw [← htxNum]

theorem nodup_blockInputs :
    ((blockInputs (indexBlock txs block)).map fun place =>
      (place.txNum, place.inputIdx)).Nodup := by
  refine nodup_parts ((nodup_txNums txs block).sublist (filter_sublist.map _)) ?_ ?_
  · intro indexTx
    rw [mapIdx_eq_zipIdx_map, map_map, map_map, length_map, length_zipIdx]
    exact zipIdx_map_snd 0 _
  · intro indexTx place hplace
    rcases mem_mapIdx.mp hplace with ⟨_, _, rfl⟩
    rfl

section Valid

variable (hvalid : ValidTxs (txs ++ blockTxs block))

include hvalid

theorem exists_place {outpoint : DbOutpoint} {inputIdx : Nat} :
    (exists place, place ∈ blockInputs (indexBlock txs block) ∧ place.outpoint = outpoint ∧
        place.txNum = txNum ∧ place.inputIdx = inputIdx) <->
      txs.length ≤ txNum ∧ Spends (txs ++ blockTxs block) outpoint txNum inputIdx := by
  constructor
  · rintro ⟨place, hmem, houtpoint, htxNum, hinputIdx⟩
    subst houtpoint htxNum hinputIdx
    rcases (mem_blockInputs hvalid).mp hmem with ⟨hle, tx, hat, hinput, hnum⟩
    rcases txNumOf_spec hnum with ⟨isCoinbase, source, hsource, htxid⟩
    refine ⟨hle, tx, place.input, isCoinbase, source, hat, hinput, hsource, ?_⟩
    rw [htxid]
    rfl
  · rintro ⟨hle, tx, input, _, _, hat, hinput, hsource, hprev⟩
    have hnum : txNumOf (txs ++ blockTxs block) input.prevOut.txid = some outpoint.txNum := by
      rw [hprev]
      exact hvalid.txNumOf_eq hsource
    refine ⟨⟨txNum, inputIdx, input, outpoint.txNum⟩,
      (mem_blockInputs hvalid).mpr ⟨hle, tx, hat, hinput, hnum⟩, ?_, rfl, rfl⟩
    unfold InputAt.outpoint
    simp only [hprev]

theorem Spends.of_place (h : place ∈ blockInputs (indexBlock txs block)) :
    Spends (txs ++ blockTxs block) place.outpoint place.txNum place.inputIdx :=
  ((exists_place hvalid).mp ⟨place, h, rfl, rfl, rfl⟩).right

theorem place_inj {place' : InputAt} (h : place ∈ blockInputs (indexBlock txs block))
    (h' : place' ∈ blockInputs (indexBlock txs block)) (heq : place.outpoint = place'.outpoint) :
    place = place' := by
  have hspends := Spends.of_place hvalid h
  rw [heq] at hspends
  rcases hspends.unique hvalid (Spends.of_place hvalid h') with ⟨htxNum, hinputIdx⟩
  exact inj_on_of_nodup_map nodup_blockInputs h h' (Prod.ext htxNum hinputIdx)

theorem nodup_outpoints : ((blockInputs (indexBlock txs block)).map InputAt.outpoint).Nodup :=
  (Nodup.of_map _ nodup_blockInputs).map_on fun _ h _ h' heq => place_inj hvalid h h' heq

omit hvalid in
theorem blockSpends_eq (indexTxs : List (IndexTx Tx)) :
    blockSpends indexTxs = (blockInputs indexTxs).map fun place =>
      (place.sourceNum, ⟨place.input.prevOut.outIdx, place.txNum, place.inputIdx⟩) := by
  unfold blockSpends blockInputs
  rw [map_flatMap]
  congr 1
  funext indexTx
  rw [mapIdx_eq_zipIdx_map, mapIdx_eq_zipIdx_map, map_map]
  rfl

theorem mem_blockSpends {entry : SpentByEntry} :
    (txNum, entry) ∈ blockSpends (indexBlock txs block) <->
      txs.length ≤ entry.txNum ∧
        Spends (txs ++ blockTxs block) ⟨txNum, entry.outIdx⟩ entry.txNum entry.inputIdx := by
  rw [← exists_place hvalid, blockSpends_eq, mem_map]
  constructor
  · rintro ⟨place, hmem, heq⟩
    cases heq
    exact ⟨place, hmem, rfl, rfl, rfl⟩
  · rintro ⟨place, hmem, houtpoint, htxNum, hinputIdx⟩
    refine ⟨place, hmem, ?_⟩
    unfold InputAt.outpoint at houtpoint
    rw [DbOutpoint.mk.injEq] at houtpoint
    rw [houtpoint.left, houtpoint.right, htxNum, hinputIdx]

theorem nodup_blockSpends :
    ((blockSpends (indexBlock txs block)).map fun spend => (spend.1, spend.2.outIdx)).Nodup := by
  refine Nodup.of_map (fun pair : TxNum × Nat => (⟨pair.1, pair.2⟩ : DbOutpoint)) ?_
  rw [blockSpends_eq, map_map, map_map]
  exact nodup_outpoints hvalid

theorem mem_blockCoins {outpoint : DbOutpoint} {output : TxOutput} :
    (outpoint, output) ∈ blockCoins (indexBlock txs block) <->
      (exists txNum inputIdx, txs.length ≤ txNum ∧
        Spends (txs ++ blockTxs block) outpoint txNum inputIdx) ∧
      HasOutput (txs ++ blockTxs block) outpoint output := by
  have hcoin : forall place, place ∈ blockInputs (indexBlock txs block) ->
      exists output, HasOutput (txs ++ blockTxs block) place.outpoint output ∧
        place.input.coin = some ⟨output⟩ := by
    intro place hplace
    rcases (mem_blockInputs hvalid).mp hplace with ⟨_, _, hat, hinput, hnum⟩
    rcases hvalid.spends hat hinput with ⟨_, output, hnum', _, hout, hcoin⟩
    rw [hnum] at hnum'
    cases hnum'
    exact ⟨output, hout, hcoin⟩
  unfold blockCoins
  rw [mem_filterMap]
  constructor
  · rintro ⟨place, hmem, heq⟩
    rcases hcoin place hmem with ⟨output', hout, hcoin⟩
    rw [hcoin] at heq
    cases heq
    rcases (exists_place hvalid).mp ⟨place, hmem, rfl, rfl, rfl⟩ with ⟨hle, hspends⟩
    exact ⟨⟨place.txNum, place.inputIdx, hle, hspends⟩, hout⟩
  · rintro ⟨⟨_, _, hle, hspends⟩, hout⟩
    rcases (exists_place hvalid).mpr ⟨hle, hspends⟩ with ⟨place, hmem, heq, _, _⟩
    subst heq
    rcases hcoin place hmem with ⟨_, hout', hcoin⟩
    refine ⟨place, hmem, ?_⟩
    rw [hcoin, hout.unique hout']
    rfl

theorem nodup_blockCoins : ((blockCoins (indexBlock txs block)).map Prod.fst).Nodup := by
  have hsub : forall places : List InputAt,
      ((places.filterMap fun place => place.input.coin.map fun coin =>
        (place.outpoint, coin.output)).map Prod.fst).Sublist (places.map InputAt.outpoint) := by
    intro places
    induction places with
    | nil => exact Sublist.slnil
    | cons place places ih =>
      rw [filterMap_cons]
      cases place.input.coin with
      | none => exact ih.cons _
      | some coin => exact ih.cons_cons _
  exact (hsub _).nodup (nodup_outpoints hvalid)

end Valid

end Block

end ECash.Index
