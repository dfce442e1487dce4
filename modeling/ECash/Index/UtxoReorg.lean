import ECash.Index.ScriptCompression
import ECash.Index.UtxoEntries
import ECash.Tokens.Color

/-!
# The utxo index over connects and disconnects

Blocks are connected and disconnected at the tip.  The entries of a key are then the unspent
outputs of the chain whose members have this key.
-/

namespace ECash.Index

open Foundation List

/-!
## Blocks
-/

/-- The tables for transactions by their ids, for the first transaction of a block by its
height, for the utxos of a group and for the spent outputs, with the cache of numbers. -/
structure UtxoIndex (data : Type) where
  txids : List TxId
  firstTxByBlk : List TxNum
  cache : TxNumCache
  utxos : UtxoDb data
  spentBy : SpentByDb

inductive UtxoIndexError where
  | noTxsForBlock
  | prepare (error : IndexTxError)
  | utxos (error : GroupUtxoError)
  | spentBy (error : SpentByError)
deriving DecidableEq

section Index

variable {member aux data : Type} (group : Group Tx member aux) (utxoData : UtxoData data)

def UtxoIndex.txNumByTxid (index : UtxoIndex data) (txid : TxId) : Option TxNum :=
  index.txids.findIdx? fun other => other == txid

def UtxoIndex.handleBlockConnected (index : UtxoIndex data) (block : List Tx) (aux : aux) :
    Except UtxoIndexError (UtxoIndex data) := do
  let firstTxNum := index.txids.length
  let indexTxs ← (prepareIndexedTxs index.txNumByTxid index.cache firstTxNum block).mapError
    .prepare
  let utxos ← (insertUtxos group utxoData index.utxos ⟨indexTxs, aux⟩).mapError
    .utxos
  let spentBy ← (insertSpentBy index.spentBy indexTxs).mapError .spentBy
  .ok
    { txids := index.txids ++ block.map Tx.txid,
      firstTxByBlk := index.firstTxByBlk ++ [firstTxNum],
      cache := index.cache.addToCache indexTxs,
      utxos,
      spentBy }

def UtxoIndex.handleBlockDisconnected (index : UtxoIndex data) (block : List Tx) (aux : aux) :
    Except UtxoIndexError (UtxoIndex data) := do
  match index.firstTxByBlk.getLast? with
  | none => .error .noTxsForBlock
  | some firstTxNum =>
    let indexTxs ← (prepareIndexedTxs index.txNumByTxid index.cache firstTxNum
      block).mapError .prepare
    let utxos ← (deleteUtxos group utxoData index.utxos ⟨indexTxs, aux⟩).mapError
      .utxos
    let spentBy ← (deleteSpentBy index.spentBy indexTxs).mapError .spentBy
    .ok
      { txids := index.txids.take firstTxNum ++ index.txids.drop (firstTxNum + block.length),
        firstTxByBlk := index.firstTxByBlk.dropLast,
        cache := index.cache.clear,
        utxos,
        spentBy }

def firstTxNums (chain : List (List Tx)) : List TxNum :=
  (range chain.length).map fun height => (chainTxs (chain.take height)).length

variable (membersOf : TxOutput -> List member)

/-- What the index stores for a chain. -/
structure Indexes (chain : List (List Tx)) (index : UtxoIndex data) : Prop where
  txids : index.txids = (chainTxs chain).map fun entry => entry.2.txid
  firstTxByBlk : index.firstTxByBlk = firstTxNums chain
  cache : index.cache.Sound (txNumOf (chainTxs chain))
  utxos : forall key, Lists index.utxos key
    (UtxoUnder group utxoData membersOf (chainTxs chain) key)
  spentBy : forall txNum, ListsSpends index.spentBy txNum (SpendUnder (chainTxs chain) txNum)

variable {group utxoData membersOf} {chain : List (List Tx)} {block : List Tx}
  {index : UtxoIndex data}

theorem chainTxs_append : chainTxs (chain ++ [block]) = chainTxs chain ++ blockTxs block := by
  unfold chainTxs
  rw [flatMap_append, flatMap_singleton]

theorem firstTxNums_append :
    firstTxNums (chain ++ [block]) = firstTxNums chain ++ [(chainTxs chain).length] := by
  unfold firstTxNums
  rw [length_append, length_singleton, range_succ, map_append, map_singleton, take_left]
  congr 1
  apply map_congr_left
  intro _ hheight
  rw [take_append_of_le_length (mem_range.mp hheight).le]

theorem Indexes.txNumByTxid (h : Indexes group utxoData membersOf chain index) (txid : TxId) :
    index.txNumByTxid txid = txNumOf (chainTxs chain) txid := by
  unfold UtxoIndex.txNumByTxid txNumOf
  rw [h.txids, findIdx?_map]
  rfl

theorem Indexes.length (h : Indexes group utxoData membersOf chain index) :
    index.txids.length = (chainTxs chain).length := by
  rw [h.txids, length_map]

theorem handleBlockConnected_indexes (hof : OfOutputs group membersOf)
    (hvalid : ValidTxs (chainTxs chain)) (hvalid' : ValidTxs (chainTxs (chain ++ [block])))
    (aux : aux) (h : Indexes group utxoData membersOf chain index) :
    exists index', UtxoIndex.handleBlockConnected group utxoData index block aux =
        .ok index' ∧ Indexes group utxoData membersOf (chain ++ [block]) index' := by
  rw [chainTxs_append] at hvalid'
  have hcache : index.cache.Sound (txNumOf (chainTxs chain ++ blockTxs block)) := by
    intro bucket hbucket txid txNum hmem
    have hold := h.cache bucket hbucket txid txNum hmem
    unfold txNumOf at hold ⊢
    rw [findIdx?_append, hold]
    rfl
  have hprepare : prepareIndexedTxs index.txNumByTxid index.cache index.txids.length block =
      .ok (indexBlock (chainTxs chain) block) := by
    rw [h.length]
    apply prepareIndexedTxs_eq hvalid'
    · intro txid hnew
      rw [h.txNumByTxid, txNumOf_append_of_notMem]
      rw [txids_blockTxs]
      exact hnew
    · exact hcache
  rcases insertUtxos_lists hof hvalid hvalid' aux h.utxos with ⟨utxos, hutxos, hlists⟩
  rcases insertSpentBy_spends hvalid hvalid' h.spentBy with ⟨spentBy, hspentBy, hspends⟩
  simp only [UtxoIndex.handleBlockConnected, hprepare, Except.mapError, hutxos, hspentBy, bind,
    Except.bind]
  refine ⟨_, rfl, ?_⟩
  constructor
  · rw [chainTxs_append, map_append, txids_blockTxs, ← h.txids]
  · rw [firstTxNums_append, ← h.firstTxByBlk, ← h.length]
  · rw [chainTxs_append]
    refine hcache.addToCache ?_
    intro indexTx hmem
    rcases mem_indexBlock.mp hmem with ⟨_, _, hat, heq⟩
    subst heq
    exact hvalid'.txNumOf_eq (getElem?_atBlock _ hat)
  · rw [chainTxs_append]
    exact hlists
  · rw [chainTxs_append]
    exact hspends

theorem handleBlockDisconnected_indexes (hof : OfOutputs group membersOf)
    (hvalid : ValidTxs (chainTxs chain)) (hvalid' : ValidTxs (chainTxs (chain ++ [block])))
    (aux : aux) (h : Indexes group utxoData membersOf (chain ++ [block]) index) :
    exists index', UtxoIndex.handleBlockDisconnected group utxoData index block aux =
        .ok index' ∧ Indexes group utxoData membersOf chain index' := by
  have hlast : index.firstTxByBlk.getLast? = some (chainTxs chain).length := by
    rw [h.firstTxByBlk, firstTxNums_append, getLast?_concat]
  have hdb := h.txNumByTxid
  have hcache := h.cache
  have htxids := h.txids
  have hutxos := h.utxos
  have hspentBy := h.spentBy
  rw [chainTxs_append] at hvalid' hcache htxids hutxos hspentBy
  have hprepare : prepareIndexedTxs index.txNumByTxid index.cache (chainTxs chain).length block =
      .ok (indexBlock (chainTxs chain) block) := by
    refine prepareIndexedTxs_eq hvalid' ?_ hcache
    intro txid _
    rw [hdb, chainTxs_append]
  rcases deleteUtxos_lists hof hvalid hvalid' aux hutxos with ⟨utxos, hutxos, hlists⟩
  rcases deleteSpentBy_spends hvalid hvalid' hspentBy with ⟨spentBy, hspentBy, hspends⟩
  simp only [UtxoIndex.handleBlockDisconnected, hlast, hprepare, Except.mapError, hutxos,
    hspentBy, bind, Except.bind]
  refine ⟨_, rfl, ?_⟩
  constructor
  · have hlength : (chainTxs chain).length =
        ((chainTxs chain).map fun entry => entry.2.txid).length := by
      rw [length_map]
    rw [htxids, map_append, take_append_of_le_length hlength.le, hlength,
      take_length, ← drop_drop, drop_left, txids_blockTxs]
    rw [← length_map Tx.txid, drop_length, append_nil]
  · rw [h.firstTxByBlk, firstTxNums_append, dropLast_concat]
  · exact TxNumCache.sound_clear _ _
  · exact hlists
  · exact hspends

/-!
## Runs
-/

inductive TipStep (aux : Type) where
  | connect (block : List Tx) (aux : aux)
  | disconnect (block : List Tx) (aux : aux)

def stepTip (chain : List (List Tx)) : TipStep aux -> List (List Tx)
  | .connect block _ => chain ++ [block]
  | .disconnect _ _ => chain.dropLast

/-- A connected block is valid after the chain, and a disconnected one is the tip. -/
def AllowedTip (chain : List (List Tx)) : TipStep aux -> Prop
  | .connect block _ => ValidTxs (chainTxs (chain ++ [block]))
  | .disconnect block _ => exists below, chain = below ++ [block]

variable (group utxoData) in
def stepIndex (index : UtxoIndex data) : TipStep aux -> Except UtxoIndexError (UtxoIndex data)
  | .connect block aux => UtxoIndex.handleBlockConnected group utxoData index block aux
  | .disconnect block aux => UtxoIndex.handleBlockDisconnected group utxoData index block aux

def emptyIndex (numBuckets bucketSize : Nat) : UtxoIndex data where
  txids := []
  firstTxByBlk := []
  cache := ⟨numBuckets, bucketSize, replicate numBuckets []⟩
  utxos := fun _ => none
  spentBy := fun _ => none

theorem indexes_empty (numBuckets bucketSize : Nat) :
    Indexes group utxoData membersOf [] (emptyIndex numBuckets bucketSize) where
  txids := rfl
  firstTxByBlk := rfl
  cache := by
    intro bucket hbucket txid txNum hmem
    rw [eq_of_mem_replicate hbucket] at hmem
    cases hmem
  utxos := by
    refine fun key => ⟨List.Pairwise.nil, ?_⟩
    intro entry
    refine iff_of_false (not_mem_nil) ?_
    rintro ⟨_, ⟨⟨_, _, hat, _⟩, _⟩, _⟩
    cases hat
  spentBy := by
    refine fun txNum => ⟨List.Pairwise.nil, ?_⟩
    intro entry
    refine iff_of_false (not_mem_nil) ?_
    rintro ⟨_, _, _, _, hat, _⟩
    cases hat

theorem validTxs_iff {txs : List (Bool × Tx)} :
    ValidTxs txs <-> (txs.map fun entry => entry.2.txid).Nodup ∧
      (forall entry, entry ∈ txs -> entry.1 = false -> forall input, input ∈ entry.2.inputs ->
        input.coin.isSome ∧ exists source, source ∈ txs ∧
          source.2.txid = input.prevOut.txid ∧
          source.2.outputs[input.prevOut.outIdx]? = coinOutput input) ∧
      (spentOutPoints txs).Nodup := by
  constructor
  · intro h
    refine ⟨h.txids, ?_, h.once⟩
    rintro ⟨isCoinbase, tx⟩ hmem hfalse input hinput
    cases hfalse
    rcases h.sources tx hmem input hinput with
      ⟨isCoinbase, source, output, hsource, htxid, hout, hcoin⟩
    unfold coinOutput
    rw [hcoin]
    exact ⟨rfl, (isCoinbase, source), hsource, htxid, hout⟩
  · rintro ⟨htxids, hsources, honce⟩
    refine ⟨htxids, ?_, honce⟩
    intro tx hmem input hinput
    rcases hsources (false, tx) hmem rfl input hinput with ⟨hcoin, source, hsource, htxid, hout⟩
    rcases Option.isSome_iff_exists.mp hcoin with ⟨coin, hcoin⟩
    unfold coinOutput at hout
    rw [hcoin] at hout
    exact ⟨source.1, source.2, coin.output, hsource, htxid, hout, hcoin⟩

instance {txs : List (Bool × Tx)} : Decidable (ValidTxs txs) :=
  decidable_of_iff _ validTxs_iff.symm

theorem validTxs_nil : ValidTxs [] where
  txids := nodup_nil
  sources := fun _ hmem => absurd hmem not_mem_nil
  once := nodup_nil

theorem ValidChain.init (h : ValidChain (chain ++ [block])) : ValidChain chain := by
  intro height
  have hvalid := h (min height chain.length)
  rw [take_append_of_le_length (min_le_right _ _)] at hvalid
  rw [take_eq_take_min]
  exact hvalid

theorem ValidChain.append (h : ValidChain chain)
    (hvalid : ValidTxs (chainTxs (chain ++ [block]))) : ValidChain (chain ++ [block]) := by
  intro height
  by_cases hle : height ≤ chain.length
  · rw [take_append_of_le_length hle]
    exact h height
  · rw [take_of_length_le (by rw [length_append, length_singleton]; omega)]
    exact hvalid

theorem ValidChain.txs (h : ValidChain chain) : ValidTxs (chainTxs chain) := by
  have hvalid := h chain.length
  rw [take_length] at hvalid
  exact hvalid

theorem stepIndex_indexes (hof : OfOutputs group membersOf) (step : TipStep aux)
    (h : ValidChain chain ∧ Indexes group utxoData membersOf chain index)
    (hallowed : AllowedTip chain step) :
    exists index', stepIndex group utxoData index step = .ok index' ∧
      ValidChain (stepTip chain step) ∧
      Indexes group utxoData membersOf (stepTip chain step) index' := by
  rcases h with ⟨hchain, hindexes⟩
  cases step with
  | connect block aux =>
    rcases handleBlockConnected_indexes hof hchain.txs hallowed aux hindexes with
      ⟨index', hindex', hindexes'⟩
    exact ⟨index', hindex', hchain.append hallowed, hindexes'⟩
  | disconnect block aux =>
    rcases hallowed with ⟨_, heq⟩
    subst heq
    rcases handleBlockDisconnected_indexes hof hchain.init.txs hchain.txs aux hindexes with
      ⟨index', hindex', hindexes'⟩
    refine ⟨index', hindex', ?_⟩
    unfold stepTip
    rw [dropLast_concat]
    exact ⟨hchain.init, hindexes'⟩

def UtxoOf (utxoData : UtxoData data) (membersOf : TxOutput -> List member)
    (txs : List (Bool × Tx)) (m : member) (entry : UtxoEntry data) : Prop :=
  exists output, Unspent txs entry.outpoint output ∧
    entry.data = utxoData.fromOutput output ∧ m ∈ membersOf output

/-- A member has its own entries only, unless it has the key of another member. -/
theorem lists_utxoOf_iff (hof : OfOutputs group membersOf) {txs : List (Bool × Tx)}
    {db : UtxoDb data} (h : forall key, Lists db key (UtxoUnder group utxoData membersOf txs key)) :
    (forall m, Lists db (group.serMember m) (UtxoOf utxoData membersOf txs m)) <->
      forall outpoint output, Unspent txs outpoint output -> forall m, m ∈ membersOf output ->
        forall m', group.serMember m' = group.serMember m -> m' = m := by
  constructor
  · intro hlists outpoint output hunspent m hm m' hkey
    have hunder : UtxoUnder group utxoData membersOf txs (group.serMember m')
        ⟨outpoint, utxoData.fromOutput output⟩ :=
      ⟨output, hunspent, rfl, hkey ▸ mem_map_of_mem hm⟩
    rcases ((hlists m').mem _).mp (((h _).mem _).mpr hunder) with ⟨_, hunspent', _, hm'⟩
    rw [← hunspent.left.unique hunspent'.left] at hm'
    exact inj_on_of_nodup_map (hof.keys output) hm' hm hkey
  · intro hapart m
    refine ⟨(h _).sorted, ?_⟩
    intro entry
    rw [(h _).mem entry]
    constructor
    · rintro ⟨output, hunspent, hdata, hkey⟩
      rcases mem_map.mp hkey with ⟨m', hm', heq⟩
      rw [hapart _ output hunspent m' hm' m heq.symm]
      exact ⟨output, hunspent, hdata, hm'⟩
    · rintro ⟨output, hunspent, hdata, hm⟩
      exact ⟨output, hunspent, hdata, mem_map_of_mem hm⟩

variable (utxoData) in
/-- Every run of connects and disconnects of a valid chain succeeds; afterwards the entries of
the keys and of the transactions are those of the chain, and those of each member are its own
exactly if no unspent output has a member with the key of another one. -/
theorem utxo_index_iff (hof : OfOutputs group membersOf) (numBuckets bucketSize : Nat)
    (steps : List (TipStep aux)) (hallowed : AllowedRun stepTip AllowedTip [] steps) :
    exists index, steps.foldlM (stepIndex group utxoData) (emptyIndex numBuckets bucketSize) =
        .ok index ∧
      (forall key, Lists index.utxos key (UtxoUnder group utxoData membersOf
        (chainTxs (steps.foldl stepTip [])) key)) ∧
      (forall txNum, ListsSpends index.spentBy txNum
        (SpendUnder (chainTxs (steps.foldl stepTip [])) txNum)) ∧
      ((forall m, Lists index.utxos (group.serMember m) (UtxoOf utxoData membersOf
          (chainTxs (steps.foldl stepTip [])) m)) <->
        forall outpoint output, Unspent (chainTxs (steps.foldl stepTip [])) outpoint output ->
          forall m, m ∈ membersOf output ->
            forall m', group.serMember m' = group.serMember m -> m' = m) := by
  have hvalid : ValidChain [] := by
    intro _
    rw [take_nil]
    exact validTxs_nil
  rcases foldlM_simulates (fun index chain => ValidChain chain ∧
      Indexes group utxoData membersOf chain index) (fun _ _ => stepIndex_indexes hof) steps
    ⟨hvalid, indexes_empty numBuckets bucketSize⟩ hallowed with ⟨index, hrun, _, hindexes⟩
  exact ⟨index, hrun, hindexes.utxos, hindexes.spentBy, lists_utxoOf_iff hof hindexes.utxos⟩

end Index

/-!
## The scripts

A script is a member without the CashTokens data in front of it.
-/

section Scripts

open Tokens (Script)

def memberScript (script : Script) : Script :=
  match script.bytecode with
  | [] => script
  | first :: bytecode =>
    if first = Tokens.CashTokens.prefixToken then
      match Tokens.CashTokens.parseTokenData bytecode with
      | .ok (_, rest) => { bytecode := rest }
      | .error _ => script
    else script

def outputScript (output : TxOutput) : Script :=
  memberScript { bytecode := output.script }

/-- The scripts of the inputs, up to the first one without a coin. -/
def inputScripts (idx : Nat) : List TxInput -> List (MemberItem Script)
  | [] => []
  | input :: inputs =>
    match input.coin with
    | none => []
    | some coin => ⟨idx, outputScript coin.output⟩ :: inputScripts (idx + 1) inputs

def scriptGroup : Group Tx Script Unit where
  inputMembers := fun query _ => if query.isCoinbase then [] else inputScripts 0 query.tx.inputs
  outputMembers := fun query _ =>
    query.tx.outputs.zipIdx.map fun entry => ⟨entry.2, outputScript entry.1⟩
  serMember
  txHistoryConf := ⟨1000, by decide, by decide⟩

def utxoDataValue : UtxoData Int where
  fromOutput := TxOutput.value
  default := 0

theorem inputScripts_eq {inputs : List TxInput} (h : forall input, input ∈ inputs ->
    input.coin.isSome) (idx : Nat) :
    inputScripts idx inputs = ((inputs.filterMap coinOutput).zipIdx idx).flatMap fun entry =>
      [⟨entry.2, outputScript entry.1⟩] := by
  induction inputs generalizing idx with
  | nil => rfl
  | cons input inputs ih =>
    rcases Option.isSome_iff_exists.mp (h input mem_cons_self) with ⟨coin, hcoin⟩
    have houtput : coinOutput input = some coin.output := by
      unfold coinOutput
      rw [hcoin]
      rfl
    rw [filterMap_cons_some houtput, zipIdx_cons, flatMap_cons, ← ih (forall_mem_cons.mp h).2]
    simp only [inputScripts, hcoin]
    rfl

theorem scriptGroup_ofOutputs : OfOutputs scriptGroup fun output => [outputScript output] where
  outputs := by
    intro query aux
    exact map_eq_flatMap
  inputs := by
    intro query aux hcoinbase hcoins
    show (if query.isCoinbase then [] else inputScripts 0 query.tx.inputs) = _
    rw [hcoinbase]
    exact inputScripts_eq hcoins 0
  keys := fun _ => nodup_singleton _

/-- A coinbase, and a block in which its first output is spent by a transaction that comes
before the one it gets its second coin from. -/
def exampleCoinbase (txid : TxId) : Tx where
  txid
  inputs := [⟨⟨0, 0⟩, none⟩]
  outputs := [⟨50, [1]⟩]

def exampleSpends : List Tx :=
  [exampleCoinbase 2,
    { txid := 3, inputs := [⟨⟨1, 0⟩, some ⟨⟨50, [1]⟩⟩⟩, ⟨⟨4, 0⟩, some ⟨⟨20, [2]⟩⟩⟩],
      outputs := [⟨70, [1]⟩] },
    { txid := 4, inputs := [⟨⟨2, 0⟩, some ⟨⟨50, [1]⟩⟩⟩], outputs := [⟨20, [2]⟩] }]

def exampleSteps : List (TipStep Unit) :=
  [.connect [exampleCoinbase 1] (), .connect exampleSpends (),
    .disconnect exampleSpends (), .connect exampleSpends ()]

theorem utxo_index_iff_spends :
    AllowedRun stepTip AllowedTip [] exampleSteps ∧
    exists index, exampleSteps.foldlM (stepIndex scriptGroup utxoDataValue) (emptyIndex 2 1) =
        .ok index ∧
      (forall key, Lists index.utxos key
        (UtxoUnder scriptGroup utxoDataValue (fun output => [outputScript output])
          (chainTxs [[exampleCoinbase 1], exampleSpends]) key)) ∧
      forall txNum, ListsSpends index.spentBy txNum
        (SpendUnder (chainTxs [[exampleCoinbase 1], exampleSpends]) txNum) := by
  have hallowed : AllowedRun stepTip AllowedTip [] exampleSteps := by
    refine ⟨?_, ?_, ⟨[[exampleCoinbase 1]], rfl⟩, ?_, trivial⟩
    all_goals
      unfold AllowedTip
      decide +kernel
  rcases utxo_index_iff utxoDataValue scriptGroup_ofOutputs 2 1 exampleSteps hallowed with
    ⟨index, hrun, hutxos, hspends, _⟩
  exact ⟨hallowed, index, hrun, hutxos, hspends⟩

/-- Two P2PK scripts that differ in the first byte of the key only. -/
def confusedBlock : List Tx :=
  [{ txid := 1, inputs := [], outputs :=
    [⟨50, (p2pkUncompressed 0x04).bytecode⟩, ⟨60, (p2pkUncompressed 0x06).bytecode⟩] }]

/-- Both outputs are utxos of the first script. -/
theorem utxos_of_confused :
    AllowedRun stepTip AllowedTip [] [.connect confusedBlock ()] ∧
    outputScript ⟨60, (p2pkUncompressed 0x06).bytecode⟩ ≠ p2pkUncompressed 0x04 ∧
    ([.connect confusedBlock ()].foldlM (stepIndex scriptGroup utxoDataValue)
      (emptyIndex 0 0)).map (fun index => index.utxos (serMember (p2pkUncompressed 0x04))) =
    .ok (some [⟨⟨0, 0⟩, 50⟩, ⟨⟨0, 1⟩, 60⟩]) :=
  ⟨⟨by unfold AllowedTip; decide +kernel, trivial⟩, by decide +kernel, by decide +kernel⟩

end Scripts

end ECash.Index
