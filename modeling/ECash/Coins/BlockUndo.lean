import ECash.Coins.CacheOperations

/-!
# The coins of a block

What connecting a block does to the coins view, and what disconnecting it does.
Connection adds all outputs before it spends any input, so a transaction may
spend an output of a later one.  The checks that do not touch the view (amounts,
maturity, locks and scripts) are not part of this model.
-/

namespace ECash.Coins

structure TxIn where
  prevout : OutPoint
deriving DecidableEq, Repr

structure Transaction where
  txid : TxId
  vin : List TxIn
  vout : List TxOut
deriving DecidableEq, Repr

def Transaction.isCoinBase (tx : Transaction) : Bool :=
  match tx.vin with
  | [txin] => txin.prevout.isNull
  | _ => false

structure Block where
  hashPrevBlock : BlockHash
  vtx : List Transaction
deriving DecidableEq, Repr

/-- The coins one transaction spent, in the order of its inputs. -/
structure TxUndo where
  vprevout : List Coin
deriving DecidableEq, Repr

structure BlockUndo where
  vtxundo : List TxUndo
deriving DecidableEq, Repr

inductive ConnectError where
  | txDuplicate
  | inputsMissingOrSpent
  | undoOutOfRange
  | assertIsSpent
  | thrown (error : CoinsError)
deriving DecidableEq, Repr

/-!
## Adding the outputs
-/

def addCoinsFrom (txid : TxId) (fCoinbase : Bool) (nHeight : Nat) (check_for_overwrite : Bool) :
    Nat -> List TxOut -> CoinsViewCache -> Except Thrown CoinsViewCache
  | _, [], cache => .ok cache
  | i, out :: vout, cache =>
    let outpoint : OutPoint := { txid, n := i }
    let checked :=
      if check_for_overwrite then cache.haveCoin outpoint
      else (fCoinbase, cache)
    match checked.2.addCoin outpoint (Coin.ofOutput out nHeight fCoinbase)
        checked.1 with
    | .error e => .error e
    | .ok cache => addCoinsFrom txid fCoinbase nHeight check_for_overwrite (i + 1) vout cache

def addCoins (cache : CoinsViewCache) (tx : Transaction) (nHeight : Nat)
    (check_for_overwrite : Bool) : Except Thrown CoinsViewCache :=
  addCoinsFrom tx.txid tx.isCoinBase nHeight check_for_overwrite 0 tx.vout cache

/-- A logic error is caught and rejects the block; a failed assertion is not. -/
def catchDuplicate : CoinsError -> ConnectError
  | .overwriteUnspent => .txDuplicate
  | e => .thrown e

def addAllCoins (nHeight : Nat) :
    List Transaction -> CoinsViewCache -> Except ConnectError CoinsViewCache
  | [], view => .ok view
  | tx :: vtx, view =>
    match addCoins view tx nHeight false with
    | .error e => .error (catchDuplicate e.error)
    | .ok view => addAllCoins nHeight vtx view

/-!
## Spending the inputs
-/

def haveInputsFrom : List TxIn -> CoinsViewCache -> Bool × CoinsViewCache
  | [], view => (true, view)
  | txin :: vin, view =>
    match view.haveCoin txin.prevout with
    | (false, view) => (false, view)
    | (true, view) => haveInputsFrom vin view

def haveInputs (view : CoinsViewCache) (tx : Transaction) : Bool × CoinsViewCache :=
  if tx.isCoinBase then (true, view) else haveInputsFrom tx.vin view

def prevheights : List TxIn -> CoinsViewCache -> List Nat × CoinsViewCache
  | [], view => ([], view)
  | txin :: vin, view =>
    match view.accessCoin txin.prevout with
    | (coin, view) =>
      match prevheights vin view with
      | (heights, view) => (coin.getHeight :: heights, view)

def spendInputs :
    List TxIn -> TxUndo -> CoinsViewCache -> Except ConnectError (TxUndo × CoinsViewCache)
  | [], txundo, view => .ok (txundo, view)
  | txin :: vin, txundo, view =>
    match view.spendCoin txin.prevout with
    | (none, _) => .error .assertIsSpent
    | (some coin, view) => spendInputs vin { vprevout := txundo.vprevout ++ [coin] } view

def spendCoins (view : CoinsViewCache) (tx : Transaction) (txundo : TxUndo) :
    Except ConnectError (TxUndo × CoinsViewCache) :=
  if tx.isCoinBase then .ok (txundo, view)
  else spendInputs tx.vin txundo view

/--
The loop over the transactions.  The second argument holds the undo slots from
`txIndex` on; the coinbase takes none.
-/
def spendAllCoins :
    List Transaction -> List TxUndo -> CoinsViewCache ->
      Except ConnectError (List TxUndo × CoinsViewCache)
  | [], slots, view => .ok (slots, view)
  | tx :: vtx, slots, view =>
    if tx.isCoinBase then spendAllCoins vtx slots view
    else
      match haveInputs view tx with
      | (false, _) => .error .inputsMissingOrSpent
      | (true, view) =>
        match slots with
        | [] => .error .undoOutOfRange
        | txundo :: slots =>
          match spendCoins (prevheights tx.vin view).2 tx txundo with
          | .error e => .error e
          | .ok (txundo, view) =>
            match spendAllCoins vtx slots view with
            | .error e => .error e
            | .ok (undos, view) => .ok (txundo :: undos, view)

/-- What connecting a block at height `nHeight` does to the coins view. -/
def connectBlock (block : Block) (nHeight : Nat) (view : CoinsViewCache) :
    Except ConnectError (BlockUndo × CoinsViewCache) :=
  let vtxundo := List.replicate (block.vtx.length - 1) { vprevout := [] }
  match addAllCoins nHeight block.vtx view with
  | .error e => .error e
  | .ok view =>
    match spendAllCoins block.vtx vtxundo view with
    | .error e => .error e
    | .ok (vtxundo, view) => .ok ({ vtxundo }, view)

/-!
## Undoing
-/

inductive DisconnectResult where
  | OK
  | UNCLEAN
  | FAILED
deriving DecidableEq, Repr

def MAX_TX_SIZE : Nat := 1000000

/-- The serialized size of an empty output: its value and an empty script. -/
def MIN_TXOUT_SIZE : Nat := 8 + 1

def MAX_OUTPUTS_PER_TX : Nat := MAX_TX_SIZE / MIN_TXOUT_SIZE

/-- The loop over the possible outputs of a transaction, `left` of them from `n` on. -/
def accessByTxidFrom (txid : TxId) :
    Nat -> Nat -> CoinsViewCache -> Coin × CoinsViewCache
  | 0, _, view => (Coin.empty, view)
  | left + 1, n, view =>
    match view.accessCoin { txid, n } with
    | (alternate, view) =>
      if alternate.isSpent then accessByTxidFrom txid left (n + 1) view
      else (alternate, view)

def accessByTxid (view : CoinsViewCache) (txid : TxId) : Coin × CoinsViewCache :=
  accessByTxidFrom txid MAX_OUTPUTS_PER_TX 0 view

/--
The coin to restore.  Undo data without height and coinbase flag takes them from
another output of the same transaction, and there is none if that is missing.
-/
def undoMetadata (undo : Coin) (view : CoinsViewCache) (out : OutPoint) :
    Option Coin × CoinsViewCache :=
  if undo.getHeight = 0 then
    match accessByTxid view out.txid with
    | (alternate, view) =>
      if alternate.isSpent then (none, view)
      else
        (some (Coin.ofOutput undo.out alternate.getHeight alternate.isCoinBase), view)
  else (some undo, view)

def undoCoinSpend (undo : Coin) (view : CoinsViewCache) (out : OutPoint) :
    Except Thrown (DisconnectResult × CoinsViewCache) :=
  match view.haveCoin out with
  | (overwrite, view) =>
    match undoMetadata undo view out with
    | (none, view) => .ok (.FAILED, view)
    | (some undo, view) =>
      match view.addCoin out undo overwrite with
      | .error e => .error e
      | .ok view =>
        .ok (if overwrite then .UNCLEAN
            else .OK, view)

def restoreInputs :
    List TxIn -> List Coin -> Bool -> CoinsViewCache -> Except Thrown (Option Bool × CoinsViewCache)
  | txin :: vin, undo :: vprevout, fClean, view =>
    match undoCoinSpend undo view txin.prevout with
    | .error e => .error e
    | .ok (.FAILED, view) => .ok (none, view)
    | .ok (res, view) => restoreInputs vin vprevout (fClean && res != .UNCLEAN) view
  | _, _, fClean, view => .ok (some fClean, view)

def restoreAllInputs :
    List Transaction -> List TxUndo -> Bool -> CoinsViewCache ->
      Except Thrown (Option Bool × CoinsViewCache)
  | tx :: vtx, txundo :: vtxundo, fClean, view =>
    if txundo.vprevout.length ≠ tx.vin.length then .ok (none, view)
    else
      match restoreInputs tx.vin txundo.vprevout fClean view with
      | .error e => .error e
      | .ok (none, view) => .ok (none, view)
      | .ok (some fClean, view) => restoreAllInputs vtx vtxundo fClean view
  | _, _, fClean, view => .ok (some fClean, view)

def removeOutputsFrom (txid : TxId) (is_coinbase : Bool) (nHeight : Nat) :
    Nat -> List TxOut -> Bool -> CoinsViewCache -> Bool × CoinsViewCache
  | _, [], fClean, view => (fClean, view)
  | o, txout :: vout, fClean, view =>
    if txout.scriptPubKey.isUnspendable then
      removeOutputsFrom txid is_coinbase nHeight (o + 1) vout fClean view
    else
      match view.spendCoin { txid, n := o } with
      | (moved, view) =>
        let coin := moved.getD Coin.empty
        let mismatch := moved.isNone || txout != coin.out ||
          nHeight != coin.getHeight || is_coinbase != coin.isCoinBase
        removeOutputsFrom txid is_coinbase nHeight (o + 1) vout (fClean && !mismatch) view

def removeAllOutputs (nHeight : Nat) :
    List Transaction -> Bool -> CoinsViewCache -> Bool × CoinsViewCache
  | [], fClean, view => (fClean, view)
  | tx :: vtx, fClean, view =>
    match removeOutputsFrom tx.txid tx.isCoinBase nHeight 0 tx.vout fClean
        view with
    | (fClean, view) => removeAllOutputs nHeight vtx fClean view

def applyBlockUndo (blockUndo : BlockUndo) (block : Block) (nHeight : Nat) (view : CoinsViewCache) :
    Except Thrown (DisconnectResult × CoinsViewCache) :=
  if blockUndo.vtxundo.length + 1 ≠ block.vtx.length then
    .ok (.FAILED, view)
  else
    match restoreAllInputs block.vtx.tail blockUndo.vtxundo true view with
    | .error e => .error e
    | .ok (none, view) => .ok (.FAILED, view)
    | .ok (some fClean, view) =>
      match removeAllOutputs nHeight block.vtx fClean view with
      | (fClean, view) =>
        .ok (if fClean then .OK else .UNCLEAN, view.setBestBlock block.hashPrevBlock)

end ECash.Coins
