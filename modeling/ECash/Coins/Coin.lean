import Mathlib.Data.List.AList

/-!
# Coins, outputs and cache entries

The data the coins database and its caches work on: transaction outputs, the
coins they become once they are in a block, and the entries a cache keeps for
them.  Hashes are opaque identifiers, represented by natural numbers with
`0` for the null hash.
-/

namespace ECash.Coins

abbrev TxId := Nat

abbrev BlockHash := Nat

abbrev Script := List UInt8

structure OutPoint where
  txid : TxId
  n : Nat
deriving DecidableEq, Repr

namespace OutPoint

def NULL_INDEX : Nat := 0xffffffff

def isNull (o : OutPoint) : Bool :=
  o.txid == 0 && o.n == NULL_INDEX

end OutPoint

/-!
## Scripts

Only two facts about a script matter to the coins database: whether it can ever
be spent, and how much heap memory it occupies.
-/

namespace Script

def OP_RETURN : UInt8 := 0x6a

def MAX_SCRIPT_SIZE : Nat := 10000

def isUnspendable (script : Script) : Bool :=
  (script.head? == some OP_RETURN) || decide (script.length > MAX_SCRIPT_SIZE)

/-- Scripts up to this size are stored in place. -/
def DIRECT_SIZE : Nat := 28

def mallocUsage (alloc : Nat) : Nat :=
  if alloc = 0 then 0 else (alloc + 31) / 16 * 16

def dynamicUsage (script : Script) : Nat :=
  if script.length ≤ DIRECT_SIZE then 0 else mallocUsage script.length

end Script

/-!
## Outputs and coins

A null output has value minus one satoshi; a coin with a null output is spent.
-/

structure TxOut where
  nValue : Int
  scriptPubKey : Script
deriving DecidableEq, Repr

namespace TxOut

def null : TxOut :=
  { nValue := -1, scriptPubKey := [] }

def isNull (out : TxOut) : Bool :=
  out.nValue == -1

end TxOut

structure Coin where
  out : TxOut
  nHeightAndIsCoinBase : Nat
deriving DecidableEq, Repr

namespace Coin

def empty : Coin :=
  { out := TxOut.null, nHeightAndIsCoinBase := 0 }

/-- Heights are block heights, below `2 ^ 31`, so the shift loses no bit. -/
def ofOutput (out : TxOut) (nHeight : Nat) (isCoinbase : Bool) : Coin :=
  { out, nHeightAndIsCoinBase := 2 * nHeight + isCoinbase.toNat }

def getHeight (coin : Coin) : Nat :=
  coin.nHeightAndIsCoinBase / 2

def isCoinBase (coin : Coin) : Bool :=
  coin.nHeightAndIsCoinBase % 2 == 1

def isSpent (coin : Coin) : Bool :=
  coin.out.isNull

def clear (_coin : Coin) : Coin :=
  empty

def dynamicMemoryUsage (coin : Coin) : Nat :=
  coin.out.scriptPubKey.dynamicUsage

@[simp] theorem isSpent_empty : empty.isSpent = true := rfl

@[simp] theorem isSpent_clear (coin : Coin) : coin.clear.isSpent = true := rfl

@[simp] theorem ofOutput_out (out : TxOut) (nHeight : Nat) (isCoinbase : Bool) :
    (ofOutput out nHeight isCoinbase).out = out := rfl

@[simp] theorem getHeight_ofOutput (out : TxOut) (nHeight : Nat) (isCoinbase : Bool) :
    (ofOutput out nHeight isCoinbase).getHeight = nHeight := by
  cases isCoinbase with
  | false => simp [ofOutput, getHeight]
  | true =>
    show (2 * nHeight + 1) / 2 = nHeight
    omega

@[simp] theorem isCoinBase_ofOutput (out : TxOut) (nHeight : Nat) (isCoinbase : Bool) :
    (ofOutput out nHeight isCoinbase).isCoinBase = isCoinbase := by
  cases isCoinbase <;> simp [ofOutput, isCoinBase]

end Coin

/-!
## Cache entries

An entry is DIRTY when it may differ from the parent's version, and FRESH when
the parent is known not to hold an unspent coin for its outpoint.
-/

structure CoinsCacheEntry where
  coin : Coin
  dirty : Bool
  fresh : Bool
deriving DecidableEq, Repr

namespace CoinsCacheEntry

def empty : CoinsCacheEntry :=
  { coin := Coin.empty, dirty := false, fresh := false }

def visible (e : CoinsCacheEntry) : Option Coin :=
  if e.coin.isSpent then none else some e.coin

variable {e : CoinsCacheEntry}

theorem visible_of_spent (h : e.coin.isSpent = true) : e.visible = none := by
  simp [visible, h]

theorem visible_of_unspent (h : e.coin.isSpent = false) : e.visible = some e.coin := by
  simp [visible, h]

theorem visible_eq_some {coin : Coin} (h : e.visible = some coin) :
    e.coin.isSpent = false ∧ e.coin = coin := by
  cases hspent : e.coin.isSpent with
  | true =>
    rw [visible_of_spent hspent] at h
    cases h
  | false =>
    rw [visible_of_unspent hspent] at h
    exact ⟨rfl, Option.some.inj h⟩

theorem spent_of_visible_none (h : e.visible = none) : e.coin.isSpent = true := by
  unfold visible at h
  cases hspent : e.coin.isSpent with
  | true => rfl
  | false =>
    rw [hspent] at h
    cases h

end CoinsCacheEntry

abbrev CoinsMap := AList fun _ : OutPoint => CoinsCacheEntry

end ECash.Coins
