import ECash.Merkle.PartialTree

/-!
# The keys of the short ids

Both sides of a compact block compute its short ids under keys that are not sent: they come from
the header and the nonce of the message.
-/

namespace ECash.Relay

open Foundation Merkle List

structure PrefilledTransaction (Tx : Type) where
  index : UInt32
  tx : Tx

structure CBlockHeaderAndShortTxIDs (Header Tx : Type) where
  shorttxidk0 : UInt64
  shorttxidk1 : UInt64
  nonce : UInt64
  shorttxids : List UInt64
  prefilledtxn : List (PrefilledTransaction Tx)
  header : Header

/-- Numbers of six bytes; greater ones are not written. -/
def customUintFormatter : Format (Fin 0x1000000000000) where
  write v := littleEndian 6 v
  read bytes := do
    let (v, rest) ← readLittleEndian 6 bytes
    if h : v < 0x1000000000000 then some (⟨v, h⟩, rest) else none
  read_write v rest := by
    simp [@readLittleEndian_littleEndian 6 v v.isLt]

def serShortIds (shorttxids : List UInt64) : Option (List (Fin 0x1000000000000)) :=
  if h : shorttxids.all fun v => v.toNat < 0x1000000000000 then
    some (shorttxids.pmap (fun v hv => ⟨v.toNat, hv⟩) (by simpa using h))
  else none

section Prefilled

variable {Tx : Type} (format : Format Tx)

/-- The transactions after the index `shift`, each with the distance of its index. -/
def serPrefilled : UInt64 -> List (PrefilledTransaction Tx) -> Option Bytes
  | _, [] => some []
  | shift, v :: vs =>
    let index := v.index.toUInt64
    if index < shift ∨ index ≥ 0xffffffffffffffff then none
    else do
      let rest ← serPrefilled (index + 1) vs
      some (writeCompactSize (index - shift).toNat ++ format.write v.tx ++ rest)

def unserPrefilled : Nat -> UInt64 -> Bytes -> Option (List (PrefilledTransaction Tx) × Bytes)
  | 0, _, bytes => some ([], bytes)
  | size + 1, shift, bytes => do
      let (n, bytes) ← readCompactSize bytes
      let shift := shift + .ofNat n
      if shift < .ofNat n ∨ shift ≥ 0xffffffffffffffff ∨ shift > 0xffffffff then none
      else
        let (tx, bytes) ← format.read bytes
        let (vs, rest) ← unserPrefilled size (shift + 1) bytes
        some (⟨shift.toUInt32, tx⟩ :: vs, rest)

end Prefilled

def getUint64 (hash : Bytes) (pos : Nat) : UInt64 :=
  match readLittleEndian 8 (hash.drop (pos * 8)) with
  | some (n, _) => .ofNat n
  | none => 0

namespace CBlockHeaderAndShortTxIDs

variable {Header Tx : Type} (headerFormat : Format Header) (txFormat : Format Tx)
  (sha256 : Bytes -> Bytes)

def fillShortTxIDSelector (obj : CBlockHeaderAndShortTxIDs Header Tx) :
    CBlockHeaderAndShortTxIDs Header Tx :=
  let hash := sha256 (headerFormat.write obj.header ++ littleEndian 8 obj.nonce.toNat)
  { obj with shorttxidk0 := getUint64 hash 0, shorttxidk1 := getUint64 hash 1 }

def getShortID (sipHash : UInt64 -> UInt64 -> Bytes -> UInt64)
    (obj : CBlockHeaderAndShortTxIDs Header Tx) (txhash : Bytes) : UInt64 :=
  sipHash obj.shorttxidk0 obj.shorttxidk1 txhash &&& 0xffffffffffff

def serialize (obj : CBlockHeaderAndShortTxIDs Header Tx) : Option Bytes := do
  let shorttxids ← serShortIds obj.shorttxids
  let prefilledtxn ← serPrefilled txFormat 0 obj.prefilledtxn
  some (headerFormat.write obj.header ++ (littleEndian 8 obj.nonce.toNat ++
    (writeVector customUintFormatter shorttxids ++
      (writeCompactSize obj.prefilledtxn.length ++ prefilledtxn))))

/-- The object that is read into has the keys `k0` and `k1`, which no constructor has set. -/
def unserialize (k0 k1 : UInt64) (bytes : Bytes) :
    Option (CBlockHeaderAndShortTxIDs Header Tx × Bytes) := do
  let (header, bytes) ← headerFormat.read bytes
  let (nonce, bytes) ← readLittleEndian 8 bytes
  let (shorttxids, bytes) ← readVector customUintFormatter bytes
  let (size, bytes) ← readCompactSize bytes
  let (prefilledtxn, rest) ← unserPrefilled txFormat size 0 bytes
  let obj := ⟨k0, k1, .ofNat nonce, shorttxids.map fun v => .ofNat v.val, prefilledtxn, header⟩
  match prefilledtxn.getLast? with
  | none => some (obj, rest)
  | some last =>
    if last.index.toNat + shorttxids.length > 0xffffffff then none
    else if last.index.toNat ≥ shorttxids.length + prefilledtxn.length then none
    else some (obj.fillShortTxIDSelector headerFormat sha256, rest)

theorem unserPrefilled_length {size : Nat} {shift : UInt64} {bytes rest : Bytes}
    {vs : List (PrefilledTransaction Tx)}
    (h : unserPrefilled txFormat size shift bytes = some (vs, rest)) : vs.length = size := by
  induction size generalizing shift bytes vs with
  | zero =>
    cases h
    rfl
  | succ size ih =>
    simp only [unserPrefilled, Option.bind_eq_bind, Option.bind_eq_some_iff] at h
    rcases h with ⟨_, _, h⟩
    split at h
    · cases h
    · simp only [Option.bind_eq_some_iff] at h
      rcases h with ⟨_, _, ⟨ws, _⟩, htail, heq⟩
      cases heq
      rw [length_cons, ih htail]

def keys (obj : CBlockHeaderAndShortTxIDs Header Tx) : UInt64 × UInt64 :=
  (obj.shorttxidk0, obj.shorttxidk1)

variable {headerFormat txFormat sha256} {x y : CBlockHeaderAndShortTxIDs Header Tx}
  {k0 k1 : UInt64} {bytes rest : Bytes} (hids : x.shorttxids.length < 2 ^ 64)
  (hprefilled : x.prefilledtxn.length < 2 ^ 64)
  (hser : x.serialize headerFormat txFormat = some bytes)

include hids hprefilled hser

/-- The keys are derived only on the branch of the messages with prefilled transactions. -/
theorem keys_unserialize
    (hread : unserialize headerFormat txFormat sha256 k0 k1 bytes = some (y, rest)) :
    y.keys = if x.prefilledtxn = [] then (k0, k1)
      else (x.fillShortTxIDSelector headerFormat sha256).keys := by
  simp only [serialize, Option.bind_eq_bind, Option.bind_eq_some_iff, Option.some.injEq] at hser
  rcases hser with ⟨ids, hmap, prefilled, _, rfl⟩
  have hlength : ids.length < 2 ^ 64 := by
    unfold serShortIds at hmap
    split at hmap <;> cases hmap
    rwa [length_pmap]
  have hnonce : x.nonce.toNat < 256 ^ 8 := x.nonce.toNat_lt
  simp only [unserialize, headerFormat.read_write, readLittleEndian_littleEndian hnonce,
    readVector_writeVector _ hlength, Option.bind_eq_bind, Option.bind_some,
    Option.bind_eq_some_iff] at hread
  rcases hread with ⟨_, hread', _, hsize, ⟨vs, _⟩, hvs, hlast⟩
  split at hread' <;> cases hread'
  rw [readCompactSize_writeCompactSize hprefilled] at hsize
  split at hsize <;> cases hsize
  have hcount : vs = [] <-> x.prefilledtxn = [] := by
    rw [← length_eq_zero_iff, unserPrefilled_length txFormat hvs, length_eq_zero_iff]
  split at hlast
  · rename_i hnone
    cases hlast
    rw [if_pos (hcount.mp (getLast?_eq_none_iff.mp hnone))]
    rfl
  · rename_i last hsome
    have hvs : vs ≠ [] := by
      rintro rfl
      cases hsome
    rw [if_neg (hvs ∘ hcount.mpr)]
    split at hlast
    · cases hlast
    · split at hlast <;> cases hlast
      simp [keys, fillShortTxIDSelector]

/-- A message that can be read back gives its reader the sender's short ids exactly if it has a
prefilled transaction and the sender's keys are those of its header and nonce. -/
theorem getShortID_unserialize_iff (hread : forall k0 k1, exists y rest,
      unserialize headerFormat txFormat sha256 k0 k1 bytes = some (y, rest)) :
    (forall k0 k1 y rest, unserialize headerFormat txFormat sha256 k0 k1 bytes = some (y, rest) ->
      forall sipHash txhash, y.getShortID sipHash txhash = x.getShortID sipHash txhash) <->
    x.prefilledtxn ≠ [] ∧ (x.fillShortTxIDSelector headerFormat sha256).keys = x.keys := by
  constructor
  · intro hsame
    have hkeys : forall k0 k1, (if x.prefilledtxn = [] then (k0, k1)
        else (x.fillShortTxIDSelector headerFormat sha256).keys) = x.keys := by
      intro k0 k1
      rcases hread k0 k1 with ⟨y, rest, hy⟩
      rw [← keys_unserialize hids hprefilled hser hy]
      by_contra hne
      -- a hash that tells the two pairs of keys apart
      have hhash := hsame k0 k1 y rest hy (fun a b _ => if (a, b) = x.keys then 1 else 0) []
      change (if y.keys = x.keys then 1 else 0) &&& _ = (if x.keys = x.keys then 1 else 0) &&& _
        at hhash
      rw [if_neg hne, if_pos rfl] at hhash
      cases hhash
    have hsome : x.prefilledtxn ≠ [] := by
      intro hnil
      have h0 := hkeys 0 0
      have h1 := hkeys 1 0
      rw [if_pos hnil] at h0 h1
      cases h0.trans h1.symm
    exact ⟨hsome, (if_neg hsome).symm.trans (hkeys 0 0)⟩
  · rintro ⟨hsome, hfilled⟩ k0 k1 y rest hy sipHash txhash
    have hkeys := keys_unserialize hids hprefilled hser hy
    rw [if_neg hsome, hfilled] at hkeys
    simp only [keys, Prod.mk.injEq] at hkeys
    rw [getShortID, hkeys.left, hkeys.right, getShortID]

omit hids hprefilled hser

def ones (_ : Bytes) : Bytes := replicate 32 1

/-- A message with one short id, in which a byte stands for the header and for a transaction. -/
def message (prefilledtxn : List (PrefilledTransaction UInt8)) :
    CBlockHeaderAndShortTxIDs UInt8 UInt8 :=
  fillShortTxIDSelector byteFormat ones ⟨0, 0, 0, [5], prefilledtxn, 0⟩

theorem getShortID_unserialize_iff_coinbase :
    exists bytes, (message [⟨0, 7⟩]).serialize byteFormat byteFormat = some bytes ∧
      forall k0 k1 y rest, unserialize byteFormat byteFormat ones k0 k1 bytes = some (y, rest) ->
      forall sipHash h, y.getShortID sipHash h = (message [⟨0, 7⟩]).getShortID sipHash h :=
  ⟨_, rfl, (getShortID_unserialize_iff (by decide) (by decide) rfl fun _ _ => ⟨_, _, rfl⟩).mpr
    ⟨by decide, by decide⟩⟩

theorem getShortID_without_prefilled :
    exists bytes y, (message []).serialize byteFormat byteFormat = some bytes ∧
      unserialize byteFormat byteFormat ones 0 0 bytes = some (y, []) ∧
      y.getShortID (fun k0 _ _ => k0) [] ≠ (message []).getShortID (fun k0 _ _ => k0) [] :=
  ⟨_, _, rfl, rfl, by decide⟩

end CBlockHeaderAndShortTxIDs

end ECash.Relay
