import ECash.Foundation.Simulation
import ECash.Interpreter.SignatureHash
import ECash.Lib.ScriptReading
import ECash.Lib.SigHash

/-!
# The library signs what the node hashes

The library and the node each serialize transactions and read scripts with code of their own.
For the same transaction both come to the same bytes.
-/

namespace ECash.Lib

open Foundation Interpreter List
open Interpreter (CTransaction CTxIn CTxOut CScript COutPoint Uint256 Reading
  PrecomputedTransactionData SignatureMessage HasFlag)

/-!
## The same transaction

The library has numbers for the values of the node's fixed-width fields, with negative ones as
the numbers of the same bits.
-/

def hexStr (bytes : Bytes) : List (Fin 16) :=
  bytes.flatMap fun byte =>
    [Fin.ofNat 16 (byte.toNat / 16), Fin.ofNat 16 (byte.toNat % 16)]

/-- Ids are shown with the most significant byte first. -/
def getHex (id : Uint256) : List (Fin 16) := hexStr id.bytes.reverse

def SameTxid (txid : Txid) (id : Uint256) : Prop :=
  match txid with
  | .hex txid => txid.digits = getHex id
  | .bytes txid _ => txid = id.bytes

structure SameOutPoint (outpoint : OutPoint) (prevout : COutPoint) : Prop where
  txid : SameTxid outpoint.txid prevout.txid
  outIdx : outpoint.outIdx = prevout.n.toNat

/-- A sequence that is not given is the final one. -/
structure SameInput (input : TxInput) (txin : CTxIn) : Prop where
  prevOut : SameOutPoint input.prevOut txin.prevout
  sequence : input.sequenceOrDefault = txin.nSequence.toNat

structure SameOutput (output : TxOutput) (txout : CTxOut) : Prop where
  value : output.value = txout.nValue.toUInt64.toNat
  script : output.script.bytecode = txout.scriptPubKey.bytes

/-- What is signed does not depend on the scripts of the inputs. -/
structure SameTx (tx : Tx) (txTo : CTransaction) : Prop where
  version : tx.version = txTo.nVersion.toUInt32.toNat
  inputs : Forall₂ SameInput tx.inputs txTo.vin
  outputs : Forall₂ SameOutput tx.outputs txTo.vout
  locktime : tx.locktime = txTo.nLockTime.toNat

/-!
## Serialization
-/

namespace Writes

variable {value : Int}

theorem u32 {n : UInt32} (h : value = n.toNat) :
    Writes [.u32 value] (Interpreter.serializeUInt32 n) := by
  subst h
  have hlt : n.toNat < 2 ^ 32 := n.toNat_lt
  apply @single (.u32 n.toNat)
  simp only [Put.Fits, FitsIn]
  omega

theorem int64 {n : Int64} (h : value = n.toUInt64.toNat) :
    Writes [.u64 value] (Interpreter.serializeInt64 n) := by
  subst h
  have hlt : n.toUInt64.toNat < 2 ^ 64 := n.toUInt64.toNat_lt
  apply @single (.u64 n.toUInt64.toNat)
  simp only [Put.Fits, FitsIn]
  omega

theorem varSize {size : Nat} (h : size < 2 ^ 64) :
    Writes (writeVarSize size) (Interpreter.writeCompactSize size) := by
  refine ⟨writeVarSize_fits h, ?_⟩
  unfold writeVarSize writeCompactSize
  by_cases hone : size < 253
  · rw [if_pos (by omega), if_pos hone]
    simp [Put.encoded]
  · rw [if_neg (by omega)]
    split_ifs <;> simp [Put.encoded, littleEndian]

theorem script {script : Script} {other : CScript} (h : script.bytecode = other.bytes) :
    Writes script.writeWithSize other.serialize := by
  unfold Script.writeWithSize CScript.serialize
  rw [h]
  have hsize := other.size
  exact (varSize (by omega)).append (bytes other.bytes)

theorem output {output : TxOutput} {txout : CTxOut} (h : SameOutput output txout) :
    Writes (writeTxOutput output) txout.serialize :=
  (int64 h.value).append (script h.script)

end Writes

/-!
## Ids
-/

theorem fromHex_hexStr (bytes : Bytes) : fromHex (hexStr bytes) = bytes := by
  induction bytes with
  | nil => rfl
  | cons byte bytes ih =>
    have hlt : byte.toNat < 256 := byte.toNat_lt
    have hbyte : 16 * (byte.toNat / 16 % 16) + byte.toNat % 16 % 16 = byte.toNat := by omega
    have hcons : hexStr (byte :: bytes) = Fin.ofNat 16 (byte.toNat / 16) ::
        Fin.ofNat 16 (byte.toNat % 16) :: hexStr bytes := rfl
    rw [hcons]
    simp only [fromHex, ih, Fin.val_ofNat, hbyte, UInt8.ofNat_toNat]

theorem SameTxid.toBytes {txid : Txid} {id : Uint256} (h : SameTxid txid id) :
    txid.toBytes = id.bytes := by
  cases txid with
  | hex txid =>
    have hdigits : txid.digits = hexStr id.bytes.reverse := h
    show (fromHex txid.digits).reverse = id.bytes
    rw [hdigits, fromHex_hexStr, reverse_reverse]
  | bytes txid length => exact h

namespace Writes

theorem outPoint {outpoint : OutPoint} {prevout : COutPoint}
    (h : SameOutPoint outpoint prevout) : Writes (writeOutPoint outpoint) prevout.serialize := by
  unfold writeOutPoint COutPoint.serialize
  rw [h.txid.toBytes]
  exact (bytes prevout.txid.bytes).cons (u32 h.outIdx)

variable {tx : Tx} {txTo : CTransaction}

theorem prevouts (h : SameTx tx txTo) :
    Writes (writePrevouts tx) (txTo.vin.flatMap fun txin => txin.prevout.serialize) :=
  flatMap (fun _ _ hinput => outPoint hinput.prevOut) h.inputs

theorem sequences (h : SameTx tx txTo) :
    Writes (writeSequences tx)
      (txTo.vin.flatMap fun txin => Interpreter.serializeUInt32 txin.nSequence) :=
  flatMap (fun _ _ hinput => u32 hinput.sequence) h.inputs

theorem outputs (h : SameTx tx txTo) :
    Writes (writeOutputs tx) (txTo.vout.flatMap CTxOut.serialize) :=
  flatMap (fun _ _ houtput => output houtput) h.outputs

end Writes

/-!
## Script code
-/

namespace Script

theorem cutOutCodesepLoop_step {pc rest data : Bytes} {opcode : UInt8}
    (h : Interpreter.getScriptOp pc = (some (opcode, data), rest)) (nCodesep rounds found : Nat) :
    cutOutCodesepLoop nCodesep (rounds + 1) found pc =
      if opcode = Interpreter.OP_CODESEPARATOR then
        if found = nCodesep then .ok { bytecode := rest }
        else cutOutCodesepLoop nCodesep rounds (found + 1) rest
      else cutOutCodesepLoop nCodesep rounds found rest := by
  have hop := readOp_of_getScriptOp h
  have hcode : Op.ofNode opcode data = .code OP_CODESEPARATOR <->
      opcode = Interpreter.OP_CODESEPARATOR := by
    unfold Op.ofNode
    split
    · rename_i hpush
      refine iff_of_false Op.noConfusion ?_
      rintro rfl
      exact absurd hpush (by decide)
    · exact Op.code.injEq opcode OP_CODESEPARATOR ▸ Iff.rfl
  cases pc with
  | nil => simp [getScriptOp] at h
  | cons byte bytes => simp only [cutOutCodesepLoop, hop, bind, Except.bind, hcode]

/-- What the library has found out about a script when the node has read a part of it. -/
structure Follows (script : Script) (reading : Reading) : Prop where
  walk : exists rounds, reading.pc.length ≤ rounds ∧
    forall nCodesep, reading.separators ≤ nCodesep -> script.cutOutCodesep nCodesep =
        cutOutCodesepLoop nCodesep rounds reading.separators reading.pc
  code : match reading.lastExecuted with
    | none => reading.pbegincodehash = script.bytecode
    | some nCodesep => script.cutOutCodesep nCodesep = .ok { bytecode := reading.pbegincodehash }

theorem follows_start (script : Script) : Follows script (Reading.start script.bytecode) where
  walk := ⟨script.bytecode.length, le_rfl, fun _ _ => rfl⟩
  code := rfl

theorem Follows.next {script : Script} {reading reading' : Reading} {fExec : Bool}
    (h : Follows script reading) (hnext : reading.next fExec = some reading') :
    Follows script reading' := by
  rcases hop : getScriptOp reading.pc with ⟨op, rest⟩
  cases op with
  | none => simp [Reading.next, hop] at hnext
  | some op =>
    rcases op with ⟨opcode, _⟩
    rcases h.walk with ⟨rounds, _, hwalk⟩
    have hshorter := getScriptOp_length hop
    obtain ⟨rounds, rfl⟩ : exists n, rounds = n + 1 := ⟨rounds - 1, by omega⟩
    simp only [Reading.next, hop] at hnext
    by_cases hsep : opcode = Interpreter.OP_CODESEPARATOR
    · have hafter : exists n, rest.length ≤ n ∧
          forall nCodesep, reading.separators + 1 ≤ nCodesep -> script.cutOutCodesep nCodesep =
              cutOutCodesepLoop nCodesep n (reading.separators + 1) rest := by
        refine ⟨rounds, by omega, ?_⟩
        intro nCodesep hle
        rw [hwalk nCodesep (by omega), cutOutCodesepLoop_step hop, if_pos hsep, if_neg (by omega)]
      rw [if_pos hsep] at hnext
      cases fExec with
      | true =>
        cases hnext
        refine ⟨hafter, ?_⟩
        show script.cutOutCodesep reading.separators = .ok { bytecode := rest }
        rw [hwalk reading.separators le_rfl, cutOutCodesepLoop_step hop, if_pos hsep, if_pos rfl]
      | false =>
        cases hnext
        exact ⟨hafter, h.code⟩
    · rw [if_neg hsep] at hnext
      cases hnext
      refine ⟨⟨rounds, by show rest.length ≤ rounds; omega, ?_⟩, h.code⟩
      intro nCodesep hle
      rw [hwalk nCodesep hle, cutOutCodesepLoop_step hop, if_neg hsep]

end Script

/-!
## Hashes
-/

def SigHashType.toNode (sigHashType : SigHashType) : Interpreter.SigHashType where
  sigHash := UInt32.ofNat sigHashType.toInt

namespace SigHashType

variable (sigHashType : SigHashType)

theorem toNode_toNat : sigHashType.toNode.sigHash.toNat = sigHashType.toInt := by
  rcases sigHashType with ⟨_ | _, _ | _, _ | _ | _⟩ <;> decide

theorem hasForkId_toNode :
    sigHashType.toNode.hasForkId = true <-> sigHashType.variant = .bip143 := by
  rcases sigHashType with ⟨_ | _, _ | _, _ | _ | _⟩ <;> decide

theorem hasAnyoneCanPay_toNode :
    sigHashType.toNode.hasAnyoneCanPay = true <-> sigHashType.inputType = .anyonecanpay := by
  rcases sigHashType with ⟨_ | _, _ | _, _ | _ | _⟩ <;> decide

theorem getBaseType_toNode :
    sigHashType.toNode.getBaseType = UInt32.ofNat sigHashType.outputType.flags := by
  rcases sigHashType with ⟨_ | _, _ | _, _ | _ | _⟩ <;> decide

end SigHashType

theorem forall₂_at {α β : Type} {same : α -> β -> Prop} {xs : List α} {ys : List β}
    (h : Forall₂ same xs ys) (i : Nat) :
    (xs[i]? = none ∧ ys[i]? = none) ∨ exists x y, xs[i]? = some x ∧ ys[i]? = some y ∧ same x y := by
  induction h generalizing i with
  | nil => exact .inl ⟨rfl, rfl⟩
  | cons hxy _ ih =>
    cases i with
    | zero => exact .inr ⟨_, _, rfl, rfl, hxy⟩
    | succ i => exact ih i

/-- The node may have the hashes of the whole transaction from before. -/
def CacheOf (sha256d : Bytes -> Bytes) (txTo : CTransaction)
    (cache : Option PrecomputedTransactionData) : Prop :=
  cache = none ∨ cache = some (PrecomputedTransactionData.ofTx sha256d txTo)

section Agreement

variable (sha256d : Bytes -> Bytes) {tx : Tx} {txTo : CTransaction}
  {cache : Option PrecomputedTransactionData} (sigHashType : SigHashType)

section

variable (hcache : CacheOf sha256d txTo cache)

include hcache

theorem hashPrevouts_eq :
    Interpreter.hashPrevouts sha256d txTo sigHashType.toNode cache =
      if sigHashType.inputType = .fixed then
        Interpreter.getPrevoutHash sha256d txTo
      else zeroHash := by
  unfold hashPrevouts
  simp only [SigHashType.hasAnyoneCanPay_toNode]
  rcases sigHashType with ⟨variant, inputType, outputType⟩
  cases inputType with
  | fixed => rcases hcache with hcache | hcache <;> subst hcache <;> rfl
  | anyonecanpay => rfl

theorem hashSequence_eq :
    Interpreter.hashSequence sha256d txTo sigHashType.toNode cache =
      if sigHashType.inputType = .fixed ∧
          sigHashType.outputType = .all then
        Interpreter.getSequenceHash sha256d txTo
      else zeroHash := by
  unfold hashSequence
  simp only [SigHashType.hasAnyoneCanPay_toNode, SigHashType.getBaseType_toNode]
  rcases sigHashType with ⟨variant, inputType, outputType⟩
  rcases hcache with hcache | hcache <;> subst hcache <;>
    cases inputType <;> cases outputType <;> rfl

/-- For a single output the node and the library take the one at the index of the input. -/
theorem hashOutputs_eq (hsame : SameTx tx txTo)
    (input : UnsignedTxInput) (htx : input.unsignedTx.tx = tx)
    (hhash : input.unsignedTx.outputsHash = Interpreter.getOutputsHash sha256d txTo) :
    input.hashOutputs sha256d sigHashType.outputType =
      .ok (Interpreter.hashOutputs sha256d txTo input.inputIdx sigHashType.toNode cache) := by
  unfold hashOutputs UnsignedTxInput.hashOutputs
  simp only [SigHashType.getBaseType_toNode]
  rcases sigHashType with ⟨variant, inputType, outputType⟩
  cases outputType with
  | all => rcases hcache with hcache | hcache <;> subst hcache <;> rw [hhash] <;> rfl
  | none => rfl
  | single =>
    rw [htx]
    rcases forall₂_at hsame.outputs input.inputIdx with ⟨hnone, hnone'⟩ |
      ⟨output, txout, hsome, hsome', houtput⟩
    · rw [hnone, hnone']
      rfl
    · have hwrite := (Writes.output houtput).write_eq
      simp only [hsome, hsome', txWriterHash, hwrite]
      rfl

end

theorem hashOutputs_single {nIn : Nat} (hvout : txTo.vout.length ≤ nIn)
    (hsingle : sigHashType.outputType = .single) :
    Interpreter.hashOutputs sha256d txTo nIn sigHashType.toNode cache = zeroHash := by
  have hnone : txTo.vout[nIn]? = none := getElem?_eq_none hvout
  unfold hashOutputs
  rw [SigHashType.getBaseType_toNode, hsingle, hnone]
  rfl

def agreedTx (tx : Tx) (txTo : CTransaction) : UnsignedTx where
  tx
  prevoutsHash := Interpreter.getPrevoutHash sha256d txTo
  sequencesHash := Interpreter.getSequenceHash sha256d txTo
  outputsHash := Interpreter.getOutputsHash sha256d txTo

theorem fromTx_eq (hsame : SameTx tx txTo) :
    UnsignedTx.fromTx sha256d tx = .ok (agreedTx sha256d tx txTo) := by
  simp only [UnsignedTx.fromTx, txWriterHash, (Writes.prevouts hsame).write_eq,
    (Writes.sequences hsame).write_eq, (Writes.outputs hsame).write_eq]
  rfl

/-- What both sides hash for an input, part by part. -/
def agreedPreimage (txTo : CTransaction) (txin : CTxIn) (scriptCode : CScript) (amount : Int64)
    (outputsHash : Bytes) : Bytes :=
  Interpreter.serializeInt32 txTo.nVersion ++ (if sigHashType.inputType = .fixed then
        Interpreter.getPrevoutHash sha256d txTo
      else zeroHash) ++
    (if sigHashType.inputType = .fixed ∧ sigHashType.outputType = .all then
        Interpreter.getSequenceHash sha256d txTo
      else zeroHash) ++
    txin.prevout.serialize ++ scriptCode.serialize ++ Interpreter.serializeInt64 amount ++
    Interpreter.serializeUInt32 txin.nSequence ++ outputsHash ++
    Interpreter.serializeUInt32 txTo.nLockTime ++
    Interpreter.serializeUInt32 sigHashType.toNode.sigHash

theorem writes_preimage (hsame : SameTx tx txTo) {txInput : TxInput} {txin : CTxIn}
    (hinput : SameInput txInput txin) {signData : SignData} {amount : Int64}
    (hamount : signData.value = amount.toUInt64.toNat) (scriptCode : CScript)
    (outputsHash : Bytes) :
    Writes (UnsignedTxInput.writePreimage (agreedTx sha256d tx txTo) txInput signData
        { bytecode := scriptCode.bytes } outputsHash sigHashType)
      (agreedPreimage sha256d sigHashType txTo txin scriptCode amount outputsHash) := by
  have htype : (sigHashType.toInt : Int) = sigHashType.toNode.sigHash.toNat := by
    rw [SigHashType.toNode_toNat]
  have hhead := (Writes.u32 hsame.version).cons
    ((Writes.bytes (if sigHashType.inputType = .fixed then
        getPrevoutHash sha256d txTo else zeroHash)).cons
      (Writes.bytes (if sigHashType.inputType = .fixed ∧ sigHashType.outputType = .all then
        getSequenceHash sha256d txTo else zeroHash)))
  have hscript : Writes (Script.writeWithSize { bytecode := scriptCode.bytes })
      scriptCode.serialize := Writes.script rfl
  have htail := (Writes.int64 hamount).cons ((Writes.u32 hinput.sequence).cons
    ((Writes.bytes outputsHash).cons ((Writes.u32 hsame.locktime).cons (Writes.u32 htype))))
  have hall := ((hhead.append (Writes.outPoint hinput.prevOut)).append hscript).append htail
  unfold UnsignedTxInput.writePreimage agreedPreimage
  simp only [append_assoc] at hall ⊢
  exact hall

theorem scriptCode_eq {script : Script} {fExecs : List Bool} {reading : Reading}
    (h : Interpreter.readOperations script.bytecode fExecs = some reading) :
    (match reading.lastExecuted with
      | none => Except.ok script
      | some nCodesep => script.cutOutCodesep nCodesep) =
      Except.ok { bytecode := reading.pbegincodehash } := by
  have hcode := (foldlM_preserves (fun _ _ _ hfollows hnext => Script.Follows.next hfollows hnext)
    (Script.follows_start script) h).code
  cases hlast : reading.lastExecuted with
  | none =>
    simp only [hlast] at hcode
    rw [hcode]
  | some nCodesep =>
    simp only [hlast] at hcode
    exact hcode

/-- For the same transaction, input, amount and type, the library's preimage is what the node
hashes after it has read any operations of the script, with the last executed separator given
to the library by its number. -/
theorem sigHashPreimage_signatureMessage (hsame : SameTx tx txTo) {nIn : Nat}
    {txInput : TxInput} (hinput : tx.inputs[nIn]? = some txInput) {signData : SignData}
    (hsign : txInput.signData = some signData) {script : Script}
    (hscript : signDataScriptCode signData = Except.ok script) {amount : Int64}
    (hamount : signData.value = amount.toUInt64.toNat)
    (hvariant : sigHashType.variant = SigHashTypeVariant.bip143) {fExecs : List Bool}
    {reading : Reading}
    (hreading : Interpreter.readOperations script.bytecode fExecs = some reading)
    {scriptCode : CScript} (hcode : scriptCode.bytes = reading.pbegincodehash)
    (hcache : CacheOf sha256d txTo cache) {flags : UInt32}
    (hforkId : HasFlag flags Interpreter.SCRIPT_ENABLE_SIGHASH_FORKID)
    (hreplay : ¬ HasFlag flags Interpreter.SCRIPT_ENABLE_REPLAY_PROTECTION) :
    exists unsignedTx preimage,
      UnsignedTx.fromTx sha256d tx = Except.ok unsignedTx ∧
      UnsignedTxInput.sigHashPreimage sha256d { inputIdx := nIn, unsignedTx }
        sigHashType reading.lastExecuted = Except.ok preimage ∧
      signatureMessage sha256d scriptCode txTo nIn sigHashType.toNode amount cache
        flags = some (SignatureMessage.hashed preimage.bytes) ∧
      (sigHashType.outputType = SigHashTypeOutputs.single -> txTo.vout.length ≤ nIn ->
        UnsignedTxInput.hashOutputs sha256d { inputIdx := nIn, unsignedTx }
            sigHashType.outputType = Except.ok zeroHash ∧
          hashOutputs sha256d txTo nIn sigHashType.toNode cache = zeroHash) := by
  rcases forall₂_at hsame.inputs nIn with ⟨hnone, _⟩ | ⟨_, txin, hsome, hvin, hsameInput⟩
  · rw [hinput] at hnone
    cases hnone
  rw [hinput] at hsome
  cases hsome
  have houtputs := hashOutputs_eq sha256d sigHashType hcache hsame
    ⟨nIn, agreedTx sha256d tx txTo⟩ rfl rfl
  have hwrite := (writes_preimage sha256d sigHashType hsame hsameInput hamount scriptCode
    (hashOutputs sha256d txTo nIn sigHashType.toNode cache)).write_eq
  have hfound := scriptCode_eq hreading
  rw [← hcode] at hfound
  have hlegacy : sigHashType.variant ≠ SigHashTypeVariant.legacy := by
    rw [hvariant]
    exact SigHashTypeVariant.noConfusion
  refine ⟨agreedTx sha256d tx txTo,
    { bytes := agreedPreimage sha256d sigHashType txTo txin scriptCode amount
        (hashOutputs sha256d txTo nIn sigHashType.toNode cache),
      scriptCode := { bytecode := scriptCode.bytes }, redeemScript := script },
    fromTx_eq sha256d hsame, ?_, ?_, ?_⟩
  · have hinput' : (agreedTx sha256d tx txTo).tx.inputs[nIn]? = some txInput := hinput
    cases hlast : reading.lastExecuted with
    | none =>
      simp only [hlast, Except.ok.injEq] at hfound
      simp only [UnsignedTxInput.sigHashPreimage, hlegacy, if_false, hinput', hsign, hscript,
        hfound, houtputs, hwrite, bind, Except.bind]
    | some nCodesep =>
      simp only [hlast] at hfound
      simp only [UnsignedTxInput.sigHashPreimage, hlegacy, if_false, hinput', hsign, hscript,
        hfound, houtputs, hwrite, bind, Except.bind]
  · have hfork := sigHashType.hasForkId_toNode.mpr hvariant
    simp only [signatureMessage, hvin, hreplay, if_false, hfork, hforkId, and_self, if_true,
      hashPrevouts_eq sha256d sigHashType hcache, hashSequence_eq sha256d sigHashType hcache]
    rfl
  · intro hsingle hvout
    have hzero := @hashOutputs_single sha256d txTo cache sigHashType nIn hvout hsingle
    rw [houtputs, hzero]
    exact ⟨rfl, rfl⟩

end Agreement

/-- A script that runs a check, a separator and a check. -/
def exampleSignData : SignData where
  value := 1000
  outputScript := none
  redeemScript := some { bytecode := [OP_CHECKSIG, OP_CODESEPARATOR, OP_CHECKSIG] }

def exampleTx : Tx where
  version := 2
  inputs :=
    [{ prevOut := { txid := .bytes (replicate 32 7) length_replicate, outIdx := 1 },
       script := none, sequence := none, signData := some exampleSignData }]
  outputs := []
  locktime := 0

def exampleTxTo : CTransaction where
  nVersion := 2
  vin :=
    [{ prevout := { txid := ⟨replicate 32 7, length_replicate⟩, n := 1 },
       scriptSig := CScript.empty, nSequence := 0xffffffff }]
  vout := []
  nLockTime := 0

theorem exampleTx_same : SameTx exampleTx exampleTxTo where
  version := by decide
  inputs := .cons ⟨⟨rfl, by decide⟩, by decide⟩ .nil
  outputs := .nil
  locktime := by decide

/-- After the separator of the example the signature is over the last check only, and without
an output at the index of the input nothing of the outputs is signed. -/
theorem sigHashPreimage_signatureMessage_example :
    exists unsignedTx preimage,
      UnsignedTx.fromTx (fun data => data) exampleTx = .ok unsignedTx ∧
      UnsignedTxInput.sigHashPreimage (fun data => data) ⟨0, unsignedTx⟩
        ⟨.bip143, .fixed, .single⟩
        (some 0) = .ok preimage ∧
      Interpreter.signatureMessage (fun data => data) ⟨[OP_CHECKSIG], by decide⟩ exampleTxTo 0
        ⟨0x43⟩ 1000 none 0x10000 = some (.hashed preimage.bytes) := by
  have hreading : readOperations [OP_CHECKSIG, OP_CODESEPARATOR, OP_CHECKSIG]
      [true, true] = some ⟨[OP_CHECKSIG], [OP_CHECKSIG], 1, some 0⟩ := by decide
  rcases @sigHashPreimage_signatureMessage (fun data => data) exampleTx exampleTxTo none
    ⟨.bip143, .fixed, .single⟩
    exampleTx_same 0 _ rfl exampleSignData rfl _ rfl 1000 (by decide) rfl _ _ hreading
    ⟨[OP_CHECKSIG], by decide⟩ rfl (.inl rfl) 0x10000 (by decide) (by decide) with
    ⟨unsignedTx, preimage, hunsigned, hpreimage, hmessage, _⟩
  exact ⟨unsignedTx, preimage, hunsigned, hpreimage, hmessage⟩

end ECash.Lib
