import ECash.Lib.Fees

/-!
# Scripts that spend to and from public key hashes

How scripts are built from operations, and the signatory for inputs that are locked by the hash
of a public key.  Its scripts all have one length.
-/

namespace ECash.Lib

open Foundation List

def OP_0 : Opcode := 0x00
def OP_1NEGATE : Opcode := 0x4f
def OP_RETURN : Opcode := 0x6a

/-!
## Building scripts
-/

def writeOp : Op -> Except LibError (List Put)
  | .code opcode => .ok [.u8 opcode.toNat]
  | .push opcode data =>
    if opcode = OP_PUSHDATA1 then
      .ok [.u8 opcode.toNat, .u8 data.length, .bytes data]
    else if opcode = OP_PUSHDATA2 then
      .ok [.u8 opcode.toNat, .u16 data.length, .bytes data]
    else if opcode = OP_PUSHDATA4 then
      .ok [.u8 opcode.toNat, .u32 data.length, .bytes data]
    else if opcode > 0x4b then
      .error (.other ("Not a pushop opcode: 0x" ++ String.ofList (Nat.toDigits 16 opcode.toNat)))
    else if opcode.toNat ≠ data.length then
      .error (.other ("Inconsistent PushOp, claims to push " ++ toString opcode.toNat ++
        " bytes but actually has " ++ toString data.length ++ " bytes attached"))
    else .ok [.u8 opcode.toNat, .bytes data]

def Script.fromOps (ops : List Op) : Except LibError Script := do
  let puts ← ops.mapM writeOp
  let bytecode ← write puts.flatten
  .ok { bytecode }

/-- The operation that pushes bytes with the fewest bytes. -/
def pushBytesOp (data : Bytes) : Except LibError Op :=
  match data with
  | [] => .ok (.code OP_0)
  | byte :: rest =>
    if rest = [] ∧ 1 ≤ byte ∧ byte ≤ 16 then .ok (.code (byte + 0x50))
    else if rest = [] ∧ byte = 0x81 then .ok (.code OP_1NEGATE)
    else if data.length ≤ 0x4b then .ok (.push (UInt8.ofNat data.length) data)
    else if data.length ≤ 0xff then .ok (.push OP_PUSHDATA1 data)
    else if data.length ≤ 0xffff then .ok (.push OP_PUSHDATA2 data)
    else if data.length ≤ 0xffffffff then .ok (.push OP_PUSHDATA4 data)
    else .error (.other "Bytes way too large")

def Script.p2pkh (pkh : Bytes) : Except LibError Script :=
  if pkh.length ≠ 20 then .error (.other ("pkh length must be 20, got " ++ toString pkh.length))
  else do
    let push ← pushBytesOp pkh
    Script.fromOps [.code OP_DUP, .code OP_HASH160, push, .code OP_EQUALVERIFY, .code OP_CHECKSIG]

def Script.p2pkhSpend (pk sig : Bytes) : Except LibError Script := do
  let pushSig ← pushBytesOp sig
  let pushPk ← pushBytesOp pk
  Script.fromOps [pushSig, pushPk]

def flagSignature (sig : Bytes) (sigHashFlags : SigHashType) : Except LibError Bytes :=
  writerBytes (sig.length + 1) [.bytes sig, .u8 ((sigHashFlags.toInt &&& 0xff : Nat) : Int)]

def P2PKHSignatory (sha256d : Bytes -> Bytes) (sk pk : Bytes) (sigHashType : SigHashType) :
    Signatory :=
  fun ecc input => do
    let preimage ← input.sigHashPreimage sha256d sigHashType none
    let sighash := sha256d preimage.bytes
    let sig ← flagSignature (ecc.schnorrSign sk sighash) sigHashType
    Script.p2pkhSpend pk sig

/-!
## Lengths
-/

variable {data : Bytes}

theorem pushBytesOp_short (hlow : 2 ≤ data.length) (hhigh : data.length ≤ 0x4b) :
    pushBytesOp data = .ok (.push (UInt8.ofNat data.length) data) := by
  match data, hlow with
  | byte :: next :: rest, _ =>
    simp only [pushBytesOp, cons_ne_nil, false_and, if_false]
    rw [if_pos hhigh]

theorem short_opcode (hhigh : data.length ≤ 0x4b) :
    (UInt8.ofNat data.length).toNat = data.length ∧
      forall opcode : UInt8, 0x4b < opcode.toNat -> UInt8.ofNat data.length ≠ opcode := by
  have hnat : (UInt8.ofNat data.length).toNat = data.length := by
    rw [UInt8.toNat_ofNat']
    omega
  refine ⟨hnat, ?_⟩
  rintro _ _ rfl
  omega

theorem writeOp_short (hhigh : data.length ≤ 0x4b) :
    writeOp (.push (UInt8.ofNat data.length) data) =
      .ok [.u8 (UInt8.ofNat data.length).toNat, .bytes data] := by
  rcases short_opcode hhigh with ⟨hnat, hne⟩
  have hle : ¬ UInt8.ofNat data.length > 0x4b := by
    intro hgt
    have hgt' : 0x4b < (UInt8.ofNat data.length).toNat := hgt
    omega
  simp only [writeOp, hne OP_PUSHDATA1 (by decide), hne OP_PUSHDATA2 (by decide),
    hne OP_PUSHDATA4 (by decide), hle, hnat, if_false, ne_eq, not_true_eq_false]

/-- The operation is written as these bytes. -/
def WritesOp (op : Op) (bytes : Bytes) : Prop :=
  exists puts, writeOp op = .ok puts ∧ Writes puts bytes

theorem writesOp_code (opcode : Opcode) : WritesOp (.code opcode) [opcode] :=
  ⟨_, rfl, Writes.byte opcode⟩

theorem writesOp_short (h : data.length ≤ 0x4b) :
    WritesOp (.push (UInt8.ofNat data.length) data) (UInt8.ofNat data.length :: data) :=
  ⟨_, writeOp_short h, (Writes.byte _).cons (Writes.bytes data)⟩

theorem fromOps_writes {ops : List Op} {parts : List Bytes} (h : Forall₂ WritesOp ops parts) :
    Script.fromOps ops = .ok { bytecode := parts.flatten } := by
  have hputs : exists puts, ops.mapM writeOp = .ok puts ∧ Writes puts.flatten parts.flatten := by
    induction h with
    | nil => exact ⟨[], rfl, Writes.nil⟩
    | cons hop _ ih =>
      rcases hop with ⟨puts, hwrite, hwrites⟩
      rcases ih with ⟨rest, hrest, hwritesRest⟩
      refine ⟨puts :: rest, ?_, hwrites.append hwritesRest⟩
      rw [mapM_cons, hwrite, hrest]
      rfl
  rcases hputs with ⟨_, hwrite, hwrites⟩
  simp only [Script.fromOps, hwrite, hwrites.write_eq, bind, Except.bind]

theorem p2pkhSpend_length {pk sig : Bytes} (hpk : pk.length = 33) (hsig : sig.length = 65) :
    exists script, Script.p2pkhSpend pk sig = .ok script ∧ script.bytecode.length = 100 := by
  have hsigPush := @pushBytesOp_short sig (by omega) (by omega)
  have hpkPush := @pushBytesOp_short pk (by omega) (by omega)
  have hscript := fromOps_writes (.cons (@writesOp_short sig (by omega))
    (.cons (@writesOp_short pk (by omega)) .nil))
  simp only [Script.p2pkhSpend, hsigPush, hpkPush, hscript, bind, Except.bind]
  refine ⟨_, rfl, ?_⟩
  simp [hpk, hsig]

theorem flagSignature_length {sig : Bytes} (hsig : sig.length = 64) (sigHashType : SigHashType) :
    exists flagged, flagSignature sig sigHashType = .ok flagged ∧ flagged.length = 65 := by
  have hflags : sigHashType.toInt &&& 0xff ≤ 0xff := Nat.and_le_right
  have hfits : (Put.u8 ((sigHashType.toInt &&& 0xff : Nat) : Int)).Fits := by
    simp only [Put.Fits, FitsIn]
    omega
  have hwrites := (Writes.bytes sig).cons (Writes.single hfits)
  have hwrite := hwrites.write_eq
  have hlength : writerLength [.bytes sig,
      .u8 ((sigHashType.toInt &&& 0xff : Nat) : Int)] = sig.length + 1 := by
    simp [Put.length]
  unfold write at hwrite
  rw [hlength] at hwrite
  refine ⟨_, hwrite, ?_⟩
  rw [hwrites.length, hlength, hsig]

/-!
## The signatory
-/

section Signatory

variable (sha256d : Bytes -> Bytes)

theorem sigHashPreimage_ok {input : UnsignedTxInput} {txInput : TxInput} {signData : SignData}
    {script : Script} (hinput : input.unsignedTx.tx.inputs[input.inputIdx]? = some txInput)
    (hsign : txInput.signData = some signData) (hscript : signData.outputScript = some script)
    (hp2sh : script.isP2sh = false) (hlength : script.bytecode.length < 2 ^ 64)
    (hfit : TxBuilder.FitInput txInput) (hvalue : FitsIn 8 signData.value)
    (hversion : FitsIn 4 input.unsignedTx.tx.version)
    (hlocktime : FitsIn 4 input.unsignedTx.tx.locktime) :
    exists preimage, input.sigHashPreimage sha256d ALL_BIP143 none = .ok preimage := by
  have hfits : forall put, put ∈ UnsignedTxInput.writePreimage input.unsignedTx txInput signData
      script input.unsignedTx.outputsHash ALL_BIP143 -> put.Fits := by
    intro put hput
    simp only [UnsignedTxInput.writePreimage, writeOutPoint, Script.writeWithSize,
      mem_append, mem_cons, not_mem_nil, or_false] at hput
    rcases hput with (((h | h | h) | h | h) | h | h) | h | h | h | h | h
    · exact h ▸ hversion
    · exact h ▸ trivial
    · exact h ▸ trivial
    · exact h ▸ trivial
    · exact h ▸ hfit.left
    · exact writeVarSize_fits hlength put h
    · exact h ▸ trivial
    · exact h ▸ hvalue
    · exact h ▸ hfit.right
    · exact h ▸ trivial
    · exact h ▸ hlocktime
    · have htype : FitsIn 4 (ALL_BIP143.toInt : Int) := by decide
      exact h ▸ htype
  have hcode : signDataScriptCode signData = .ok script := by
    simp only [signDataScriptCode, hscript, hp2sh]
    rfl
  have hvariant : ALL_BIP143.variant ≠ .legacy := by decide
  have houtputs : input.hashOutputs sha256d ALL_BIP143.outputType =
      .ok input.unsignedTx.outputsHash := rfl
  simp only [UnsignedTxInput.sigHashPreimage, hvariant, if_false, hinput, hsign, hcode, houtputs,
    write_fits hfits, bind, Except.bind, Except.ok.injEq, exists_eq']

/-- An input locked by the hash of a public key, with numbers that fit. -/
structure P2pkhInput (input : TxInput) : Prop where
  fits : TxBuilder.FitInput input
  locked : exists signData script, input.signData = some signData ∧
    signData.outputScript = some script ∧ script.isP2sh = false ∧
    script.bytecode.length < 2 ^ 64 ∧ FitsIn 8 signData.value

theorem p2pkhSignatory_steady {builder : TxBuilder} {inputs : List TxInput} {inputIdx : Nat}
    {input : TxInput} (hinput : inputs[inputIdx]? = some input) (hp2pkh : P2pkhInput input)
    (hversion : FitsIn 4 builder.version) (hlocktime : FitsIn 4 builder.locktime) {sk pk : Bytes}
    (hpk : pk.length = 33) :
    TxBuilder.SteadyLength builder inputs inputIdx (P2PKHSignatory sha256d sk pk ALL_BIP143)
      100 := by
  intro ecc unsigned hidx hsame
  -- The input in the transaction may have another script by now.
  have hmap : (unsigned.unsignedTx.tx.inputs.map TxBuilder.withoutScript)[unsigned.inputIdx]? =
      some (TxBuilder.withoutScript input) := by
    rw [hsame.inputs, hidx, getElem?_map, hinput]
    rfl
  rw [getElem?_map] at hmap
  rcases Option.map_eq_some_iff.mp hmap with ⟨current, hcurrent, hkept⟩
  rcases hp2pkh.locked with ⟨signData, _, hsign, hscript, hp2sh, hlength, hvalue⟩
  have hcurrentSign : current.signData = some signData := by
    rw [← hsign]
    exact show (TxBuilder.withoutScript current).signData =
      (TxBuilder.withoutScript input).signData by rw [hkept]
  have hcurrentFits : TxBuilder.FitInput current := by
    show TxBuilder.FitInput (TxBuilder.withoutScript current)
    rw [hkept]
    exact hp2pkh.fits
  rcases sigHashPreimage_ok sha256d hcurrent hcurrentSign hscript hp2sh hlength hcurrentFits
    hvalue (hsame.version ▸ hversion) (hsame.locktime ▸ hlocktime) with ⟨preimage, hpreimage⟩
  rcases flagSignature_length (ecc.schnorrSign_length sk (sha256d preimage.bytes)) ALL_BIP143 with
    ⟨sig, hsig, hsigLength⟩
  rcases p2pkhSpend_length hpk hsigLength with ⟨result, hresult, hresultLength⟩
  refine ⟨result, ?_, hresultLength⟩
  simp only [P2PKHSignatory, hpreimage, hsig, bind, Except.bind]
  exact hresult

end Signatory

/-!
## Scripts that lock to a hash
-/

theorem p2pkh_ok {pkh : Bytes} (h : pkh.length = 20) :
    exists script, Script.p2pkh pkh = .ok script ∧ script.bytecode.length = 25 ∧
      script.isP2sh = false := by
  have hpush := @pushBytesOp_short pkh (by omega) (by omega)
  have hscript := fromOps_writes (.cons (writesOp_code OP_DUP) (.cons (writesOp_code OP_HASH160)
    (.cons (@writesOp_short pkh (by omega)) (.cons (writesOp_code OP_EQUALVERIFY)
      (.cons (writesOp_code OP_CHECKSIG) .nil)))))
  have hlength : [[OP_DUP], [OP_HASH160], UInt8.ofNat pkh.length :: pkh, [OP_EQUALVERIFY],
      [OP_CHECKSIG]].flatten.length = 25 := by
    simp [h]
  refine ⟨_, ?_, hlength, decide_eq_false fun hp2sh => ?_⟩
  · unfold Script.p2pkh
    rw [if_neg (not_not.mpr h), hpush]
    exact hscript
  · exact absurd (hlength.symm.trans hp2sh.left) (by decide)

end ECash.Lib
