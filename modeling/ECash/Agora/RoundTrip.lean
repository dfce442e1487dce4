import ECash.Agora.Authenticity

/-!
# Offers are found again

What the script of an advertisement says is read back from it, and the transaction that it is
spent by shows the offer.
-/

namespace ECash.Agora

open Foundation Lib List

/-!
## Outputs are read back
-/

theorem Put.fits_of_encode {put : Put} {bytes : Bytes} (h : put.encode = .ok bytes) : put.Fits := by
  have hnumber : forall {width : Nat} {value : Int}, putNumber width value = .ok bytes ->
      FitsIn width value := by
    intro width value hput
    by_contra hfits
    rw [putNumber_error hfits] at hput
    cases hput
  cases put with
  | u8 value => exact hnumber h
  | u16 value => exact hnumber h
  | u32 value => exact hnumber h
  | u64 value => exact hnumber h
  | bytes data => trivial

/-- What is written at all is written as it is. -/
theorem write_eq {puts : List Put} {data : Bytes} (h : write puts = .ok data) :
    (forall put, put ∈ puts -> put.Fits) ∧ data = puts.flatMap Put.encoded := by
  have hfits : forall {size : Nat} {before after : Bytes},
      puts.foldlM (putBytes size) before = .ok after -> forall put, put ∈ puts -> put.Fits := by
    intro size before after hputs
    clear h
    induction puts generalizing before with
    | nil => exact nofun
    | cons put puts ih =>
      rcases bind_eq_ok.mp hputs with ⟨_, hput, hputs⟩
      rcases bind_eq_ok.mp hput with ⟨_, hencode, _⟩
      exact forall_mem_cons.mpr ⟨Put.fits_of_encode hencode, ih hputs⟩
  rcases bind_eq_ok.mp h with ⟨_, hwritten, _⟩
  refine ⟨hfits hwritten, ?_⟩
  rw [write_fits (hfits hwritten)] at h
  exact (Except.ok.inj h).symm

theorem readVarSize_encoded {size : Nat} (h : forall put, put ∈ writeVarSize size -> put.Fits)
    (rest : Bytes) :
    readVarSize ((writeVarSize size).flatMap Put.encoded ++ rest) = .ok (size, rest) := by
  have hfirst : forall (byte : Nat) (rest : Bytes), byte < 256 ->
      readNumber 1 (littleEndian 1 byte ++ rest) = .ok (byte, rest) :=
    fun _ rest hbyte => readNumber_littleEndian hbyte rest
  unfold writeVarSize at h ⊢
  split_ifs at h ⊢ with h1 h2 h3
  all_goals
    simp only [flatMap_cons, flatMap_nil, append_nil, Put.encoded, append_assoc,
      Int.toNat_natCast, readVarSize]
    erw [hfirst _ _ (by omega)]
  · simp only [bind, Except.bind, if_pos h1]
  · exact @readNumber_littleEndian 2 size (by omega) rest
  · exact @readNumber_littleEndian 4 size (by omega) rest
  · have hsize : FitsIn 8 size := h _ (mem_cons_of_mem _ mem_cons_self)
    unfold FitsIn at hsize
    exact @readNumber_littleEndian 8 size (by omega) rest

theorem readTxOutput_encoded {output : TxOutput}
    (h : forall put, put ∈ writeTxOutput output -> put.Fits) (rest : Bytes) :
    readTxOutput ((writeTxOutput output).flatMap Put.encoded ++ rest) = .ok (output, rest) := by
  have hvalue : FitsIn 8 output.value := h _ mem_cons_self
  have hscript := (forall_mem_append.mp h).2
  have hsize := readVarSize_encoded (forall_mem_append.mp hscript).1
    (output.script.bytecode ++ rest)
  unfold FitsIn at hvalue
  have hread := @readNumber_littleEndian 8 output.value.toNat (by omega)
    ((writeVarSize output.script.bytecode.length).flatMap Put.encoded ++
      (output.script.bytecode ++ rest))
  have hnat : (output.value.toNat : Int) = output.value := Int.toNat_of_nonneg hvalue.1
  simp only [writeTxOutput, Script.writeWithSize, flatMap_append, flatMap_cons,
    flatMap_nil, append_nil, append_assoc, Put.encoded, readTxOutput, hread, hsize,
    readBytes_append, bind, Except.bind, hnat]

theorem readTxOutputs_encoded {outputs : List TxOutput} {rounds : Nat}
    (h : forall put, put ∈ outputs.flatMap writeTxOutput -> put.Fits)
    (hrounds : writerLength (outputs.flatMap writeTxOutput) ≤ rounds) :
    readTxOutputs rounds ((outputs.flatMap writeTxOutput).flatMap Put.encoded) = .ok outputs := by
  induction outputs generalizing rounds with
  | nil => cases rounds <;> rfl
  | cons output outputs ih =>
    rw [flatMap_cons] at h hrounds ⊢
    rw [writerLength_append, writerLength_writeTxOutput] at hrounds
    rcases forall_mem_append.mp h with ⟨houtput, houtputs⟩
    have hread := readTxOutput_encoded houtput ((outputs.flatMap writeTxOutput).flatMap Put.encoded)
    cases rounds with
    | zero => omega
    | succ rounds =>
      rw [flatMap_append]
      cases hbytes : (writeTxOutput output).flatMap Put.encoded ++
          (outputs.flatMap writeTxOutput).flatMap Put.encoded with
      | nil =>
        rw [hbytes] at hread
        cases hread
      | cons byte bytes =>
        rw [hbytes] at hread
        exact bind_eq_ok.mpr ⟨_, hread, bind_eq_ok.mpr ⟨_, ih houtputs (by omega), rfl⟩⟩

/-!
## Scripts are read back
-/

theorem pushes_of_ok {data : Bytes} {op : Op} (hlow : 2 ≤ data.length)
    (h : pushBytesOp data = .ok op) : exists bytes, Pushes op data bytes := by
  by_cases hhigh : data.length ≤ 0xffffffff
  · rcases pushBytesOp_pushes hlow hhigh with ⟨_, bytes, hop, hpushes⟩
    cases hop.symm.trans h
    exact ⟨bytes, hpushes⟩
  · rcases pushBytesOp_large (not_le.mp hhigh) with ⟨_, herr⟩
    cases herr.symm.trans h

/-- All pushes of a script are seen. -/
theorem scriptSigPushes_pushes {pushdata parts : List Bytes}
    (h : Forall₂ (fun data bytes => exists op, Pushes op data bytes) pushdata parts) :
    scriptSigPushes parts.flatten.length parts.flatten = .ok (some pushdata) := by
  refine (scriptSigPushes_iff le_rfl).mpr (.inl ?_)
  induction h with
  | nil => rfl
  | cons hpush _ ih =>
    rcases hpush with ⟨_, hpush⟩
    rcases hpush.push with ⟨opcode, rfl⟩
    exact ⟨opcode, _, hpush.reads _, ih⟩

theorem pushes_covenantVariant :
    Pushes (.push 7 COVENANT_VARIANT) COVENANT_VARIANT (7 :: COVENANT_VARIANT) :=
  @pushes_short COVENANT_VARIANT (by decide) (by decide)

theorem pushes_lokadId : Pushes (.push 4 AGORA_LOKAD_ID) AGORA_LOKAD_ID (4 :: AGORA_LOKAD_ID) :=
  @pushes_short AGORA_LOKAD_ID (by decide) (by decide)

section Ad

variable {offer : AgoraOneshot} {opreturnScript ad : Script} {others : List TxOutput}

theorem adOps_writes {outputs cancelPk : Op} {data outputsBytes key keyBytes : Bytes}
    (houtputs : Pushes outputs data outputsBytes) (hkey : Pushes cancelPk key keyBytes) :
    Script.fromOps
        [outputs, .code OP_DROP, cancelPk, .code OP_CHECKSIGVERIFY,
          .push 7 COVENANT_VARIANT, .code OP_EQUALVERIFY, .push 4 AGORA_LOKAD_ID,
          .code OP_EQUAL] =
      .ok
        { bytecode := outputsBytes ++ OP_DROP :: (keyBytes ++ OP_CHECKSIGVERIFY ::
            (7 :: COVENANT_VARIANT ++ OP_EQUALVERIFY :: (4 :: AGORA_LOKAD_ID ++ [OP_EQUAL]))) } :=
  fromOps_writes (.cons houtputs.writes (.cons (writesOp_code OP_DROP)
    (.cons hkey.writes (.cons (writesOp_code OP_CHECKSIGVERIFY)
      (.cons pushes_covenantVariant.writes (.cons (writesOp_code OP_EQUALVERIFY)
        (.cons pushes_lokadId.writes (.cons (writesOp_code OP_EQUAL) .nil))))))))

/-- The script is the one that the input is signed for. -/
def SignsFor (input : UnsignedTxInput) (script : Script) : Prop :=
  exists txInput signData, input.unsignedTx.tx.inputs[input.inputIdx]? = some txInput ∧
    txInput.signData = some signData ∧ signDataScriptCode signData = .ok script

theorem parseAdScriptSig_signed {sha256d : Bytes -> Bytes} {cancelSk : Bytes} {ecc : Ecc}
    {input : UnsignedTxInput} {scriptSig : Script} (hlow : 2 ≤ ad.bytecode.length)
    (hinput : SignsFor input ad)
    (hsign : AgoraOneshotAdSignatory sha256d cancelSk ecc input = .ok scriptSig) :
    exists parsedAd, parseAdScriptSig scriptSig.bytecode = .ok (some parsedAd) ∧
      parsedAd.covenantVariant = COVENANT_VARIANT ∧ parsedAd.redeemScript = ad := by
  rcases hinput with ⟨_, _, htxInput, hsignData, hcode⟩
  rcases bind_eq_ok.mp hsign with ⟨preimage, hpreimage, hsign⟩
  have hredeem : preimage.redeemScript = ad := by
    simp only [UnsignedTxInput.sigHashPreimage, htxInput, hsignData] at hpreimage
    rcases bind_eq_ok.mp hpreimage with ⟨_, hredeem, hpreimage⟩
    cases hcode.symm.trans hredeem
    rcases bind_eq_ok.mp hpreimage with ⟨_, _, hpreimage⟩
    rcases bind_eq_ok.mp hpreimage with ⟨_, _, hpreimage⟩
    rcases bind_eq_ok.mp hpreimage with ⟨_, _, hpreimage⟩
    cases hpreimage
    rfl
  rcases bind_eq_ok.mp hsign with ⟨_, hcancelSig, hops⟩
  rcases flagSignature_length (ecc.schnorrSign_length cancelSk (sha256d preimage.bytes)) ALL_BIP143
    with ⟨_, hflagged, _⟩
  cases hflagged.symm.trans hcancelSig
  rcases bind_eq_ok.mp hops with ⟨_, hop, hops⟩
  cases hop
  rcases bind_eq_ok.mp hops with ⟨_, hop, hops⟩
  cases hop
  rcases bind_eq_ok.mp hops with ⟨_, hsigOp, hops⟩
  rcases bind_eq_ok.mp hops with ⟨_, hredeemOp, hops⟩
  rw [hredeem] at hredeemOp
  rcases pushes_of_ok (by omega) hsigOp with ⟨_, hsig⟩
  rcases pushes_of_ok hlow hredeemOp with ⟨_, hredeemPush⟩
  have hwrites := fromOps_writes (.cons pushes_lokadId.writes
    (.cons pushes_covenantVariant.writes (.cons hsig.writes (.cons hredeemPush.writes .nil))))
  cases hwrites.symm.trans hops
  have hpushes := scriptSigPushes_pushes (.cons ⟨_, pushes_lokadId⟩
    (.cons ⟨_, pushes_covenantVariant⟩ (.cons ⟨_, hsig⟩ (.cons ⟨_, hredeemPush⟩ .nil))))
  refine ⟨_, bind_eq_ok.mpr ⟨_, hpushes, rfl⟩, rfl, rfl⟩

variable (hfirst : offer.enforcedOutputs = { value := 0, script := opreturnScript } :: others)
  (hothers : others ≠ []) (hcancelPk : offer.cancelPk.length = 33)

include hfirst hothers hcancelPk

theorem fromRedeemScript_adScript (had : offer.adScript = .ok ad) :
    AgoraOneshot.fromRedeemScript ad opreturnScript = .ok offer ∧ 2 ≤ ad.bytecode.length := by
  rcases offer with ⟨enforcedOutputs, cancelPk⟩
  cases hfirst
  rcases bind_eq_ok.mp had with ⟨_, hser, hops⟩
  rcases write_eq hser with ⟨hfits, rfl⟩
  rcases bind_eq_ok.mp hops with ⟨_, houtputsOp, hops⟩
  rcases bind_eq_ok.mp hops with ⟨_, hcancelOp, hops⟩
  have hlow : 2 ≤ ((others.flatMap writeTxOutput).flatMap Put.encoded).length := by
    rcases exists_mem_of_ne_nil _ hothers with ⟨output, houtput⟩
    have hle := @size_le_enforcedSize { enforcedOutputs := others, cancelPk := [] } output houtput
    rw [flatMap_encoded_length]
    exact Nat.le_trans (by omega) hle
  rcases pushes_of_ok hlow houtputsOp with ⟨_, houtputs⟩
  rcases @pushes_of_ok cancelPk _ (by rw [hcancelPk]; decide) hcancelOp with ⟨_, hcancel⟩
  cases (adOps_writes houtputs hcancel).symm.trans hops
  have hread := readTxOutputs_encoded hfits ((flatMap_encoded_length _).ge)
  rcases houtputs.push with ⟨_, rfl⟩
  rcases hcancel.push with ⟨_, rfl⟩
  constructor
  · refine fromRedeemScript_iff.mpr ⟨others, ⟨_, _, _, _, ⟨_, _, houtputs.reads _, _, rfl, _, _,
      hcancel.reads _, _, rfl, _, _, pushes_covenantVariant.reads _, _, rfl, _, _,
      pushes_lokadId.reads _, rfl⟩, hcancelPk, hread⟩, rfl⟩
  · simp
    omega

/-- What an offer makes can be written if its outputs can. -/
theorem adScript_returns (hvalues : forall output, output ∈ others -> FitsIn 8 output.value)
    (hsize : offer.enforcedSize ≤ 0xffffffff) :
    (exists ad, offer.adScript = .ok ad) ∧ exists script, offer.script = .ok script := by
  rcases offer with ⟨enforcedOutputs, cancelPk⟩
  cases hfirst
  have hproper : AgoraOneshot.Proper { enforcedOutputs := others, cancelPk } :=
    ⟨hothers, hvalues, hcancelPk⟩
  constructor
  · have hle : AgoraOneshot.enforcedSize { enforcedOutputs := others, cancelPk } ≤
        0xffffffff := by
      refine Nat.le_trans ?_ hsize
      unfold AgoraOneshot.enforcedSize
      rw [flatMap_cons, writerLength_append]
      exact Nat.le_add_left _ _
    rcases hproper.serOutputs hle with ⟨data, hser, _⟩
    rcases exists_mem_of_ne_nil _ hothers with ⟨output, houtput⟩
    have houtput := @size_le_enforcedSize { enforcedOutputs := others, cancelPk } output houtput
    rcases @pushBytesOp_pushes data (by omega) (by omega) with ⟨_, _, houtputs, hwrites⟩
    rcases @pushBytesOp_pushes cancelPk (by rw [hcancelPk]; decide) (by rw [hcancelPk]; decide) with
      ⟨cancelOp, _, hcancel, hwritesPk⟩
    exact ⟨_, bind_eq_ok.mpr ⟨data, hser, bind_eq_ok.mpr ⟨_, houtputs,
      bind_eq_ok.mpr ⟨_, hcancel, adOps_writes hwrites hwritesPk⟩⟩⟩⟩
  · refine AgoraOneshot.Proper.script_returns ⟨cons_ne_nil _ _, ?_, hcancelPk⟩ hsize
    exact forall_mem_cons.mpr ⟨(by decide : FitsIn 8 0), hvalues⟩

/-- An offer is read back from its advertisement, and found in the transaction. -/
theorem parseAgoraTx_offer :
    ((forall output, output ∈ others -> FitsIn 8 output.value) ->
      offer.enforcedSize ≤ 0xffffffff ->
      (exists ad, offer.adScript = .ok ad) ∧ exists script, offer.script = .ok script) ∧
    forall ad, offer.adScript = .ok ad ->
      AgoraOneshot.fromRedeemScript ad opreturnScript = .ok offer ∧
      forall sha sha256d cancelSk ecc input scriptSig tx offerOutput tokenEntry amount script
          p2shScript,
        SignsFor input ad ->
        AgoraOneshotAdSignatory sha256d cancelSk ecc input = .ok scriptSig ->
        Offers tx scriptSig.bytecode offerOutput tokenEntry amount ->
        slpSend tokenEntry.tokenId.digits tokenEntry.number [0, amount.toNat] =
          .ok opreturnScript ->
        offer.script = .ok script ->
        p2sh (sha.shaRmd160 script.bytecode) = .ok p2shScript ->
        offerOutput.outputScript = p2shScript.bytecode ->
        parseAgoraTx sha tx = .ok (some (foundAd tx.txid offerOutput offer script)) := by
  refine ⟨adScript_returns hfirst hothers hcancelPk, ?_⟩
  intro ad had
  rcases fromRedeemScript_adScript hfirst hothers hcancelPk had with ⟨hread, hlow⟩
  refine ⟨hread, ?_⟩
  intro sha sha256d cancelSk ecc input scriptSig tx offerOutput tokenEntry amount script p2shScript
    hinput hsign hoffers hsend hscript hp2sh houtput
  rcases parseAdScriptSig_signed hlow hinput hsign with ⟨_, hparsed, hvariant, rfl⟩
  rw [hoffers.parse]
  exact parseTokenAd_found hsend hparsed (.inl hvariant) hread hscript hp2sh houtput

end Ad

def otherInput : UnsignedTxInput where
  inputIdx := 0
  unsignedTx := .dummyFromTx
    { version := 2
      inputs :=
        [{ prevOut := { txid := .hex zeroTxid, outIdx := 1 }
           script := none
           sequence := none
           signData := some
            { value := 546, outputScript := none, redeemScript := some { bytecode := otherAd } } }]
      outputs := otherOffer.enforcedOutputs
      locktime := 0 }

def otherScriptSig : Script where
  bytecode := 4 :: AGORA_LOKAD_ID ++ 7 :: COVENANT_VARIANT ++ 65 :: replicate 64 0 ++ 0x41 ::
    61 :: otherAd

theorem parseAgoraTx_otherOffer :
    AgoraOneshot.fromRedeemScript { bytecode := otherAd } oneToken = .ok otherOffer ∧
      (parseAgoraTx mixingSha (tokenTx otherScriptSig.bytecode otherP2sh SLP_FUNGIBLE)).toOption.map
        (Option.map fun ad => ad.params) = some (some otherOffer) := by
  have had : otherOffer.adScript = .ok { bytecode := otherAd } := by decide +kernel
  have hsign : AgoraOneshotAdSignatory mixingSha.shaRmd160 [] EccDummy otherInput =
      .ok otherScriptSig := by decide +kernel
  rcases (parseAgoraTx_offer rfl (cons_ne_nil _ _) rfl).2 _ had with ⟨hread, hparse⟩
  have hfound := hparse mixingSha mixingSha.shaRmd160 [] EccDummy otherInput otherScriptSig
    (tokenTx otherScriptSig.bytecode otherP2sh SLP_FUNGIBLE) _ _ _ _ _ ⟨_, _, rfl, rfl, rfl⟩ hsign
    ⟨rfl, rfl, rfl, rfl, rfl⟩ (by decide) otherOffer_script p2sh_otherCovenant rfl
  exact ⟨hread, by rw [hfound]; rfl⟩

end ECash.Agora
