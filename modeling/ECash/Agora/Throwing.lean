import ECash.Agora.Ad

/-!
# When reading an advertisement throws

Three of the steps signal failure by an exception that is not caught: rebuilding the `OP_RETURN`,
walking over the input script, and building the covenant.
-/

namespace ECash.Agora

open Foundation Lib List

/-!
## Pushes are read back
-/

variable {width n : Nat} {data : Bytes} {opcode : Opcode} {rounds : Nat} {offer : AgoraOneshot}

theorem readNumber_littleEndian (h : n < 256 ^ width) (rest : Bytes) :
    readNumber width (littleEndian width n ++ rest) = .ok (n, rest) := by
  simp only [readNumber, readLittleEndian_littleEndian h]

theorem readBytes_append (data rest : Bytes) :
    readBytes data.length (data ++ rest) = .ok (data, rest) := by
  unfold readBytes
  rw [if_neg (by simp), take_left, drop_left]

/-- A push that is written can be read again. -/
structure Pushes (op : Op) (data bytes : Bytes) : Prop where
  push : exists opcode, op = .push opcode data
  writes : WritesOp op bytes
  reads : forall rest, readOp (bytes ++ rest) = .ok (op, rest)

theorem pushes_short (hlow : 1 ≤ data.length) (hhigh : data.length ≤ 0x4b) :
    Pushes (.push (UInt8.ofNat data.length) data) data (UInt8.ofNat data.length :: data) where
  push := ⟨_, rfl⟩
  writes := writesOp_short hhigh
  reads := by
    intro rest
    rcases short_opcode hhigh with ⟨hnat, hne⟩
    have hpush : ¬ (UInt8.ofNat data.length < 0x01 ∨ UInt8.ofNat data.length > 0x4b) := by
      show ¬ ((UInt8.ofNat data.length).toNat < 1 ∨ 0x4b < (UInt8.ofNat data.length).toNat)
      omega
    simp only [cons_append, readOp, hne OP_PUSHDATA1 (by decide),
      hne OP_PUSHDATA2 (by decide), hne OP_PUSHDATA4 (by decide), hpush, if_false, hnat,
      readBytes_append, bind, Except.bind]

theorem pushes_sized {put : Put}
    (hwrite : writeOp (.push opcode data) = .ok [.u8 opcode.toNat, put, .bytes data])
    (hput : Writes [put] (littleEndian width data.length))
    (hread : forall bytes, readOp (opcode :: bytes) = (do
      let (numBytes, bytes) ← readNumber width bytes
      let (data, bytes) ← readBytes numBytes bytes
      .ok (.push opcode data, bytes))) (hwidth : data.length < 256 ^ width) :
    Pushes (.push opcode data) data (opcode :: (littleEndian width data.length ++ data)) where
  push := ⟨opcode, rfl⟩
  writes := ⟨_, hwrite, (Writes.byte opcode).cons (hput.cons (Writes.bytes data))⟩
  reads := by
    intro rest
    rw [cons_append, append_assoc, hread]
    simp only [readNumber_littleEndian hwidth, readBytes_append, bind, Except.bind]

theorem pushBytesOp_pushes (hlow : 2 ≤ data.length) (hhigh : data.length ≤ 0xffffffff) :
    exists op bytes, pushBytesOp data = .ok op ∧ Pushes op data bytes := by
  match data, hlow with
  | byte :: next :: rest, _ =>
    simp only [pushBytesOp, cons_ne_nil, false_and, if_false]
    split_ifs with h1 h2 h3
    · exact ⟨_, _, rfl, pushes_short (by omega) h1⟩
    all_goals exact ⟨_, _, rfl, pushes_sized rfl
      (Writes.single (by simp only [Put.Fits, FitsIn]; omega)) (fun _ => rfl) (by omega)⟩

/-!
## Exceptions
-/

variable {a b error : Type}

def Throws (x : Except error a) : Prop := exists err, x = .error err

variable {x : Except error a}

theorem throws_bind {f : a -> Except error b} :
    Throws (x >>= f) <-> Throws x ∨ exists y, x = .ok y ∧ Throws (f y) := by
  cases x with
  | error err => exact iff_of_true ⟨err, rfl⟩ (.inl ⟨err, rfl⟩)
  | ok y =>
    constructor
    · exact fun h => .inr ⟨y, rfl, h⟩
    · rintro (⟨_, h⟩ | ⟨_, h, hthrows⟩)
      · cases h
      · cases h
        exact hthrows

theorem not_throws_ok (y : a) : ¬ Throws (.ok y : Except error a) :=
  nofun

theorem not_throws_iff : ¬ Throws x <-> exists y, x = .ok y := by
  cases x with
  | error err => exact iff_of_false (not_not.mpr ⟨err, rfl⟩) nofun
  | ok y => exact iff_of_true (not_throws_ok y) ⟨y, rfl⟩

/-!
## Walking over the input script
-/

/-- A push goes beyond the end of the script, after operations that push. -/
inductive Truncated : Bytes -> Prop where
  | here {byte : UInt8} {bytes : Bytes} (h : Throws (readOp (byte :: bytes))) :
      Truncated (byte :: bytes)
  | later {bytes data rest : Bytes} {opcode : Opcode}
      (h : readOp bytes = .ok (.push opcode data, rest)) (hrest : Truncated rest) :
      Truncated bytes

variable {byte : UInt8} {bytes rest : Bytes}

theorem scriptSigPushes_code (h : readOp (byte :: bytes) = .ok (.code opcode, rest))
    (rounds : Nat) :
    scriptSigPushes (rounds + 1) (byte :: bytes) =
      .ok (if opcode = OP_0 then some [] else none) := by
  simp only [scriptSigPushes, h, bind, Except.bind]

theorem scriptSigPushes_push (h : readOp (byte :: bytes) = .ok (.push opcode data, rest))
    (rounds : Nat) :
    scriptSigPushes (rounds + 1) (byte :: bytes) = scriptSigPushes rounds rest >>= fun pushdata =>
        .ok (pushdata.map fun pushdata => data :: pushdata) := by
  simp only [scriptSigPushes, h, bind, Except.bind]

variable {bytes : Bytes}

theorem throws_scriptSigPushes (hrounds : bytes.length ≤ rounds) :
    Throws (scriptSigPushes rounds bytes) <-> Truncated bytes := by
  induction rounds generalizing bytes with
  | zero =>
    cases length_eq_zero_iff.mp (Nat.le_zero.mp hrounds)
    refine iff_of_false (not_throws_ok _) ?_
    rintro (_ | ⟨h, _⟩)
    cases h
  | succ rounds ih =>
    cases bytes with
    | nil =>
      refine iff_of_false (not_throws_ok _) ?_
      rintro (_ | ⟨h, _⟩)
      cases h
    | cons byte bytes =>
      cases hread : readOp (byte :: bytes) with
      | error err =>
        refine iff_of_true ⟨err, ?_⟩ (.here ⟨err, hread⟩)
        simp only [scriptSigPushes, hread, bind, Except.bind]
      | ok read =>
        rcases read with ⟨op, _⟩
        cases op with
        | code opcode =>
          rw [scriptSigPushes_code hread]
          refine iff_of_false (not_throws_ok _) ?_
          rintro (⟨_, h⟩ | ⟨h, _⟩)
          · cases hread.symm.trans h
          · cases hread.symm.trans h
        | push opcode data =>
          have hshorter := readOp_length hread
          rw [scriptSigPushes_push hread, throws_bind, ih (by omega)]
          constructor
          · rintro (h | ⟨_, _, h⟩)
            · exact .later hread h
            · exact absurd h (not_throws_ok _)
          rintro (⟨_, h⟩ | ⟨h, hrest⟩)
          · cases hread.symm.trans h
          · cases hread.symm.trans h
            exact .inl hrest

theorem throws_parseAdScriptSig (scriptSig : Bytes) :
    Throws (parseAdScriptSig scriptSig) <-> Truncated scriptSig := by
  unfold parseAdScriptSig
  rw [throws_bind, throws_scriptSigPushes le_rfl, or_iff_left]
  rintro ⟨pushdata, _, h⟩
  cases pushdata with
  | none => exact not_throws_ok _ h
  | some pushdata =>
    dsimp only at h
    split_ifs at h
    all_goals exact not_throws_ok _ h

/-!
## Building the covenant
-/

def AgoraOneshot.enforcedSize (offer : AgoraOneshot) : Nat :=
  writerLength (offer.enforcedOutputs.flatMap writeTxOutput)

/-- What an offer that was read looks like. -/
structure AgoraOneshot.Proper (offer : AgoraOneshot) : Prop where
  nonempty : offer.enforcedOutputs ≠ []
  values : forall output, output ∈ offer.enforcedOutputs -> FitsIn 8 output.value
  cancelPk : offer.cancelPk.length = 33

theorem size_le_enforcedSize {output : TxOutput} (h : output ∈ offer.enforcedOutputs) :
    9 + output.script.bytecode.length ≤ offer.enforcedSize := by
  unfold AgoraOneshot.enforcedSize
  rw [writerLength_flatMap]
  have hle := le_sum_of_mem (mem_map_of_mem
    (f := fun output => writerLength (writeTxOutput output)) h)
  have hmono := writerLength_writeVarSize_mono (Nat.zero_le output.script.bytecode.length)
  have hone : writerLength (writeVarSize 0) = 1 := rfl
  rw [writerLength_writeTxOutput] at hle
  unfold sizedLength at hle
  omega

theorem AgoraOneshot.Proper.serOutputs (h : offer.Proper)
    (hsize : offer.enforcedSize ≤ 0xffffffff) :
    exists data, serOutputs offer.enforcedOutputs = .ok data ∧
      data.length = offer.enforcedSize := by
  refine ⟨_, write_fits ?_, flatMap_encoded_length _⟩
  intro put hput
  rcases mem_flatMap.mp hput with ⟨output, houtput, hput⟩
  have hle := size_le_enforcedSize houtput
  simp only [writeTxOutput, Script.writeWithSize, mem_append, mem_singleton] at hput
  rcases hput with rfl | hput | rfl
  · exact h.values output houtput
  · exact writeVarSize_fits (by omega) put hput
  · trivial

theorem fromOps_returns {ops : List Op}
    (h : forall op, op ∈ ops -> exists bytes, WritesOp op bytes) :
    exists script, Script.fromOps ops = .ok script := by
  have hparts : exists parts, Forall₂ WritesOp ops parts := by
    induction ops with
    | nil => exact ⟨[], .nil⟩
    | cons op ops ih =>
      rcases forall_mem_cons.mp h with ⟨⟨bytes, hop⟩, hops⟩
      rcases ih hops with ⟨parts, hparts⟩
      exact ⟨bytes :: parts, .cons hop hparts⟩
  rcases hparts with ⟨_, hparts⟩
  exact ⟨_, fromOps_writes hparts⟩

theorem AgoraOneshot.Proper.script_returns (h : offer.Proper)
    (hsize : offer.enforcedSize ≤ 0xffffffff) : exists script, offer.script = .ok script := by
  rcases h.serOutputs hsize with ⟨data, hser, _⟩
  have hlow : 2 ≤ data.length := by
    rcases exists_mem_of_ne_nil _ h.nonempty with ⟨_, houtput⟩
    have hle := size_le_enforcedSize houtput
    omega
  have hcancelPk := h.cancelPk
  rcases pushBytesOp_pushes hlow (by omega) with ⟨outputsOp, _, houtputs, hwrites⟩
  rcases @pushBytesOp_pushes offer.cancelPk (by omega) (by omega) with
    ⟨cancelOp, _, hcancel, hwritesPk⟩
  have hidx : pushBytesOp [36 + 2 + 8 + 4] = .ok (.push 1 [50]) := by decide
  have hsize : pushBytesOp [32] = .ok (.push 1 [32]) := by decide
  have hpreimage : pushBytesOp [4 + 32 + 32] = .ok (.push 1 [68]) := by decide
  have hflags : pushBytesOp [UInt8.ofNat ALL_ANYONECANPAY_BIP143.toInt] =
      .ok (.push 1 [0xc1]) := by decide
  have hone : forall byte, WritesOp (.push 1 [byte]) [1, byte] := by
    intro byte
    exact @writesOp_short [byte] (Nat.le_add_left 1 74)
  have hops := @fromOps_returns (covenantOps outputsOp (.push 1 [50]) (.push 1 [32])
    (.push 1 [68]) (.push 1 [0xc1]) cancelOp) (by
      repeat
        refine forall_mem_cons.mpr ⟨by first
            | exact ⟨_, writesOp_code _⟩
            | exact ⟨_, hwrites.writes⟩
            | exact ⟨_, hwritesPk.writes⟩
            | exact ⟨_, hone _⟩, ?_⟩
      exact nofun)
  rcases hops with ⟨script, hscript⟩
  exact ⟨script, bind_eq_ok.mpr ⟨_, hser, bind_eq_ok.mpr ⟨_, houtputs, bind_eq_ok.mpr ⟨_, hidx,
    bind_eq_ok.mpr ⟨_, hsize, bind_eq_ok.mpr ⟨_, hpreimage, bind_eq_ok.mpr ⟨_, hflags,
      bind_eq_ok.mpr ⟨_, hcancel, hscript⟩⟩⟩⟩⟩⟩⟩⟩

theorem length_write {puts : List Put} (h : write puts = .ok data) :
    writerLength puts ≤ data.length := by
  rcases bind_eq_ok.mp h with ⟨_, _, heq⟩
  cases heq
  rw [length_append, length_replicate]
  omega

theorem pushBytesOp_large (h : 0xffffffff < data.length) : Throws (pushBytesOp data) := by
  match data, h with
  | byte :: next :: rest, h =>
    refine ⟨.other "Bytes way too large", ?_⟩
    simp only [pushBytesOp, cons_ne_nil, false_and, if_false]
    rw [if_neg (by omega), if_neg (by omega), if_neg (by omega), if_neg (by omega)]

theorem AgoraOneshot.Proper.throws_script_iff (h : offer.Proper) :
    Throws offer.script <-> 0xffffffff < offer.enforcedSize := by
  constructor
  · intro hthrows
    by_contra hsize
    exact not_throws_iff.mpr (h.script_returns (not_lt.mp hsize)) hthrows
  intro hsize
  unfold AgoraOneshot.script
  rw [throws_bind]
  cases hser : Agora.serOutputs offer.enforcedOutputs with
  | error err => exact .inl ⟨err, rfl⟩
  | ok data =>
    refine .inr ⟨data, rfl, throws_bind.mpr (.inl (pushBytesOp_large ?_))⟩
    exact hsize.trans_le (length_write hser)

/-!
## Reading an offer
-/

theorem readLittleEndian_lt {rest : Bytes}
    (h : readLittleEndian width bytes = some (n, rest)) : n < 256 ^ width := by
  induction width generalizing n bytes rest with
  | zero =>
    cases h
    decide
  | succ width ih =>
    cases bytes with
    | nil => cases h
    | cons byte bytes =>
      rcases Option.bind_eq_some_iff.mp h with ⟨⟨_, _⟩, hread, heq⟩
      cases heq
      have hhigh := ih hread
      have hbyte := byte.toNat_lt
      omega

theorem readTxOutput_value {rest : Bytes} {output : TxOutput}
    (h : readTxOutput bytes = .ok (output, rest)) : FitsIn 8 output.value := by
  rcases bind_eq_ok.mp h with ⟨⟨value, _⟩, hvalue, h⟩
  rcases bind_eq_ok.mp h with ⟨⟨_, _⟩, _, h⟩
  rcases bind_eq_ok.mp h with ⟨⟨_, _⟩, _, h⟩
  cases h
  unfold readNumber at hvalue
  split at hvalue
  · cases hvalue
  · rename_i hread
    cases hvalue
    have hlt := readLittleEndian_lt hread
    show 0 ≤ (value : Int) ∧ (value : Int) < 256 ^ 8
    omega

theorem readTxOutputs_values {outputs : List TxOutput}
    (h : readTxOutputs rounds bytes = .ok outputs) :
    forall output, output ∈ outputs -> FitsIn 8 output.value := by
  induction rounds generalizing bytes outputs with
  | zero => cases bytes <;> cases h <;> exact nofun
  | succ rounds ih =>
    cases bytes with
    | nil =>
      cases h
      exact nofun
    | cons byte bytes =>
      rcases bind_eq_ok.mp h with ⟨⟨_, _⟩, houtput, h⟩
      rcases bind_eq_ok.mp h with ⟨_, hothers, h⟩
      cases h
      exact forall_mem_cons.mpr ⟨readTxOutput_value houtput, ih hothers⟩

inductive Item where
  | push (data : Bytes)
  | code (opcode : Opcode)

/-- The script begins with the operations, and the rest stands behind them. -/
def Begins : List Item -> Bytes -> Bytes -> Prop
  | [], script, rest => script = rest
  | .push data :: items, script, rest =>
    exists opcode next, readOp script = .ok (.push opcode data, next) ∧ Begins items next rest
  | .code opcode :: items, script, rest =>
    exists next, readOp script = .ok (.code opcode, next) ∧ Begins items next rest

theorem expectPush_eq_ok {message : String} {ops data rest : Bytes} :
    expectPush message ops = .ok (data, rest) <->
      exists opcode, readOp ops = .ok (.push opcode data, rest) := by
  cases ops with
  | nil => simp [expectPush, readOp]
  | cons byte bytes =>
    rcases hread : readOp (byte :: bytes) with _ | ⟨_ | _, _⟩ <;>
      simp [expectPush, hread, bind, Except.bind]

theorem expectCode_eq_ok {opcode : Opcode} {message : String} {ops rest : Bytes} :
    expectCode opcode message ops = .ok rest <-> readOp ops = .ok (.code opcode, rest) := by
  cases ops with
  | nil => simp [expectCode, readOp]
  | cons byte bytes =>
    rcases hread : readOp (byte :: bytes) with _ | ⟨op, _⟩
    · simp [expectCode, hread, bind, Except.bind]
    · by_cases hop : op = .code opcode <;> simp [expectCode, hread, bind, Except.bind, hop]

/-- The script drops a list of outputs and asks for a signature by the key. -/
def AdScript (script cancelPk : Bytes) (outputs : List TxOutput) : Prop :=
  exists outputsSer variant lokadId rest, Begins
      [.push outputsSer, .code OP_DROP, .push cancelPk, .code OP_CHECKSIGVERIFY, .push variant,
        .code OP_EQUALVERIFY, .push lokadId] script rest ∧
    cancelPk.length = 33 ∧ readTxOutputs outputsSer.length outputsSer = .ok outputs

theorem fromRedeemScript_iff {redeemScript opreturnScript : Script} {offer : AgoraOneshot} :
    AgoraOneshot.fromRedeemScript redeemScript opreturnScript = .ok offer <->
      exists outputs, AdScript redeemScript.bytecode offer.cancelPk outputs ∧
        offer.enforcedOutputs = { value := 0, script := opreturnScript } :: outputs := by
  constructor
  · intro h
    rcases bind_eq_ok.mp h with ⟨⟨outputsSer, _⟩, hser, h⟩
    rcases bind_eq_ok.mp h with ⟨_, hdrop, h⟩
    rcases bind_eq_ok.mp h with ⟨⟨cancelPk, _⟩, hkey, h⟩
    dsimp only at h
    split at h
    · cases h
    rename_i hlength
    rcases bind_eq_ok.mp h with ⟨_, hcheck, h⟩
    rcases bind_eq_ok.mp h with ⟨⟨variant, _⟩, hvariant, h⟩
    rcases bind_eq_ok.mp h with ⟨_, hequal, h⟩
    rcases bind_eq_ok.mp h with ⟨⟨lokadId, rest⟩, hlokad, h⟩
    rcases bind_eq_ok.mp h with ⟨outputs, houtputs, h⟩
    cases h
    rcases expectPush_eq_ok.mp hser with ⟨_, hser⟩
    rcases expectPush_eq_ok.mp hkey with ⟨_, hkey⟩
    rcases expectPush_eq_ok.mp hvariant with ⟨_, hvariant⟩
    rcases expectPush_eq_ok.mp hlokad with ⟨_, hlokad⟩
    exact ⟨outputs, ⟨outputsSer, variant, lokadId, rest, ⟨_, _, hser, _, expectCode_eq_ok.mp hdrop,
      _, _, hkey, _, expectCode_eq_ok.mp hcheck, _, _, hvariant, _, expectCode_eq_ok.mp hequal,
      _, _, hlokad, rfl⟩, not_not.mp hlength, houtputs⟩, rfl⟩
  · rintro ⟨outputs, ⟨_, _, _, _, ⟨_, _, hser, _, hdrop, _, _, hkey, _, hcheck, _, _, hvariant,
      _, hequal, _, _, hlokad, _⟩, hlength, houtputs⟩, henforced⟩
    refine bind_eq_ok.mpr ⟨_, expectPush_eq_ok.mpr ⟨_, hser⟩, ?_⟩
    refine bind_eq_ok.mpr ⟨_, expectCode_eq_ok.mpr hdrop, ?_⟩
    refine bind_eq_ok.mpr ⟨_, expectPush_eq_ok.mpr ⟨_, hkey⟩, ?_⟩
    dsimp only
    rw [if_neg (not_not.mpr hlength)]
    refine bind_eq_ok.mpr ⟨_, expectCode_eq_ok.mpr hcheck, ?_⟩
    refine bind_eq_ok.mpr ⟨_, expectPush_eq_ok.mpr ⟨_, hvariant⟩, ?_⟩
    refine bind_eq_ok.mpr ⟨_, expectCode_eq_ok.mpr hequal, ?_⟩
    refine bind_eq_ok.mpr ⟨_, expectPush_eq_ok.mpr ⟨_, hlokad⟩, ?_⟩
    refine bind_eq_ok.mpr ⟨_, houtputs, ?_⟩
    rw [← henforced]

theorem proper_of_fromRedeemScript {redeemScript opreturnScript : Script}
    (h : AgoraOneshot.fromRedeemScript redeemScript opreturnScript = .ok offer) : offer.Proper := by
  rcases fromRedeemScript_iff.mp h with ⟨_, ⟨_, _, _, _, _, hcancelPk, houtputs⟩, henforced⟩
  refine ⟨by rw [henforced]; exact cons_ne_nil _ _, ?_, hcancelPk⟩
  rw [henforced]
  exact forall_mem_cons.mpr ⟨(by decide : FitsIn 8 0), readTxOutputs_values houtputs⟩

theorem p2sh_returns (sha : ScriptHash) (bytes : Bytes) :
    exists script, p2sh (sha.shaRmd160 bytes) = .ok script := by
  have hlength := sha.length bytes
  rcases @pushBytesOp_pushes (sha.shaRmd160 bytes) (by omega) (by omega) with ⟨op, _, hop, hpush⟩
  unfold p2sh
  rw [if_neg (not_not.mpr hlength)]
  exact ⟨_, bind_eq_ok.mpr ⟨op, hop, fromOps_writes (.cons (writesOp_code _)
    (.cons hpush.writes (.cons (writesOp_code _) .nil)))⟩⟩

theorem throws_parseOffer (sha : ScriptHash) (txid : Txid) (offerOutput : OutputInNode)
    (opreturnScript : Script) (parsedAd : ParsedAdSlp) :
    Throws (parseOffer sha txid offerOutput opreturnScript parsedAd) <->
      decodesTo parsedAd.covenantVariant COVENANT_VARIANT ∧
        exists offer, AgoraOneshot.fromRedeemScript parsedAd.redeemScript opreturnScript =
            .ok offer ∧ 0xffffffff < offer.enforcedSize := by
  unfold parseOffer
  split
  · rename_i hvariant
    exact iff_of_false (not_throws_ok _) fun h => hvariant h.1
  rename_i hvariant
  cases hread : AgoraOneshot.fromRedeemScript parsedAd.redeemScript opreturnScript with
  | error err => exact iff_of_false (not_throws_ok _) nofun
  | ok offer =>
    simp only [not_not.mp hvariant, true_and, Except.ok.injEq, exists_eq_left']
    rw [throws_bind, (proper_of_fromRedeemScript hread).throws_script_iff, or_iff_left]
    rintro ⟨script, _, hthrows⟩
    rcases p2sh_returns sha script.bytecode with ⟨_, hp2sh⟩
    rw [hp2sh] at hthrows
    dsimp only [bind, Except.bind] at hthrows
    split at hthrows
    · exact not_throws_ok _ hthrows
    · exact not_throws_ok _ hthrows

/-!
## Transactions
-/

/-- What of a transaction is looked at: an SLP token at its second output. -/
structure Offers (tx : TxInNode) (inputScript : Bytes) (offerOutput : OutputInNode)
    (tokenEntry : TokenEntry) (amount : UInt64) : Prop where
  input : tx.inputScripts[0]? = some inputScript
  output : tx.outputs[1]? = some offerOutput
  entry : tx.tokenEntries[0]? = some tokenEntry
  token : offerOutput.token = some amount
  protocol : tokenEntry.protocol = .SLP

theorem Offers.parse {tx : TxInNode} {inputScript : Bytes} {offerOutput : OutputInNode}
    {tokenEntry : TokenEntry} {amount : UInt64}
    (h : Offers tx inputScript offerOutput tokenEntry amount) (sha : ScriptHash) :
    parseAgoraTx sha tx = parseTokenAd sha tx.txid inputScript offerOutput tokenEntry amount := by
  simp only [parseAgoraTx, h.input, h.output, h.entry, h.token, h.protocol]

theorem offers_or_none (sha : ScriptHash) (tx : TxInNode) :
    (exists inputScript offerOutput tokenEntry amount,
      Offers tx inputScript offerOutput tokenEntry amount) ∨ parseAgoraTx sha tx = .ok none := by
  unfold parseAgoraTx
  split
  · rename_i inputScript offerOutput tokenEntry hinput houtput hentry
    split
    · rename_i amount htoken hprotocol
      exact .inl ⟨_, _, _, amount, hinput, houtput, hentry, htoken, hprotocol⟩
    · exact .inr rfl
  · exact .inr rfl

def KnownTokenType (number : Nat) : Prop :=
  number = SLP_FUNGIBLE ∨ number = SLP_MINT_VAULT ∨ number = SLP_NFT1_GROUP ∨
    number = SLP_NFT1_CHILD

theorem throws_slpSend (tokenId : HexTxid) (number : Nat) (amount : UInt64) :
    Throws (slpSend tokenId.digits number [0, amount.toNat]) <-> ¬ KnownTokenType number := by
  by_cases htype : KnownTokenType number
  · refine iff_of_false (not_throws_iff.mpr ?_) (not_not.mpr htype)
    have hlt := amount.toNat_lt
    refine ⟨_, @slpSend_eq [0, amount.toNat] number (if_pos htype) tokenId Nat.two_pos
      (Nat.le_add_left 2 17) ?_⟩
    intro other hother
    simp only [mem_cons, not_mem_nil, or_false] at hother
    rcases hother with rfl | rfl
    · decide
    · exact hlt
  · refine iff_of_true (throws_bind.mpr (.inl ?_)) htype
    exact ⟨_, if_neg htype⟩

/-- The covenant of the offer is larger than a script can push. -/
def Oversized (inputScript : Bytes) (tokenEntry : TokenEntry) (amount : UInt64) : Prop :=
  exists opreturnScript parsedAd offer,
    slpSend tokenEntry.tokenId.digits tokenEntry.number [0, amount.toNat] = .ok opreturnScript ∧
    parseAdScriptSig inputScript = .ok (some parsedAd) ∧
    decodesTo parsedAd.covenantVariant COVENANT_VARIANT ∧
    AgoraOneshot.fromRedeemScript parsedAd.redeemScript opreturnScript = .ok offer ∧
    0xffffffff < offer.enforcedSize

theorem throws_parseTokenAd (sha : ScriptHash) (txid : Txid) (inputScript : Bytes)
    (offerOutput : OutputInNode) (tokenEntry : TokenEntry) (amount : UInt64) :
    Throws (parseTokenAd sha txid inputScript offerOutput tokenEntry amount) <->
      ¬ KnownTokenType tokenEntry.number ∨ Truncated inputScript ∨
        Oversized inputScript tokenEntry amount := by
  unfold parseTokenAd
  rw [throws_bind, throws_slpSend]
  constructor
  · rintro (h | ⟨opreturnScript, hsend, h⟩)
    · exact .inl h
    rcases throws_bind.mp h with h | ⟨parsed, hparsed, h⟩
    · exact .inr (.inl ((throws_parseAdScriptSig inputScript).mp h))
    · cases parsed with
      | none => exact absurd h (not_throws_ok _)
      | some parsedAd =>
        rcases (throws_parseOffer _ _ _ _ _).mp h with ⟨hvariant, offer, hread, hsize⟩
        exact .inr (.inr ⟨_, _, offer, hsend, hparsed, hvariant, hread, hsize⟩)
  · rintro (h | h | ⟨_, _, offer, hsend, hparsed, hvariant, hread, hsize⟩)
    · exact .inl h
    · by_cases hknown : KnownTokenType tokenEntry.number
      · rcases not_throws_iff.mp fun h => (throws_slpSend tokenEntry.tokenId _ amount).mp h hknown
          with ⟨_, hsend⟩
        exact .inr ⟨_, hsend, throws_bind.mpr (.inl ((throws_parseAdScriptSig inputScript).mpr h))⟩
      · exact .inl hknown
    · exact .inr ⟨_, hsend, throws_bind.mpr (.inr ⟨_, hparsed,
        (throws_parseOffer _ _ _ _ _).mpr ⟨hvariant, offer, hread, hsize⟩⟩)⟩

/-- Every byte matters for this hash. -/
def mixingSha : ScriptHash where
  shaRmd160 bytes := littleEndian 20 (bytes.foldl (fun hash byte => 257 * hash + byte.toNat + 1) 0)
  length _ := littleEndian_length 20 _

def zeroTxid : HexTxid where
  digits := replicate 64 ⟨0, by decide⟩
  length := length_replicate

def tokenTx (inputScript outputScript : Bytes) (number : Nat) : TxInNode where
  txid := .hex zeroTxid
  inputScripts := [inputScript]
  outputs :=
    [{ value := 0, outputScript := [OP_RETURN], token := none, spentBy := none },
      { value := 546, outputScript, token := some 1, spentBy := none }]
  tokenEntries := [{ tokenId := zeroTxid, protocol := .SLP, number }]

end ECash.Agora
