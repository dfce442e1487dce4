import ECash.Agora.Throwing

/-!
# Whose offer it is

The node runs the script that the input script of a transaction pushes last, and that script asks
for a signature by the key of the offer.  The parser stops at the operation `OP_0`, which is a
push for the node, and takes what was pushed last before it.
-/

namespace ECash.Agora

open Foundation Lib

/-!
## What the node runs
-/

/-- What an operation that only pushes puts on the stack. -/
def pushedValue (opcode : UInt8) (data : Bytes) : Option Bytes :=
  if opcode ≤ Interpreter.OP_PUSHDATA4 then some data
  else if opcode = OP_1NEGATE then some [0x81]
  else if 0x51 ≤ opcode ∧ opcode ≤ 0x60 then some [opcode - 0x50]
  else none

/-- The stack after a script that only pushes, in the order of the pushes. -/
def pushOnlyStack : Nat -> Bytes -> Option (List Bytes)
  | _, [] => some []
  | 0, _ :: _ => none
  | rounds + 1, byte :: bytes =>
    match Interpreter.getScriptOp (byte :: bytes) with
    | (none, _) => none
    | (some (opcode, data), pc) => do
        let value ← pushedValue opcode data
        let stack ← pushOnlyStack rounds pc
        some (value :: stack)

def executedRedeemScript (scriptSig : Bytes) : Option Script :=
  (pushOnlyStack scriptSig.length scriptSig).map fun stack => { bytecode := stack.getLastD [] }

/-!
## What the parser reads
-/

/-- The pushes are all of the script, or all before its first `OP_0`. -/
theorem scriptSigPushes_iff {rounds : Nat} {bytes : Bytes} {pushdata : List Bytes}
    (hrounds : bytes.length ≤ rounds) :
    scriptSigPushes rounds bytes = .ok (some pushdata) <->
      Begins (pushdata.map .push) bytes [] ∨
        exists rest, Begins (pushdata.map .push ++ [.code OP_0]) bytes rest := by
  induction rounds generalizing bytes pushdata with
  | zero =>
    cases List.length_eq_zero_iff.mp (Nat.le_zero.mp hrounds)
    cases pushdata <;> simp [scriptSigPushes, Begins, readOp]
  | succ rounds ih =>
    cases bytes with
    | nil => cases pushdata <;> simp [scriptSigPushes, Begins, readOp]
    | cons byte bytes =>
      cases hread : readOp (byte :: bytes) with
      | error err => cases pushdata <;> simp [scriptSigPushes, Begins, hread, bind, Except.bind]
      | ok read =>
        rcases read with ⟨op, next⟩
        cases op with
        | code opcode =>
          rw [scriptSigPushes_code hread]
          cases pushdata <;> simp [Begins, hread]
        | push opcode data =>
          have hshorter := readOp_length hread
          rw [List.length_cons] at hrounds hshorter
          rw [scriptSigPushes_push hread]
          cases pushdata with
          | nil => simp [bind_eq_ok, Begins, hread]
          | cons first pushdata =>
            have hnext := @ih next pushdata (by omega)
            simp only [List.map_cons, List.cons_append, Begins, hread, bind_eq_ok]
            simp [hnext, and_comm, and_or_left]

theorem lastPush_eq {scriptSig lastPush lastPush' rest : Bytes} {pushes pushes' : List Bytes}
    (hpushes : scriptSigPushes scriptSig.length scriptSig = .ok (some (pushes ++ [lastPush])))
    (hbegins : Begins ((pushes' ++ [lastPush']).map .push ++ [.code OP_0]) scriptSig rest) :
    lastPush = lastPush' := by
  have hsame := hpushes.symm.trans ((scriptSigPushes_iff le_rfl).mpr (.inr ⟨rest, hbegins⟩))
  have hlast := (List.append_inj' (Option.some.inj (Except.ok.inj hsame)) rfl).2
  exact List.singleton_inj.mp hlast

/-- The stack of the node has what was pushed in the order of the pushes. -/
theorem pushOnlyStack_of_begins {rounds : Nat} {bytes : Bytes} {stack pushdata : List Bytes}
    (hstack : pushOnlyStack rounds bytes = some stack)
    (hpushes : Begins (pushdata.map .push) bytes []) : stack = pushdata := by
  induction pushdata generalizing rounds bytes stack with
  | nil =>
    cases hpushes
    cases rounds <;> cases hstack <;> rfl
  | cons data pushdata ih =>
    rcases hpushes with ⟨_, next, hread, hnext⟩
    cases rounds with
    | zero =>
      cases bytes with
      | nil => cases hread
      | cons byte bytes => cases hstack
    | succ rounds =>
      cases bytes with
      | nil => cases hread
      | cons byte bytes =>
        rcases hnode : Interpreter.getScriptOp (byte :: bytes) with ⟨op, rest⟩
        unfold pushOnlyStack at hstack
        rw [hnode] at hstack
        cases op with
        | none => cases hstack
        | some op =>
          rcases Option.bind_eq_some_iff.mp hstack with ⟨_, hvalue, hstack⟩
          rcases Option.bind_eq_some_iff.mp hstack with ⟨_, hlater, heq⟩
          cases heq
          have hop := (readOp_of_getScriptOp hnode).symm.trans hread
          unfold Op.ofNode at hop
          split at hop
          · rename_i hpush
            cases hop
            have hdata : pushedValue op.1 op.2 = some op.2 := if_pos hpush.2
            cases hdata.symm.trans hvalue
            rw [ih hlater hnext]
          · cases hop

/-!
## Keys
-/

/-- The key that an offer is read with from a script that advertises it. -/
def ReadsCancelPk (redeemScript : Script) (cancelPk : Bytes) : Prop :=
  exists opreturnScript offer,
    AgoraOneshot.fromRedeemScript redeemScript opreturnScript = .ok offer ∧
      offer.cancelPk = cancelPk

/-- What is returned for an offer whose covenant is the script. -/
def foundAd (txid : Txid) (offerOutput : OutputInNode) (offer : AgoraOneshot) (script : Script) :
    ParsedAd where
  params := offer
  outpoint := { txid, outIdx := 1 }
  txBuilderInput :=
    { prevOut := { txid, outIdx := 1 }
      script := none
      sequence := none
      signData := some
        { value := offerOutput.value, outputScript := none, redeemScript := some script } }
  spentBy := offerOutput.spentBy

variable {sha : ScriptHash} {txid : Txid} {offerOutput : OutputInNode} {opreturnScript : Script}
  {parsedAd : ParsedAdSlp} {offer : AgoraOneshot} {script p2shScript : Script}

theorem parseOffer_found (hvariant : decodesTo parsedAd.covenantVariant COVENANT_VARIANT)
    (hread : AgoraOneshot.fromRedeemScript parsedAd.redeemScript opreturnScript = .ok offer)
    (hscript : offer.script = .ok script)
    (hp2sh : p2sh (sha.shaRmd160 script.bytecode) = .ok p2shScript) :
    parseOffer sha txid offerOutput opreturnScript parsedAd =
      .ok (if offerOutput.outputScript ≠ p2shScript.bytecode then none
        else some (foundAd txid offerOutput offer script)) := by
  simp only [parseOffer, hvariant, not_true_eq_false, if_false, hread, hscript, hp2sh, bind,
    Except.bind]
  split_ifs <;> rfl

theorem parseTokenAd_found {inputScript : Bytes} {tokenEntry : TokenEntry} {amount : UInt64}
    (hsend : slpSend tokenEntry.tokenId.digits tokenEntry.number [0, amount.toNat] =
      .ok opreturnScript) (hparsed : parseAdScriptSig inputScript = .ok (some parsedAd))
    (hvariant : decodesTo parsedAd.covenantVariant COVENANT_VARIANT)
    (hread : AgoraOneshot.fromRedeemScript parsedAd.redeemScript opreturnScript = .ok offer)
    (hscript : offer.script = .ok script)
    (hp2sh : p2sh (sha.shaRmd160 script.bytecode) = .ok p2shScript)
    (houtput : offerOutput.outputScript = p2shScript.bytecode) :
    parseTokenAd sha txid inputScript offerOutput tokenEntry amount =
      .ok (some (foundAd txid offerOutput offer script)) := by
  refine bind_eq_ok.mpr ⟨_, hsend, bind_eq_ok.mpr ⟨_, hparsed, ?_⟩⟩
  dsimp only
  rw [parseOffer_found hvariant hread hscript hp2sh, if_neg (not_not.mpr houtput)]

theorem pushes_of_parseAdScriptSig {scriptSig : Bytes}
    (h : parseAdScriptSig scriptSig = .ok (some parsedAd)) :
    exists pushes, scriptSigPushes scriptSig.length scriptSig =
      .ok (some (pushes ++ [parsedAd.redeemScript.bytecode])) := by
  rcases bind_eq_ok.mp h with ⟨pushes, hpushes, h⟩
  cases pushes with
  | none => cases h
  | some pushdata =>
    dsimp only at h
    split_ifs at h with hfew
    · cases h
    · cases h
      have hne : pushdata ≠ [] := by
        rintro rfl
        exact hfew (by decide)
      refine ⟨pushdata.dropLast, ?_⟩
      rw [List.getLastD_eq_getLast?, List.getLast?_eq_some_getLast hne, Option.getD_some,
        List.dropLast_append_getLast hne]
      exact hpushes
    · cases h

def oneToken : Script where
  bytecode := OP_RETURN :: (sendPushes zeroTxid 1 [0, 1]).flatMap pushBytes

theorem adScript_of_parse {tx : TxInNode} {ad : ParsedAd} {scriptSig : Bytes}
    (hinput : tx.inputScripts[0]? = some scriptSig) (h : parseAgoraTx sha tx = .ok (some ad)) :
    exists pushes lastPush outputs,
      scriptSigPushes scriptSig.length scriptSig = .ok (some (pushes ++ [lastPush])) ∧
      AdScript lastPush ad.params.cancelPk outputs := by
  rcases offers_or_none sha tx with ⟨_, _, entry, amount, hoffers⟩ | hnone
  · cases hoffers.input.symm.trans hinput
    rw [hoffers.parse] at h
    rcases bind_eq_ok.mp h with ⟨opreturnScript, hsend, h⟩
    rcases bind_eq_ok.mp h with ⟨parsed, hparsed, h⟩
    cases parsed with
    | none => cases h
    | some parsedAd =>
      by_cases hvariant : decodesTo parsedAd.covenantVariant COVENANT_VARIANT
      · cases hread : AgoraOneshot.fromRedeemScript parsedAd.redeemScript opreturnScript with
        | error err => simp [parseOffer, hvariant, hread] at h
        | ok offer =>
          cases hscript : offer.script with
          | error err => simp [parseOffer, hvariant, hread, hscript, bind, Except.bind] at h
          | ok script =>
            rcases p2sh_returns sha script.bytecode with ⟨_, hp2sh⟩
            dsimp only at h
            rw [parseOffer_found hvariant hread hscript hp2sh] at h
            split_ifs at h
            · cases h
            · cases h
              rcases fromRedeemScript_iff.mp hread with ⟨outputs, had, _⟩
              rcases pushes_of_parseAdScriptSig hparsed with ⟨pushes, hpushes⟩
              exact ⟨pushes, _, outputs, hpushes, had⟩
      · simp [parseOffer, hvariant] at h
  · rw [hnone] at h
    cases h

theorem readsCancelPk_iff {redeemScript : Script} {cancelPk : Bytes} :
    ReadsCancelPk redeemScript cancelPk <->
      exists outputs, AdScript redeemScript.bytecode cancelPk outputs := by
  constructor
  · rintro ⟨_, _, hread, rfl⟩
    rcases fromRedeemScript_iff.mp hread with ⟨outputs, had, _⟩
    exact ⟨outputs, had⟩
  · rintro ⟨outputs, had⟩
    exact ⟨oneToken, { enforcedOutputs := _, cancelPk },
      fromRedeemScript_iff.mpr ⟨outputs, had, rfl⟩, rfl⟩

theorem AdScript.cancelPk_eq {script cancelPk cancelPk' : Bytes} {outputs outputs' : List TxOutput}
    (h : AdScript script cancelPk outputs) (h' : AdScript script cancelPk' outputs') :
    cancelPk = cancelPk' := by
  rcases h with ⟨_, _, _, _, ⟨_, _, hser, _, hdrop, _, _, hkey, _⟩, _⟩
  rcases h' with ⟨_, _, _, _, ⟨_, _, hser', _, hdrop', _, _, hkey', _⟩, _⟩
  cases hser.symm.trans hser'
  cases hdrop.symm.trans hdrop'
  cases hkey.symm.trans hkey'
  rfl

/-- What is pushed last before the first `OP_0` must ask for the same key as the last push. -/
theorem parseAgoraTx_cancelPk_iff {tx : TxInNode} {ad : ParsedAd} {scriptSig : Bytes}
    {redeemScript : Script} (hinput : tx.inputScripts[0]? = some scriptSig)
    (hparse : parseAgoraTx sha tx = .ok (some ad))
    (hexecuted : executedRedeemScript scriptSig = some redeemScript) :
    ReadsCancelPk redeemScript ad.params.cancelPk <->
      forall pushes lastPush rest cancelPk outputs,
        Begins ((pushes ++ [lastPush]).map .push ++ [.code OP_0]) scriptSig rest ->
        AdScript lastPush cancelPk outputs ->
        exists outputs, AdScript redeemScript.bytecode cancelPk outputs := by
  rcases adScript_of_parse hinput hparse with ⟨pushes, lastPush, outputs, hpushes, had⟩
  rw [readsCancelPk_iff]
  constructor
  · intro hreads pushes' lastPush' rest cancelPk outputs' hbegins had'
    cases lastPush_eq hpushes hbegins
    exact had.cancelPk_eq had' ▸ hreads
  · intro hkeys
    rcases (scriptSigPushes_iff le_rfl).mp hpushes with hbegins | ⟨rest, hbegins⟩
    · -- Nothing stands behind the pushes, so the last of them is what is run.
      rcases Option.map_eq_some_iff.mp hexecuted with ⟨_, hstack, rfl⟩
      cases pushOnlyStack_of_begins hstack hbegins
      rw [List.getLastD_concat]
      exact ⟨outputs, had⟩
    · exact hkeys pushes lastPush rest _ outputs hbegins had

/-!
## An offer in another's name

The advertisement of the key is pushed and dropped; the script that is run takes all of the
pushes away and asks for no signature.
-/

def otherPk : Bytes := 2 :: List.replicate 32 7

def otherAd : Bytes :=
  9 :: List.replicate 9 0 ++ OP_DROP :: 33 :: otherPk ++ OP_CHECKSIGVERIFY :: 7 :: COVENANT_VARIANT
    ++ OP_EQUALVERIFY :: 4 :: AGORA_LOKAD_ID ++ [OP_EQUAL]

def otherOffer : AgoraOneshot where
  enforcedOutputs :=
    [{ value := 0, script := oneToken }, { value := 0, script := { bytecode := [] } }]
  cancelPk := otherPk

def otherCovenant : Script := otherOffer.script.toOption.getD { bytecode := [] }

def otherP2sh : Bytes :=
  OP_HASH160 :: 20 :: mixingSha.shaRmd160 otherCovenant.bytecode ++ [OP_EQUAL]

theorem otherOffer_script : otherOffer.script = .ok otherCovenant := by
  decide +kernel

theorem p2sh_otherCovenant :
    p2sh (mixingSha.shaRmd160 otherCovenant.bytecode) = .ok { bytecode := otherP2sh } := by
  decide +kernel

-- `OP_2DROP OP_2DROP OP_1`.
def unsignedScript : Script := { bytecode := [0x6d, 0x6d, 0x51] }

def unsignedScriptSig : Bytes :=
  4 :: AGORA_LOKAD_ID ++ 7 :: COVENANT_VARIANT ++ 61 :: otherAd ++ [OP_0, 3, 0x6d, 0x6d, 0x51]

theorem executed_unsigned : executedRedeemScript unsignedScriptSig = some unsignedScript :=
  rfl

theorem parseAgoraTx_unsigned :
    executedRedeemScript unsignedScriptSig = some unsignedScript ∧
      (parseAgoraTx mixingSha (tokenTx unsignedScriptSig otherP2sh SLP_FUNGIBLE)).toOption.map
        (Option.map fun ad => ad.params) = some (some otherOffer) ∧
      ¬ ReadsCancelPk unsignedScript otherPk := by
  refine ⟨executed_unsigned, by decide +kernel, ?_⟩
  rintro ⟨_, _, h, _⟩
  cases h

def repeatedScriptSig : Bytes :=
  4 :: AGORA_LOKAD_ID ++ 7 :: COVENANT_VARIANT ++ 61 :: otherAd ++ OP_0 :: 61 :: otherAd

/-- The script that is run is the one that stands before `OP_0`, too. -/
theorem parseAgoraTx_cancelPk_iff_repeated :
    exists ad, parseAgoraTx mixingSha (tokenTx repeatedScriptSig otherP2sh SLP_FUNGIBLE) =
        .ok (some ad) ∧
      executedRedeemScript repeatedScriptSig = some { bytecode := otherAd } ∧
      ReadsCancelPk { bytecode := otherAd } ad.params.cancelPk := by
  have hexecuted : executedRedeemScript repeatedScriptSig = some { bytecode := otherAd } := by
    decide +kernel
  have hread : scriptSigPushes repeatedScriptSig.length repeatedScriptSig =
      .ok (some ([AGORA_LOKAD_ID, COVENANT_VARIANT] ++ [otherAd])) := by
    decide +kernel
  have hparsed : parseAdScriptSig repeatedScriptSig = .ok (some
        { covenantVariant := COVENANT_VARIANT
          pushdata := []
          redeemScript := { bytecode := otherAd } }) :=
    bind_eq_ok.mpr ⟨_, hread, rfl⟩
  have hoffer : AgoraOneshot.fromRedeemScript { bytecode := otherAd } oneToken =
      .ok otherOffer := by
    decide +kernel
  have hoffers : Offers (tokenTx repeatedScriptSig otherP2sh SLP_FUNGIBLE) _ _ _ _ :=
    ⟨rfl, rfl, rfl, rfl, rfl⟩
  have hparse := (hoffers.parse mixingSha).trans (parseTokenAd_found (by decide) hparsed (.inl rfl)
    hoffer otherOffer_script p2sh_otherCovenant rfl)
  refine ⟨_, hparse, hexecuted, (parseAgoraTx_cancelPk_iff rfl hparse hexecuted).mpr ?_⟩
  intro pushes lastPush rest cancelPk outputs hbegins had
  exact ⟨outputs, lastPush_eq hread hbegins ▸ had⟩

end ECash.Agora
