import ECash.Address.Regroup
import ECash.Address.Strings

/-!
# Addresses and their contents

Every content has exactly one address, up to the case of its letters and to a prefix that may be
left out.  A change of at most eight consecutive characters is noticed.
-/

namespace ECash.Address

open Foundation List

/-!
## Characters of values
-/

theorem charsOf_values {values : Data} (hfive : FiveBits values) :
    exists chars, values.mapM charOf = .ok chars ∧
      chars.mapM charValue = some values ∧
      (chars.map toUpper).mapM charValue = some values ∧
      chars.any isUpper = false ∧ (chars.map toUpper).any isLower = false := by
  induction values with
  | nil => exact ⟨[], rfl, rfl, rfl, rfl, rfl⟩
  | cons v values ih =>
    rcases ih (forall_mem_cons.mp hfive).2 with
      ⟨chars, hchars, hvalues, hupper, hlow, hup⟩
    have hv : v.toNat < 32 := hfive v mem_cons_self
    have hlt : v.toNat < charset.length := hv
    have hget := getElem?_eq_getElem hlt
    rcases charset_facts ⟨v.toNat, hv⟩ _ hget with ⟨hvalue, hupperValue, hisUpper, hisLower⟩
    rw [UInt8.ofNat_toNat] at hvalue hupperValue
    refine ⟨charset[v.toNat] :: chars, ?_, ?_, ?_, ?_, ?_⟩
    · rw [mapM_cons, charOf, hget, hchars]
      rfl
    · rw [mapM_cons, hvalue, hvalues]
      rfl
    · rw [map_cons, mapM_cons, hupperValue, hupper]
      rfl
    · simp [hisUpper, hlow]
    · simp only [map_cons, any_cons, hisLower, hup, Bool.or_false]

/-!
## Packed contents
-/

def addressSizes : List Nat := [20, 24, 28, 32, 40, 48, 56, 64]

theorem version_facts : forall type : Fin 16, forall size, size ∈ addressSizes ->
    (encodedSize size).any (fun code =>
      let version := (UInt8.ofNat type.val <<< 3) ||| code
      decide (version &&& 0x80 = 0) && decide (hashSize version = size) &&
        decide ((version >>> 3) &&& 0x1f = UInt8.ofNat type.val)) = true := by
  decide

theorem version_back : forall version : UInt8, version &&& 0x80 = 0 ->
    (encodedSize (hashSize version)).map (fun code => (((version >>> 3) &&& 0x1f) <<< 3) ||| code) =
      some version := by
  apply forall_char
  decide +kernel

theorem bytes_lt (data : Data) : forall v, v ∈ data.map UInt8.toNat -> v < 2 ^ 8 :=
  forall_mem_map.mpr fun d _ => UInt8.toNat_lt d

theorem ofNat_toNat_map (data : Data) : (data.map UInt8.toNat).map UInt8.ofNat = data := by
  rw [map_map]
  exact (map_congr_left fun d _ => UInt8.ofNat_toNat).trans (map_id data)

theorem toNat_ofNat_map {values : List Nat} (h : forall v, v ∈ values -> v < 2 ^ 8) :
    (values.map UInt8.ofNat).map UInt8.toNat = values := by
  rw [map_map]
  refine (map_congr_left fun v hv => ?_).trans (map_id values)
  exact UInt8.toNat_ofNat_of_lt' (h v hv)

def pack (data : Data) : Data :=
  (convertBits 8 5 true (data.map UInt8.toNat)).2.map UInt8.ofNat

theorem fiveBits_pack (data : Data) : FiveBits (pack data) := by
  rcases convertBits_pad (show 0 < 5 by decide) (bytes_lt data) with ⟨_, _, _, hlt⟩
  refine forall_mem_map.mpr fun v hv => ?_
  have hv := hlt v hv
  show (UInt8.ofNat v).toNat < 32
  rw [UInt8.toNat_ofNat_of_lt' (hv.trans_le (by decide))]
  exact hv

theorem toNat_pack (data : Data) :
    (pack data).map UInt8.toNat = (convertBits 8 5 true (data.map UInt8.toNat)).2 := by
  rcases convertBits_pad (show 0 < 5 by decide) (bytes_lt data) with ⟨_, _, _, hlt⟩
  exact toNat_ofNat_map fun v hv => (hlt v hv).trans_le (by decide)

theorem unpack_of_pack (data : Data) :
    convertBits 5 8 false ((pack data).map UInt8.toNat) = (true, data.map UInt8.toNat) := by
  rw [toNat_pack]
  exact unpack_pack (bytes_lt data)

theorem pack_of_unpack {payload : Data} (hfive : FiveBits payload)
    (h : (convertBits 5 8 false (payload.map UInt8.toNat)).1 = true) :
    pack ((convertBits 5 8 false (payload.map UInt8.toNat)).2.map UInt8.ofNat) = payload := by
  rcases convertBits_complete (by decide) hfive.toNat h with ⟨_, _, _, hlt⟩
  unfold pack
  rw [toNat_ofNat_map hlt, pack_unpack hfive.toNat h, ofNat_toNat_map]

/-!
## The codec
-/

/-- A prefix of lower-case letters. -/
structure GoodPrefix (p : Chars) : Prop where
  ne : p ≠ []
  lower : forall c, c ∈ p -> isLower c = true

def withPrefix (p str : Chars) : Chars := if colon ∈ str then str else p ++ colon :: str

theorem map_lower {f : UInt8 -> UInt8} {p : Chars} (hp : forall c, c ∈ p -> isLower c = true)
    (hf : forall c, isLower c = true -> f c = c) : p.map f = p :=
  (map_congr_left fun c hc => hf c (hp c hc)).trans (map_id p)

theorem parts_of_chars {p chars : Chars} (hp : GoodPrefix p)
    (halnum : forall c, c ∈ chars -> isAlnum c = true) :
    Parts p chars p chars ∧ Parts p (p ++ colon :: chars) p chars ∧
      Parts p (p.map toUpper ++ colon :: chars) p chars := by
  have hcolon : colon ∉ chars := fun hmem => ne_colon (halnum colon hmem) rfl
  have hlower := @Parts.explicit p p chars hp.ne
    (fun c hc => by simp [isLetter, hp.lower c hc]) hcolon
  have hupper := @Parts.explicit p (p.map toUpper) chars (by simpa using hp.ne) (fun c hc => by
      rcases mem_map.mp hc with ⟨d, hd, rfl⟩
      exact (lower_facts d (hp.lower d hd)).2.2.2.1) hcolon
  rw [map_lower hp.lower fun c hc => (lower_facts c hc).2.1] at hlower
  have hback : (p.map toUpper).map toLower = p := by
    rw [map_map]
    exact map_lower hp.lower fun c hc => (lower_facts c hc).2.2.2.2
  rw [hback] at hupper
  exact ⟨.default hcolon, hlower, hupper⟩

theorem decodeCashAddrContent_pack {p str body : Chars} {data : Data}
    (hparts : Parts p str p body) (hcase : ¬ Mixed str)
    (hvalues : body.mapM charValue = some (pack data ++ createChecksum p (pack data)))
    (hdata : data ≠ []) : decodeCashAddrContent str p = unpackContent data := by
  have hlength : (createChecksum p (pack data)).length = 8 := length_checksumOf _
  have hverify : verifyChecksum p (pack data ++ createChecksum p (pack data)) = true :=
    (verifyChecksum_iff p _ (fiveBits_checksumOf _) hlength).mpr rfl
  have hdecode : decode str p = .ok (p, pack data) := by
    rw [decode_parts hparts (alnum_of_mapM hvalues).1, if_neg hcase]
    simp only [hvalues, hverify, length_append, hlength]
    rw [if_neg (by simp), if_neg (by omega), take_left']
    rfl
  have hne : pack data ≠ [] := by
    intro hnil
    have hempty := unpack_of_pack data
    rw [hnil] at hempty
    exact hdata (map_eq_nil_iff.mp (congrArg Prod.snd hempty).symm)
  unfold decodeCashAddrContent
  rw [hdecode]
  simp only [bind, Except.bind, ne_eq, not_true, if_false, hne, unpack_of_pack, if_true,
    ofNat_toNat_map]

variable {content : CashAddrContent}

theorem packAddrData_eq {code : UInt8} (h : encodedSize content.hash.length = some code) :
    packAddrData content.hash content.type =
      .ok (pack (((content.type <<< 3) ||| code) :: content.hash)) := by
  unfold packAddrData
  rw [h]
  rfl

theorem unpackContent_cons (version : UInt8) (hash : Data) :
    unpackContent (version :: hash) =
      if version &&& 0x80 ≠ 0 then .ok noContent
      else if hash.length + 1 ≠ hashSize version + 1 then .ok noContent
      else .ok { type := (version >>> 3) &&& 0x1f, hash } :=
  rfl

theorem unpackContent_version (htype : content.type ≤ 15)
    (hsize : content.hash.length ∈ addressSizes) :
    exists code, encodedSize content.hash.length = some code ∧
      unpackContent (((content.type <<< 3) ||| code) :: content.hash) = .ok content := by
  have hlt : content.type.toNat < 16 := Nat.lt_succ_of_le htype
  have hfacts := version_facts ⟨content.type.toNat, hlt⟩ _ hsize
  cases hcode : encodedSize content.hash.length with
  | none =>
    rw [hcode] at hfacts
    cases hfacts
  | some code =>
    rw [hcode] at hfacts
    simp only [UInt8.ofNat_toNat, Option.any_some, Bool.and_eq_true, decide_eq_true_eq] at hfacts
    refine ⟨code, rfl, ?_⟩
    rw [unpackContent_cons, if_neg (not_not.mpr hfacts.1.1), if_neg (by rw [hfacts.1.2]; simp),
      hfacts.2]

theorem noContent_ne (hhash : content.hash ≠ []) :
    (.ok noContent : Except Fault CashAddrContent) ≠ .ok content := by
  rintro ⟨⟩
  exact hhash rfl

theorem accepted_content {p str : Chars} (hp : p ≠ [])
    (h : decodeCashAddrContent str p = .ok content) (hhash : content.hash ≠ []) :
    exists body data, Parts p str p body ∧
      body.mapM charValue = some (pack data ++ createChecksum p (pack data)) ∧
      unpackContent data = .ok content := by
  have hfail := noContent_ne hhash
  unfold decodeCashAddrContent at h
  cases hdecode : decode str p with
  | error fault =>
    rw [hdecode] at h
    cases h
  | ok decoded =>
    rcases decoded with ⟨pre, payload⟩
    rw [hdecode] at h
    simp only [bind, Except.bind] at h
    split at h
    · exact absurd h hfail
    rename_i hpre
    rw [not_not] at hpre
    subst hpre
    split at h
    · exact absurd h hfail
    split at h
    · rename_i hcomplete
      rcases parts_of_decode hdecode hp with
        ⟨body, values, hparts, hvalues, hverify, hlength, hpayload⟩
      have hfive := (alnum_of_mapM hvalues).2.1
      have hsplit : values = payload ++ values.drop (values.length - 8) := by
        rw [hpayload, take_append_drop]
      have hlast := (verifyChecksum_iff pre payload (fun d hd => hfive d (mem_of_mem_drop hd))
        (by rw [length_drop]; omega)).mp (hsplit ▸ hverify)
      have hpack := pack_of_unpack (fun d hd => hfive d (mem_of_mem_take (hpayload ▸ hd))) hcomplete
      refine ⟨body, _, hparts, ?_, h⟩
      rw [hpack, hvalues, ← hlast, ← hsplit]
    · exact absurd h hfail

theorem unpackContent_back {data : Data} (h : unpackContent data = .ok content)
    (hhash : content.hash ≠ []) : packAddrData content.hash content.type = .ok (pack data) := by
  have hfail := noContent_ne hhash
  cases data with
  | nil => cases h
  | cons version hash =>
    rw [unpackContent_cons] at h
    split at h
    · exact absurd h hfail
    rename_i hbit
    split at h
    · exact absurd h hfail
    rename_i hlength
    cases h
    rw [not_not] at hbit hlength
    rcases Option.map_eq_some_iff.mp (version_back version hbit) with ⟨code, hsize, hversion⟩
    rw [Nat.add_right_cancel_iff] at hlength
    rw [@packAddrData_eq ⟨_, hash⟩ code (by rw [hlength]; exact hsize)]
    simp only [hversion]

theorem encode_parts {p str body : Chars} {payload : Data} (hparts : Parts p str p body)
    (hvalues : body.mapM charValue = some (payload ++ createChecksum p payload)) :
    encode p payload = .ok (withPrefix p (str.map toLower)) := by
  have hencode : encode p payload = .ok (p ++ colon :: body.map toLower) := by
    unfold encode
    rw [(alnum_of_mapM hvalues).2.2]
    rfl
  have hne : forall c, isAlnum c = true -> toLower c ≠ colon := by
    apply forall_char
    decide +kernel
  rw [hencode]
  unfold withPrefix
  have halnum := (alnum_of_mapM hvalues).1
  cases hparts with
  | default h =>
    rw [if_neg]
    intro hmem
    rcases mem_map.mp hmem with ⟨c, hc, heq⟩
    exact hne c (halnum c hc) heq
  | explicit _ _ h =>
    rw [map_append, map_cons, show toLower colon = colon by decide, if_pos (by simp)]

/-- Each content of an allowed size is read back from its address, in either case and with or
without the prefix, and each accepted string is the address of what it is read as. -/
theorem cashAddr_codec {p : Chars} (hp : GoodPrefix p) :
    (forall content : CashAddrContent, content.type ≤ 15 ->
      content.hash.length ∈ addressSizes ->
      exists chars, encodeCashAddr p content = .ok (p ++ colon :: chars) ∧
        forall str, str ∈ [p ++ colon :: chars, chars, (p ++ colon :: chars).map toUpper,
            chars.map toUpper] ->
          decodeCashAddrContent str p = .ok content) ∧
    (forall str content, decodeCashAddrContent str p = .ok content -> content.hash ≠ [] ->
      encodeCashAddr p content = .ok (withPrefix p (str.map toLower))) := by
  constructor
  · intro content htype hsize
    rcases unpackContent_version htype hsize with ⟨code, hcode, hunpack⟩
    have hfive : FiveBits (pack (((content.type <<< 3) ||| code) :: content.hash) ++
        createChecksum p (pack (((content.type <<< 3) ||| code) :: content.hash))) :=
      forall_mem_append.mpr ⟨fiveBits_pack _, fiveBits_checksumOf _⟩
    rcases charsOf_values hfive with ⟨chars, hchars, hvalues, hupper, hlow, hup⟩
    rcases parts_of_chars hp (alnum_of_mapM hvalues).1 with ⟨hbare, hfull, _⟩
    rcases parts_of_chars hp (alnum_of_mapM hupper).1 with ⟨hbareUpper, _, hfullUpper⟩
    have hpLow : p.any isUpper = false := any_eq_false.mpr fun c hc => by
      simp [(lower_facts c (hp.lower c hc)).1]
    have hpUp : (p.map toUpper).any isLower = false := any_eq_false.mpr fun c hc => by
      rcases mem_map.mp hc with ⟨d, hd, rfl⟩
      simp [(lower_facts d (hp.lower d hd)).2.2.1]
    have hfullLow : (p ++ colon :: chars).any isUpper = false := by
      rw [any_append, any_cons, hpLow, hlow]
      decide
    have hfullUp : (p.map toUpper ++ colon :: chars.map toUpper).any isLower = false := by
      rw [any_append, any_cons, hpUp, hup]
      decide
    refine ⟨chars, ?_, ?_⟩
    · unfold encodeCashAddr encode
      rw [packAddrData_eq hcode]
      simp only [bind, Except.bind, hchars]
      rfl
    · intro str hstr
      rw [← hunpack]
      simp only [mem_cons, not_mem_nil, or_false, map_append, map_cons,
        show toUpper colon = colon by decide] at hstr
      rcases hstr with rfl | rfl | rfl | rfl
      · exact decodeCashAddrContent_pack hfull (by rw [Mixed, hfullLow]; nofun) hvalues nofun
      · exact decodeCashAddrContent_pack hbare (by rw [Mixed, hlow]; nofun) hvalues nofun
      · exact decodeCashAddrContent_pack hfullUpper (by rw [Mixed, hfullUp]; nofun) hupper nofun
      · exact decodeCashAddrContent_pack hbareUpper (by rw [Mixed, hup]; nofun) hupper nofun
  · intro str content h hhash
    rcases accepted_content hp.ne h hhash with ⟨_, _, hparts, hvalues, hunpack⟩
    unfold encodeCashAddr
    rw [unpackContent_back hunpack hhash]
    exact encode_parts hparts hvalues

/-- `ecash` -/
private def ecashPrefix : Chars := [101, 99, 97, 115, 104]

theorem cashAddr_codec_ecash :
    (exists chars, encodeCashAddr ecashPrefix ⟨1, replicate 20 7⟩ =
        .ok (ecashPrefix ++ colon :: chars) ∧
      decodeCashAddrContent (chars.map toUpper) ecashPrefix = .ok ⟨1, replicate 20 7⟩) ∧
    forall str content, decodeCashAddrContent str ecashPrefix = .ok content ->
      content.hash ≠ [] ->
      encodeCashAddr ecashPrefix content = .ok (withPrefix ecashPrefix (str.map toLower)) := by
  have hp : GoodPrefix ecashPrefix := ⟨nofun, by decide +kernel⟩
  rcases (cashAddr_codec hp).1 ⟨1, replicate 20 7⟩ (by decide) (by decide) with
    ⟨chars, hencode, hdecode⟩
  exact ⟨⟨chars, hencode, hdecode _ (by simp)⟩, (cashAddr_codec hp).2⟩

/-!
## Burst errors
-/

theorem Parts.body_unique {dflt str pre pre' body body' : Chars} (h : Parts dflt str pre body)
    (h' : Parts dflt str pre' body') : body = body' := by
  cases h with
  | default hcolon =>
    cases h' with
    | default _ => rfl
    | explicit _ _ _ => exact absurd (by simp) hcolon
  | @explicit head _ hne hhead hcolon =>
    generalize hstr : head ++ colon :: body = str at h'
    cases h' with
    | default hcolon' => exact absurd (by simp [← hstr]) hcolon'
    | explicit _ _ _ =>
      have hletters : colon ∉ head := fun hmem => (letter_facts colon (hhead colon hmem)).2.2 rfl
      exact ((append_cons_inj_of_notMem hletters hcolon).mp hstr).2.2

theorem mapM_eq_some_iff {f : UInt8 -> Option UInt8} {l vs : List UInt8} :
    l.mapM f = some vs <-> l.map f = vs.map some := by
  induction l generalizing vs with
  | nil => cases vs <;> simp
  | cons c l ih =>
    rw [mapM_cons, map_cons]
    cases hc : f c with
    | none => cases vs <;> simp
    | some v =>
      cases vs with
      | nil => cases l.mapM f <;> simp
      | cons w vs =>
        rw [map_cons, cons.injEq, ← ih]
        cases l.mapM f <;> simp

/-- A change of at most eight consecutive characters that is more than one of case is rejected. -/
theorem decode_burst {dflt str str' pre before window window' after : Chars} {payload : Data}
    (h : Parts dflt str pre (before ++ window ++ after))
    (h' : Parts dflt str' pre (before ++ window' ++ after))
    (haccepted : decode str dflt = Except.ok (pre, payload)) (hpre : pre ≠ [])
    (hlength : window.length = window'.length) (hle : window.length ≤ 8)
    (hchars : forall c, c ∈ window' -> charValue c ≠ none)
    (hne : window.map charValue ≠ window'.map charValue) :
    decode str' dflt = Except.ok ([], []) := by
  rcases parts_of_decode haccepted hpre with ⟨_, _, hparts, hvalues, hverify, _, _⟩
  cases hparts.body_unique h
  have hfive := (alnum_of_mapM hvalues).2.1
  rw [mapM_eq_some_iff, map_append, map_append] at hvalues
  rcases map_eq_append_iff.mp hvalues.symm with ⟨_, vafter, rfl, hfirst, hafter⟩
  rcases map_eq_append_iff.mp hfirst with ⟨vbefore, vwindow, rfl, hbefore, hwindow⟩
  have hwindow' : window'.map charValue = (window'.map fun c => (charValue c).getD 0).map some := by
    rw [map_map]
    apply map_congr_left
    intro c hc
    cases hvalue : charValue c with
    | none => exact absurd hvalue (hchars c hc)
    | some v => simp [hvalue]
  generalize window'.map (fun c => (charValue c).getD 0) = vwindow' at hwindow'
  have hvalues' : (before ++ window' ++ after).mapM charValue =
      some (vbefore ++ vwindow' ++ vafter) := by
    rw [mapM_eq_some_iff, map_append, map_append, map_append, map_append, hbefore, hafter, hwindow']
  have hl := congrArg length hwindow
  have hl' := congrArg length hwindow'
  simp only [length_map] at hl hl'
  have hdiffer : vwindow ≠ vwindow' := by
    intro heq
    rw [heq, ← hwindow'] at hwindow
    exact hne hwindow.symm
  have hrejected : verifyChecksum pre (vbefore ++ vwindow' ++ vafter) = false :=
    verifyChecksum_burst (fun d hd => hfive d (by simp [hd]))
      (fun d hd => (alnum_of_mapM hvalues').2.1 d (by simp [hd])) (by omega) (by omega) hdiffer
      hverify
  rw [decode_parts h' (alnum_of_mapM hvalues').1]
  split
  · rfl
  · simp only [hvalues', hrejected, if_true]

/-- The address without a hash: the checksum alone, in upper case and in lower case. -/
private def bareUpper : Chars := (createChecksum ecashPrefix []).map fun v =>
  toUpper (charset.getD v.toNat 0)

private def bareLower : Chars := bareUpper.map toLower

/-- Both are accepted, although they differ within eight characters. -/
theorem decode_case_change :
    bareUpper ≠ bareLower ∧ bareUpper.length = 8 ∧ bareLower.length = 8 ∧
      (forall c, c ∈ bareLower -> c ∈ charset) ∧
      decode bareUpper ecashPrefix = Except.ok (ecashPrefix, []) ∧
      decode bareLower ecashPrefix = Except.ok (ecashPrefix, []) := by
  decide +kernel

/-- One character of the checksum is changed. -/
theorem decode_burst_changed : decode (113 :: bareLower.tail) ecashPrefix = Except.ok ([], []) := by
  have hparts : forall str, colon ∉ str -> Parts ecashPrefix str ecashPrefix str :=
    fun _ hcolon => Parts.default hcolon
  refine @decode_burst ecashPrefix bareLower _ ecashPrefix [] (bareLower.take 1) [113]
    bareLower.tail [] (hparts _ (by decide +kernel)) (hparts _ (by decide +kernel)) ?_ nofun ?_ ?_
    ?_ ?_ <;> decide +kernel

end ECash.Address
