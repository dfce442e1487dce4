import ECash.Address.Checksum

/-!
# The strings of addresses

An address is read as a prefix and values exactly if its characters are letters of one case and
digits, with at most one separator that comes after letters.
-/

namespace ECash.Address

open List

/-!
## Characters
-/

theorem forall_char {p : UInt8 -> Prop} (h : forall n : Fin 256, p (UInt8.ofNat n.val)) :
    forall c, p c := by
  intro c
  have hc := h ⟨c.toNat, UInt8.toNat_lt c⟩
  rwa [UInt8.ofNat_toNat] at hc

def toLower (c : UInt8) : UInt8 := if isUpper c then c + 32 else c
def toUpper (c : UInt8) : UInt8 := if isLower c then c - 32 else c

def isLetter (c : UInt8) : Bool := isLower c || isUpper c
def isAlnum (c : UInt8) : Bool := isLetter c || isDigit c

variable {c : UInt8} {str : Chars} {scan : Scan} {dflt pre body : Chars}

theorem charValue_facts {v : UInt8} (h : charValue c = some v) :
    isAlnum c = true ∧ v < 32 ∧ charset[v.toNat]? = some (toLower c) := by
  have hall : forall c, (charValue c).all (fun v => isAlnum c && decide (v < 32) &&
      (charset[v.toNat]? == some (toLower c))) = true := by
    apply forall_char
    decide +kernel
  have hc := hall c
  rw [h] at hc
  simpa [and_assoc] using hc

theorem charset_facts : forall v : Fin 32, forall c, charset[v.val]? = some c ->
    charValue c = some (UInt8.ofNat v.val) ∧ charValue (toUpper c) = some (UInt8.ofNat v.val) ∧
      isUpper c = false ∧ isLower (toUpper c) = false := by
  intro v c h
  have hall : forall v : Fin 32, (charset[v.val]?).all (fun c =>
      (charValue c == some (UInt8.ofNat v.val)) &&
        (charValue (toUpper c) == some (UInt8.ofNat v.val)) && !isUpper c &&
        !isLower (toUpper c)) = true := by
    decide
  have hv := hall v
  rw [h] at hv
  simpa [and_assoc] using hv

theorem letter_facts : forall c, isLetter c = true ->
    lowerCase c = toLower c ∧ isDigit c = false ∧ c ≠ colon := by
  apply forall_char
  decide +kernel

theorem lower_facts : forall c, isLower c = true ->
    isUpper c = false ∧ toLower c = c ∧ isLower (toUpper c) = false ∧
      isLetter (toUpper c) = true ∧ toLower (toUpper c) = c := by
  apply forall_char
  decide +kernel

theorem ne_colon (h : isAlnum c = true) : c ≠ colon := by
  intro heq
  rw [heq] at h
  cases h

/-!
## Scanning
-/

def scanFrom (i : Nat) (scan : Scan) (str : Chars) : Option Scan :=
  (str.zipIdx i).foldlM scanChar scan

theorem scanFrom_append (i : Nat) (scan : Scan) (str more : Chars) :
    scanFrom i scan (str ++ more) =
      (scanFrom i scan str).bind fun scan => scanFrom (i + str.length) scan more := by
  unfold scanFrom
  rw [zipIdx_append, foldlM_append]
  rfl

def Scan.add (scan : Scan) (str : Chars) : Scan :=
  { lower := scan.lower || str.any isLower
    upper := scan.upper || str.any isUpper
    hasNumber := scan.hasNumber || str.any isDigit
    prefixSize := scan.prefixSize }

theorem scanChar_alnum (scan : Scan) (i : Nat) (h : isAlnum c = true) :
    scanChar scan (c, i) = some (scan.add [c]) := by
  have hflags : forall c, isAlnum c = true ->
      isLower c = true ∧ isUpper c = false ∧ isDigit c = false ∨
        isLower c = false ∧ isUpper c = true ∧ isDigit c = false ∨
        isLower c = false ∧ isUpper c = false ∧ isDigit c = true := by
    apply forall_char
    decide +kernel
  rcases hflags c h with ⟨hl, hu, hd⟩ | ⟨hl, hu, hd⟩ | ⟨hl, hu, hd⟩ <;>
    simp [scanChar, Scan.add, hl, hu, hd]

theorem scanFrom_alnum (h : forall c, c ∈ str -> isAlnum c = true) (i : Nat) (scan : Scan) :
    scanFrom i scan str = some (scan.add str) := by
  induction str generalizing i scan with
  | nil => simp [scanFrom, Scan.add]
  | cons c str ih =>
    have hrest := ih (forall_mem_cons.mp h).2 (i + 1) (scan.add [c])
    unfold scanFrom at hrest ⊢
    rw [zipIdx_cons, foldlM_cons, scanChar_alnum scan i (h c mem_cons_self)]
    show (str.zipIdx (i + 1)).foldlM scanChar (scan.add [c]) = _
    rw [hrest]
    simp [Scan.add, Bool.or_assoc]

theorem alnum_of_scanFrom {i : Nat} {scan' : Scan} (hcolon : colon ∉ str)
    (h : scanFrom i scan str = some scan') : forall c, c ∈ str -> isAlnum c = true := by
  induction str generalizing i scan with
  | nil => nofun
  | cons c str ih =>
    unfold scanFrom at h
    rcases Option.bind_eq_some_iff.mp h with ⟨_, hfirst, hrest⟩
    have hc : isAlnum c = true := by
      by_contra hnot
      have hne : c ≠ colon := fun heq => hcolon (heq ▸ mem_cons_self)
      simp only [isAlnum, isLetter, Bool.or_eq_true, not_or, Bool.not_eq_true] at hnot
      simp [scanChar, hnot, hne] at hfirst
    exact forall_mem_cons.mpr ⟨hc, ih (fun hmem => hcolon (mem_cons_of_mem c hmem)) hrest⟩

theorem scanFrom_colon (i : Nat) (scan : Scan) (str : Chars) :
    scanFrom i scan (colon :: str) =
      if scan.hasNumber = true ∨ i = 0 ∨ scan.prefixSize ≠ 0 then none
      else scanFrom (i + 1) { scan with prefixSize := i } str := by
  unfold scanFrom
  rw [zipIdx_cons, foldlM_cons]
  change (if _ then none else some _) >>= _ = _
  split
  · rfl
  · rfl

/-- A string with a prefix in front of a separator, or without one. -/
inductive Parts (defaultPrefix : Chars) : Chars -> Chars -> Chars -> Prop where
  | default {body : Chars} (h : colon ∉ body) : Parts defaultPrefix body defaultPrefix body
  | explicit {head body : Chars} (hne : head ≠ []) (hhead : forall c, c ∈ head -> isLetter c = true)
      (h : colon ∉ body) :
      Parts defaultPrefix (head ++ colon :: body) (head.map toLower) body

theorem scanString_parts (h : Parts dflt str pre body)
    (hbody : forall c, c ∈ body -> isAlnum c = true) :
    exists scan, scanString str = some scan ∧ scan.lower = str.any isLower ∧
      scan.upper = str.any isUpper ∧ splitPrefix str dflt scan.prefixSize = (pre, body) := by
  cases h with
  | default h => exact ⟨_, scanFrom_alnum hbody 0 _, rfl, rfl, rfl⟩
  | @explicit head _ hne hhead h =>
    have hlength : head.length ≠ 0 := by simpa using hne
    have halnum : forall c, c ∈ head -> isAlnum c = true := fun c hc => by
      simp [isAlnum, hhead c hc]
    have hdigits : head.any isDigit = false := by
      rw [any_eq_false]
      exact fun c hc => by simp [(letter_facts c (hhead c hc)).2.1]
    have hmap : head.map lowerCase = head.map toLower :=
      map_congr_left fun c hc => (letter_facts c (hhead c hc)).1
    show exists scan, scanFrom 0 _ _ = some scan ∧ _
    rw [scanFrom_append, scanFrom_alnum halnum, Option.bind_some, scanFrom_colon, if_neg,
      scanFrom_alnum hbody]
    · refine ⟨_, rfl, ?_, ?_, ?_⟩
      · simp [Scan.add, show isLower colon = false by decide]
      · simp [Scan.add, show isUpper colon = false by decide]
      · simp [Scan.add, splitPrefix, hlength, hmap]
    · simp [Scan.add, hdigits, hlength]

theorem parts_of_scanString (h : scanString str = some scan) (dflt : Chars) :
    exists pre body, Parts dflt str pre body ∧ forall c, c ∈ body -> isAlnum c = true := by
  by_cases hcolon : colon ∈ str
  · rcases eq_append_cons_of_mem hcolon with ⟨head, body, rfl, hhead⟩
    have hscan : scanFrom 0 _ (head ++ colon :: body) = some scan := h
    rw [scanFrom_append] at hscan
    rcases Option.bind_eq_some_iff.mp hscan with ⟨_, hfirst, hrest⟩
    have halnum := alnum_of_scanFrom hhead hfirst
    rw [scanFrom_alnum halnum, Option.some.injEq] at hfirst
    rw [scanFrom_colon, ← hfirst] at hrest
    split at hrest
    · cases hrest
    rename_i hok
    simp only [Scan.add, Bool.false_or, not_or, Bool.not_eq_true, any_eq_false, zero_add] at hok
    have hbody : colon ∉ body := by
      intro hmem
      rcases eq_append_cons_of_mem hmem with ⟨_, _, rfl, hbefore⟩
      rw [scanFrom_append] at hrest
      rcases Option.bind_eq_some_iff.mp hrest with ⟨_, hsecond, hlast⟩
      rw [scanFrom_alnum (alnum_of_scanFrom hbefore hsecond), Option.some.injEq] at hsecond
      rw [scanFrom_colon, ← hsecond, if_pos (by simp [Scan.add, hok.2.1])] at hlast
      cases hlast
    refine ⟨_, body, .explicit ?_ ?_ hbody, alnum_of_scanFrom hbody hrest⟩
    · exact fun hnil => hok.2.1 (by rw [hnil]; rfl)
    · intro c hc
      have halnumC := halnum c hc
      simpa [isAlnum, hok.1 c hc] using halnumC
  · exact ⟨dflt, str, .default hcolon, alnum_of_scanFrom hcolon h⟩

/-!
## Decoding
-/

abbrev Mixed (str : Chars) : Prop := str.any isUpper = true ∧ str.any isLower = true

theorem alnum_of_mapM {values : Data} (h : body.mapM charValue = some values) :
    (forall c, c ∈ body -> isAlnum c = true) ∧ FiveBits values ∧
      values.mapM charOf = .ok (body.map toLower) := by
  induction body generalizing values with
  | nil =>
    cases h
    exact ⟨nofun, nofun, rfl⟩
  | cons c body ih =>
    rw [mapM_cons] at h
    rcases Option.bind_eq_some_iff.mp h with ⟨_, hv, hrest⟩
    rcases Option.bind_eq_some_iff.mp hrest with ⟨_, hvs, heq⟩
    cases heq
    rcases ih hvs with ⟨halnum, hfive, hchars⟩
    have hc := charValue_facts hv
    refine ⟨forall_mem_cons.mpr ⟨hc.1, halnum⟩, forall_mem_cons.mpr ⟨hc.2.1, hfive⟩, ?_⟩
    rw [mapM_cons, charOf, hc.2.2, hchars]
    rfl

theorem decode_parts (h : Parts dflt str pre body)
    (halnum : forall c, c ∈ body -> isAlnum c = true) :
    decode str dflt =
      if Mixed str then .ok ([], [])
      else
        match body.mapM charValue with
        | none => .ok ([], [])
        | some values =>
          if verifyChecksum pre values = false then .ok ([], [])
          else if values.length < 8 then .error .undefined
          else .ok (pre, values.take (values.length - 8)) := by
  rcases scanString_parts h halnum with ⟨_, hscan, hlower, hupper, hsplit⟩
  unfold decode
  rw [hscan]
  simp only [hupper, hlower]
  by_cases hmixed : Mixed str
  · exact (if_pos hmixed).trans (if_pos hmixed).symm
  · refine (if_neg hmixed).trans (Eq.trans ?_ (if_neg hmixed).symm)
    cases hvalues : body.mapM charValue with
    | none => simp only [hsplit, hvalues]
    | some values => simp only [hsplit, hvalues]

theorem parts_of_decode {payload : Data} (h : decode str dflt = .ok (pre, payload))
    (hne : pre ≠ []) :
    exists body values, Parts dflt str pre body ∧ body.mapM charValue = some values ∧
      verifyChecksum pre values = true ∧ 8 ≤ values.length ∧
      payload = values.take (values.length - 8) := by
  have hfail : (.ok ([], []) : Except Fault (Chars × Data)) ≠ .ok (pre, payload) :=
    fun heq => hne (congrArg Prod.fst (Except.ok.inj heq)).symm
  cases hscan : scanString str with
  | none =>
    unfold decode at h
    rw [hscan] at h
    exact absurd h hfail
  | some scan =>
    rcases parts_of_scanString hscan dflt with ⟨_, body, hparts, halnum⟩
    rw [decode_parts hparts halnum] at h
    split at h
    · exact absurd h hfail
    cases hvalues : body.mapM charValue with
    | none =>
      rw [hvalues] at h
      exact absurd h hfail
    | some values =>
      simp only [hvalues] at h
      split at h
      · exact absurd h hfail
      rename_i hverify
      split at h
      · cases h
      · rename_i hlength
        cases h
        exact ⟨body, values, hparts, hvalues, by simpa using hverify, by omega, rfl⟩

end ECash.Address
