import ECash.Address.Strings

/-!
# Payloads that are shorter than a checksum

The checksum is over the prefix and the payload.  Where the payload has less than eight values, the
test still passes if the prefix ends in what is missing of the checksum of the letters before it.
-/

namespace ECash.Address

open Foundation List

def checkedParts (str defaultPrefix : Chars) : Option (Chars × Data) :=
  (scanString str).bind fun scan =>
    if scan.upper ∧ scan.lower then none
    else
      let (pre, chars) := splitPrefix str defaultPrefix scan.prefixSize
      (chars.mapM charValue).map fun values => (pre, values)

def EndsInChecksum (v : Data) : Prop :=
  exists head, v = head ++ checksumOf head

theorem checkedParts_eq_some_iff {str dflt pre : Chars} {values : Data} :
    checkedParts str dflt = some (pre, values) <->
      ¬ Mixed str ∧ exists body, Parts dflt str pre body ∧ body.mapM charValue = some values := by
  have hread : forall {pre' body : Chars}, Parts dflt str pre' body ->
      (forall c, c ∈ body -> isAlnum c = true) ->
      checkedParts str dflt =
        if Mixed str then none else (body.mapM charValue).map fun values => (pre', values) := by
    intro pre' body hparts halnum
    rcases scanString_parts hparts halnum with ⟨_, hscan, hlower, hupper, hsplit⟩
    unfold checkedParts
    rw [hscan, Option.bind_some]
    simp only [hupper, hlower, hsplit]
  constructor
  · intro h
    rcases Option.bind_eq_some_iff.mp h with ⟨_, hscan, _⟩
    rcases parts_of_scanString hscan dflt with ⟨_, body, hparts, halnum⟩
    rw [hread hparts halnum] at h
    split at h
    · cases h
    · rename_i hcase
      rcases Option.map_eq_some_iff.mp h with ⟨_, hvalues, heq⟩
      cases heq
      exact ⟨hcase, body, hparts, hvalues⟩
  · rintro ⟨hcase, body, hparts, hvalues⟩
    rw [hread hparts (alnum_of_mapM hvalues).1, if_neg hcase, hvalues]
    rfl

theorem decode_of_checkedParts {str dflt pre : Chars} {values : Data}
    (h : checkedParts str dflt = some (pre, values)) :
    FiveBits values ∧
      decode str dflt =
        if verifyChecksum pre values = false then .ok ([], [])
        else if values.length < 8 then .error .undefined
        else .ok (pre, values.take (values.length - 8)) := by
  rcases checkedParts_eq_some_iff.mp h with ⟨hcase, _, hparts, hvalues⟩
  rcases alnum_of_mapM hvalues with ⟨halnum, hfive, _⟩
  rw [decode_parts hparts halnum, if_neg hcase, hvalues]
  exact ⟨hfive, rfl⟩

theorem fiveBits_expandPrefix (pre : Chars) : FiveBits (expandPrefix pre) := by
  refine forall_mem_append.mpr ⟨?_, forall_mem_singleton.mpr (Nat.zero_lt_succ 31)⟩
  exact forall_mem_map.mpr fun _ _ => Nat.lt_of_le_of_lt Nat.and_le_right (by decide)

/-- Without eight values in the register its first bit is still there. -/
theorem polyMod_short {d : UInt8} {v : Data} (hfive : FiveBits (d :: v))
    (hshort : (d :: v).length < 8) : polyMod (d :: v) ≠ 0 := by
  rw [ne_eq, polyMod_eq_zero_iff]
  intro hone
  have hpack := run_small (c := 1) (k := 1) hfive (by decide) (by omega)
  have hle : 2 ^ 5 * 1 + d.toNat ≤ packFrom 5 1 ((d :: v).map UInt8.toNat) := le_packFrom 5 _ _
  have hlt : 1 < packFrom 5 1 ((d :: v).map UInt8.toNat) := by omega
  rw [hone] at hpack
  exact absurd hpack (Nat.ne_of_lt hlt)

theorem polyMod_eq_zero_iff_ends {v : Data} (hfive : FiveBits v) (hne : v ≠ []) :
    polyMod v = 0 <-> EndsInChecksum v := by
  constructor
  · intro hzero
    by_cases hlength : v.length < 8
    · cases v with
      | nil => exact absurd rfl hne
      | cons d v => exact absurd hzero (polyMod_short hfive hlength)
    have hsplit := take_append_drop (v.length - 8) v
    have hlast : (v.drop (v.length - 8)).length = 8 := by
      rw [length_drop]
      omega
    have hfiveLast : FiveBits (v.drop (v.length - 8)) := fun d hd =>
      hfive d (mem_of_mem_drop hd)
    rw [← hsplit, polyMod_append_iff _ hfiveLast hlast] at hzero
    exact ⟨v.take (v.length - 8), by rw [← hzero, hsplit]⟩
  · rintro ⟨head, rfl⟩
    exact (polyMod_append_iff head (fiveBits_checksumOf head) (length_checksumOf head)).mpr rfl

theorem verifyChecksum_iff_ends (pre : Chars) {values : Data} (hfive : FiveBits values) :
    verifyChecksum pre values = true <-> EndsInChecksum (expandPrefix pre ++ values) := by
  unfold verifyChecksum
  rw [beq_iff_eq]
  refine polyMod_eq_zero_iff_ends (forall_mem_append.mpr ⟨fiveBits_expandPrefix pre, hfive⟩) ?_
  intro hnil
  have hlength := congrArg length hnil
  simp [expandPrefix] at hlength

/-- The last letters of the prefix, the zero behind it and all of the values are the checksum. -/
def Completes (head tail : Chars) (values : Data) : Prop :=
  tail.length + values.length = 7 ∧
    tail.map (· &&& 0x1f) ++ 0 :: values = checksumOf (head.map (· &&& 0x1f))

theorem endsInChecksum_iff_completes (pre : Chars) {values : Data} (hshort : values.length < 8) :
    EndsInChecksum (expandPrefix pre ++ values) <->
      exists head tail, pre = head ++ tail ∧ Completes head tail values := by
  constructor
  · rintro ⟨before, hends⟩
    have hlength := congrArg length hends
    simp only [expandPrefix, length_append, length_map, length_singleton, length_checksumOf]
      at hlength
    -- The checksum begins in the prefix, as there are too few values behind it.
    have hsplit : (pre.take before.length).map (· &&& 0x1f) ++
        ((pre.drop before.length).map (· &&& 0x1f) ++ 0 :: values) =
          before ++ checksumOf before := by
      rw [← hends, ← append_assoc, ← map_append, take_append_drop]
      simp [expandPrefix]
    have htake : ((pre.take before.length).map (· &&& (0x1f : UInt8))).length = before.length := by
      rw [length_map, length_take]
      omega
    rcases append_inj hsplit htake with ⟨hbefore, hchecksum⟩
    refine ⟨_, _, (take_append_drop before.length pre).symm, ?_, ?_⟩
    · rw [length_drop]
      omega
    · rw [hbefore, hchecksum]
  · rintro ⟨head, tail, rfl, _, hchecksum⟩
    refine ⟨head.map (· &&& 0x1f), ?_⟩
    rw [← hchecksum]
    simp [expandPrefix]

/-- The payload is what stands before the checksum, unless the checksum begins in the prefix. -/
theorem decode_payload_iff (str defaultPrefix : Chars) :
    (forall pre values, checkedParts str defaultPrefix = some (pre, values) ->
      verifyChecksum pre values = true ->
        8 ≤ values.length ∧
          decode str defaultPrefix = Except.ok (pre, values.take (values.length - 8))) <->
    (¬ Mixed str -> forall head tail body values, Parts defaultPrefix str (head ++ tail) body ->
      body.mapM charValue = some values -> ¬ Completes head tail values) := by
  constructor
  · intro hpayload hcase head tail body values hparts hvalues hcompletes
    have hshort : values.length < 8 := by
      have hlength := hcompletes.1
      omega
    have hchecked := checkedParts_eq_some_iff.mpr ⟨hcase, body, hparts, hvalues⟩
    have hends := (endsInChecksum_iff_completes _ hshort).mpr ⟨head, tail, rfl, hcompletes⟩
    have hverify := (verifyChecksum_iff_ends _ (decode_of_checkedParts hchecked).1).mpr hends
    exact absurd (hpayload _ values hchecked hverify).1 (Nat.not_le_of_lt hshort)
  · intro hlong pre values hchecked hverify
    rcases decode_of_checkedParts hchecked with ⟨hfive, hdecode⟩
    have hlength : ¬ values.length < 8 := by
      intro hshort
      have hends := (verifyChecksum_iff_ends pre hfive).mp hverify
      rcases (endsInChecksum_iff_completes pre hshort).mp hends with ⟨head, tail, rfl, hcompletes⟩
      rcases checkedParts_eq_some_iff.mp hchecked with ⟨hcase, body, hparts, hvalues⟩
      exact hlong hcase head tail body values hparts hvalues hcompletes
    rw [hverify, if_neg (by decide), if_neg hlength] at hdecode
    exact ⟨not_lt.mp hlength, hdecode⟩

/-- The string `scykycs:`, with nothing behind the separator. -/
theorem decode_scykycs :
    checkedParts [115, 99, 121, 107, 121, 99, 115, 58] [] =
        some ([115, 99, 121, 107, 121, 99, 115], []) ∧
      verifyChecksum [115, 99, 121, 107, 121, 99, 115] [] = true ∧
      decode [115, 99, 121, 107, 121, 99, 115, 58] [] = .error .undefined := by
  decide

end ECash.Address
