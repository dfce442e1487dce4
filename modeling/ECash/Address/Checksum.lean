import ECash.Foundation.LinearChecksum
import ECash.Foundation.BitGroups
import ECash.Address.CashAddr

/-!
# The checksum of addresses

The step of `polyMod` is linear, and nothing but zero becomes zero when a zero comes in.  Eight
values that come in after each other fill the register with nothing lost, so they can be
chosen in exactly one way for a given result, and no change of at most eight of them goes
unnoticed.
-/

namespace ECash.Address

open Foundation List UInt64

/-!
## The step is linear
-/

def generatorTerm (c0 flag : UInt8) (generator : UInt64) : UInt64 :=
  if c0 &&& flag ≠ 0 then generator else 0

def generatorTerms (c0 : UInt8) : UInt64 :=
  generatorTerm c0 0x01 0x98f2bc8e61 ^^^ generatorTerm c0 0x02 0x79b76d99e2 ^^^
    generatorTerm c0 0x04 0xf33e5fb3c4 ^^^ generatorTerm c0 0x08 0xae2eabe2a8 ^^^
    generatorTerm c0 0x10 0x1e4f43e470

def leaving (c : UInt64) : UInt8 := (c >>> 35).toUInt8

def shifted (c : UInt64) : UInt64 := (c &&& 0x07ffffffff) <<< 5

theorem addGenerator_eq (c0 flag : UInt8) (generator c : UInt64) :
    addGenerator c0 flag generator c = c ^^^ generatorTerm c0 flag generator := by
  unfold addGenerator generatorTerm
  split
  · rfl
  · rw [UInt64.xor_zero]

theorem polyModStep_eq (c : UInt64) (d : UInt8) :
    polyModStep c d = shifted c ^^^ d.toUInt64 ^^^ generatorTerms (leaving c) := by
  unfold polyModStep generatorTerms
  simp only [addGenerator_eq, UInt64.xor_assoc]
  rfl

theorem and_xor (x y flag : UInt8) : (x ^^^ y) &&& flag = (x &&& flag) ^^^ (y &&& flag) := by
  apply UInt8.toNat_inj.mp
  rw [UInt8.toNat_and, UInt8.toNat_xor, UInt8.toNat_xor, UInt8.toNat_and, UInt8.toNat_and,
    Nat.and_xor_distrib_right]

variable {flag d : UInt8} {c : UInt64} {data last : Data}

theorem and_flag (x : UInt8) {i : Nat} (h : flag.toNat = 2 ^ i) :
    x &&& flag = 0 ∨ x &&& flag = flag := by
  have hand : (x &&& flag).toNat = (x.toNat.testBit i).toNat * 2 ^ i := by
    rw [UInt8.toNat_and, h, Nat.and_two_pow]
  cases hbit : x.toNat.testBit i with
  | false =>
    left
    apply UInt8.toNat_inj.mp
    rw [hand, hbit]
    exact zero_mul _
  | true =>
    right
    apply UInt8.toNat_inj.mp
    rw [hand, hbit, h]
    exact one_mul _

theorem generatorTerm_xor (x y : UInt8) (generator : UInt64) {i : Nat} (h : flag.toNat = 2 ^ i) :
    generatorTerm (x ^^^ y) flag generator =
      generatorTerm x flag generator ^^^ generatorTerm y flag generator := by
  have hne : flag ≠ 0 := by
    intro hzero
    rw [hzero] at h
    exact absurd h.symm (Nat.ne_of_gt (Nat.two_pow_pos i))
  unfold generatorTerm
  rw [and_xor]
  rcases and_flag x h with hx | hx
  · rcases and_flag y h with hy | hy
    · simp [hx, hy]
    · simp [hx, hy, hne]
  · rcases and_flag y h with hy | hy
    · simp [hx, hy, hne]
    · simp [hx, hy, hne]

theorem generatorTerms_xor (x y : UInt8) :
    generatorTerms (x ^^^ y) = generatorTerms x ^^^ generatorTerms y := by
  unfold generatorTerms
  rw [generatorTerm_xor x y _ (i := 0) rfl, generatorTerm_xor x y _ (i := 1) rfl,
    generatorTerm_xor x y _ (i := 2) rfl, generatorTerm_xor x y _ (i := 3) rfl,
    generatorTerm_xor x y _ (i := 4) rfl]
  ac_rfl

theorem shifted_xor (a b : UInt64) : shifted (a ^^^ b) = shifted a ^^^ shifted b := by
  have hand : (a ^^^ b) &&& 0x07ffffffff = (a &&& 0x07ffffffff) ^^^ (b &&& 0x07ffffffff) := by
    apply UInt64.toNat_inj.mp
    rw [UInt64.toNat_and, UInt64.toNat_xor, UInt64.toNat_xor, UInt64.toNat_and, UInt64.toNat_and,
      Nat.and_xor_distrib_right]
  unfold shifted
  rw [hand, shiftLeft_xor]

theorem leaving_xor (a b : UInt64) : leaving (a ^^^ b) = leaving a ^^^ leaving b := by
  unfold leaving
  rw [shiftRight_xor, toUInt8_xor]

theorem polyModStep_xor (a b : UInt64) (d e : UInt8) :
    polyModStep (a ^^^ b) (d ^^^ e) = polyModStep a d ^^^ polyModStep b e := by
  rw [polyModStep_eq, polyModStep_eq, polyModStep_eq, shifted_xor, leaving_xor, generatorTerms_xor]
  ac_rfl

def polyModLinear : LinearStep UInt64 UInt8 where
  step := polyModStep
  zero := 0
  none := 0
  diff a b := a ^^^ b
  diffData d e := d ^^^ e
  linear := polyModStep_xor
  diff_eq_zero _ _ := UInt64.xor_eq_zero_iff
  diffData_self _ := UInt8.xor_self

/-!
## The kernel of the step
-/

def Fits (c : UInt64) : Prop := c.toNat < 2 ^ 40

theorem Fits.xor {a b : UInt64} (ha : Fits a) (hb : Fits b) : Fits (a ^^^ b) := by
  exact Nat.xor_lt_two_pow ha hb

theorem fits_generatorTerm (c0 flag : UInt8) {generator : UInt64} (h : Fits generator) :
    Fits (generatorTerm c0 flag generator) := by
  unfold generatorTerm
  split
  · exact h
  · exact Nat.two_pow_pos 40

theorem fits_generatorTerms (c0 : UInt8) : Fits (generatorTerms c0) := by
  refine Fits.xor (Fits.xor (Fits.xor (Fits.xor ?_ ?_) ?_) ?_) ?_
  all_goals
    apply fits_generatorTerm
    unfold Fits
    decide

theorem toNat_shifted (c : UInt64) : (shifted c).toNat = c.toNat % 2 ^ 35 * 2 ^ 5 := by
  have hmask : (c &&& 0x07ffffffff).toNat = c.toNat % 2 ^ 35 := by
    exact Nat.and_two_pow_sub_one_eq_mod c.toNat 35
  unfold shifted
  rw [UInt64.toNat_shiftLeft, hmask]
  show (c.toNat % 2 ^ 35) <<< 5 % 2 ^ 64 = _
  omega

theorem fits_polyModStep (c : UInt64) (hd : d < 32) : Fits (polyModStep c d) := by
  rw [polyModStep_eq]
  refine Fits.xor (Fits.xor ?_ ?_) (fits_generatorTerms _)
  · unfold Fits
    rw [toNat_shifted]
    omega
  · unfold Fits
    rw [UInt8.toNat_toUInt64]
    have hlt : d.toNat < 32 := hd
    omega

theorem generatorTerms_low {c0 : UInt8} (h : generatorTerms c0 &&& 0x1f = 0) :
    c0 &&& 0x01 = 0 ∧ c0 &&& 0x02 = 0 ∧ c0 &&& 0x04 = 0 ∧ c0 &&& 0x08 = 0 ∧ c0 &&& 0x10 = 0 := by
  unfold generatorTerms generatorTerm at h
  by_cases h1 : c0 &&& 0x01 = 0 <;> by_cases h2 : c0 &&& 0x02 = 0 <;>
    by_cases h4 : c0 &&& 0x04 = 0 <;> by_cases h8 : c0 &&& 0x08 = 0 <;>
    by_cases h16 : c0 &&& 0x10 = 0 <;>
    simp [h1, h2, h4, h8, h16] at h ⊢
  all_goals exact absurd h (by decide)

theorem eq_zero_of_no_flag : forall x : Fin 32, x.val &&& 1 = 0 -> x.val &&& 2 = 0 ->
    x.val &&& 4 = 0 -> x.val &&& 8 = 0 -> x.val &&& 16 = 0 -> x.val = 0 := by
  decide

theorem leaving_eq_zero (hfits : Fits c) (h : generatorTerms (leaving c) &&& 0x1f = 0) :
    leaving c = 0 ∧ c.toNat < 2 ^ 35 := by
  rcases generatorTerms_low h with ⟨h1, h2, h4, h8, h16⟩
  have hfits : c.toNat < 2 ^ 40 := hfits
  have hleaving : (leaving c).toNat = c.toNat / 2 ^ 35 := by
    show c.toNat >>> 35 % 256 = _
    omega
  have hand : forall flag : UInt8, leaving c &&& flag = 0 ->
      (leaving c).toNat &&& flag.toNat = 0 := by
    intro flag hflag
    rw [← UInt8.toNat_and, hflag]
    rfl
  have hzero : (leaving c).toNat = 0 :=
    eq_zero_of_no_flag ⟨(leaving c).toNat, by omega⟩ (hand _ h1) (hand _ h2) (hand _ h4)
      (hand _ h8) (hand _ h16)
  exact ⟨UInt8.toNat_inj.mp hzero, by omega⟩

theorem generatorTerms_zero : generatorTerms 0 = 0 := by decide

theorem polyModStep_kernel (hfits : Fits c) (h : polyModStep c 0 = 0) : c = 0 := by
  rw [polyModStep_eq] at h
  have hequal : shifted c = generatorTerms (leaving c) := by
    rw [← xor_eq_zero_iff, ← h]
    show _ = shifted c ^^^ 0 ^^^ generatorTerms (leaving c)
    rw [UInt64.xor_zero]
  have hshifted := toNat_shifted c
  have hlow : generatorTerms (leaving c) &&& 0x1f = 0 := by
    rw [← hequal]
    apply UInt64.toNat_inj.mp
    rw [UInt64.toNat_and, hshifted]
    show _ &&& (2 ^ 5 - 1) = 0
    rw [Nat.and_two_pow_sub_one_eq_mod, Nat.mul_mod_left]
  rcases leaving_eq_zero hfits hlow with ⟨hleaving, _⟩
  rw [hequal, hleaving, generatorTerms_zero] at hshifted
  apply UInt64.toNat_inj.mp
  have hzero : (0 : UInt64).toNat = 0 := rfl
  omega

/-!
## Eight values fill the register
-/

theorem polyModStep_small (hc : c.toNat < 2 ^ 35) (hd : d < 32) :
    (polyModStep c d).toNat = 2 ^ 5 * c.toNat + d.toNat := by
  have hleaving : leaving c = 0 := by
    apply UInt8.toNat_inj.mp
    show c.toNat >>> 35 % 256 = 0
    rw [Nat.shiftRight_eq_div_pow, Nat.div_eq_of_lt hc]
  have hd : d.toNat < 2 ^ 5 := hd
  rw [polyModStep_eq, hleaving, generatorTerms_zero, UInt64.xor_zero, UInt64.toNat_xor,
    toNat_shifted, UInt8.toNat_toUInt64, Nat.mod_eq_of_lt hc, mul_comm]
  apply Nat.eq_of_testBit_eq
  intro i
  rw [Nat.testBit_xor, Nat.testBit_two_pow_mul, Nat.testBit_two_pow_mul_add _ hd]
  by_cases hi : i < 5
  · have hnot : ¬ i ≥ 5 := by omega
    simp [hi, hnot]
  · have hle : 2 ^ 5 ≤ 2 ^ i := Nat.pow_le_pow_right Nat.two_pos (not_lt.mp hi)
    rw [Nat.testBit_lt_two_pow (hd.trans_le hle)]
    simp [not_lt.mp hi]

def FiveBits (data : Data) : Prop := forall d, d ∈ data -> d < 32

theorem FiveBits.toNat (h : FiveBits data) : forall v, v ∈ data.map UInt8.toNat -> v < 2 ^ 5 :=
  forall_mem_map.mpr h

theorem run_small {k : Nat} (hfive : FiveBits data) (hc : c.toNat < 2 ^ (5 * k))
    (hk : k + data.length ≤ 8) :
    (polyModLinear.run c data).toNat = packFrom 5 c.toNat (data.map UInt8.toNat) := by
  induction data generalizing c k with
  | nil => rfl
  | cons d data ih =>
    rw [length_cons] at hk
    have hd : d < 32 := hfive d mem_cons_self
    have hbound : 2 ^ (5 * k) ≤ 2 ^ 35 := Nat.pow_le_pow_right Nat.two_pos (by omega)
    have hstep := polyModStep_small (hc.trans_le hbound) hd
    have hnext : (polyModStep c d).toNat < 2 ^ (5 * (k + 1)) := by
      have hone : packFrom 5 c.toNat [d.toNat] < 2 ^ (5 * (k + 1)) := by
        refine packFrom_lt ?_ hc
        intro v hv
        cases mem_singleton.mp hv
        exact hd
      rw [hstep]
      exact hone
    show (polyModLinear.run (polyModStep c d) data).toNat = packFrom 5 (2 ^ 5 * c.toNat + _) _
    rw [ih (forall_mem_cons.mp hfive).2 hnext (by omega), hstep]

theorem fits_run_zero (hfive : FiveBits data) (hle : data.length ≤ 8) :
    Fits (polyModLinear.run 0 data) := by
  have hlt : packFrom 5 0 (data.map UInt8.toNat) <
      2 ^ (5 * (0 + (data.map UInt8.toNat).length)) := packFrom_lt hfive.toNat one_pos
  have hbound : 2 ^ (5 * (0 + (data.map UInt8.toNat).length)) ≤ 2 ^ 40 := by
    rw [length_map]
    exact Nat.pow_le_pow_right Nat.two_pos (by omega)
  unfold Fits
  rw [run_small (c := 0) (k := 0) hfive one_pos (by omega)]
  exact hlt.trans_le hbound

theorem run_inj {data' : Data} (h : FiveBits data) (h' : FiveBits data')
    (hlength : data.length = data'.length) (hle : data.length ≤ 8)
    (heq : polyModLinear.run 0 data = polyModLinear.run 0 data') : data = data' := by
  have hpack := congrArg toNat heq
  rw [run_small (c := 0) (k := 0) h one_pos (by omega),
    run_small (c := 0) (k := 0) h' one_pos (by omega)] at hpack
  have hvalues := (packFrom_inj h.toNat h'.toNat (by simpa using hlength) hpack).right
  exact map_injective_iff.mpr (fun _ _ => UInt8.toNat_inj.mp) hvalues

/-!
## Creating and verifying
-/

theorem polyMod_eq (v : Data) : polyMod v = polyModLinear.run 1 v ^^^ 1 := rfl

theorem polyMod_eq_zero_iff (v : Data) : polyMod v = 0 <-> polyModLinear.run 1 v = 1 := by
  rw [polyMod_eq, xor_eq_zero_iff]

theorem zipWith_xor_zero (data : Data) :
    List.zipWith (fun d e => d ^^^ e) (replicate data.length 0) data = data := by
  induction data with
  | nil => rfl
  | cons d data ih => rw [length_cons, replicate_succ, zipWith_cons_cons, ih, UInt8.zero_xor]

theorem run_split (c : UInt64) (data : Data) :
    polyModLinear.run c data =
      polyModLinear.run c (replicate data.length 0) ^^^ polyModLinear.run 0 data := by
  have hdiff := polyModLinear.run_diff (a := c) (b := 0)
    (length_replicate : (replicate data.length (0 : UInt8)).length = data.length)
  have hzero : polyModLinear.diff c 0 = c := UInt64.xor_zero
  have hdata : zipWith polyModLinear.diffData (replicate data.length 0) data = data :=
    zipWith_xor_zero data
  rw [hzero, hdata] at hdiff
  exact hdiff

theorem run_append_eight (v : Data) (hlength : last.length = 8) :
    polyModLinear.run 1 (v ++ last) =
      polyModLinear.run 1 (v ++ replicate 8 0) ^^^ polyModLinear.run 0 last := by
  rw [polyModLinear.run_append, run_split, hlength, ← polyModLinear.run_append]

theorem fits_run (c : UInt64) (data : Data) (hd : d < 32) :
    Fits (polyModLinear.run c (data ++ [d])) := by
  rw [polyModLinear.run_append]
  exact fits_polyModStep _ hd

theorem fits_polyMod (v : Data) : Fits (polyMod (v ++ replicate 8 0)) := by
  have hsplit : v ++ replicate 8 0 = (v ++ replicate 7 0) ++ [0] := by
    rw [append_assoc]
    rfl
  rw [hsplit]
  exact Fits.xor (fits_run 1 _ (by decide)) (by unfold Fits; decide)

def checksumOf (v : Data) : Data :=
  let mod := polyMod (v ++ replicate 8 0)
  (range 8).map fun i => ((mod >>> UInt64.ofNat (5 * (7 - i))) &&& 0x1f).toUInt8

theorem toNat_checksumOf (v : Data) :
    (checksumOf v).map UInt8.toNat =
      (range 8).reverse.map (groupOf 5 (polyMod (v ++ replicate 8 0)).toNat) := by
  have hreverse : (range 8).reverse = (range 8).map fun i => 7 - i := rfl
  unfold checksumOf
  rw [hreverse, map_map, map_map]
  apply map_congr_left
  intro i _
  have hshift : (ofNat (5 * (7 - i))).toNat % 64 = 5 * (7 - i) := by
    rw [toNat_ofNat']
    omega
  show (UInt64.toUInt8 _).toNat = groupOf 5 _ (7 - i)
  rw [UInt64.toNat_toUInt8, UInt64.toNat_and, UInt64.toNat_shiftRight, hshift]
  show (_ &&& (2 ^ 5 - 1)) % 256 = _
  rw [Nat.and_two_pow_sub_one_eq_mod]
  unfold groupOf
  omega

theorem length_checksumOf (v : Data) : (checksumOf v).length = 8 := by
  unfold checksumOf
  rw [length_map, length_range]

theorem fiveBits_checksumOf (v : Data) : FiveBits (checksumOf v) := by
  intro d hd
  have hmem : d.toNat ∈ (checksumOf v).map UInt8.toNat := mem_map_of_mem hd
  rw [toNat_checksumOf] at hmem
  rcases mem_map.mp hmem with ⟨_, _, heq⟩
  show d.toNat < 2 ^ 5
  rw [← heq]
  exact Nat.mod_lt _ (Nat.two_pow_pos 5)

theorem run_checksumOf (v : Data) :
    polyModLinear.run 0 (checksumOf v) = polyMod (v ++ replicate 8 0) := by
  apply UInt64.toNat_inj.mp
  rw [run_small (c := 0) (k := 0) (fiveBits_checksumOf v) one_pos
    (by rw [length_checksumOf]), toNat_checksumOf]
  have hgroups := packFrom_groups 5 (polyMod (v ++ replicate 8 0)).toNat 8
  rw [Nat.div_eq_of_lt (fits_polyMod v)] at hgroups
  exact hgroups

theorem polyMod_append_iff (v : Data) (hfive : FiveBits last) (hlength : last.length = 8) :
    polyMod (v ++ last) = 0 <-> last = checksumOf v := by
  have hrun : polyMod (v ++ last) = 0 <->
      polyModLinear.run 0 last = polyModLinear.run 0 (checksumOf v) := by
    rw [polyMod_eq_zero_iff, run_append_eight _ hlength, run_checksumOf, polyMod_eq]
    generalize polyModLinear.run 1 (v ++ replicate 8 0) = x
    rw [← UInt64.xor_right_inj x, ← UInt64.xor_assoc, UInt64.xor_self, UInt64.zero_xor]
  rw [hrun]
  constructor
  · intro heq
    exact run_inj hfive (fiveBits_checksumOf v) (hlength.trans (length_checksumOf v).symm)
      hlength.le heq
  · intro heq
    rw [heq]

theorem verifyChecksum_iff (pre : Chars) (payload : Data) (hfive : FiveBits last)
    (hlength : last.length = 8) :
    verifyChecksum pre (payload ++ last) = true <-> last = createChecksum pre payload := by
  unfold verifyChecksum
  rw [beq_iff_eq, ← append_assoc, polyMod_append_iff _ hfive hlength]
  rfl

/-!
## Changes are noticed
-/

theorem verifyChecksum_burst {pre : Chars} {before changed changed' after : Data}
    (hfive : FiveBits changed) (hfive' : FiveBits changed')
    (hlength : changed.length = changed'.length) (hle : changed.length ≤ 8)
    (hne : changed ≠ changed') (h : verifyChecksum pre (before ++ changed ++ after) = true) :
    verifyChecksum pre (before ++ changed' ++ after) = false := by
  generalize hstart : polyModLinear.run 1 (expandPrefix pre ++ before) = c
  have hrun : forall data, polyModLinear.run 1 (expandPrefix pre ++ (before ++ data ++ after)) =
      polyModLinear.run (polyModLinear.run c data) after := by
    intro data
    rw [← hstart, ← polyModLinear.run_append, ← polyModLinear.run_append]
    simp only [append_assoc]
  have hdiffer : polyModLinear.run c changed ≠ polyModLinear.run c changed' := by
    rw [run_split c changed, run_split c changed', hlength, ne_eq, xor_right_inj]
    exact fun heq => hne (run_inj hfive hfive' hlength hle heq)
  have hkept : Fits (polyModLinear.diff (polyModLinear.run c changed)
      (polyModLinear.run c changed')) := by
    have hsplit : polyModLinear.diff (polyModLinear.run c changed) (polyModLinear.run c changed') =
          polyModLinear.run 0 changed ^^^ polyModLinear.run 0 changed' := by
      show polyModLinear.run c changed ^^^ polyModLinear.run c changed' = _
      rw [run_split c changed, run_split c changed', hlength]
      generalize polyModLinear.run c _ = x
      rw [UInt64.xor_comm x, UInt64.xor_assoc, ← UInt64.xor_assoc x, UInt64.xor_self,
        UInt64.zero_xor]
    rw [hsplit]
    exact Fits.xor (fits_run_zero hfive hle) (fits_run_zero hfive' (hlength ▸ hle))
  have hafter := LinearStep.run_ne_of_ne (s := polyModLinear) Fits
    (fun c _ => fits_polyModStep c (by decide)) (fun _ hfits => polyModStep_kernel hfits) hkept
    hdiffer after
  unfold verifyChecksum at h ⊢
  rw [beq_iff_eq, polyMod_eq_zero_iff, hrun] at h
  rw [beq_eq_false_iff_ne, ne_eq, polyMod_eq_zero_iff, hrun]
  intro h'
  exact hafter (h.trans h'.symm)

end ECash.Address
