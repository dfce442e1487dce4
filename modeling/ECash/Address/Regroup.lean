import ECash.Foundation.BitGroups
import ECash.Address.CashAddr

/-!
# Regrouping bits

`convertBits` keeps the order of the bits.  With padding it adds less than one group of zeros, and
without padding it accepts only an input whose last bits are such zeros.
-/

namespace ECash.Address

open Foundation List

variable {fromWidth toWidth bits : Nat}

theorem drainBits_spec (hwidth : 0 < toWidth) (acc : Nat) {rounds : Nat} (hrounds : bits ≤ rounds) :
    groupBits toWidth (drainBits toWidth acc rounds bits).1 ++
        toBits (drainBits toWidth acc rounds bits).2 acc = toBits bits acc ∧
      (drainBits toWidth acc rounds bits).2 < toWidth ∧
      forall v, v ∈ (drainBits toWidth acc rounds bits).1 -> v < 2 ^ toWidth := by
  induction rounds generalizing bits with
  | zero =>
    cases Nat.le_zero.mp hrounds
    exact ⟨rfl, hwidth, nofun⟩
  | succ rounds ih =>
    by_cases hge : bits ≥ toWidth
    · rcases @ih (bits - toWidth) (by omega) with ⟨hbits, hleft, hlt⟩
      simp only [drainBits, if_pos hge]
      refine ⟨?_, hleft, ?_⟩
      · have hgroup : toBits toWidth ((acc >>> (bits - toWidth)) &&& (2 ^ toWidth - 1)) =
            toBits toWidth (acc >>> (bits - toWidth)) := by
          apply toBits_congr
          intro i hi
          simp [hi]
        have hsplit := toBits_add toWidth (bits - toWidth) acc
        rw [show toWidth + (bits - toWidth) = bits by omega] at hsplit
        rw [groupBits, flatMap_cons, hgroup, append_assoc, hsplit, ← hbits]
        rfl
      · rw [forall_mem_cons, Nat.and_two_pow_sub_one_eq_mod]
        exact ⟨Nat.mod_lt _ (Nat.two_pow_pos toWidth), hlt⟩
    · simp only [drainBits, if_neg hge]
      exact ⟨rfl, by omega, nofun⟩

/-- The groups that were taken out and the bits that are left stand for the input so far. -/
structure Regrouped (toWidth : Nat) (state : Regroup) (bits : List Bool) : Prop where
  bits : groupBits toWidth state.out ++ toBits state.bits state.acc = bits
  left : state.bits < toWidth
  groups : forall v, v ∈ state.out -> v < 2 ^ toWidth

theorem Regrouped.step (hwidth : 0 < toWidth) {state : Regroup} {bits : List Bool}
    (h : Regrouped toWidth state bits) {v : Nat} (hv : v < 2 ^ fromWidth) :
    Regrouped toWidth (regroupStep fromWidth toWidth state v) (bits ++ toBits fromWidth v) := by
  generalize hacc : ((state.acc <<< fromWidth) ||| v) &&& (2 ^ (fromWidth + toWidth - 1) - 1) = acc
  have hadded : toBits (state.bits + fromWidth) acc =
      toBits state.bits state.acc ++ toBits fromWidth v := by
    have htest : forall i, i < state.bits + fromWidth -> acc.testBit i =
        (decide (i ≥ fromWidth) && state.acc.testBit (i - fromWidth) || v.testBit i) := by
      intro i hi
      have hleft := h.left
      rw [← hacc, Nat.and_two_pow_sub_one_eq_mod, Nat.testBit_mod_two_pow, Nat.testBit_or]
      have hlt : i < fromWidth + toWidth - 1 := by omega
      simp [hlt]
    rw [toBits_add]
    congr 1
    · apply toBits_congr
      intro i hi
      rw [Nat.testBit_shiftRight, htest (fromWidth + i) (by omega)]
      have hhigh : v.testBit (fromWidth + i) = false :=
        Nat.testBit_lt_two_pow (Nat.lt_of_lt_of_le hv
          (Nat.pow_le_pow_right Nat.two_pos (Nat.le_add_right _ _)))
      simp [hhigh]
    · apply toBits_congr
      intro i _
      rw [htest i (by omega)]
      have hlow : ¬ i ≥ fromWidth := by omega
      simp [hlow]
  rcases drainBits_spec hwidth acc (Nat.le_refl (state.bits + fromWidth)) with ⟨hbits, hleft, hlt⟩
  have hstep : regroupStep fromWidth toWidth state v =
      { acc
        bits := (drainBits toWidth acc (state.bits + fromWidth) (state.bits + fromWidth)).2
        out := state.out ++
          (drainBits toWidth acc (state.bits + fromWidth) (state.bits + fromWidth)).1 } := by
    unfold regroupStep
    rw [hacc]
  rw [hstep]
  refine { bits := ?_, left := hleft, groups := ?_ }
  · rw [groupBits, flatMap_append, append_assoc]
    show groupBits toWidth state.out ++ (groupBits toWidth _ ++ toBits _ acc) = _
    rw [hbits, hadded, ← append_assoc, h.bits]
  · exact forall_mem_append.mpr ⟨h.groups, hlt⟩

variable {values : List Nat}

theorem Regrouped.run (hwidth : 0 < toWidth) {state : Regroup} {bits : List Bool}
    (h : Regrouped toWidth state bits) (hvalues : forall v, v ∈ values -> v < 2 ^ fromWidth) :
    Regrouped toWidth (values.foldl (regroupStep fromWidth toWidth) state)
      (bits ++ groupBits fromWidth values) := by
  induction values generalizing state bits with
  | nil =>
    rw [groupBits, flatMap_nil, append_nil]
    exact h
  | cons v values ih =>
    have hstep := h.step hwidth (hvalues v mem_cons_self)
    have hrest := ih hstep (forall_mem_cons.mp hvalues).2
    rw [groupBits, flatMap_cons, ← append_assoc]
    exact hrest

theorem regrouped_all (hwidth : 0 < toWidth) (hvalues : forall v, v ∈ values -> v < 2 ^ fromWidth) :
    Regrouped toWidth
      (values.foldl (regroupStep fromWidth toWidth) { acc := 0, bits := 0, out := [] })
      (groupBits fromWidth values) := by
  have hempty : Regrouped toWidth { acc := 0, bits := 0, out := [] } [] :=
    { bits := rfl, left := hwidth, groups := nofun }
  exact hempty.run hwidth hvalues

theorem toBits_last (acc : Nat) (hle : bits ≤ toWidth) :
    toBits toWidth ((acc <<< (toWidth - bits)) &&& (2 ^ toWidth - 1)) =
      toBits bits acc ++ replicate (toWidth - bits) false := by
  have htest : forall i, i < toWidth ->
      ((acc <<< (toWidth - bits)) &&& (2 ^ toWidth - 1)).testBit i =
        (decide (i ≥ toWidth - bits) && acc.testBit (i - (toWidth - bits))) := by
    intro i hi
    simp [hi]
  have hsplit := toBits_add bits (toWidth - bits) ((acc <<< (toWidth - bits)) &&& (2 ^ toWidth - 1))
  rw [show bits + (toWidth - bits) = toWidth by omega] at hsplit
  rw [hsplit]
  congr 1
  · apply toBits_congr
    intro i hi
    rw [Nat.testBit_shiftRight, htest _ (by omega)]
    simp
  · apply toBits_eq_replicate
    intro i _
    have hlow : ¬ i ≥ toWidth - bits := by omega
    simp [hlow]

theorem last_lt (n : Nat) : n &&& (2 ^ toWidth - 1) < 2 ^ toWidth := by
  rw [Nat.and_two_pow_sub_one_eq_mod]
  exact Nat.mod_lt _ (Nat.two_pow_pos toWidth)

theorem convertBits_pad (hwidth : 0 < toWidth)
    (hvalues : forall v, v ∈ values -> v < 2 ^ fromWidth) :
    exists k, k < toWidth ∧
      groupBits toWidth (convertBits fromWidth toWidth true values).2 =
        groupBits fromWidth values ++ replicate k false ∧
      forall v, v ∈ (convertBits fromWidth toWidth true values).2 -> v < 2 ^ toWidth := by
  have hall := regrouped_all hwidth hvalues
  unfold convertBits
  simp only [if_true]
  generalize values.foldl (regroupStep fromWidth toWidth) { acc := 0, bits := 0, out := [] } =
    state at hall
  have hleft := hall.left
  by_cases hbits : state.bits = 0
  · refine ⟨0, hwidth, ?_, ?_⟩
    · rw [if_neg (by simpa using hbits), ← hall.bits, hbits, toBits, append_nil,
        replicate_zero, append_nil]
    · rw [if_neg (by simpa using hbits)]
      exact hall.groups
  · refine ⟨toWidth - state.bits, by omega, ?_, ?_⟩
    · rw [if_pos hbits, groupBits, flatMap_append, flatMap_singleton,
        toBits_last _ hleft.le, ← hall.bits, append_assoc]
      rfl
    rw [if_pos hbits]
    exact forall_mem_append.mpr ⟨hall.groups, forall_mem_singleton.mpr (last_lt _)⟩

theorem last_eq_zero_iff {acc : Nat} (hle : bits ≤ toWidth) :
    (acc <<< (toWidth - bits)) &&& (2 ^ toWidth - 1) = 0 <->
      toBits bits acc = replicate bits false := by
  have hlast := toBits_last acc hle
  have hzero : toBits toWidth 0 = replicate bits false ++ replicate (toWidth - bits) false := by
    rw [← replicate_add, show bits + (toWidth - bits) = toWidth by omega]
    apply toBits_eq_replicate
    intro i _
    exact Nat.zero_testBit i
  constructor
  · intro heq
    rw [heq, hzero] at hlast
    exact (append_cancel_right hlast).symm
  · intro heq
    rw [heq, ← hzero] at hlast
    exact toBits_inj (last_lt _) (Nat.two_pow_pos toWidth) hlast

theorem convertBits_complete (hwidth : 0 < toWidth)
    (hvalues : forall v, v ∈ values -> v < 2 ^ fromWidth)
    (h : (convertBits fromWidth toWidth false values).1 = true) :
    exists k, k < fromWidth ∧
      groupBits fromWidth values =
        groupBits toWidth (convertBits fromWidth toWidth false values).2 ++ replicate k false ∧
      forall v, v ∈ (convertBits fromWidth toWidth false values).2 -> v < 2 ^ toWidth := by
  have hall := regrouped_all hwidth hvalues
  unfold convertBits at h ⊢
  simp only [Bool.false_eq_true, if_false] at h ⊢
  generalize values.foldl (regroupStep fromWidth toWidth) { acc := 0, bits := 0, out := [] } =
    state at hall h ⊢
  split at h
  · cases h
  · rename_i hcomplete
    rw [if_neg hcomplete]
    rw [not_or, not_not, last_eq_zero_iff hall.left.le] at hcomplete
    refine ⟨state.bits, by omega, ?_, hall.groups⟩
    rw [← hcomplete.right, hall.bits]

theorem convertBits_of_bits {out : List Nat} (hvalues : forall v, v ∈ values -> v < 2 ^ fromWidth)
    (hout : forall v, v ∈ out -> v < 2 ^ toWidth) {k : Nat} (hfrom : k < fromWidth)
    (hto : k < toWidth)
    (h : groupBits fromWidth values = groupBits toWidth out ++ replicate k false) :
    convertBits fromWidth toWidth false values = (true, out) := by
  have hall := regrouped_all (Nat.zero_lt_of_lt hto) hvalues
  unfold convertBits
  simp only [Bool.false_eq_true, if_false]
  generalize values.foldl (regroupStep fromWidth toWidth) { acc := 0, bits := 0, out := [] } =
    state at hall ⊢
  have hbits := hall.bits.trans h
  -- the number of groups and of bits that are left is that of a division with remainder
  have hlength := congrArg length hbits
  simp only [length_append, length_groupBits, length_toBits, length_replicate] at hlength
  have hdiv := congrArg (fun n => n / toWidth) hlength
  simp only [Nat.mul_add_div (Nat.zero_lt_of_lt hto), Nat.div_eq_of_lt hall.left,
    Nat.div_eq_of_lt hto, add_zero] at hdiv
  have hleft : state.bits = k := by
    rw [hdiv] at hlength
    omega
  rcases append_inj hbits (by rw [length_groupBits, length_groupBits, hdiv]) with ⟨hgroups, hzeros⟩
  rw [← hleft] at hzeros
  have hlast := (last_eq_zero_iff hall.left.le).mpr hzeros
  rw [if_neg, groupBits_inj hall.groups hout hdiv hgroups]
  rw [not_or, not_not]
  exact ⟨by omega, hlast⟩

/-!
## Packing and unpacking
-/

theorem unpack_pack {data : List Nat} (hdata : forall v, v ∈ data -> v < 2 ^ 8) :
    convertBits 5 8 false (convertBits 8 5 true data).2 = (true, data) := by
  rcases convertBits_pad (show 0 < 5 by decide) hdata with ⟨_, hk, hbits, hgroups⟩
  exact convertBits_of_bits hgroups hdata hk (by omega) hbits

theorem pack_unpack {payload : List Nat} (hpayload : forall v, v ∈ payload -> v < 2 ^ 5)
    (h : (convertBits 5 8 false payload).1 = true) :
    (convertBits 8 5 true (convertBits 5 8 false payload).2).2 = payload := by
  rcases convertBits_complete (by decide) hpayload h with ⟨r, _, hbits, hdata⟩
  rcases convertBits_pad (show 0 < 5 by decide) hdata with ⟨k, _, hbits', hgroups⟩
  have hlength := congrArg length hbits
  have hlength' := congrArg length hbits'
  simp only [length_append, length_groupBits, length_replicate] at hlength hlength'
  have hpad : k = r := by omega
  refine groupBits_inj hgroups hpayload (by omega) ?_
  rw [hbits', hpad, ← hbits]

end ECash.Address
