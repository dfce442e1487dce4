import Mathlib
import ECash.Tokens.Color

/-!
# What colouring keeps

Every coloured output points at a section that may colour it so, no output is
coloured twice, and a SEND section asks for at least what its outputs carry.
-/

namespace ECash.Tokens

open Foundation List

/-!
## Sums over outputs
-/

def amountAt (k : Nat) (outputs : Outputs) : Nat :=
  (outputs.map fun output =>
    match output with
    | some o => if o.tokenIdx = k then o.variant.amountOf else 0
    | none => 0).sum

@[simp] theorem amountAt_none (k : Nat) (rest : Outputs) :
    amountAt k (none :: rest) = amountAt k rest := by
  simp [amountAt]

@[simp] theorem amountAt_some (k : Nat) (o : TokenOutput) (rest : Outputs) :
    amountAt k (some o :: rest) =
      (if o.tokenIdx = k then o.variant.amountOf else 0) + amountAt k rest := by
  simp [amountAt]

theorem amountAt_set_le (k i : Nat) (o : TokenOutput) (outputs : Outputs) :
    amountAt k (outputs.set i (some o)) ≤
      amountAt k outputs + if o.tokenIdx = k then o.variant.amountOf else 0 := by
  induction outputs generalizing i with
  | nil => simp
  | cons output rest ih =>
    cases i with
    | zero =>
      have hle : amountAt k rest ≤ amountAt k (output :: rest) := by cases output <;> simp
      rw [set_cons_zero, amountAt_some]
      omega
    | succ i =>
      have hrest := ih i
      cases output with
      | none => simpa using hrest
      | some p =>
        rw [set_cons_succ, amountAt_some, amountAt_some]
        omega

theorem amountAt_set_amount_le (k i : Nat) (amount : Amount) (outputs : Outputs) :
    amountAt k (outputs.set i
        (some { tokenIdx := k, variant := .amount amount })) ≤ amountAt k outputs + amount := by
  have hle := amountAt_set_le k i { tokenIdx := k, variant := .amount amount } outputs
  rw [if_pos rfl] at hle
  exact hle

variable {k : Nat} {old : Outputs} {o : TokenOutput}

theorem amountAt_eq_zero {outputs : Outputs} (h : forall o, some o ∈ outputs -> o.tokenIdx ≠ k) :
    amountAt k outputs = 0 := by
  induction outputs with
  | nil => rfl
  | cons output rest ih =>
    have hrest := ih (fun o ho => h o (mem_cons_of_mem output ho))
    cases output with
    | none => rw [amountAt_none, hrest]
    | some o => rw [amountAt_some, if_neg (h o mem_cons_self), hrest]

/-!
## Painting free outputs

One section's colouring writes its own index onto outputs that were free.
-/

/-- The output is kept, or was free and now points at section `k`. -/
def Painted (k : Nat) (allowed : TokenVariant -> Prop) (old new : Option TokenOutput) : Prop :=
  new = old ∨ (old = none ∧ exists o, new = some o ∧ o.tokenIdx = k ∧ allowed o.variant)

abbrev PaintedOutputs (k : Nat) (allowed : TokenVariant -> Prop) (old new : Outputs) : Prop :=
  Forall₂ (Painted k allowed) old new

theorem paintedOutputs_refl (k : Nat) (allowed : TokenVariant -> Prop) (outputs : Outputs) :
    PaintedOutputs k allowed outputs outputs :=
  forall₂_same.mpr fun _ _ => .inl rfl

def FreeAt (outputs : Outputs) (i : Nat) : Prop :=
  forall o, outputs[i]? ≠ some (some o)

variable {allowed : TokenVariant -> Prop} {new : Outputs}

namespace PaintedOutputs

variable (h : PaintedOutputs k allowed old new)

include h

theorem set {i : Nat}
    (hfree : FreeAt old i) (hidx : o.tokenIdx = k) (hvariant : allowed o.variant) :
    PaintedOutputs k allowed old (new.set i (some o)) := by
  induction h generalizing i with
  | nil => exact .nil
  | @cons x y xs ys hxy hrest ih =>
    cases i with
    | zero =>
      refine .cons (.inr ⟨?_, o, rfl, hidx, hvariant⟩) hrest
      cases x with
      | none => rfl
      | some p => exact absurd rfl (hfree p)
    | succ i => exact .cons hxy (ih hfree)

theorem amountAt {j : Nat} (hj : j ≠ k) : amountAt j new = Tokens.amountAt j old := by
  induction h with
  | nil => rfl
  | @cons x y xs ys hxy hrest ih =>
    rcases hxy with hkept | ⟨hfree, _, hnew, hidx, _⟩
    · rw [hkept]
      cases x with
      | none => rw [amountAt_none, amountAt_none, ih]
      | some p => rw [amountAt_some, amountAt_some, ih]
    · rw [hfree, hnew, amountAt_none, amountAt_some, hidx, if_neg (Ne.symm hj), ih, zero_add]

theorem mem (ho : some o ∈ new) : some o ∈ old ∨ (o.tokenIdx = k ∧ allowed o.variant) := by
  induction h with
  | nil => cases ho
  | @cons x y xs ys hxy hrest ih =>
    rcases mem_cons.mp ho with hhead | htail
    · rcases hxy with hkept | ⟨_, _, hnew, hidx, hvariant⟩
      · rw [hkept] at hhead
        exact .inl (hhead ▸ mem_cons_self)
      · rw [hnew] at hhead
        cases hhead
        exact .inr ⟨hidx, hvariant⟩
    · rcases ih htail with hold | hpainted
      · exact .inl (mem_cons_of_mem x hold)
      · exact .inr hpainted

end PaintedOutputs

/-!
## The colouring loops paint
-/

namespace ColoredTx

/-- Every output that would get a positive amount is free. -/
def FreeForAmounts (outputs : Outputs) (range : List (Nat × Amount)) : Prop :=
  forall i amount, (i, amount) ∈ range -> amount ≠ 0 -> FreeAt outputs i

theorem FreeForAmounts.tail {outputs : Outputs} {head : Nat × Amount}
    {rest : List (Nat × Amount)} (h : FreeForAmounts outputs (head :: rest)) :
    FreeForAmounts outputs rest := by
  intro i amount hmem hamount
  exact h i amount (mem_cons_of_mem head hmem) hamount

def IsAmount (v : TokenVariant) : Prop :=
  exists amount, 0 < amount ∧ v = .amount amount

variable {range : List (Nat × Amount)} {txid : TxId} {tx tx' : ColoredTx} {i : Nat}
  {sec : ColoredTxSection} {colored : ColoredTx} {state : AlpState} {new : Outputs}

theorem colorMintAmounts_painted (hallowed : forall v, IsAmount v -> allowed v)
    (h : PaintedOutputs k allowed old new) (hfree : FreeForAmounts old range) :
    PaintedOutputs k allowed old (colorMintAmounts k range new) := by
  induction range generalizing new with
  | nil => exact h
  | cons head rest ih =>
    rcases head with ⟨i, amount⟩
    unfold colorMintAmounts
    split
    · exact h
    split
    · rename_i hpos
      apply ih _ hfree.tail
      exact h.set (hfree i amount mem_cons_self (Nat.ne_of_gt hpos)) rfl
        (hallowed _ ⟨amount, hpos, rfl⟩)
    · exact ih h hfree.tail

theorem colorMintBatons_painted (hallowed : allowed .mintBaton)
    (h : PaintedOutputs k allowed old new) {range : List Nat}
    (hfree : forall i, i ∈ range -> FreeAt old i) :
    PaintedOutputs k allowed old (colorMintBatons k range new) := by
  induction range generalizing new with
  | nil => exact h
  | cons i rest ih =>
    unfold colorMintBatons
    split
    · exact h
    · apply ih _ (forall_mem_cons.mp hfree).2
      exact h.set (hfree i mem_cons_self) rfl hallowed

theorem colorSendAmounts_painted (h : PaintedOutputs k IsAmount old new)
    (hfree : FreeForAmounts old range) (sum : Nat) :
    PaintedOutputs k IsAmount old (colorSendAmounts k range new sum).1 := by
  induction range generalizing new sum with
  | nil => exact h
  | cons head rest ih =>
    rcases head with ⟨i, amount⟩
    unfold colorSendAmounts
    split
    · exact ih h hfree.tail sum
    · rename_i hne
      apply ih _ hfree.tail
      exact h.set (hfree i amount mem_cons_self hne) rfl ⟨amount, Nat.pos_of_ne_zero hne, rfl⟩

theorem colorMintAmounts_amountAt (k : Nat) (range : List (Nat × Amount)) (outputs : Outputs) :
    amountAt k (colorMintAmounts k range outputs) ≤
      amountAt k outputs + (range.map Prod.snd).sum := by
  induction range generalizing outputs with
  | nil => exact le_rfl
  | cons head rest ih =>
    rcases head with ⟨i, amount⟩
    rw [map_cons, sum_cons]
    unfold colorMintAmounts
    split
    · exact Nat.le_add_right _ _
    split
    · have hset := amountAt_set_amount_le k i amount outputs
      have hrest := ih (outputs.set i (some { tokenIdx := k, variant := .amount amount }))
      omega
    · have hrest := ih outputs
      omega

theorem colorSendAmounts_amountAt (k : Nat) (range : List (Nat × Amount))
    (outputs : Outputs) (sum : Nat) :
    amountAt k (colorSendAmounts k range outputs sum).1 + sum ≤
      amountAt k outputs + (colorSendAmounts k range outputs sum).2 := by
  induction range generalizing outputs sum with
  | nil => exact le_rfl
  | cons head rest ih =>
    rcases head with ⟨i, amount⟩
    unfold colorSendAmounts
    split
    · exact ih outputs sum
    · have hset := amountAt_set_amount_le k i amount outputs
      have hrest := ih (outputs.set i (some { tokenIdx := k, variant := .amount amount }))
        (sum + amount)
      omega

theorem colorUnknownOutputs_painted (o : TokenOutput) (hallowed : allowed o.variant)
    (outputs : Outputs) :
    PaintedOutputs o.tokenIdx allowed outputs (colorUnknownOutputs o outputs) := by
  cases outputs with
  | nil => exact .nil
  | cons opReturnOutput rest =>
    refine .cons (.inl rfl) ?_
    rw [forall₂_map_right_iff, forall₂_same]
    intro output _
    cases output with
    | none => exact .inr ⟨rfl, o, rfl, rfl, hallowed⟩
    | some p => exact .inl rfl

/-!
## The invariant
-/

/-- What an output of a section can carry. -/
def MayCarry (txType : TxType) (tokenType : TokenType) : TokenVariant -> Prop
  | .amount value => 0 < value ∧ (txType = .genesis ∨ txType = .mint ∨ txType = .send)
  | .mintBaton =>
    (txType = .genesis ∧ tokenType ≠ .slp .nft1Child) ∨
      (txType = .mint ∧ tokenType ≠ TokenType.mintVault)
  | .unknown unknown => txType = .unknown ∧ unknown = tokenType.toU8
  | .commitment _ => False

structure SectionOk (txid : TxId) (sec : ColoredTxSection) : Prop where
  opreturn : sec.tokenMeta.tokenType ≠ .cashTokens
  not_burn : sec.txType ≠ .burn
  unknown_iff : sec.txType = .unknown <-> sec.tokenMeta.tokenType.Unknown
  genesis_id : sec.txType = .genesis -> sec.tokenMeta.tokenId = txid
  genesis_iff : sec.txType = .genesis <-> sec.genesisInfo.isSome = true

/-- Only sections of an unknown type can name one token twice. -/
def UniqueTokens (sections : List ColoredTxSection) : Prop :=
  forall (i j : Nat) (a b : ColoredTxSection),
    sections[i]? = some a -> sections[j]? = some b -> a.tokenMeta = b.tokenMeta ->
    i = j ∨ (a.txType = .unknown ∧ b.txType = .unknown)

/-- Every coloured output points at a section. -/
structure Indexed (tx : ColoredTx) : Prop where
  outputs : forall o, some o ∈ tx.outputs -> exists sec, tx.sections[o.tokenIdx]? = some sec
  unique : UniqueTokens tx.sections

structure Sound (txid : TxId) (tx : ColoredTx) : Prop where
  sections : forall sec, sec ∈ tx.sections -> SectionOk txid sec
  outputs : forall o, some o ∈ tx.outputs -> exists sec, tx.sections[o.tokenIdx]? = some sec ∧
      MayCarry sec.txType sec.tokenMeta.tokenType o.variant
  covered : forall i sec, tx.sections[i]? = some sec -> sec.txType = .send ->
    amountAt i tx.outputs ≤ sec.requiredInputSum
  child : forall i sec, tx.sections[i]? = some sec -> sec.txType = .genesis ->
    sec.tokenMeta.tokenType = .slp .nft1Child ->
    amountAt i tx.outputs ≤ 1
  unique : UniqueTokens tx.sections

theorem Sound.indexed (h : Sound txid tx) : Indexed tx where
  outputs := by
    intro o ho
    rcases h.outputs o ho with ⟨sec, hsec, _⟩
    exact ⟨sec, hsec⟩
  unique := h.unique

theorem Sound.congr (h : Sound txid tx) (hsections : tx'.sections = tx.sections)
    (houtputs : tx'.outputs = tx.outputs) : Sound txid tx' where
  sections := hsections ▸ h.sections
  outputs := by
    rw [hsections, houtputs]
    exact h.outputs
  covered := by
    rw [hsections, houtputs]
    exact h.covered
  child := by
    rw [hsections, houtputs]
    exact h.child
  unique := hsections ▸ h.unique

theorem sound_of_no_sections (txid : TxId) (hsections : tx.sections = [])
    (houtputs : forall o, some o ∉ tx.outputs) : Sound txid tx where
  sections := by
    rw [hsections]
    nofun
  outputs := fun o ho => absurd ho (houtputs o)
  covered := by
    rw [hsections]
    intro i sec hsec
    cases hsec
  child := by
    rw [hsections]
    intro i sec hsec
    cases hsec
  unique := by
    rw [hsections]
    intro i j a b ha
    cases ha

theorem UniqueTokens.push {sections : List ColoredTxSection} (h : UniqueTokens sections)
    (hunique : forall prev, prev ∈ sections -> prev.tokenMeta = sec.tokenMeta ->
      prev.txType = .unknown ∧ sec.txType = .unknown) : UniqueTokens (sections ++ [sec]) := by
  intro i j a b ha hb hmeta
  rcases getElem?_concat ha with haold | ⟨hi, hanew⟩
  · rcases getElem?_concat hb with hbold | ⟨_, hbnew⟩
    · exact h i j a b haold hbold hmeta
    · rw [hbnew] at hmeta ⊢
      exact .inr (hunique a (mem_of_getElem? haold) hmeta)
  · rcases getElem?_concat hb with hbold | ⟨hj, _⟩
    · rw [hanew] at hmeta ⊢
      exact .inr (hunique b (mem_of_getElem? hbold) hmeta.symm).symm
    · exact .inl (hi.trans hj.symm)

theorem Sound.amountAt_new (h : Sound txid tx) : amountAt tx.sections.length tx.outputs = 0 := by
  apply amountAt_eq_zero
  intro o ho
  rcases h.outputs o ho with ⟨_, hsec, _⟩
  exact (getElem?_lt hsec).ne

/-!
## Checks

A check never panics, and when it lets the colouring go on the outputs are free.
-/

variable {tokenMeta : TokenMeta} {pushdataIdx : Nat}

/-- What can stand in the way of a section. -/
inductive Obstructed (tx : ColoredTx) (tokenMeta : TokenMeta) (pushdataIdx : Nat) : Prop
  | colored (o : TokenOutput) (h : some o ∈ tx.outputs)
  | alp (h : tokenMeta.tokenType.isAlp = true)
  | sections (sec : ColoredTxSection) (h : sec ∈ tx.sections)
  | burns (h : tx.intentionalBurns ≠ [])
  | late (h : pushdataIdx ≠ 0)

theorem index_of_getElem? {value : Type} {xs : List value} {x : value} (h : xs[i]? = some x) :
    index xs i = .ok x := by
  unfold index
  rw [h]

theorem Sound.token (h : Sound txid tx) {o : TokenOutput} (ho : some o ∈ tx.outputs) :
    exists t, tx.token o = .ok t := by
  rcases h.outputs o ho with ⟨sec, hsec, _⟩
  refine ⟨{ tokenMeta := sec.tokenMeta, variant := o.variant }, ?_⟩
  unfold ColoredTx.token
  rw [index_of_getElem? hsec]
  rfl

theorem checkOutput_safe (h : Sound txid tx) (i : Nat) (overlapping : Token -> ColorError)
    (outOfRangeIdx : Option Nat) :
    Safe (tx.checkOutput i overlapping outOfRangeIdx) (fun _ => FreeAt tx.outputs i)
      (Obstructed tx tokenMeta pushdataIdx) := by
  unfold checkOutput
  split
  · rename_i o hsome
    have hmem := mem_of_getElem? hsome
    rcases h.token hmem with ⟨_, ht⟩
    have hlift : Safe (liftM (tx.token o) : ColorM Token) (fun _ => True)
        (Obstructed tx tokenMeta pushdataIdx) := by
      rw [ht]
      exact Safe.pure trivial
    exact hlift.bind fun _ _ => Safe.throw (.colored o hmem)
  all_goals
    rename_i hnone
    apply Safe.pure
    intro o
    rw [hnone]
    nofun

theorem checkAmounts_safe (h : Sound txid tx) (range : List (Nat × Amount))
    (outOfRangeIdx : Option Nat) :
    Safe (tx.checkAmounts range outOfRangeIdx) (fun _ => FreeForAmounts tx.outputs range)
      (Obstructed tx tokenMeta pushdataIdx) := by
  induction range generalizing outOfRangeIdx with
  | nil => exact Safe.pure nofun
  | cons head rest ih =>
    rcases head with ⟨i, _⟩
    unfold checkAmounts
    split
    · apply Safe.bind (checkOutput_safe h i _ outOfRangeIdx)
      intro idx hfree
      apply (ih idx).mono
      intro _ hrest j a hmem ha
      rcases mem_cons.mp hmem with heq | htail
      · cases heq
        exact hfree
      · exact hrest j a htail ha
    · rename_i hzero
      apply (ih outOfRangeIdx).mono
      intro _ hrest j a hmem ha
      rcases mem_cons.mp hmem with heq | htail
      · cases heq
        exact absurd ha hzero
      · exact hrest j a htail ha

theorem checkBatons_safe (h : Sound txid tx) (range : List Nat) (outOfRangeIdx : Option Nat) :
    Safe (tx.checkBatons range outOfRangeIdx)
      (fun _ => forall i, i ∈ range -> FreeAt tx.outputs i)
      (Obstructed tx tokenMeta pushdataIdx) := by
  induction range generalizing outOfRangeIdx with
  | nil => exact Safe.pure nofun
  | cons i rest ih =>
    apply Safe.bind (checkOutput_safe h i _ outOfRangeIdx)
    intro idx hfree
    apply (ih idx).mono
    intro _ hrest
    exact forall_mem_cons.mpr ⟨hfree, hrest⟩

theorem checkOutOfRange_safe (outOfRangeIdx : Option Nat) :
    Safe (tx.checkOutOfRange tokenMeta outOfRangeIdx) (fun _ => True)
      (Obstructed tx tokenMeta pushdataIdx) := by
  unfold checkOutOfRange
  split
  · split
    · rename_i halp
      exact Safe.throw (.alp halp)
    · exact Safe.pure trivial
  · exact Safe.pure trivial

theorem checkDuplicateTokenId_safe (parsed : ParsedData) :
    Safe (tx.checkDuplicateTokenId parsed)
      (fun _ => (parsed.txType.txType = .mint ∨ parsed.txType.txType = .send) ->
        forall sec, sec ∈ tx.sections -> sec.tokenMeta.tokenId ≠ parsed.tokenMeta.tokenId)
      (Obstructed tx tokenMeta pushdataIdx) := by
  unfold checkDuplicateTokenId
  split
  · split
    · rename_i hfound
      rcases findIdx?_eq_some_iff_getElem.mp hfound with ⟨hlt, _⟩
      exact Safe.throw (.sections _ (getElem_mem hlt))
    · rename_i hnone
      apply Safe.pure
      intro _ sec hsec
      simpa using findIdx?_eq_none_iff.mp hnone sec hsec
  · rename_i hother
    apply Safe.pure
    intro hmint
    exact absurd hmint hother

/-!
## Sections
-/

theorem isAmount_mayCarry {txType : TxType} {tokenType : TokenType}
    (h : txType = .genesis ∨ txType = .mint ∨ txType = .send)
    (v : TokenVariant) (hv : IsAmount v) : MayCarry txType tokenType v := by
  rcases hv with ⟨_, hpos, rfl⟩
  exact ⟨hpos, h⟩

theorem colorMintData_safe (h : Sound txid tx) (mintData : ParsedMintData) {txType : TxType}
    (hkind : (txType = .genesis ∧
        (tokenMeta.tokenType = .slp .nft1Child -> mintData = { amounts := [1], numBatons := 0 })) ∨
      (txType = .mint ∧ (tokenMeta.tokenType = TokenType.mintVault -> mintData.numBatons = 0))) :
    Safe (tx.colorMintData tokenMeta mintData)
      (fun result => PaintedOutputs tx.sections.length
          (MayCarry txType tokenMeta.tokenType) tx.outputs result.1 ∧
        (txType = .genesis ->
          tokenMeta.tokenType = .slp .nft1Child ->
          amountAt tx.sections.length result.1 ≤ 1)) (Obstructed tx tokenMeta pushdataIdx) := by
  apply Safe.bind (checkAmounts_safe h mintData.amountsRange none)
  intro idx hamounts
  apply Safe.bind (checkBatons_safe h mintData.batonsRange idx)
  intro idx hbatons
  apply Safe.bind (checkOutOfRange_safe idx)
  intro _ _
  apply Safe.pure
  have hamount : txType = .genesis ∨ txType = .mint ∨ txType = .send := by
    rcases hkind with ⟨hgenesis, _⟩ | ⟨hmint, _⟩
    · exact .inl hgenesis
    · exact .inr (.inl hmint)
  have hpainted := colorMintAmounts_painted (isAmount_mayCarry hamount)
    (paintedOutputs_refl tx.sections.length (MayCarry txType tokenMeta.tokenType)
      tx.outputs) hamounts
  constructor
  · by_cases hnone : mintData.numBatons = 0
    · have hrange : mintData.batonsRange = [] := by
        unfold ParsedMintData.batonsRange
        rw [hnone]
        rfl
      rw [hrange]
      exact hpainted
    · refine colorMintBatons_painted ?_ hpainted hbatons
      rcases hkind with ⟨hgenesis, hchild⟩ | ⟨hmint, hvault⟩
      · exact .inl ⟨hgenesis, fun htype => hnone (by rw [hchild htype])⟩
      · exact .inr ⟨hmint, fun htype => hnone (hvault htype)⟩
  · intro hgenesis htype
    rcases hkind with ⟨_, hchild⟩ | ⟨hmint, _⟩
    · have hle := colorMintAmounts_amountAt tx.sections.length [(1, 1)] tx.outputs
      rw [h.amountAt_new] at hle
      rw [hchild htype]
      exact hle
    · rw [hgenesis] at hmint
      cases hmint

/-- The invariant holds again, at most a section of the given token is new, and only free
outputs were coloured. -/
structure Colors (txid : TxId) (tx : ColoredTx) (tokenMeta : TokenMeta)
    (colored : ColoredTx) : Prop where
  sound : Sound txid colored
  sections : colored.sections = tx.sections ∨
    exists sec, colored.sections = tx.sections ++ [sec] ∧ sec.tokenMeta = tokenMeta
  painted : exists allowed, PaintedOutputs tx.sections.length allowed tx.outputs colored.outputs

section Push

variable (h : Sound txid tx)

include h

theorem Sound.push {outputs : Outputs} (hmeta : sec.tokenMeta = tokenMeta)
    (hsec : SectionOk txid sec) (hpainted : PaintedOutputs tx.sections.length
      (MayCarry sec.txType sec.tokenMeta.tokenType) tx.outputs outputs)
    (hcovered : sec.txType = .send -> amountAt tx.sections.length outputs ≤ sec.requiredInputSum)
    (hchild : sec.txType = .genesis ->
      sec.tokenMeta.tokenType = .slp .nft1Child ->
      amountAt tx.sections.length outputs ≤ 1)
    (hunique : forall prev, prev ∈ tx.sections -> prev.tokenMeta = sec.tokenMeta ->
      prev.txType = .unknown ∧ sec.txType = .unknown) :
    Colors txid tx tokenMeta { tx with sections := tx.sections ++ [sec], outputs := outputs } where
  sections := .inr ⟨sec, rfl, hmeta⟩
  painted := ⟨_, hpainted⟩
  sound :=
    { sections := forall_mem_append.mpr ⟨h.sections, forall_mem_singleton.mpr hsec⟩
      outputs := by
        intro o ho
        rcases hpainted.mem ho with hold | ⟨hidx, hvariant⟩
        · rcases h.outputs o hold with ⟨s, hs, hcarry⟩
          exact ⟨s, getElem?_append_of_some hs _, hcarry⟩
        · refine ⟨sec, ?_, hvariant⟩
          rw [hidx]
          exact getElem?_concat_length
      covered := by
        intro i s hs hsend
        rcases getElem?_concat hs with hold | ⟨hi, hs⟩
        · rw [hpainted.amountAt (getElem?_lt hold).ne]
          exact h.covered i s hold hsend
        · rw [hi, hs]
          exact hcovered (hs ▸ hsend)
      child := by
        intro i s hs hgenesis htype
        rcases getElem?_concat hs with hold | ⟨hi, hs⟩
        · rw [hpainted.amountAt (getElem?_lt hold).ne]
          exact h.child i s hold hgenesis htype
        · rw [hi]
          exact hchild (hs ▸ hgenesis) (hs ▸ htype)
      unique := h.unique.push hunique }

theorem colorGenesis_safe (hfirst : pushdataIdx = 0 -> tx.sections = [])
    {genesis : ParsedGenesis} (hproper : (ParsedTxType.genesis genesis).Proper txid tokenMeta) :
    Safe (tx.colorGenesis pushdataIdx tokenMeta genesis) (Colors txid tx tokenMeta)
      (Obstructed tx tokenMeta pushdataIdx) := by
  unfold colorGenesis
  split
  · rename_i hidx
    exact Safe.throw (.late hidx)
  rename_i hidx
  have hempty := hfirst (not_not.mp hidx)
  rcases hproper with ⟨⟨hopreturn, hknown⟩, hid, hissued⟩
  apply Safe.bind (colorMintData_safe h genesis.mintData (.inl ⟨rfl, hissued⟩))
  rintro _ ⟨hpainted, hchild⟩
  apply Safe.pure
  apply h.push
  · rfl
  · exact ⟨hopreturn, nofun, iff_of_false nofun hknown, fun _ => hid, iff_of_true rfl rfl⟩
  · exact hpainted
  · nofun
  · exact hchild
  · rw [hempty]
    nofun

section KnownToken

variable (hknown : tokenMeta.tokenType.Known)
    (hids : forall sec, sec ∈ tx.sections -> sec.tokenMeta.tokenId ≠ tokenMeta.tokenId)

include hknown hids

theorem colorMint_safe {mint : ParsedMintData}
    (hvault : tokenMeta.tokenType = TokenType.mintVault -> mint.numBatons = 0) :
    Safe (tx.colorMint tokenMeta mint) (Colors txid tx tokenMeta)
      (Obstructed tx tokenMeta pushdataIdx) := by
  apply Safe.bind (colorMintData_safe h mint (.inr ⟨rfl, hvault⟩))
  rintro _ ⟨hpainted, _⟩
  apply Safe.pure
  apply h.push
  · rfl
  · exact ⟨hknown.opreturn, nofun, iff_of_false nofun hknown.known, nofun, iff_of_false nofun nofun⟩
  · exact hpainted
  · nofun
  · nofun
  · intro prev hprev hmeta
    exact absurd (congrArg TokenMeta.tokenId hmeta) (hids prev hprev)

theorem colorSend_safe (amounts : List Amount) :
    Safe (tx.colorSend tokenMeta amounts) (Colors txid tx tokenMeta)
      (Obstructed tx tokenMeta pushdataIdx) := by
  apply Safe.bind (checkAmounts_safe h (outputAmounts amounts) none)
  intro idx hfree
  apply Safe.bind (checkOutOfRange_safe idx)
  intro _ _
  apply Safe.pure
  have hpainted := colorSendAmounts_painted
    (paintedOutputs_refl tx.sections.length IsAmount tx.outputs) hfree 0
  apply h.push
  · rfl
  · exact ⟨hknown.opreturn, nofun, iff_of_false nofun hknown.known, nofun, iff_of_false nofun nofun⟩
  · apply hpainted.imp
    intro old new hold
    rcases hold with hkept | ⟨hnone, o, hnew, hidx, hamount⟩
    · exact .inl hkept
    · exact .inr ⟨hnone, o, hnew, hidx, isAmount_mayCarry (.inr (.inr rfl)) o.variant hamount⟩
  · intro _
    have hsum := colorSendAmounts_amountAt tx.sections.length (outputAmounts amounts) tx.outputs 0
    rw [h.amountAt_new, zero_add] at hsum
    exact hsum
  · nofun
  · intro prev hprev hmeta
    exact absurd (congrArg TokenMeta.tokenId hmeta) (hids prev hprev)

end KnownToken

theorem colorBurn_safe (amount : Amount) :
    Safe (tx.colorBurn tokenMeta amount) (Colors txid tx tokenMeta)
      (Obstructed tx tokenMeta pushdataIdx) := by
  unfold colorBurn
  split
  · rename_i hfound
    refine Safe.throw (.burns ?_)
    intro hnil
    rw [hnil] at hfound
    cases hfound
  · exact Safe.pure
      { sound := h.congr rfl rfl, sections := .inl rfl
        painted := ⟨fun _ => True, paintedOutputs_refl _ _ _⟩ }

theorem colorUnknown_colors (hunknown : tokenMeta.tokenType.Unknown) :
    Colors txid tx tokenMeta (tx.colorUnknown tokenMeta) := by
  have hcarry : MayCarry .unknown tokenMeta.tokenType
      (.unknown tokenMeta.tokenType.toU8) := ⟨rfl, rfl⟩
  have hpainted := colorUnknownOutputs_painted
    { tokenIdx := tx.sections.length
      variant := .unknown tokenMeta.tokenType.toU8 } hcarry tx.outputs
  apply h.push
  · rfl
  · refine ⟨?_, nofun, iff_of_true rfl hunknown, nofun, iff_of_false nofun nofun⟩
    intro htype
    rw [htype] at hunknown
    exact hunknown
  · exact hpainted
  · nofun
  · nofun
  · intro prev hprev hmeta
    refine ⟨(h.sections prev hprev).unknown_iff.mpr ?_, rfl⟩
    rw [hmeta]
    exact hunknown

variable (hfirst : pushdataIdx = 0 -> tx.sections = []) {parsed : ParsedData}
    (hproper : parsed.Proper txid)

include hfirst hproper

theorem colorParsed_safe :
    Safe (tx.colorParsed pushdataIdx parsed) (Colors txid tx parsed.tokenMeta)
      (Obstructed tx parsed.tokenMeta pushdataIdx) := by
  apply Safe.bind (checkDuplicateTokenId_safe parsed)
  intro _ hids
  unfold ParsedData.Proper at hproper
  cases hkind : parsed.txType with
  | genesis genesis => exact colorGenesis_safe h hfirst (hkind ▸ hproper)
  | mint mint =>
    rw [hkind] at hids hproper
    exact colorMint_safe h hproper.left (hids (.inl rfl)) hproper.right
  | send amounts =>
    rw [hkind] at hids hproper
    exact colorSend_safe h hproper (hids (.inr rfl)) amounts
  | burn amount => exact colorBurn_safe h amount
  | unknown =>
    rw [hkind] at hproper
    exact Safe.pure (colorUnknown_colors h hproper)

theorem colorSection_safe (maxTokenType : UInt8) :
    exists tokenType result,
      tx.colorSection pushdataIdx parsed maxTokenType = .ok (tokenType, result) ∧
        (forall colored, result = .ok colored -> Colors txid tx parsed.tokenMeta colored) ∧
        forall error, result = .error error ->
          maxTokenType > parsed.tokenMeta.tokenType.toU8 ∨
            Obstructed tx parsed.tokenMeta pushdataIdx := by
  unfold colorSection
  dsimp only
  split
  · rename_i hdescending
    exact ⟨_, _, rfl, nofun, fun _ _ => .inl hdescending⟩
  · rcases (colorParsed_safe h hfirst hproper).run with ⟨result, hrun, hcolors, hfails⟩
    refine ⟨parsed.tokenMeta.tokenType.toU8, result, ?_, hcolors,
      fun error herror => .inr (hfails error herror)⟩
    rw [hrun]
    rfl

end Push

/-!
## Transactions
-/

variable {numOutputs : Nat}

/-- Later sections leave the outputs coloured so far alone: what they colour themselves
points at sections added later. -/
structure Extends (tx tx' : ColoredTx) : Prop where
  sections : tx.sections <+: tx'.sections
  outputs : Forall₂ (fun old new => new = old ∨
    (old = none ∧ exists o, new = some o ∧ tx.sections.length ≤ o.tokenIdx)) tx.outputs tx'.outputs

theorem Extends.of_same (hsections : tx'.sections = tx.sections)
    (houtputs : tx'.outputs = tx.outputs) : Extends tx tx' where
  sections := hsections ▸ prefix_rfl
  outputs := houtputs ▸ forall₂_same.mpr fun _ _ => .inl rfl

theorem Extends.trans {tx'' : ColoredTx} (h : Extends tx tx') (h' : Extends tx' tx'') :
    Extends tx tx'' where
  sections := h.sections.trans h'.sections
  outputs := by
    refine forall₂_trans h.outputs h'.outputs ?_
    rintro old mid new hmid (rfl | ⟨rfl, o, rfl, hidx⟩)
    · exact hmid
    · rcases hmid with rfl | ⟨_, _, hnone, _⟩
      · exact .inr ⟨rfl, o, rfl, h.sections.length_le.trans hidx⟩
      · cases hnone

theorem Colors.extends_ {tokenMeta : TokenMeta} (h : Colors txid tx tokenMeta colored) :
    Extends tx colored where
  sections := by
    rcases h.sections with hsame | ⟨_, hnew, _⟩
    · exact hsame ▸ prefix_rfl
    · exact hnew ▸ prefix_append _ _
  outputs := by
    rcases h.painted with ⟨_, hpainted⟩
    refine hpainted.imp ?_
    rintro old new (hkept | ⟨hfree, o, hnew, hidx, _⟩)
    · exact .inl hkept
    · exact .inr ⟨hfree, o, hnew, hidx.ge⟩

/-- The invariant of the pushdata loop. -/
structure AlpSound (txid : TxId) (numOutputs : Nat) (tx : ColoredTx) : Prop where
  sound : Sound txid tx
  length : tx.outputs.length = numOutputs
  alp : forall sec, sec ∈ tx.sections -> sec.tokenMeta.tokenType.isAlp = true

theorem AlpSound.congr (h : AlpSound txid numOutputs tx) (hsections : tx'.sections = tx.sections)
    (houtputs : tx'.outputs = tx.outputs) : AlpSound txid numOutputs tx' where
  sound := h.sound.congr hsections houtputs
  length := houtputs ▸ h.length
  alp := hsections ▸ h.alp

theorem AlpSound.colors {tokenMeta : TokenMeta} (h : AlpSound txid numOutputs tx)
    (halp : tokenMeta.tokenType.isAlp = true) (hcolors : Colors txid tx tokenMeta colored) :
    AlpSound txid numOutputs colored where
  sound := hcolors.sound
  length := by
    rcases hcolors.painted with ⟨_, hpainted⟩
    exact hpainted.length_eq.symm.trans h.length
  alp := by
    rcases hcolors.sections with hsame | ⟨_, hnew, hmeta⟩
    · exact hsame ▸ h.alp
    · rw [hnew, forall_mem_append, forall_mem_singleton, hmeta]
      exact ⟨h.alp, halp⟩

theorem colorAlpPushdata_sound (h : AlpSound txid numOutputs state.colored)
    (hfirst : pushdataIdx = 0 -> state.colored.sections = []) (pushdata : Bytes) :
    exists state', colorAlpPushdata txid pushdataIdx pushdata state = .ok state' ∧
      AlpSound txid numOutputs state'.colored ∧ Extends state.colored state'.colored := by
  unfold colorAlpPushdata
  split
  · exact ⟨state, rfl, h, Extends.of_same rfl rfl⟩
  · exact ⟨_, rfl, h.congr rfl rfl, Extends.of_same rfl rfl⟩
  rename_i parsed hparse
  rcases Alp.parseSection_proper hparse with ⟨hproper, halp⟩
  rcases colorSection_safe h.sound hfirst hproper state.maxTokenType with
    ⟨tokenType, result, hcolor, hcolors, _⟩
  dsimp only
  rw [hcolor]
  cases result with
  | ok colored =>
    exact ⟨_, rfl, h.colors halp (hcolors colored rfl), (hcolors colored rfl).extends_⟩
  | error error => exact ⟨_, rfl, h.congr rfl rfl, Extends.of_same rfl rfl⟩

/-- Only the first pushdata can be a GENESIS, and it meets no other section. -/
theorem colorAllAlpPushdata_sound (pushdata : List Bytes)
    (h : AlpSound txid numOutputs state.colored)
    (hfirst : pushdataIdx = 0 -> state.colored.sections = []) :
    exists state', colorAllAlpPushdata txid pushdataIdx pushdata state = .ok state' ∧
      AlpSound txid numOutputs state'.colored ∧ Extends state.colored state'.colored := by
  induction pushdata generalizing pushdataIdx state with
  | nil => exact ⟨state, rfl, h, Extends.of_same rfl rfl⟩
  | cons head rest ih =>
    rcases colorAlpPushdata_sound h hfirst head with ⟨_, hstep, hmid, hextends⟩
    rcases ih hmid (fun hzero => absurd hzero (Nat.succ_ne_zero pushdataIdx)) with
      ⟨last, hrest, hlast, hextends'⟩
    refine ⟨last, ?_, hlast, hextends.trans hextends'⟩
    unfold colorAllAlpPushdata
    rw [hstep]
    exact hrest

/-!
Colouring an SLP transaction always succeeds: it is the only section, all
outputs are free, and SLP may colour outputs that do not exist.
-/

theorem not_obstructed_uncolored (tx : Tx) (halp : tokenMeta.tokenType.isAlp = false) :
    ¬ Obstructed (uncolored tx) tokenMeta 0
  | .colored _ h => nomatch (mem_replicate.mp h).2
  | .alp h => nomatch halp.symm.trans h
  | .sections _ h => nomatch h
  | .burns h => h rfl
  | .late h => h rfl

theorem sound_of_uncolored (txid : TxId) (tx : Tx) (hsections : colored.sections = [])
    (houtputs : colored.outputs = (uncolored tx).outputs) :
    AlpSound txid tx.outputs.length colored where
  length := by
    rw [houtputs]
    exact length_replicate
  sound := by
    apply sound_of_no_sections txid hsections
    intro o ho
    rw [houtputs] at ho
    cases (mem_replicate.mp ho).2
  alp := by
    rw [hsections]
    nofun

/-- The invariant of a coloured transaction: an SLP section is the only one. -/
structure TxSound (txid : TxId) (numOutputs : Nat) (tx : ColoredTx) : Prop where
  sound : Sound txid tx
  length : tx.outputs.length = numOutputs
  protocol : (forall sec, sec ∈ tx.sections -> sec.tokenMeta.tokenType.isAlp = true) ∨
    tx.sections.length ≤ 1

theorem AlpSound.txSound (h : AlpSound txid numOutputs tx) : TxSound txid numOutputs tx :=
  { sound := h.sound, length := h.length, protocol := .inl h.alp }

theorem unparsed_sound (tx : Tx) (opReturn : Script) (error : ParseError) :
    TxSound tx.txid tx.outputs.length (unparsed tx opReturn error) := by
  apply AlpSound.txSound
  exact sound_of_uncolored tx.txid tx rfl rfl

theorem colorTxSlp_sound (tx : Tx) {script : Script} {parsed : ParsedData}
    (hparse : Slp.parse tx.txid script = .ok (some parsed)) :
    exists tokenType colored,
      (uncolored tx).colorSection 0 parsed 0 = .ok (tokenType, .ok colored) ∧
        TxSound tx.txid tx.outputs.length colored := by
  rcases Slp.parse_proper hparse with ⟨hproper, halp⟩
  have hstart : AlpSound tx.txid tx.outputs.length (uncolored tx) :=
    sound_of_uncolored tx.txid tx rfl rfl
  rcases colorSection_safe hstart.sound (fun _ => rfl) hproper 0 with
    ⟨tokenType, result, hcolor, hcolors, hfails⟩
  cases result with
  | error error =>
    rcases hfails error rfl with hdescending | hobstructed
    · exact absurd hdescending (by simp)
    · exact absurd hobstructed (not_obstructed_uncolored tx halp)
  | ok colored =>
    have hcolored := hcolors colored rfl
    rcases hcolored.painted with ⟨_, hpainted⟩
    refine ⟨_, colored, hcolor, hcolored.sound,
      hpainted.length_eq.symm.trans hstart.length, .inr ?_⟩
    rcases hcolored.sections with hsame | ⟨_, hnew, _⟩
    · rw [hsame]
      exact Nat.zero_le 1
    · rw [hnew]
      exact Nat.le_refl 1

theorem colorTxAlp_sound (tx : Tx) (opReturn : Script) :
    exists result, colorTxAlp tx opReturn = .ok result ∧
      forall colored, result = some colored -> TxSound tx.txid tx.outputs.length colored := by
  unfold colorTxAlp
  split
  · exact ⟨none, rfl, nofun⟩
  · refine ⟨_, rfl, ?_⟩
    intro colored hcolored
    cases hcolored
    exact unparsed_sound tx opReturn _
  · rename_i pushdata _
    let start : AlpState :=
      { colored := uncolored tx, maxTokenType := 0, hasAnyAlp := false }
    have hstart : AlpSound tx.txid tx.outputs.length start.colored :=
      sound_of_uncolored tx.txid tx rfl rfl
    rcases colorAllAlpPushdata_sound pushdata hstart (fun _ => rfl) with ⟨_, hstate, hsound, _⟩
    rw [hstate]
    refine ⟨_, rfl, ?_⟩
    intro colored hcolored
    split at hcolored
    · cases hcolored
      exact hsound.txSound
    · cases hcolored

theorem colorTxOpreturn_sound (tx : Tx) :
    exists result, colorTxOpreturn tx = .ok result ∧
      forall colored, result = some colored -> TxSound tx.txid tx.outputs.length colored := by
  unfold colorTxOpreturn
  split
  · exact ⟨none, rfl, nofun⟩
  rename_i opReturn _
  split
  · split
    · rename_i parsed hparse
      rcases colorTxSlp_sound tx hparse with ⟨_, colored, hcolor, hsound⟩
      rw [hcolor]
      refine ⟨some colored, rfl, ?_⟩
      intro c hc
      cases hc
      exact hsound
    · exact colorTxAlp_sound tx opReturn
    · refine ⟨_, rfl, ?_⟩
      intro colored hcolored
      cases hcolored
      exact unparsed_sound tx opReturn _
  · exact ⟨none, rfl, nofun⟩

theorem colorTx_sound {tx : Tx} (hcash : CashTokens.hasAnyPrefixToken tx = false) :
    exists result, colorTx tx = .ok result ∧
      forall colored, result = some colored -> TxSound tx.txid tx.outputs.length colored := by
  rcases colorTxOpreturn_sound tx with ⟨result, hresult, hsound⟩
  refine ⟨result, ?_, hsound⟩
  unfold colorTx
  rw [hresult, hcash]
  rfl

end ColoredTx

end ECash.Tokens
