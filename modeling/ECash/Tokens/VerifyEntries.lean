import ECash.Tokens.ColorInvariant
import ECash.Tokens.Verify

/-!
# The entries of a verified transaction

The first entries are those of the sections; verification appends entries for
other tokens but never changes what it said about a section.
-/

namespace ECash.Tokens

open Foundation List Function

namespace VerifyContext

/-!
## The shape of the entry list
-/

/-- Nothing but the reports of failed colourings differs. -/
def SameVerdict (e e' : TokenTxEntry) : Prop :=
  e' = { e with failedColorings := e'.failedColorings }

theorem SameVerdict.trans {a b c : TokenTxEntry} (hab : SameVerdict a b)
    (hbc : SameVerdict b c) : SameVerdict a c := by
  unfold SameVerdict at hab hbc ⊢
  rw [hbc, hab]

theorem map_tokenMeta_of_sameVerdict {xs ys : List TokenTxEntry} (h : Forall₂ SameVerdict xs ys) :
    ys.map TokenTxEntry.tokenMeta = xs.map TokenTxEntry.tokenMeta := by
  induction h with
  | nil => rfl
  | cons hxy _ ih => rw [map_cons, map_cons, ih, hxy]

/-- Entries of tokens that have no section, with the amount burned of each. -/
structure Extras (taken : List TokenMeta) (burned : TokenMeta -> Nat)
    (extras : List TokenTxEntry) : Prop where
  nodup : (extras.map TokenTxEntry.tokenMeta).Nodup
  fresh : forall e, e ∈ extras -> e.tokenMeta ∉ taken
  burned : forall e, e ∈ extras -> e.actualBurnAmount = burned e.tokenMeta
  valid : forall e, e ∈ extras -> e.isInvalid = false ->
    (e.txType = none ∨ e.txType = some .burn) ∧ e.genesisInfo = none

/-- The entries are those of the sections followed by extra ones. -/
structure Shape (verified : List TokenTxEntry) (burned : TokenMeta -> Nat)
    (entries : List TokenTxEntry) : Prop where
  split : exists head extras, entries = head ++ extras ∧ Forall₂ SameVerdict verified head ∧
    Extras (verified.map TokenTxEntry.tokenMeta) burned extras

theorem shape_start (verified : List TokenTxEntry) : Shape verified (fun _ => 0) verified :=
  { split := ⟨verified, [], (append_nil verified).symm,
      forall₂_same.mpr fun _ _ => rfl,
      { nodup := nodup_nil
        fresh := forall_mem_nil _
        burned := forall_mem_nil _
        valid := forall_mem_nil _ }⟩ }

variable {taken : List TokenMeta} {burned : TokenMeta -> Nat} {extras : List TokenTxEntry}
  {e : TokenTxEntry} {m : TokenMeta} {bareBurns : BareBurns} {tx : ColoredTx}

theorem Extras.push (h : Extras taken burned extras) (hfresh : e.tokenMeta ∉ taken)
    (hnew : e.tokenMeta ∉ extras.map TokenTxEntry.tokenMeta)
    (hburned : e.actualBurnAmount = burned e.tokenMeta) (hvalid : e.isInvalid = false ->
      (e.txType = none ∨ e.txType = some .burn) ∧ e.genesisInfo = none) :
    Extras taken burned (extras ++ [e]) where
  nodup := by
    rw [map_append]
    exact Nodup.append h.nodup (nodup_singleton _) (disjoint_singleton.mpr hnew)
  fresh := forall_mem_append.mpr ⟨h.fresh, forall_mem_singleton.mpr hfresh⟩
  burned := forall_mem_append.mpr ⟨h.burned, forall_mem_singleton.mpr hburned⟩
  valid := forall_mem_append.mpr ⟨h.valid, forall_mem_singleton.mpr hvalid⟩

theorem Extras.update {burned' : TokenMeta -> Nat} (h : Extras taken burned extras)
    {k : TokenMeta} (hk : k ∈ extras.map TokenTxEntry.tokenMeta)
    {update : TokenTxEntry -> TokenTxEntry} {new : TokenTxEntry}
    (hmeta : forall e, (update e).tokenMeta = e.tokenMeta)
    (hsame : forall m, m ≠ k -> burned' m = burned m)
    (hburned : forall e, e ∈ extras -> e.tokenMeta = k -> (update e).actualBurnAmount = burned' k)
    (hvalid : forall e, (update e).isInvalid = false ->
      e.isInvalid = false ∧ (update e).txType = e.txType ∧ (update e).genesisInfo = e.genesisInfo) :
    Extras taken burned' (updateOrPush TokenTxEntry.tokenMeta k update new extras) where
  nodup := by
    rw [map_updateOrPush_of_mem hk hmeta]
    exact h.nodup
  fresh := by
    intro x hx
    rcases mem_updateOrPush h.nodup hk hx with ⟨hmem, _⟩ | ⟨e, hmem, _, rfl⟩
    · exact h.fresh x hmem
    · rw [hmeta]
      exact h.fresh e hmem
  burned := by
    intro x hx
    rcases mem_updateOrPush h.nodup hk hx with ⟨hmem, hne⟩ | ⟨e, hmem, hek, rfl⟩
    · rw [h.burned x hmem, hsame _ hne]
    · rw [hburned e hmem hek, hmeta, hek]
  valid := by
    intro x hx hx'
    rcases mem_updateOrPush h.nodup hk hx with ⟨hmem, _⟩ | ⟨e, hmem, _, rfl⟩
    · exact h.valid x hmem hx'
    · rcases hvalid e hx' with ⟨hinvalid, htype, hinfo⟩
      rw [htype, hinfo]
      exact h.valid e hmem hinvalid

/-!
## The loops of verification keep the shape
-/

variable {verified entries : List TokenTxEntry}

theorem Shape.mem_map (h : Shape verified burned entries)
    (hm : m ∈ verified.map TokenTxEntry.tokenMeta) : m ∈ entries.map TokenTxEntry.tokenMeta := by
  rcases h.split with ⟨_, _, hentries, hhead, _⟩
  rw [hentries, map_append, map_tokenMeta_of_sameVerdict hhead]
  exact mem_append_left _ hm

theorem shape_addIntentionalBurn (h : Shape verified (fun _ => 0) entries)
    (burn : IntentionalBurn) : Shape verified (fun _ => 0) (addIntentionalBurn entries burn) := by
  unfold addIntentionalBurn
  split
  · exact h
  rename_i hnone
  have hnew : burn.tokenMeta ∉ entries.map TokenTxEntry.tokenMeta := by
    intro hmem
    rcases mem_map.mp hmem with ⟨e, he, hmeta⟩
    apply hnone
    rw [any_eq_true]
    exact ⟨e, he, decide_eq_true (congrArg TokenMeta.tokenId hmeta)⟩
  have hfresh := fun hm => hnew (h.mem_map hm)
  rcases h.split with ⟨head, extras, hentries, hhead, hextras⟩
  refine { split := ⟨head, extras ++ [intentionalBurnEntry burn], ?_, hhead, ?_⟩ }
  · rw [hentries, append_assoc]
  · refine hextras.push hfresh ?_ rfl (fun _ => ⟨.inr rfl, rfl⟩)
    intro hmem
    apply hnew
    rw [hentries, map_append]
    exact mem_append_right _ hmem

theorem shape_addFailedColoring (h : Shape verified (fun _ => 0) entries)
    (failedColoring : FailedColoring) :
    Shape verified (fun _ => 0) (addFailedColoring entries failedColoring) := by
  rcases h.split with ⟨head, extras, hentries, hhead, hextras⟩
  unfold addFailedColoring
  rw [hentries]
  by_cases hsec : failedColoring.parsed.tokenMeta ∈ head.map TokenTxEntry.tokenMeta
  · rw [updateOrPush_append_of_mem hsec]
    refine { split := ⟨_, extras, rfl, ?_, hextras⟩ }
    refine forall₂_trans hhead ?_ fun _ _ _ => SameVerdict.trans
    exact updateOrPush_forall₂ hsec (fun _ => rfl) (fun _ => rfl)
  · rw [updateOrPush_append_of_notMem hsec]
    refine { split := ⟨head, _, rfl, hhead, ?_⟩ }
    by_cases hextra : failedColoring.parsed.tokenMeta ∈ extras.map TokenTxEntry.tokenMeta
    · exact hextras.update hextra (fun _ => rfl) (fun _ _ => rfl)
        (fun e he _ => hextras.burned e he) (fun e he => ⟨he, rfl, rfl⟩)
    · rw [updateOrPush_of_notMem hextra]
      refine hextras.push ?_ hextra rfl nofun
      rw [← map_tokenMeta_of_sameVerdict hhead]
      exact hsec

theorem shape_applyBareBurn (h : Shape verified burned entries) {bareBurn : TokenMeta × BareBurn}
    (hfresh : bareBurn.1 ∉ verified.map TokenTxEntry.tokenMeta) :
    Shape verified (Function.update burned bareBurn.1 bareBurn.2.burnAmount)
      (applyBareBurn entries bareBurn) := by
  rcases h.split with ⟨head, extras, hentries, hhead, hextras⟩
  have hsec : bareBurn.1 ∉ head.map TokenTxEntry.tokenMeta := by
    rw [map_tokenMeta_of_sameVerdict hhead]
    exact hfresh
  unfold applyBareBurn
  rw [hentries, updateOrPush_append_of_notMem hsec]
  refine { split := ⟨head, _, rfl, hhead, ?_⟩ }
  have hother : forall m, m ≠ bareBurn.1 ->
      update burned bareBurn.1 bareBurn.2.burnAmount m = burned m :=
    fun m hm => update_of_ne hm _ _
  by_cases hextra : bareBurn.1 ∈ extras.map TokenTxEntry.tokenMeta
  · refine hextras.update hextra (fun _ => rfl) hother ?_ ?_
    · intro e _ _
      rw [update_self]
      rfl
    · intro e he
      unfold withBareBurn at he
      split at he
      · cases he
      · exact ⟨he, rfl, rfl⟩
  · rw [updateOrPush_of_notMem hextra]
    have hkept : Extras (verified.map TokenTxEntry.tokenMeta)
        (update burned bareBurn.1 bareBurn.2.burnAmount) extras :=
      { hextras with
        burned := by
          intro e he
          rw [hextras.burned e he, hother]
          intro hmeta
          exact hextra (hmeta ▸ mem_map_of_mem he) }
    refine hkept.push hfresh hextra ?_ (fun _ => ⟨.inl rfl, rfl⟩)
    exact (update_self bareBurn.1 bareBurn.2.burnAmount burned).symm

/-!
## Amounts of bare burns

The map of bare burns has one entry for each input token that no section
mentions, with the sum of its input amounts.
-/

def burnedIn (bareBurns : BareBurns) (m : TokenMeta) : Nat :=
  (bareBurns.map fun b => if b.1 = m then b.2.burnAmount else 0).sum

def inputAmount (m : TokenMeta) (inputs : List (Option SpentToken)) : Nat :=
  ((inputs.reduceOption.filter fun spentToken =>
    spentToken.token.tokenMeta = m).map fun spentToken =>
      spentToken.token.variant.amountOf).sum

@[simp] theorem inputAmount_nil (m : TokenMeta) : inputAmount m [] = 0 := rfl

@[simp] theorem inputAmount_some (m : TokenMeta) (spentToken : SpentToken)
    (inputs : List (Option SpentToken)) :
    inputAmount m (some spentToken :: inputs) =
      (if spentToken.token.tokenMeta = m then spentToken.token.variant.amountOf else 0) +
        inputAmount m inputs := by
  unfold inputAmount
  by_cases h : spentToken.token.tokenMeta = m
  · simp [h]
  · simp [h]

def keys (bareBurns : BareBurns) : List TokenMeta :=
  bareBurns.map Prod.fst

theorem insertBareBurn_perm (m : TokenMeta) (burn : BareBurn) (bareBurns : BareBurns) :
    (insertBareBurn m burn bareBurns).Perm ((m, burn) :: bareBurns) := by
  induction bareBurns with
  | nil => exact Perm.refl _
  | cons head rest ih =>
    unfold insertBareBurn
    split
    · exact Perm.refl _
    · exact (ih.cons head).trans (Perm.swap _ _ _)

theorem burnedIn_eq_zero (h : m ∉ keys bareBurns) : burnedIn bareBurns m = 0 := by
  apply sum_eq_zero
  intro n hn
  rcases mem_map.mp hn with ⟨_, hb, rfl⟩
  rw [if_neg]
  intro hm
  exact h (hm ▸ mem_map_of_mem hb)

section BareBurn

variable (k : TokenMeta)

theorem orInsertBareBurn_spec (burn : BareBurn) (hzero : burn.burnAmount = 0)
    (hnodup : (keys bareBurns).Nodup) :
    (keys (orInsertBareBurn bareBurns k burn)).Nodup ∧
      (forall m, m ∈ keys (orInsertBareBurn bareBurns k burn) <-> m = k ∨ m ∈ keys bareBurns) ∧
      forall m, burnedIn (orInsertBareBurn bareBurns k burn) m = burnedIn bareBurns m := by
  unfold orInsertBareBurn
  split
  · rename_i hany
    rcases any_eq_true.mp hany with ⟨b, hb, hbk⟩
    have hk : k ∈ keys bareBurns := of_decide_eq_true hbk ▸ mem_map_of_mem hb
    refine ⟨hnodup, ?_, fun _ => rfl⟩
    intro m
    constructor
    · exact .inr
    · rintro (hm | hm)
      · exact hm ▸ hk
      · exact hm
  · rename_i hany
    have hk : k ∉ keys bareBurns := by
      intro hmem
      rcases mem_map.mp hmem with ⟨b, hb, hbk⟩
      exact hany (any_eq_true.mpr ⟨b, hb, decide_eq_true hbk⟩)
    have hperm := insertBareBurn_perm k burn bareBurns
    have hkeys : (keys (insertBareBurn k burn bareBurns)).Perm (k :: keys bareBurns) :=
      hperm.map Prod.fst
    refine ⟨hkeys.nodup_iff.mpr (nodup_cons.mpr ⟨hk, hnodup⟩), ?_, ?_⟩
    · intro m
      rw [hkeys.mem_iff, mem_cons]
    · intro m
      have hsum := (hperm.map fun b => if b.1 = m then b.2.burnAmount else 0).sum_eq
      unfold burnedIn
      rw [hsum, map_cons, hzero]
      simp

@[simp] theorem keys_modifyBareBurn (update : BareBurn -> BareBurn) :
    keys (modifyBareBurn bareBurns k update) = keys bareBurns := by
  unfold keys modifyBareBurn
  rw [map_map]
  apply map_congr_left
  intro b _
  show (if b.1 = k then (b.1, update b.2) else b).1 = b.1
  split <;> rfl

theorem burnVariant_burnAmount (variant : TokenVariant) (burn : BareBurn) :
    (burnVariant variant burn).burnAmount = burn.burnAmount + variant.amountOf := by
  cases variant <;> rfl

theorem burnedIn_modifyBareBurn_ne (hm : k ≠ m) (update : BareBurn -> BareBurn) :
    burnedIn (modifyBareBurn bareBurns k update) m = burnedIn bareBurns m := by
  unfold burnedIn modifyBareBurn
  rw [map_map]
  congr 1
  apply map_congr_left
  intro b _
  by_cases hb : b.1 = k
  · simp [hb, hm]
  · simp [hb]

theorem burnedIn_cons (b : TokenMeta × BareBurn) (rest : BareBurns) (m : TokenMeta) :
    burnedIn (b :: rest) m = (if b.1 = m then b.2.burnAmount else 0) + burnedIn rest m := rfl

theorem burnedIn_modifyBareBurn_self (hnodup : (keys bareBurns).Nodup)
    (hk : k ∈ keys bareBurns) (variant : TokenVariant) :
    burnedIn (modifyBareBurn bareBurns k (burnVariant variant)) k =
      burnedIn bareBurns k + variant.amountOf := by
  induction bareBurns with
  | nil => cases hk
  | cons b rest ih =>
    have hsplit := nodup_cons.mp hnodup
    change burnedIn ((if b.1 = k then (b.1, burnVariant variant b.2) else b) ::
      modifyBareBurn rest k _) k = _
    rw [burnedIn_cons, burnedIn_cons]
    by_cases hb : b.1 = k
    · have hrest : k ∉ keys rest := hb ▸ hsplit.left
      rw [if_pos hb, if_pos hb, if_pos hb, burnVariant_burnAmount,
        burnedIn_eq_zero hrest, burnedIn_eq_zero (by rw [keys_modifyBareBurn]; exact hrest)]
      rfl
    · have hrest : k ∈ keys rest := mem_of_ne_of_mem (Ne.symm hb) hk
      rw [if_neg hb, ih hsplit.right hrest, add_assoc]

end BareBurn

/-!
One input adds its amount to the bare burns, unless a section mentions its token
or it is the exempt first input.
-/

def NoSection (tx : ColoredTx) (m : TokenMeta) : Prop :=
  forall sec, sec ∈ tx.sections -> sec.tokenMeta ≠ m

/-- The bare burns after some inputs, given those before them. -/
structure BurnsInputs (tx : ColoredTx) (before after : BareBurns)
    (inputs : List (Option SpentToken)) (counted : List (Option SpentToken)) : Prop where
  nodup : (keys after).Nodup
  keys_iff : forall m, m ∈ keys after <-> m ∈ keys before ∨
    (NoSection tx m ∧ exists s, some s ∈ inputs ∧ s.token.tokenMeta = m)
  burned : forall m, NoSection tx m -> burnedIn after m = burnedIn before m + inputAmount m counted

theorem noSection_iff :
    NoSection tx m <-> ¬ (tx.sections.any fun sec => sec.tokenMeta = m) = true := by
  simp [NoSection]

variable {before : BareBurns}

theorem BurnsInputs.refl (hnodup : (keys bareBurns).Nodup)
    {inputs counted : List (Option SpentToken)}
    (hkeys : forall s, some s ∈ inputs -> ¬ NoSection tx s.token.tokenMeta)
    (hzero : forall m, NoSection tx m -> inputAmount m counted = 0) :
    BurnsInputs tx bareBurns bareBurns inputs counted where
  nodup := hnodup
  keys_iff := by
    intro m
    constructor
    · exact .inl
    · rintro (hm | ⟨hno, s, hs, rfl⟩)
      · exact hm
      · exact absurd hno (hkeys s hs)
  burned := by
    intro m hno
    rw [hzero m hno, add_zero]

theorem addBareBurn_spec (tx : ColoredTx) (entries : List TokenTxEntry) (inputIdx : Nat)
    (s : SpentToken) (hnodup : (keys before).Nodup) :
    BurnsInputs tx before (addBareBurn tx entries inputIdx s before) [some s]
      (if inputIdx = 0 ∧ isNft1ChildGenesis entries then [] else [some s]) := by
  unfold addBareBurn
  dsimp only
  split
  · rename_i hany
    have hmentioned : ¬ NoSection tx s.token.tokenMeta := fun hno => noSection_iff.mp hno hany
    refine BurnsInputs.refl hnodup ?_ ?_
    · intro s' hs'
      cases mem_singleton.mp hs'
      exact hmentioned
    · intro m hno
      have hne : s.token.tokenMeta ≠ m := fun heq => hmentioned (heq ▸ hno)
      split
      · rfl
      · rw [inputAmount_some, if_neg hne]
        rfl
  · rename_i hany
    have hno := noSection_iff.mpr hany
    rcases orInsertBareBurn_spec s.token.tokenMeta
      { burnAmount := 0, burnsMintBatons := false, groupTokenMeta := s.groupTokenMeta,
        isInvalid := false } rfl hnodup with ⟨hnodup', hkeys, hburned⟩
    have hmem : forall m, (m = s.token.tokenMeta ∨ m ∈ keys before) <->
        (m ∈ keys before ∨ (NoSection tx m ∧
          exists s', some s' ∈ [some s] ∧ s'.token.tokenMeta = m)) := by
      intro m
      constructor
      · rintro (rfl | hm)
        · exact .inr ⟨hno, s, mem_singleton_self _, rfl⟩
        · exact .inl hm
      · rintro (hm | ⟨_, s', hs', rfl⟩)
        · exact .inr hm
        · cases mem_singleton.mp hs'
          exact .inl rfl
    split
    · refine { nodup := hnodup', keys_iff := ?_, burned := ?_ }
      · intro m
        rw [hkeys, hmem]
      · intro m _
        exact hburned m
    · refine { nodup := ?_, keys_iff := ?_, burned := ?_ }
      · rw [keys_modifyBareBurn]
        exact hnodup'
      · intro m
        rw [keys_modifyBareBurn, hkeys, hmem]
      intro m _
      rw [inputAmount_some]
      by_cases hm : s.token.tokenMeta = m
      · subst hm
        rw [burnedIn_modifyBareBurn_self _ hnodup' ((hkeys _).mpr (.inl rfl)), hburned, if_pos rfl]
        rfl
      · rw [burnedIn_modifyBareBurn_ne _ hm, hburned, if_neg hm]
        rfl

theorem BurnsInputs.cons {mid after : BareBurns} {input : Option SpentToken}
    {rest counted counted' : List (Option SpentToken)}
    (hfirst : BurnsInputs tx before mid [input] counted)
    (hrest : BurnsInputs tx mid after rest counted') :
    BurnsInputs tx before after (input :: rest) (counted ++ counted') where
  nodup := hrest.nodup
  keys_iff := by
    intro m
    rw [hrest.keys_iff, hfirst.keys_iff]
    constructor
    · rintro ((hm | ⟨hno, s, hs, hmeta⟩) | ⟨hno, s, hs, hmeta⟩)
      · exact .inl hm
      · exact .inr ⟨hno, s, mem_cons.mpr (.inl (mem_singleton.mp hs)), hmeta⟩
      · exact .inr ⟨hno, s, mem_cons_of_mem input hs, hmeta⟩
    · rintro (hm | ⟨hno, s, hs, hmeta⟩)
      · exact .inl (.inl hm)
      · rcases mem_cons.mp hs with hhead | htail
        · exact .inl (.inr ⟨hno, s, mem_singleton.mpr hhead, hmeta⟩)
        · exact .inr ⟨hno, s, htail, hmeta⟩
  burned := by
    intro m hno
    have happend : inputAmount m (counted ++ counted') =
        inputAmount m counted + inputAmount m counted' := by
      unfold inputAmount
      rw [reduceOption_append, filter_append, map_append, sum_append]
    rw [hrest.burned m hno, hfirst.burned m hno, happend, add_assoc]

theorem burnsInputs_none (tx : ColoredTx) (hnodup : (keys bareBurns).Nodup) :
    BurnsInputs tx bareBurns bareBurns [none] [none] :=
  BurnsInputs.refl hnodup (by simp) fun _ _ => rfl

theorem addBareBurns_spec (tx : ColoredTx) (entries : List TokenTxEntry)
    (inputs : List (Option SpentToken)) {inputIdx : Nat} (hidx : inputIdx ≠ 0)
    (hnodup : (keys before).Nodup) :
    BurnsInputs tx before (addBareBurns tx entries inputIdx inputs before) inputs inputs := by
  induction inputs generalizing inputIdx before with
  | nil => exact BurnsInputs.refl hnodup (by simp) fun _ _ => rfl
  | cons input rest ih =>
    cases input with
    | none => exact (burnsInputs_none tx hnodup).cons (ih (Nat.succ_ne_zero inputIdx) hnodup)
    | some s =>
      have hfirst := addBareBurn_spec tx entries inputIdx s hnodup
      rw [if_neg (fun h => hidx h.left)] at hfirst
      exact hfirst.cons (ih (Nat.succ_ne_zero inputIdx) hfirst.nodup)

def exemptAmount (ctx : VerifyContext) (entries : List TokenTxEntry) (m : TokenMeta) : Nat :=
  if isNft1ChildGenesis entries then inputAmount m (ctx.spentTokens.take 1) else 0

theorem calcBareBurns_spec (ctx : VerifyContext) (tx : ColoredTx) (entries : List TokenTxEntry) :
    exists counted, BurnsInputs tx [] (ctx.calcBareBurns tx entries) ctx.spentTokens counted ∧
      forall m, inputAmount m counted + ctx.exemptAmount entries m = ctx.calcInputSum m := by
  have hempty : (keys []).Nodup := nodup_nil
  unfold calcBareBurns exemptAmount calcInputSum
  generalize ctx.spentTokens = inputs
  cases inputs with
  | nil =>
    refine ⟨[], BurnsInputs.refl hempty (by simp) fun _ _ => rfl, ?_⟩
    intro m
    split <;> rfl
  | cons input rest =>
    cases input with
    | none =>
      refine ⟨_, (burnsInputs_none tx hempty).cons
        (addBareBurns_spec tx entries rest Nat.one_ne_zero hempty), ?_⟩
      intro m
      split <;> rfl
    | some s =>
      have hfirst := addBareBurn_spec tx entries 0 s hempty
      refine ⟨_, hfirst.cons (addBareBurns_spec tx entries rest Nat.one_ne_zero hfirst.nodup), ?_⟩
      intro m
      show _ = inputAmount m (some s :: rest)
      cases hchild : isNft1ChildGenesis entries with
      | true => simp [add_comm]
      | false => simp

/-!
## Applying the bare burns
-/

theorem burnedIn_concat (bareBurns : BareBurns) (b : TokenMeta × BareBurn) (m : TokenMeta) :
    burnedIn (bareBurns ++ [b]) m =
      burnedIn bareBurns m + if b.1 = m then b.2.burnAmount else 0 := by
  unfold burnedIn
  rw [map_append, sum_append, map_singleton, sum_singleton]

/-- Along the loop, the amounts burned are those of the bare burns done so far. -/
theorem shape_applyBareBurns (todo : BareBurns) {done : BareBurns}
    (h : Shape verified (burnedIn done) entries) (hnodup : (keys (done ++ todo)).Nodup)
    (hfresh : forall m, m ∈ keys todo -> m ∉ verified.map TokenTxEntry.tokenMeta) :
    Shape verified (burnedIn (done ++ todo)) (todo.foldl applyBareBurn entries) := by
  induction todo generalizing done entries with
  | nil =>
    rw [append_nil]
    exact h
  | cons b rest ih =>
    have hsplit : keys (done ++ b :: rest) = keys done ++ (b.1 :: keys rest) := map_append
    have hdone : b.1 ∉ keys done := by
      rw [hsplit] at hnodup
      intro hmem
      exact disjoint_of_nodup_append hnodup hmem mem_cons_self
    have hstep := shape_applyBareBurn h (hfresh b.1 mem_cons_self)
    have hburned : update (burnedIn done) b.1 b.2.burnAmount = burnedIn (done ++ [b]) := by
      funext m
      rw [burnedIn_concat]
      by_cases hm : b.1 = m
      · rw [← hm, update_self, burnedIn_eq_zero hdone, if_pos rfl, zero_add]
      · rw [update_of_ne (Ne.symm hm), if_neg hm, add_zero]
    rw [hburned] at hstep
    rw [append_cons] at hnodup ⊢
    exact ih hstep hnodup (forall_mem_cons.mp hfresh).2

theorem mem_map_applyBareBurns (bareBurns : BareBurns) :
    m ∈ (bareBurns.foldl applyBareBurn entries).map TokenTxEntry.tokenMeta <->
      m ∈ keys bareBurns ∨ m ∈ entries.map TokenTxEntry.tokenMeta := by
  induction bareBurns generalizing entries with
  | nil => exact (or_iff_right not_mem_nil).symm
  | cons b rest ih =>
    have hstep : m ∈ (applyBareBurn entries b).map TokenTxEntry.tokenMeta <->
        m = b.1 ∨ m ∈ entries.map TokenTxEntry.tokenMeta := by
      unfold applyBareBurn
      rw [mem_map_updateOrPush]
      · rfl
      · intro e
        rfl
    rw [foldl_cons, ih, hstep]
    show _ <-> m ∈ b.1 :: keys rest ∨ _
    rw [mem_cons, or_left_comm, or_assoc]

/-!
## All entries

The entries when the bare burns are calculated, and those of the result.
-/

def burnEntries (tx : ColoredTx) (verified : List TokenTxEntry) : List TokenTxEntry :=
  tx.intentionalBurns.foldl addIntentionalBurn verified

def allEntries (ctx : VerifyContext) (tx : ColoredTx) (verified : List TokenTxEntry) :
    List TokenTxEntry :=
  (ctx.calcBareBurns tx (burnEntries tx verified)).foldl applyBareBurn
    (tx.failedColorings.foldl addFailedColoring (burnEntries tx verified))

theorem shape_burnEntries (tx : ColoredTx) (verified : List TokenTxEntry) :
    Shape verified (fun _ => 0) (burnEntries tx verified) :=
  foldlRecOn _ _ (shape_start verified) fun _ h burn _ => shape_addIntentionalBurn h burn

section AllEntries

variable (ctx : VerifyContext)
  (hmetas : verified.map TokenTxEntry.tokenMeta = tx.sections.map ColoredTxSection.tokenMeta)

include hmetas

theorem noSection_of_notMem (h : m ∉ verified.map TokenTxEntry.tokenMeta) : NoSection tx m := by
  rw [hmetas] at h
  intro sec hsec hmeta
  exact h (hmeta ▸ mem_map_of_mem hsec)

theorem shape_allEntries :
    exists burned, Shape verified burned (ctx.allEntries tx verified) ∧
      forall m, NoSection tx m ->
        burned m + ctx.exemptAmount (burnEntries tx verified) m = ctx.calcInputSum m := by
  rcases ctx.calcBareBurns_spec tx (burnEntries tx verified) with ⟨_, hbare, hsum⟩
  refine ⟨burnedIn (ctx.calcBareBurns tx (burnEntries tx verified)), ?_, ?_⟩
  · have hstart : Shape verified (burnedIn [])
        (tx.failedColorings.foldl addFailedColoring (burnEntries tx verified)) :=
      foldlRecOn _ _ (shape_burnEntries tx verified) fun _ h f _ => shape_addFailedColoring h f
    refine shape_applyBareBurns _ hstart hbare.nodup ?_
    intro m hm hmeta
    rcases (hbare.keys_iff m).mp hm with hnil | ⟨hno, _⟩
    · cases hnil
    · rw [hmetas] at hmeta
      rcases mem_map.mp hmeta with ⟨sec, hsec, hsecMeta⟩
      exact hno sec hsec hsecMeta
  · intro m hno
    rw [hbare.burned m hno, ← hsum m]
    show 0 + _ + _ = _
    rw [zero_add]

theorem mem_allEntries {s : SpentToken} (hs : some s ∈ ctx.spentTokens) :
    s.token.tokenMeta ∈ (ctx.allEntries tx verified).map TokenTxEntry.tokenMeta := by
  rcases shape_allEntries ctx hmetas with ⟨_, hshape, _⟩
  by_cases hsec : s.token.tokenMeta ∈ verified.map TokenTxEntry.tokenMeta
  · exact hshape.mem_map hsec
  · rcases ctx.calcBareBurns_spec tx (burnEntries tx verified) with ⟨_, hbare, _⟩
    unfold allEntries
    rw [mem_map_applyBareBurns]
    exact .inl ((hbare.keys_iff _).mpr (.inr ⟨noSection_of_notMem hmetas hsec, s, hs, rfl⟩))

end AllEntries

/-!
## What verification says of every coloured transaction
-/

variable {ctx : VerifyContext}

/-- The entry names its section. -/
structure Keeps (sec : ColoredTxSection) (e : TokenTxEntry) : Prop where
  tokenMeta : e.tokenMeta = sec.tokenMeta
  txType : e.txType = some sec.txType
  genesisInfo : e.genesisInfo = sec.genesisInfo

theorem verifySection_keeps {sec : ColoredTxSection} (h : ctx.verifySection tx sec = .ok e) :
    Keeps sec e := by
  have hkept : forall e', Keeps sec e' ->
      .ok e' = (.ok e : Except Panic TokenTxEntry) -> Keeps sec e := by
    intro e' he' heq
    cases heq
    exact he'
  unfold verifySection at h
  split at h
  · exact hkept _ ⟨rfl, rfl, rfl⟩ h
  split at h
  · refine hkept _ ?_ h
    unfold verifyGenesis
    split
    · split <;> exact ⟨rfl, rfl, rfl⟩
    · exact ⟨rfl, rfl, rfl⟩
  · unfold verifyMint at h
    split at h
    · rcases bind_eq_ok.mp h with ⟨b, _, hb⟩
      cases b <;> exact hkept _ ⟨rfl, rfl, rfl⟩ hb
    · split at h <;> exact hkept _ ⟨rfl, rfl, rfl⟩ h
  · unfold verifySend at h
    dsimp only at h
    split at h
    · exact hkept _ ⟨rfl, rfl, rfl⟩ h
    · rcases bind_eq_ok.mp h with ⟨_, _, hsum⟩
      split at hsum
      · cases hsum
      · exact hkept _ ⟨rfl, rfl, rfl⟩ hsum
  · exact hkept _ ⟨rfl, rfl, rfl⟩ h
  · cases h

theorem verify_eq_ok {t : TokenTx} : ctx.verify tx = .ok t <->
    exists verified,
      Forall₂ (fun sec e => ctx.verifySection tx sec = .ok e) tx.sections verified ∧
      t.entries = ctx.allEntries tx verified ∧
      Forall₂ (fun old new => verifyOutput t.entries old = .ok new)
        tx.outputs t.outputs ∧ t.failedParsings = tx.failedParsings := by
  unfold verify
  simp only [bind_eq_ok, mapM_eq_ok]
  constructor
  · rintro ⟨verified, hverified, _, houtputs, hreturn⟩
    cases hreturn
    exact ⟨verified, hverified, rfl, houtputs, rfl⟩
  · rintro ⟨verified, hverified, hentries, houtputs, hfailed⟩
    cases t
    cases hentries
    cases hfailed
    exact ⟨verified, hverified, _, houtputs, rfl⟩

end VerifyContext

end ECash.Tokens
