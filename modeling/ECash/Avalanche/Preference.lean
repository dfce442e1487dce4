import ECash.Avalanche.ProofPool

/-!
# Which proof is preferred

Proofs of one master are compared by sequence, all others by what they stake.  Put together, the
two rules can go around in a circle, and then the first conflicting proof does not speak for the
others.
-/

namespace ECash.Avalanche

open List Coins Foundation

def Prefers (lhs rhs : Proof) : Prop := conflictingProofComparator lhs rhs = true

/-- The order of proofs by what they stake. -/
def Outranks (lhs rhs : Proof) : Prop :=
  rhs.getScore < lhs.getScore ∨ lhs.getScore = rhs.getScore ∧
    (lhs.stakes.length < rhs.stakes.length ∨ lhs.stakes.length = rhs.stakes.length ∧
      lhs.proofid < rhs.proofid)

theorem prefers_iff {lhs rhs : Proof} : Prefers lhs rhs <->
    lhs.master = rhs.master ∧ rhs.sequence < lhs.sequence ∨
      Outranks lhs rhs ∧ (lhs.master = rhs.master -> lhs.sequence = rhs.sequence) := by
  unfold Prefers conflictingProofComparator Outranks
  grind

structure StrictTotal (proofs : List Proof) : Prop where
  irreflexive : forall a, a ∈ proofs -> ¬ Prefers a a
  total : forall a, a ∈ proofs -> forall b, b ∈ proofs -> a ≠ b -> Prefers a b ∨ Prefers b a
  transitive : forall a, a ∈ proofs -> forall b, b ∈ proofs -> forall c, c ∈ proofs ->
    Prefers a b -> Prefers b c -> Prefers a c

/-- No proof ranks between two proofs of another master of which the later one ranks lower. -/
def Acyclic (proofs : List Proof) : Prop :=
  forall a, a ∈ proofs -> forall b, b ∈ proofs -> forall c, c ∈ proofs ->
    a.master = b.master -> b.sequence < a.sequence -> c.master ≠ a.master ->
    ¬ (Outranks b c ∧ Outranks c a)

theorem prefers_asymm {a b : Proof} (hab : Prefers a b) (hba : Prefers b a) : False := by
  rw [prefers_iff] at hab hba
  unfold Outranks at hab hba
  grind

section Order

variable {proofs : List Proof} {a b c : Proof} (h : Acyclic proofs) (ha : a ∈ proofs)
  (hb : b ∈ proofs) (hc : c ∈ proofs)

include h ha hb hc

/-- A circle in which a sequence decides has one of the ranks that are ruled out. -/
theorem Acyclic.no_sequence (hmaster : a.master = b.master) (hsequence : b.sequence < a.sequence)
    (hbc : Prefers b c) (hca : Prefers c a) : False := by
  rw [prefers_iff] at hbc hca
  by_cases hother : c.master = a.master
  · grind
  · rcases hbc with ⟨heq, _⟩ | ⟨hbc, _⟩
    · exact hother (heq.symm.trans hmaster.symm)
    rcases hca with ⟨heq, _⟩ | ⟨hca, _⟩
    · exact hother heq
    exact h a ha b hb c hc hmaster hsequence hother ⟨hbc, hca⟩

theorem Acyclic.no_circle (hab : Prefers a b) (hbc : Prefers b c) (hca : Prefers c a) : False := by
  rcases prefers_iff.mp hab with ⟨hmaster, hsequence⟩ | ⟨hab', _⟩
  · exact h.no_sequence ha hb hc hmaster hsequence hbc hca
  rcases prefers_iff.mp hbc with ⟨hmaster, hsequence⟩ | ⟨hbc', _⟩
  · exact h.no_sequence hb hc ha hmaster hsequence hca hab
  rcases prefers_iff.mp hca with ⟨hmaster, hsequence⟩ | ⟨hca', _⟩
  · exact h.no_sequence hc ha hb hmaster hsequence hab hbc
  unfold Outranks at hab' hbc' hca'
  grind

end Order

section Distinct

variable {proofs : List Proof} (hids : (proofs.map Proof.proofid).Nodup)

include hids

theorem prefers_total {a b : Proof} (ha : a ∈ proofs) (hb : b ∈ proofs) (hne : a ≠ b) :
    Prefers a b ∨ Prefers b a := by
  by_contra hnot
  rw [not_or, Prefers, Prefers, Bool.not_eq_true, Bool.not_eq_true] at hnot
  exact hne (inj_on_of_nodup_map hids ha hb (conflictingProofComparator_total hnot.1 hnot.2))

theorem Acyclic.transitive (h : Acyclic proofs) {a b c : Proof} (ha : a ∈ proofs) (hb : b ∈ proofs)
    (hc : c ∈ proofs) (hab : Prefers a b) (hbc : Prefers b c) : Prefers a c := by
  by_cases heq : a = c
  · subst heq
    exact (prefers_asymm hab hbc).elim
  · rcases prefers_total hids ha hc heq with hac | hca
    · exact hac
    · exact (h.no_circle ha hb hc hab hbc hca).elim

theorem strictTotal_iff : StrictTotal proofs <-> Acyclic proofs := by
  constructor
  · rintro h a ha b hb c hc hmaster hsequence hother ⟨hbc, hca⟩
    have hab' := prefers_iff.mpr (.inl ⟨hmaster, hsequence⟩)
    have hbc' := prefers_iff.mpr (.inr ⟨hbc, fun heq => absurd (hmaster.trans heq).symm hother⟩)
    have hca' := prefers_iff.mpr (.inr ⟨hca, fun heq => absurd heq hother⟩)
    exact h.irreflexive a ha
      (h.transitive a ha c hc a ha (h.transitive a ha b hb c hc hab' hbc') hca')
  · intro h
    exact ⟨fun a _ haa => prefers_asymm haa haa, fun _ ha _ hb => prefers_total hids ha hb,
      fun _ ha _ hb _ hc => h.transitive hids ha hb hc⟩

end Distinct

/-!
## Accepting a proof
-/

namespace ProofPool

variable {o : SetOrder} {p : ProofPool} {proof : Proof} {utxos : List OutPoint}
  {conflicts : List Proof}

def Accepts (o : SetOrder) (p : ProofPool) (proof : Proof) : Prop :=
  exists r, p.addProofIfPreferred o proof = .ok r ∧ r.status = .succeed

def PreferredToConflicts (p : ProofPool) (proof : Proof) : Prop :=
  forall entry, entry ∈ p.pool -> entry.utxo ∈ proof.utxos -> Prefers proof entry.proof

/-- Only a proof without a coin that is staked twice is attached without conflicts. -/
theorem nodup_of_attach (h : (attach proof utxos p conflicts).2 = []) :
    conflicts = [] ∧ utxos.Nodup ∧ forall utxo, utxo ∈ utxos -> p.pool.find? utxo = none := by
  induction utxos generalizing p conflicts with
  | nil => exact ⟨h, nodup_nil, nofun⟩
  | cons utxo rest ih =>
    unfold attach at h
    split at h
    · cases (ih h).1
    · rename_i hnone
      rcases ih h with ⟨hnil, hrest, hfree⟩
      have hnew : p.pool.contains utxo = false := congrArg Option.isSome hnone
      have hfree' : forall other, other ∈ rest -> forall entry,
          entry ∈ p.pool.insert ⟨utxo, proof⟩ -> entry.utxo ≠ other :=
        fun other hother => IndexedSet.find?_eq_none.mp (hfree other hother)
      refine ⟨hnil, nodup_cons.mpr ⟨?_, hrest⟩, forall_mem_cons.mpr ⟨hnone, ?_⟩⟩
      · intro hmem
        exact hfree' utxo hmem ⟨utxo, proof⟩ (IndexedSet.mem_insert.mpr (.inr ⟨rfl, hnew⟩)) rfl
      · intro other hother
        exact IndexedSet.find?_eq_none.mpr fun entry hentry =>
          hfree' other hother entry (IndexedSet.mem_insert.mpr (.inl hentry))

theorem nodup_of_succeed {r : AddProofResult} (h : p.addProofIfNoConflict o proof = .ok r)
    (hr : r.status = .succeed) : proof.utxos.Nodup := by
  unfold addProofIfNoConflict at h
  dsimp only at h
  split_ifs at h with hdup hsome
  · cases h
    cases hr
  · rcases bind_eq_ok.mp h with ⟨_, _, h⟩
    cases h
    cases hr
  · have hnone : (attach proof proof.utxos p []).2 = [] := by
      apply eq_nil_iff_forall_not_mem.mpr
      intro c hc
      rcases o.exists_mem hc with ⟨_, hc', _⟩
      rw [not_not.mp hsome] at hc'
      cases hc'
    exact (nodup_of_attach hnone).2.1

theorem Accepts.nodup (h : p.Accepts o proof) : proof.utxos.Nodup := by
  rcases h with ⟨_, hr, hstatus⟩
  rcases bind_eq_ok.mp hr with ⟨_, hfirst, hr⟩
  split_ifs at hr with hkeep
  · cases hr
    exact nodup_of_succeed hfirst hstatus
  · rcases bind_eq_ok.mp hr with ⟨_, hsecond, hr⟩
    split_ifs at hr with hsucceed
    exact nodup_of_succeed hsecond hsucceed

/-- The first proof is preferred over the others. -/
def Led : ConflictingProofSet -> Prop
  | [] => True
  | first :: rest => forall c, c ∈ rest -> Prefers first c

section Preferred

variable {proofs : List Proof} (h : StrictTotal proofs)

include h

theorem inserts_led {set set' : ConflictingProofSet} (hinserts : Inserts proof set set')
    (hled : Led set) (hproof : proof ∈ proofs) (hmem : forall c, c ∈ set -> c ∈ proofs) :
    Led set' := by
  cases hinserts with
  | present _ _ _ _ => exact hled
  | added before after hbefore hafter =>
    cases before with
    | nil =>
      cases after with
      | nil => exact nofun
      | cons next rest =>
        have hnext := hafter next rfl
        exact forall_mem_cons.mpr ⟨hnext, fun c hc =>
          h.transitive _ hproof _ (hmem next mem_cons_self) _ (hmem c (mem_cons_of_mem next hc))
            hnext (hled c hc)⟩
    | cons first rest =>
      have hfirst : Prefers first proof := by
        cases hlast : rest.getLast? with
        | none => exact (hbefore first (by rw [getLast?_cons, hlast]; rfl)).2
        | some last =>
          have hrest := mem_of_getLast? hlast
          exact h.transitive _ (hmem first mem_cons_self) _
            (hmem last (mem_cons_of_mem first (mem_append_left after hrest))) _ hproof
            (hled last (mem_append_left after hrest))
            (hbefore last (by rw [getLast?_cons, hlast]; rfl)).2
      intro c hc
      rcases mem_append.mp hc with hc | hc
      · exact hled c (mem_append_left after hc)
      rcases mem_cons.mp hc with rfl | hc
      · exact hfirst
      · exact hled c (mem_append_right rest hc)

theorem iterate_led {inserted : List Proof} (hmem : forall c, c ∈ inserted -> c ∈ proofs) :
    Led (o.iterate inserted) := by
  induction inserted with
  | nil =>
    rw [o.empty]
    trivial
  | cons proof rest ih =>
    rcases forall_mem_cons.mp hmem with ⟨hproof, hrest⟩
    exact inserts_led h (o.insert proof rest) (ih hrest) hproof fun c hc =>
      hrest c (SetOrder.mem hc)

theorem accepts_iff (o : SetOrder) (hproof : proof ∈ proofs)
    (hids : (proofs.map Proof.proofid).Nodup) (hdistinct : proof.utxos.Nodup)
    (hpool : forall entry, entry ∈ p.pool -> entry.proof ∈ proofs)
    (hfresh : p.containsProof proof.proofid = false) :
    p.Accepts o proof <-> p.PreferredToConflicts proof := by
  have hconflicts := attach_conflicts o proof hdistinct p
  have hled : Led (o.iterate (attach proof proof.utxos p []).2) := by
    apply iterate_led h
    intro c hc
    rcases attach_conflicts_mem hdistinct hc with hnil | ⟨entry, hentry, _, rfl⟩
    · cases hnil
    · exact hpool entry hentry
  have hfirst : p.addProofIfNoConflict o proof = _ := if_neg (Bool.eq_false_iff.mp hfresh)
  dsimp only at hfirst
  rw [detach_attach hdistinct hfresh] at hfirst
  cases hset : o.iterate (attach proof proof.utxos p []).2 with
  | nil =>
    rw [hset] at hconflicts hfirst
    refine iff_of_true ⟨_, bind_eq_ok.mpr ⟨_, hfirst, rfl⟩, rfl⟩ fun entry hentry hutxo => ?_
    rcases hconflicts.covered entry hentry hutxo with ⟨c, hc, _⟩
    cases hc
  | cons first rest =>
    rw [hset] at hconflicts hled hfirst
    rcases hconflicts.mem first mem_cons_self with ⟨entry, hentry, hutxo, rfl⟩
    cases hkeep : conflictingProofComparator entry.proof proof with
    | true =>
      have hrejected : p.addProofIfPreferred o proof = _ :=
        bind_eq_ok.mpr ⟨_, hfirst, if_pos (.inr hkeep)⟩
      refine iff_of_false ?_ fun hall =>
        prefers_asymm hkeep (hall entry hentry hutxo)
      rintro ⟨_, hr, hstatus⟩
      cases hr.symm.trans hrejected
      cases hstatus
    | false =>
      have hne : proof ≠ entry.proof :=
        fun heq => proofid_ne hfresh entry hentry (congrArg Proof.proofid heq.symm)
      have hbest := (h.total _ hproof _ (hpool entry hentry) hne).resolve_right
        (Bool.eq_false_iff.mp hkeep)
      rcases addProofIfNoConflict_removed o hdistinct hfresh hconflicts
        (fun entry => mem_foldl_removeProof) with ⟨q, hq, _⟩
      refine iff_of_true ⟨⟨q, .succeed, _⟩, bind_eq_ok.mpr ⟨_, hfirst,
        (if_neg ?_).trans (bind_eq_ok.mpr ⟨_, hq, if_pos rfl⟩)⟩, rfl⟩ ?_
      · rintro (hstatus | hkeeps)
        · exact hstatus rfl
        · exact Bool.false_ne_true (hkeep.symm.trans hkeeps)
      intro other hother hutxo'
      rcases hconflicts.covered other hother hutxo' with ⟨c, hc, hid⟩
      rcases hconflicts.mem c hc with ⟨entry', hentry', _, rfl⟩
      rw [← inj_on_of_nodup_map hids (hpool entry' hentry') (hpool other hother) hid]
      rcases mem_cons.mp hc with heq | hc
      · rw [heq]
        exact hbest
      · exact h.transitive _ hproof _ (hpool entry hentry) _ (hpool entry' hentry') hbest
          (hled _ hc)

end Preferred

/-- The preference orders the proofs, and a pool accepts just the preferred ones, exactly if the
sequences of no master contradict the ranks, and no coin is staked twice by a proof. -/
theorem preference_iff (o : SetOrder) {proofs : List Proof}
    (hids : (proofs.map Proof.proofid).Nodup) :
    (StrictTotal proofs ∧ forall (p : ProofPool) (proof : Proof), proof ∈ proofs ->
      (forall entry, entry ∈ p.pool -> entry.proof ∈ proofs) ->
      p.containsProof proof.proofid = false ->
      (p.Accepts o proof <-> p.PreferredToConflicts proof)) <->
    Acyclic proofs ∧ forall proof, proof ∈ proofs -> proof.utxos.Nodup := by
  rw [strictTotal_iff hids]
  refine and_congr_right fun hacyclic => ⟨fun haccepts proof hproof => ?_, fun hdistinct => ?_⟩
  · exact ((haccepts empty proof hproof nofun rfl).mpr nofun).nodup
  · intro p proof hproof
    exact accepts_iff ((strictTotal_iff hids).mpr hacyclic) o hproof hids (hdistinct proof hproof)

private def stakeOf (n amount : Nat) : Stake :=
  { utxo := { txid := 0, n }, amount := amount * Proof.COIN }

private def earlier : Proof := { proofid := 1, sequence := 1, master := 1, stakes := [stakeOf 0 3] }

private def later : Proof :=
  { proofid := 2, sequence := 2, master := 1, stakes := [stakeOf 0 0, stakeOf 1 1] }

private def rival : Proof := { proofid := 3, sequence := 1, master := 2, stakes := [stakeOf 1 2] }

private def rivalPool : ProofPool :=
  ⟨(IndexedSet.empty.insert ⟨(stakeOf 0 3).utxo, earlier⟩).insert ⟨(stakeOf 1 2).utxo, rival⟩⟩

/-- Three proofs in a circle: the last one is accepted, in place of one that is preferred to it. -/
theorem preference_circle :
    Prefers later earlier ∧ Prefers earlier rival ∧ Prefers rival later ∧
    rivalPool.getProofByUtxo (stakeOf 1 2).utxo = some rival ∧ rivalPool.Accepts .linear later :=
  ⟨rfl, rfl, rfl, by decide, _, rfl, rfl⟩

theorem preference_rivals : StrictTotal [earlier, rival] := by
  refine ((preference_iff .linear (by decide)).mpr ⟨?_, by decide⟩).1
  unfold Acyclic Outranks
  decide

end ProofPool

end ECash.Avalanche
