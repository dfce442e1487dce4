import ECash.Avalanche.Proof
import ECash.Foundation.IndexedSet
import ECash.Foundation.Returns

/-!
# Proof pools

A pool maps each utxo to the one proof that stakes it.  A proof that conflicts with
the pool on some utxo is either left out, or replaces every proof it conflicts with.
-/

namespace ECash.Avalanche

open Coins Foundation List IndexedSet

/-- The assertions of the proof pools and of the peer manager. -/
inductive AssertionFailure where
  | utxoNotInPool
  | proofNotAdded
  | peerNotFound
  | nodeCountTooSmall
  | removeNodeFailed
  | addNodeFailed
  | proofNotShareable
  | slotIndexOutOfRange
  | connectedScoreTooSmall
  | totalScoreTooSmall
  | peerNotInserted
deriving DecidableEq, Repr

structure ProofPoolEntry where
  utxo : OutPoint
  proof : Proof
deriving DecidableEq, Repr

inductive AddProofStatus where
  | rejected
  | succeed
  | duplicated
deriving DecidableEq, Repr

structure ProofPool where
  pool : IndexedSet ProofPoolEntry.utxo

structure AddProofResult where
  pool : ProofPool
  status : AddProofStatus
  conflictingProofs : ConflictingProofSet

namespace ProofPool

def empty : ProofPool where
  pool := IndexedSet.empty

def containsProof (p : ProofPool) (id : ProofId) : Bool :=
  p.pool.items.any fun entry => entry.proof.proofid = id

def getProof (p : ProofPool) (id : ProofId) : Option Proof :=
  (p.pool.items.find? fun entry => entry.proof.proofid = id).map ProofPoolEntry.proof

def getProofByUtxo (p : ProofPool) (utxo : OutPoint) : Option Proof :=
  (p.pool.find? utxo).map ProofPoolEntry.proof

def removeProof (p : ProofPool) (id : ProofId) : ProofPool where
  pool := p.pool.eraseIf fun entry => entry.proof.proofid = id

def size (p : ProofPool) : Nat :=
  p.pool.items.length

/-- The proofs in the order of the pool, skipping an entry that follows one of
the same proof. -/
def forEachProof (p : ProofPool) : List Proof :=
  go 0 p.pool.items
where
  go (lastProofId : ProofId) : List ProofPoolEntry -> List Proof
    | [] => []
    | entry :: rest =>
      if lastProofId ≠ entry.proof.proofid then
        entry.proof :: go entry.proof.proofid rest
      else go lastProofId rest

def countProofs (p : ProofPool) : Nat :=
  p.forEachProof.length

def getLowestScoreProof (p : ProofPool) : Option Proof :=
  p.pool.items.foldl (fun lowest entry =>
      match lowest with
      | none => some entry.proof
      | some proof => if proofComparatorByScore entry.proof proof then lowest else some entry.proof)
    none

/-- Attach the utxos to the proof and collect the proofs that already have one, the last first. -/
def attach (proof : Proof) :
    List OutPoint -> ProofPool -> List Proof -> ProofPool × List Proof
  | [], p, conflicts => (p, conflicts)
  | utxo :: rest, p, conflicts =>
    match p.pool.find? utxo with
    | some entry => attach proof rest p (entry.proof :: conflicts)
    | none => attach proof rest ⟨p.pool.insert ⟨utxo, proof⟩⟩ conflicts

def detach (id : ProofId) : List OutPoint -> ProofPool -> Except AssertionFailure ProofPool
  | [], p => .ok p
  | utxo :: rest, p =>
    match p.pool.find? utxo with
    | none => .error .utxoNotInPool
    | some entry =>
      if entry.proof.proofid = id then detach id rest ⟨p.pool.erase utxo⟩
      else detach id rest p

def addProofIfNoConflict (o : SetOrder) (p : ProofPool) (proof : Proof) :
    Except AssertionFailure AddProofResult :=
  if p.containsProof proof.proofid then
    .ok ⟨p, .duplicated, []⟩
  else
    let attached := attach proof proof.utxos p []
    let conflictingProofs := o.iterate attached.2
    if conflictingProofs ≠ [] then do
      let cleaned ← detach proof.proofid proof.utxos attached.1
      return ⟨cleaned, .rejected, conflictingProofs⟩
    else
      .ok ⟨attached.1, .succeed, []⟩

def keepsConflicting (conflicts : ConflictingProofSet) (proof : Proof) : Bool :=
  match conflicts with
  | [] => false
  | first :: _ => conflictingProofComparator first proof

def addProofIfPreferred (o : SetOrder) (p : ProofPool) (proof : Proof) :
    Except AssertionFailure AddProofResult := do
  let first ← p.addProofIfNoConflict o proof
  if first.status ≠ .rejected ∨
      keepsConflicting first.conflictingProofs proof = true then
    return first
  else
    let removed := first.conflictingProofs.foldl
      (fun pool conflict => pool.removeProof conflict.proofid) first.pool
    let second ← removed.addProofIfNoConflict o proof
    if second.status = .succeed then
      return ⟨second.pool, .succeed, first.conflictingProofs⟩
    else
      .error .proofNotAdded

/-!
## Lookups
-/

variable {o : SetOrder} {p : ProofPool} {proof : Proof} {utxos : List OutPoint}
  {conflicts : List Proof} {id : ProofId}

theorem containsProof_iff :
    p.containsProof id = true <-> exists entry, entry ∈ p.pool ∧ entry.proof.proofid = id := by
  unfold containsProof
  rw [any_eq_true]
  exact exists_congr fun entry => and_congr_right fun _ => decide_eq_true_iff

theorem proofid_ne (h : p.containsProof id = false) (entry : ProofPoolEntry)
    (hentry : entry ∈ p.pool) : entry.proof.proofid ≠ id :=
  fun hid => Bool.eq_false_iff.mp h (containsProof_iff.mpr ⟨entry, hentry, hid⟩)

theorem isSome_getProof (p : ProofPool) (id : ProofId) :
    (p.getProof id).isSome = p.containsProof id := by
  unfold getProof containsProof
  rw [Option.isSome_map, isSome_find?]

theorem getProofByUtxo_eq_some {utxo : OutPoint} :
    p.getProofByUtxo utxo = some proof <-> ⟨utxo, proof⟩ ∈ p.pool := by
  unfold getProofByUtxo
  rw [Option.map_eq_some_iff]
  constructor
  · rintro ⟨_, hentry, rfl⟩
    rcases find?_eq_some.mp hentry with ⟨hmem, rfl⟩
    exact hmem
  · intro h
    exact ⟨⟨utxo, proof⟩, find?_eq_some.mpr ⟨h, rfl⟩, rfl⟩

variable {entry : ProofPoolEntry}

theorem mem_removeProof :
    entry ∈ (p.removeProof id).pool <-> entry ∈ p.pool ∧ entry.proof.proofid ≠ id := by
  unfold removeProof
  rw [mem_eraseIf, decide_eq_false_iff_not]

theorem mem_foldl_removeProof {proofs : List Proof} :
    entry ∈ (proofs.foldl (fun pool proof => pool.removeProof proof.proofid) p).pool <->
      entry ∈ p.pool ∧ forall proof, proof ∈ proofs -> entry.proof.proofid ≠ proof.proofid := by
  induction proofs generalizing p with
  | nil => simp
  | cons proof rest ih => rw [foldl_cons, ih, mem_removeProof, forall_mem_cons, and_assoc]

/-!
## Attaching and detaching utxos
-/

/-- The proofs of the pool that stake one of the utxos. -/
structure Conflicts (p : ProofPool) (utxos : List OutPoint) (conflicts : List Proof) : Prop where
  mem : forall c, c ∈ conflicts ->
    exists entry, entry ∈ p.pool ∧ entry.utxo ∈ utxos ∧ entry.proof = c
  covered : forall entry, entry ∈ p.pool -> entry.utxo ∈ utxos ->
    exists c, c ∈ conflicts ∧ c.proofid = entry.proof.proofid

theorem attach_items (proof : Proof) (hdistinct : utxos.Nodup) (p : ProofPool)
    (conflicts : List Proof) :
    (attach proof utxos p conflicts).1.pool.items =
      p.pool.items ++
        (utxos.filter fun utxo => !p.pool.contains utxo).map fun utxo => ⟨utxo, proof⟩ := by
  induction utxos generalizing p conflicts with
  | nil => exact (append_nil _).symm
  | cons utxo rest ih =>
    rcases nodup_cons.mp hdistinct with ⟨hutxo, hrest⟩
    unfold attach
    split
    · rename_i entry hfind
      have hcontains : p.pool.contains utxo = true := congrArg Option.isSome hfind
      rw [ih hrest, filter_cons_of_neg (by rw [hcontains]; simp)]
    · rename_i hfind
      have hcontains : p.pool.contains utxo = false := congrArg Option.isSome hfind
      -- The other utxos differ from the one attached here.
      have hsame : forall other, other ∈ rest ->
          (!(p.pool.insert ⟨utxo, proof⟩).contains other) = !p.pool.contains other := by
        intro other hother
        have hne : utxo ≠ other := fun h => hutxo (h ▸ hother)
        congr 1
        rw [Bool.eq_iff_iff, contains_insert_iff]
        exact or_iff_left hne
      rw [ih hrest, filter_congr hsame, filter_cons_of_pos (by rw [hcontains]; rfl),
        items_insert hcontains, map_cons, append_assoc,
        singleton_append]

theorem attach_conflicts_mem (hdistinct : utxos.Nodup) {c : Proof}
    (h : c ∈ (attach proof utxos p conflicts).2) :
    c ∈ conflicts ∨ exists entry, entry ∈ p.pool ∧ entry.utxo ∈ utxos ∧ entry.proof = c := by
  induction utxos generalizing p conflicts with
  | nil => exact .inl h
  | cons utxo rest ih =>
    rcases nodup_cons.mp hdistinct with ⟨hutxo, hrest⟩
    unfold attach at h
    split at h
    · rename_i entry hfind
      rcases find?_eq_some.mp hfind with ⟨hentry, hkey⟩
      rcases ih hrest h with hc | ⟨e, he, heutxo, hec⟩
      · rcases mem_cons.mp hc with rfl | hc
        · exact .inr ⟨entry, hentry, hkey ▸ mem_cons_self, rfl⟩
        · exact .inl hc
      · exact .inr ⟨e, he, mem_cons_of_mem utxo heutxo, hec⟩
    · rcases ih hrest h with hc | ⟨e, he, heutxo, hec⟩
      · exact .inl hc
      · rcases mem_insert.mp he with he | ⟨rfl, _⟩
        · exact .inr ⟨e, he, mem_cons_of_mem utxo heutxo, hec⟩
        · exact absurd heutxo hutxo

theorem attach_conflicts_covered (h : (exists c, c ∈ conflicts ∧ c.proofid = id) ∨
      exists entry, entry ∈ p.pool ∧ entry.utxo ∈ utxos ∧ entry.proof.proofid = id) :
    exists c, c ∈ (attach proof utxos p conflicts).2 ∧ c.proofid = id := by
  induction utxos generalizing p conflicts with
  | nil =>
    rcases h with h | ⟨_, _, hutxo, _⟩
    · exact h
    · cases hutxo
  | cons utxo rest ih =>
    unfold attach
    split
    · rename_i entry hfind
      apply ih
      rcases h with ⟨c, hc, hid⟩ | ⟨e, he, heutxo, hid⟩
      · exact .inl ⟨c, mem_cons_of_mem entry.proof hc, hid⟩
      · rcases mem_cons.mp heutxo with heutxo | heutxo
        · rw [find?_eq_some.mpr ⟨he, heutxo⟩] at hfind
          cases hfind
          exact .inl ⟨_, mem_cons_self, hid⟩
        · exact .inr ⟨e, he, heutxo, hid⟩
    · rename_i hfind
      apply ih
      rcases h with h | ⟨e, he, heutxo, hid⟩
      · exact .inl h
      · rcases mem_cons.mp heutxo with heutxo | heutxo
        · exact absurd heutxo (find?_eq_none.mp hfind e he)
        · exact .inr ⟨e, mem_insert.mpr (.inl he), heutxo, hid⟩

theorem attach_conflicts (o : SetOrder) (proof : Proof) (hdistinct : utxos.Nodup) (p : ProofPool) :
    Conflicts p utxos (o.iterate (attach proof utxos p []).2) where
  mem := by
    intro c hc
    rcases attach_conflicts_mem hdistinct (SetOrder.mem hc) with hnil | h
    · cases hnil
    · exact h
  covered := by
    intro entry hentry hutxo
    rcases attach_conflicts_covered (.inr ⟨entry, hentry, hutxo, rfl⟩) with ⟨c, hc, hid⟩
    rcases o.exists_mem hc with ⟨c', hc', hid'⟩
    exact ⟨c', hc', hid'.trans hid⟩

theorem detach_items (id : ProofId) (hdistinct : utxos.Nodup)
    (hcontains : forall utxo, utxo ∈ utxos -> p.pool.contains utxo = true) :
    exists q, detach id utxos p = .ok q ∧ q.pool.items =
      p.pool.items.filter fun entry => !decide (entry.utxo ∈ utxos ∧ entry.proof.proofid = id) := by
  induction utxos generalizing p with
  | nil => exact ⟨p, rfl, (filter_eq_self.mpr (by simp)).symm⟩
  | cons utxo rest ih =>
    rcases nodup_cons.mp hdistinct with ⟨hutxo, hrest⟩
    rcases contains_iff.mp (hcontains utxo mem_cons_self) with ⟨entry, hentry, hkey⟩
    have hrestContains : forall other, other ∈ rest -> p.pool.contains other = true :=
      (forall_mem_cons.mp hcontains).2
    unfold detach
    rw [find?_eq_some.mpr ⟨hentry, hkey⟩]
    show exists q, (if entry.proof.proofid = id then _ else _) = Except.ok q ∧ _
    -- The entry of the utxo is the only one with that utxo.
    have honly : forall e, e ∈ p.pool -> e.utxo = utxo -> e = entry :=
      fun e he heutxo => eq_of_key_eq he hentry (heutxo.trans hkey.symm)
    split
    · rename_i hid
      have herased : forall other, other ∈ rest -> (p.pool.erase utxo).contains other = true := by
        intro other hother
        exact contains_erase (hrestContains other hother) fun h => hutxo (h ▸ hother)
      rcases ih hrest herased with ⟨q, hq, hitems⟩
      refine ⟨q, hq, ?_⟩
      rw [hitems]
      rw [filter_filter]
      apply filter_congr
      intro e he
      have := honly e he
      grind
    · rename_i hid
      rcases ih hrest hrestContains with ⟨q, hq, hitems⟩
      refine ⟨q, hq, ?_⟩
      rw [hitems]
      apply filter_congr
      intro e he
      have := honly e he
      grind

/-!
## Adding a proof
-/

/-- The pool after a proof has been added and the proofs it conflicts with have
been removed. -/
structure Replaced (p : ProofPool) (proof : Proof) (conflicts : List Proof) (q : ProofPool) :
    Prop where
  fresh : p.containsProof proof.proofid = false
  conflicting : Conflicts p proof.utxos conflicts
  mem : forall entry, entry ∈ q.pool <->
    (entry ∈ p.pool ∧ forall c, c ∈ conflicts -> entry.proof.proofid ≠ c.proofid) ∨
      (entry.proof = proof ∧ entry.utxo ∈ proof.utxos)

/-- What adding a proof can do: nothing, because the proof is there already or
conflicts with the pool, or add it in place of some conflicting proofs. -/
inductive Outcome (p : ProofPool) (proof : Proof) : AddProofResult -> Prop where
  | duplicated (h : p.containsProof proof.proofid = true) : Outcome p proof ⟨p, .duplicated, []⟩
  | rejected (conflicts : ConflictingProofSet) (hfresh : p.containsProof proof.proofid = false)
      (hsome : conflicts ≠ []) (hconflicts : Conflicts p proof.utxos conflicts) :
      Outcome p proof ⟨p, .rejected, conflicts⟩
  | succeed (conflicts : ConflictingProofSet) (q : ProofPool)
      (h : Replaced p proof conflicts q) :
      Outcome p proof ⟨q, .succeed, conflicts⟩

theorem attach_replaced (hdistinct : proof.utxos.Nodup)
    (hfresh : p.containsProof proof.proofid = false) (hconflicts : Conflicts p proof.utxos []) :
    Replaced p proof [] (attach proof proof.utxos p []).1 := by
  refine ⟨hfresh, hconflicts, ?_⟩
  intro entry
  rw [mem_def, attach_items proof hdistinct, mem_append, mem_map]
  have hfree : forall utxo, utxo ∈ proof.utxos -> p.pool.contains utxo = false := by
    intro utxo hutxo
    rw [contains_eq_false]
    rintro e he rfl
    rcases hconflicts.covered e he hutxo with ⟨_, hc, _⟩
    cases hc
  constructor
  · rintro (hentry | ⟨utxo, hutxo, rfl⟩)
    · exact .inl ⟨hentry, by simp⟩
    · exact .inr ⟨rfl, mem_of_mem_filter hutxo⟩
  rintro (⟨hentry, _⟩ | ⟨hproof, hutxo⟩)
  · exact .inl hentry
  · refine .inr ⟨entry.utxo, mem_filter.mpr ⟨hutxo, ?_⟩, ?_⟩
    · rw [hfree entry.utxo hutxo]
      rfl
    · rw [← hproof]

theorem detach_attach (hdistinct : proof.utxos.Nodup)
    (hfresh : p.containsProof proof.proofid = false) :
    detach proof.proofid proof.utxos (attach proof proof.utxos p []).1 = .ok p := by
  have hitems := attach_items proof hdistinct p []
  have hcontains : forall utxo, utxo ∈ proof.utxos ->
      (attach proof proof.utxos p []).1.pool.contains utxo = true := by
    intro utxo hutxo
    rw [IndexedSet.contains_iff]
    cases hold : p.pool.contains utxo with
    | true =>
      rcases contains_iff.mp hold with ⟨entry, hentry, hkey⟩
      refine ⟨entry, ?_, hkey⟩
      rw [mem_def, hitems]
      exact mem_append_left _ hentry
    | false =>
      refine ⟨⟨utxo, proof⟩, ?_, rfl⟩
      rw [mem_def, hitems]
      apply mem_append_right
      exact mem_map.mpr ⟨utxo, mem_filter.mpr ⟨hutxo, by rw [hold]; rfl⟩, rfl⟩
  rcases detach_items proof.proofid hdistinct hcontains with ⟨q, hq, hqitems⟩
  rw [hq]
  congr 1
  cases p with
  | mk pool =>
  cases q with
  | mk pool' =>
  congr 1
  apply ext_items
  rw [hqitems, hitems, filter_append]
  have hold : pool.items.filter (fun entry =>
      !decide (entry.utxo ∈ proof.utxos ∧ entry.proof.proofid = proof.proofid)) = pool.items := by
    apply filter_eq_self.mpr
    intro entry hentry
    have hid := proofid_ne hfresh entry hentry
    simp [hid]
  have hnew : ((proof.utxos.filter fun utxo => !pool.contains utxo).map
      fun utxo => (⟨utxo, proof⟩ : ProofPoolEntry)).filter (fun entry =>
        !decide (entry.utxo ∈ proof.utxos ∧ entry.proof.proofid = proof.proofid)) = [] := by
    apply filter_eq_nil_iff.mpr
    intro entry hentry
    rcases mem_map.mp hentry with ⟨_, hutxo, rfl⟩
    simp [mem_of_mem_filter hutxo]
  rw [hold, hnew, append_nil]

theorem addProofIfNoConflict_outcome (o : SetOrder) (p : ProofPool)
    (hdistinct : proof.utxos.Nodup) :
    exists r, p.addProofIfNoConflict o proof = .ok r ∧ Outcome p proof r ∧
      (r.status = .succeed -> r.conflictingProofs = []) := by
  unfold addProofIfNoConflict
  split
  · rename_i hdup
    exact ⟨_, rfl, .duplicated hdup, nofun⟩
  rename_i hdup
  have hfresh : p.containsProof proof.proofid = false := (Bool.not_eq_true _).mp hdup
  have hconflicts := attach_conflicts o proof hdistinct p
  dsimp only
  split
  · rename_i hsome
    rw [detach_attach hdistinct hfresh]
    exact ⟨_, rfl, .rejected _ hfresh hsome hconflicts, nofun⟩
  · rename_i hnone
    rw [not_not.mp hnone] at hconflicts
    exact ⟨_, rfl, .succeed _ _ (attach_replaced hdistinct hfresh hconflicts), fun _ => rfl⟩

theorem addProofIfNoConflict_removed (o : SetOrder) {q : ProofPool} (hdistinct : proof.utxos.Nodup)
    (hfresh : p.containsProof proof.proofid = false)
    (hconflicts : Conflicts p proof.utxos conflicts) (hq : forall entry, entry ∈ q.pool <->
      entry ∈ p.pool ∧ forall c, c ∈ conflicts -> entry.proof.proofid ≠ c.proofid) :
    exists r, q.addProofIfNoConflict o proof =
        .ok ⟨r, .succeed, []⟩ ∧ Replaced p proof conflicts r := by
  rcases addProofIfNoConflict_outcome o q hdistinct with ⟨r, hr, houtcome, hnil⟩
  cases houtcome with
  | duplicated hdup =>
    rcases containsProof_iff.mp hdup with ⟨entry, hentry, hid⟩
    exact absurd hid (proofid_ne hfresh entry ((hq entry).mp hentry).left)
  | rejected conflicts' _ hsome hconflicts' =>
    rcases exists_mem_of_ne_nil conflicts' hsome with ⟨c, hc⟩
    rcases hconflicts'.mem c hc with ⟨entry, hentry, hutxo, _⟩
    rcases (hq entry).mp hentry with ⟨hold, hkept⟩
    rcases hconflicts.covered entry hold hutxo with ⟨c', hc', hid⟩
    exact absurd hid.symm (hkept c' hc')
  | succeed conflicts' r hreplaced =>
    cases hnil rfl
    refine ⟨r, hr, hfresh, hconflicts, ?_⟩
    intro entry
    rw [hreplaced.mem entry, hq entry]
    simp

theorem addProofIfPreferred_outcome (o : SetOrder) (p : ProofPool) (hdistinct : proof.utxos.Nodup) :
    exists r, p.addProofIfPreferred o proof = .ok r ∧ Outcome p proof r := by
  rcases addProofIfNoConflict_outcome o p hdistinct with ⟨first, hfirst, houtcome, _⟩
  by_cases hkeep : first.status ≠ .rejected ∨ keepsConflicting first.conflictingProofs proof = true
  · exact ⟨first, bind_eq_ok.mpr ⟨first, hfirst, if_pos hkeep⟩, houtcome⟩
  cases houtcome with
  | duplicated _ => exact absurd (.inl nofun) hkeep
  | succeed conflicts q h => exact absurd (.inl nofun) hkeep
  | rejected conflicts hfresh _ hconflicts =>
    rcases addProofIfNoConflict_removed o hdistinct hfresh hconflicts
      (fun entry => mem_foldl_removeProof) with ⟨r, hr, hreplaced⟩
    refine ⟨⟨r, .succeed, conflicts⟩, ?_, .succeed _ _ hreplaced⟩
    refine bind_eq_ok.mpr ⟨_, hfirst, (if_neg hkeep).trans ?_⟩
    exact bind_eq_ok.mpr ⟨_, hr, if_pos rfl⟩

end ProofPool

end ECash.Avalanche
