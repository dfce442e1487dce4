import Mathlib.Data.List.Induction

/-!
# Delegations

A proof's master key delegates to another key, which may delegate in turn.  Each level is signed by
the key before it over a hash that runs through all the keys.
-/

namespace ECash.Avalanche

open List

/-- The cryptography that delegations rest on; the null values are those of default objects. -/
structure KeyScheme (Key PubKey Sig Hash : Type) where
  getPubKey : Key -> PubKey
  signSchnorr : Key -> Hash -> Option Sig
  verifySchnorr : PubKey -> Hash -> Sig -> Bool
  /-- The hash of a hash that is followed by a public key. -/
  hashWith : Hash -> PubKey -> Hash
  nullKey : PubKey
  nullSig : Sig
  nullHash : Hash
  getPubKey_valid : forall key, getPubKey key ≠ nullKey
  verify_signed : forall key hash sig,
    signSchnorr key hash = some sig -> verifySchnorr (getPubKey key) hash sig = true

structure Level (PubKey Sig : Type) where
  pubkey : PubKey
  sig : Sig

structure Delegation (PubKey Sig Hash : Type) where
  limitedProofid : Hash
  proofMaster : PubKey
  dgid : Hash
  levels : List (Level PubKey Sig)

def maxDelegationLevels : Nat := 20

inductive DelegationResult where
  | tooManyLevels
  | invalidSignature
deriving DecidableEq

/-- What a verification returns, reports and leaves in the caller's key. -/
structure Verification (PubKey : Type) where
  accepted : Bool
  state : Option DelegationResult
  auth : PubKey
deriving DecidableEq

section Model

variable {Key PubKey Sig Hash State : Type} (keys : KeyScheme Key PubKey Sig Hash)

def reduceLevels (f : Hash -> State -> Level PubKey Sig -> Bool × State) :
    Hash -> State -> List (Level PubKey Sig) -> Bool × Hash × State
  | hash, state, [] => (true, hash, state)
  | hash, state, l :: levels =>
    let hash := keys.hashWith hash l.pubkey
    match f hash state l with
    | (false, state) => (false, hash, state)
    | (true, state) => reduceLevels f hash state levels

def lastKey (proofMaster : PubKey) (levels : List (Level PubKey Sig)) : PubKey :=
  match levels.getLast? with
  | some l => l.pubkey
  | none => proofMaster

def checkLevel (hash : Hash) (state : Option DelegationResult × PubKey) (l : Level PubKey Sig) :
    Bool × Option DelegationResult × PubKey :=
  if keys.verifySchnorr state.2 hash l.sig then (true, state.1, l.pubkey)
  else (false, some .invalidSignature, state.2)

namespace Delegation

/-- The default constructor. -/
def null : Delegation PubKey Sig Hash := ⟨keys.nullHash, keys.nullKey, keys.nullHash, []⟩

def getDelegatedPubkey (dg : Delegation PubKey Sig Hash) : PubKey :=
  lastKey dg.proofMaster dg.levels

def getProofId (dg : Delegation PubKey Sig Hash) : Hash :=
  keys.hashWith dg.limitedProofid dg.proofMaster

def computeDelegationId (dg : Delegation PubKey Sig Hash) : Hash :=
  (reduceLevels keys (fun _ _ _ => (true, ())) (dg.getProofId keys) () dg.levels).2.1

def verify (dg : Delegation PubKey Sig Hash) (auth : PubKey) : Verification PubKey :=
  if maxDelegationLevels < dg.levels.length then ⟨false, some .tooManyLevels, auth⟩
  else
    match reduceLevels keys (checkLevel keys) (dg.getProofId keys) (none, dg.proofMaster)
      dg.levels with
    | (ret, _, state, pauth) => ⟨ret, state, pauth⟩

/-- A delegation that was read from a stream. -/
def read (limitedProofid : Hash) (proofMaster : PubKey) (levels : List (Level PubKey Sig)) :
    Delegation PubKey Sig Hash :=
  let dg : Delegation PubKey Sig Hash := ⟨limitedProofid, proofMaster, keys.nullHash, levels⟩
  { dg with dgid := dg.computeDelegationId keys }

end Delegation

/-- The levels of a builder are those in front, then the last one, whose signature is open. -/
structure DelegationBuilder (PubKey Sig Hash : Type) where
  limitedProofid : Hash
  dgid : Hash
  front : List (Level PubKey Sig)
  back : Level PubKey Sig

structure ProofIds (PubKey Hash : Type) where
  limitedProofId : Hash
  master : PubKey
  proofid : Hash

/-- What a builder is constructed from. -/
inductive Start (PubKey Sig Hash : Type) where
  | ids (ltdProofId : Hash) (proofMaster : PubKey)
  | proof (p : ProofIds PubKey Hash)
  | delegation (dg : Delegation PubKey Sig Hash)

def joinLevels : List (Level PubKey Sig) -> List (Level PubKey Sig)
  | l :: next :: levels => ⟨next.pubkey, l.sig⟩ :: joinLevels (next :: levels)
  | _ => []

namespace DelegationBuilder

def start (ltdProofId : Hash) (proofMaster : PubKey) (delegationId : Hash) :
    DelegationBuilder PubKey Sig Hash :=
  ⟨ltdProofId, delegationId, [], ⟨proofMaster, keys.nullSig⟩⟩

def pushLevel (b : DelegationBuilder PubKey Sig Hash) (l : Level PubKey Sig) :
    DelegationBuilder PubKey Sig Hash :=
  { b with front := b.front ++ [{ b.back with sig := l.sig }], back := ⟨l.pubkey, keys.nullSig⟩ }

def new : Start PubKey Sig Hash -> DelegationBuilder PubKey Sig Hash
  | .ids ltdProofId proofMaster =>
    start keys ltdProofId proofMaster (keys.hashWith ltdProofId proofMaster)
  | .proof p => start keys p.limitedProofId p.master p.proofid
  | .delegation dg =>
    dg.levels.foldl (pushLevel keys) (start keys dg.limitedProofid dg.proofMaster dg.dgid)

variable [DecidableEq PubKey]

def addLevel (b : DelegationBuilder PubKey Sig Hash) (delegatorKey : Key)
    (delegatedPubKey : PubKey) : Bool × DelegationBuilder PubKey Sig Hash :=
  if b.back.pubkey ≠ keys.getPubKey delegatorKey then (false, b)
  else
    let hash := keys.hashWith b.dgid delegatedPubKey
    match keys.signSchnorr delegatorKey hash with
    | none => (false, b)
    | some sig => (true, { b with dgid := hash }.pushLevel keys ⟨delegatedPubKey, sig⟩)

def addLevels (b : DelegationBuilder PubKey Sig Hash) :
    List (Key × PubKey) -> Option (DelegationBuilder PubKey Sig Hash)
  | [] => some b
  | (delegatorKey, delegatedPubKey) :: calls =>
    match b.addLevel keys delegatorKey delegatedPubKey with
    | (true, b) => b.addLevels calls
    | (false, _) => none

omit [DecidableEq PubKey] in
def build (b : DelegationBuilder PubKey Sig Hash) : Delegation PubKey Sig Hash :=
  ⟨b.limitedProofid, ((b.front ++ [b.back]).headD b.back).pubkey, b.dgid,
    joinLevels (b.front ++ [b.back])⟩

end DelegationBuilder

open DelegationBuilder

/-- A proof computes its id; a default one has none. -/
def ProofIds.Made (p : ProofIds PubKey Hash) : Prop :=
  p.proofid = keys.hashWith p.limitedProofId p.master ∨
    p = ⟨keys.nullHash, keys.nullKey, keys.nullHash⟩

/-- The delegations that a program can come to hold. -/
inductive Delegation.Made [DecidableEq PubKey] : Delegation PubKey Sig Hash -> Prop where
  | null : Made (.null keys)
  | read (limitedProofid proofMaster levels) : Made (.read keys limitedProofid proofMaster levels)
  | built {start : Start PubKey Sig Hash} {calls : List (Key × PubKey)} {b}
      (hproof : forall p, start = .proof p -> p.Made keys)
      (hdg : forall dg, start = .delegation dg -> Made dg)
      (hrun : (new keys start).addLevels keys calls = some b) : Made b.build

/-!
## Signed levels
-/

variable {hash : Hash} {proofMaster : PubKey} {levels : List (Level PubKey Sig)}
variable {l : Level PubKey Sig} {dg : Delegation PubKey Sig Hash} {s : Start PubKey Sig Hash}
variable {calls : List (Key × PubKey)} {b : DelegationBuilder PubKey Sig Hash}

def runningHash (hash : Hash) (levels : List (Level PubKey Sig)) : Hash :=
  levels.foldl (fun hash l => keys.hashWith hash l.pubkey) hash

/-- Every level is signed by the key before it, over the hash that runs up to it. -/
def SignedLevels (hash : Hash) (proofMaster : PubKey) (levels : List (Level PubKey Sig)) : Prop :=
  forall i l, levels[i]? = some l -> keys.verifySchnorr (lastKey proofMaster (levels.take i))
      (runningHash keys hash (levels.take (i + 1))) l.sig = true

theorem lastKey_cons : lastKey proofMaster (l :: levels) = lastKey l.pubkey levels := by
  cases hlast : levels.getLast? with
  | none => simp [lastKey, getLast?_cons, hlast]
  | some last => simp [lastKey, getLast?_cons, hlast]

theorem signedLevels_nil (hash : Hash) (proofMaster : PubKey) :
    SignedLevels keys hash proofMaster [] := by
  intro i l h
  cases h

theorem signedLevels_cons :
    SignedLevels keys hash proofMaster (l :: levels) <->
      keys.verifySchnorr proofMaster (keys.hashWith hash l.pubkey) l.sig = true ∧
        SignedLevels keys (keys.hashWith hash l.pubkey) l.pubkey levels := by
  constructor
  · intro h
    refine ⟨by simpa [lastKey, runningHash] using h 0 l rfl, ?_⟩
    intro i next hnext
    simpa [lastKey_cons, runningHash] using h (i + 1) next hnext
  · rintro ⟨hfirst, hrest⟩ i next hnext
    cases i with
    | zero =>
      cases Option.some.inj hnext
      simpa [lastKey, runningHash] using hfirst
    | succ i => simpa [lastKey_cons, runningHash] using hrest i next hnext

theorem signedLevels_concat :
    SignedLevels keys hash proofMaster (levels ++ [l]) <->
      SignedLevels keys hash proofMaster levels ∧
        keys.verifySchnorr (lastKey proofMaster levels)
          (keys.hashWith (runningHash keys hash levels) l.pubkey) l.sig = true := by
  induction levels generalizing hash proofMaster with
  | nil => simp [signedLevels_cons, signedLevels_nil, lastKey, runningHash]
  | cons first levels ih =>
    simp only [cons_append, signedLevels_cons, ih, lastKey_cons, and_assoc]
    rfl

theorem reduceLevels_check (hash : Hash) (proofMaster : PubKey) (levels : List (Level PubKey Sig)) :
    let result := reduceLevels keys (checkLevel keys) hash (none, proofMaster) levels
    (result.1 = true <-> SignedLevels keys hash proofMaster levels) ∧
      (result.1 = true -> result.2.2 = (none, lastKey proofMaster levels)) := by
  induction levels generalizing hash proofMaster with
  | nil => simp [reduceLevels, signedLevels_nil, lastKey]
  | cons l levels ih =>
    cases hsig : keys.verifySchnorr proofMaster (keys.hashWith hash l.pubkey) l.sig with
    | false => simp [reduceLevels, checkLevel, hsig, signedLevels_cons]
    | true =>
      simpa [reduceLevels, checkLevel, hsig, signedLevels_cons, lastKey_cons]
        using ih (keys.hashWith hash l.pubkey) l.pubkey

theorem computeDelegationId_eq (dg : Delegation PubKey Sig Hash) :
    dg.computeDelegationId keys = runningHash keys (dg.getProofId keys) dg.levels := by
  have hreduce : forall (hash : Hash) (levels : List (Level PubKey Sig)),
      (reduceLevels keys (fun _ _ _ => (true, ())) hash () levels).2.1 =
        runningHash keys hash levels := by
    intro hash levels
    induction levels generalizing hash with
    | nil => rfl
    | cons l levels ih => exact ih _
  exact hreduce _ _

def Delegation.Signed (dg : Delegation PubKey Sig Hash) : Prop :=
  SignedLevels keys (dg.getProofId keys) dg.proofMaster dg.levels

theorem verify_accepted_iff (dg : Delegation PubKey Sig Hash) (auth : PubKey) :
    (dg.verify keys auth).accepted = true <->
      dg.levels.length <= maxDelegationLevels ∧ dg.Signed keys := by
  unfold Delegation.verify
  by_cases hmany : maxDelegationLevels < dg.levels.length
  · simp [hmany, Nat.not_le.mpr hmany]
  · simpa [hmany, Nat.not_lt.mp hmany, Delegation.Signed] using
      (reduceLevels_check keys (dg.getProofId keys) dg.proofMaster dg.levels).1

theorem verify_signed (hsigned : dg.Signed keys)
    (hlevels : dg.levels.length <= maxDelegationLevels) (auth : PubKey) :
    dg.verify keys auth = ⟨true, none, dg.getDelegatedPubkey⟩ := by
  have hcheck := reduceLevels_check keys (dg.getProofId keys) dg.proofMaster dg.levels
  have haccepted := hcheck.1.mpr hsigned
  simp [Delegation.verify, Nat.not_lt.mpr hlevels, haccepted, hcheck.2 haccepted,
    Delegation.getDelegatedPubkey]

/-!
## Builders

A builder is always the one that is constructed from the delegation it would build.
-/

def Delegation.extend (dg : Delegation PubKey Sig Hash) (l : Level PubKey Sig) :
    Delegation PubKey Sig Hash :=
  { dg with dgid := keys.hashWith dg.dgid l.pubkey, levels := dg.levels ++ [l] }

theorem joinLevels_push (front : List (Level PubKey Sig)) (back : Level PubKey Sig) (sig : Sig)
    (next : Level PubKey Sig) :
    joinLevels (front ++ [{ back with sig }] ++ [next]) =
      joinLevels (front ++ [back]) ++ [⟨next.pubkey, sig⟩] := by
  induction front with
  | nil => rfl
  | cons l front ih =>
    cases front with
    | nil => rfl
    | cons second front => exact congrArg (cons _) ih

theorem build_pushLevel :
    (b.pushLevel keys l).build = { b.build with levels := b.build.levels ++ [l] } := by
  have hjoin := joinLevels_push b.front b.back l.sig ⟨l.pubkey, keys.nullSig⟩
  cases hfront : b.front with
  | nil => simp_all [build, pushLevel]
  | cons first front => simp_all [build, pushLevel]

theorem new_extend (dg : Delegation PubKey Sig Hash) (l : Level PubKey Sig) :
    new keys (.delegation (dg.extend keys l)) =
      { new keys (.delegation dg) with dgid := keys.hashWith dg.dgid l.pubkey }.pushLevel
        keys l := by
  have hdgid : forall (b : DelegationBuilder PubKey Sig Hash) (levels : List _) id,
      levels.foldl (pushLevel keys) { b with dgid := id } =
        { levels.foldl (pushLevel keys) b with dgid := id } := by
    intro b levels id
    induction levels generalizing b with
    | nil => rfl
    | cons l levels ih => exact ih (b.pushLevel keys l)
  simp only [new, Delegation.extend, foldl_append, foldl_cons, foldl_nil]
  exact congrArg (fun b => pushLevel keys b l) (hdgid (start keys _ _ dg.dgid) _ _)

@[simp]
theorem build_new (dg : Delegation PubKey Sig Hash) : (new keys (.delegation dg)).build = dg := by
  rcases dg with ⟨limitedProofid, proofMaster, dgid, levels⟩
  induction levels using reverseRecOn with
  | nil => rfl
  | append_singleton levels l ih =>
    have hnew : new keys (.delegation ⟨limitedProofid, proofMaster, dgid, levels ++ [l]⟩) =
        (new keys (.delegation ⟨limitedProofid, proofMaster, dgid, levels⟩)).pushLevel keys l :=
      foldl_append ..
    rw [hnew, build_pushLevel, ih]

theorem new_back (dg : Delegation PubKey Sig Hash) :
    (new keys (.delegation dg)).back.pubkey = dg.getDelegatedPubkey := by
  rcases eq_nil_or_concat dg.levels with hnil | ⟨_, _, hconcat⟩
  · simp [new, start, Delegation.getDelegatedPubkey, lastKey, hnil]
  · simp [new, pushLevel, Delegation.getDelegatedPubkey, lastKey, hconcat]

/-- The delegation that a builder is constructed from, as if it had been one. -/
def Start.delegated : Start PubKey Sig Hash -> Delegation PubKey Sig Hash
  | .ids ltdProofId proofMaster =>
    ⟨ltdProofId, proofMaster, keys.hashWith ltdProofId proofMaster, []⟩
  | .proof p => ⟨p.limitedProofId, p.master, p.proofid, []⟩
  | .delegation dg => dg

theorem new_eq (s : Start PubKey Sig Hash) :
    new keys s = new keys (.delegation (s.delegated keys)) := by
  cases s <;> rfl

theorem computeDelegationId_extend :
    (dg.extend keys l).computeDelegationId keys =
      keys.hashWith (dg.computeDelegationId keys) l.pubkey := by
  rw [computeDelegationId_eq, computeDelegationId_eq]
  exact foldl_append ..

def Delegation.IdKept (dg : Delegation PubKey Sig Hash) : Prop :=
  dg.dgid = dg.computeDelegationId keys ∨ dg = .null keys

variable {key : Key}

theorem idKept_delegator (h : dg.IdKept keys) (hkey : dg.getDelegatedPubkey = keys.getPubKey key) :
    dg.dgid = dg.computeDelegationId keys := by
  rcases h with hid | rfl
  · exact hid
  · exact absurd hkey.symm (keys.getPubKey_valid key)

theorem idKept_extend (l : Level PubKey Sig) (h : dg.IdKept keys)
    (hkey : dg.getDelegatedPubkey = keys.getPubKey key) : (dg.extend keys l).IdKept keys :=
  .inl ((congrArg (keys.hashWith · l.pubkey) (idKept_delegator keys h hkey)).trans
    (computeDelegationId_extend keys).symm)

theorem start_idKept (hproof : forall p, s = .proof p -> p.Made keys)
    (hdg : forall dg, s = .delegation dg -> dg.IdKept keys) : (s.delegated keys).IdKept keys := by
  cases s with
  | ids ltdProofId proofMaster => exact .inl rfl
  | proof p => exact (hproof p rfl).imp id fun hnull => by rw [hnull]; rfl
  | delegation dg => exact hdg dg rfl

variable [DecidableEq PubKey]

theorem addLevel_new {pubkey : PubKey}
    (h : (new keys (.delegation dg)).addLevel keys key pubkey = (true, b)) :
    exists sig, b = new keys (.delegation (dg.extend keys ⟨pubkey, sig⟩)) ∧
      dg.getDelegatedPubkey = keys.getPubKey key ∧
      keys.signSchnorr key (keys.hashWith dg.dgid pubkey) = some sig := by
  have hid : (new keys (.delegation dg)).dgid = dg.dgid :=
    congrArg Delegation.dgid (build_new keys dg)
  unfold addLevel at h
  rw [hid, new_back] at h
  split at h
  · cases h
  rename_i hkey
  cases hsign : keys.signSchnorr key (keys.hashWith dg.dgid pubkey) with
  | none => simp [hsign] at h
  | some sig =>
    simp only [hsign, Prod.mk.injEq, true_and] at h
    exact ⟨sig, h ▸ (new_extend keys dg ⟨pubkey, sig⟩).symm, not_not.mp hkey, rfl⟩

/-- What one more level preserves, every chain of calls preserves. -/
theorem addLevels_rec (inv : Delegation PubKey Sig Hash -> Prop)
    (hstep : forall dg key pubkey sig, inv dg -> dg.getDelegatedPubkey = keys.getPubKey key ->
      keys.signSchnorr key (keys.hashWith dg.dgid pubkey) = some sig ->
      inv (dg.extend keys ⟨pubkey, sig⟩)) (hinv : inv dg)
    (hrun : (new keys (.delegation dg)).addLevels keys calls = some b) :
    b = new keys (.delegation b.build) ∧ inv b.build := by
  induction calls generalizing dg with
  | nil =>
    cases Option.some.inj hrun
    exact ⟨by rw [build_new], by rwa [build_new]⟩
  | cons call calls ih =>
    rcases hadd : (new keys (.delegation dg)).addLevel keys call.1 call.2 with ⟨done, _⟩
    simp only [addLevels, hadd] at hrun
    cases done with
    | false => cases hrun
    | true =>
      rcases addLevel_new keys hadd with ⟨sig, rfl, hkey, hsign⟩
      exact ih (hstep dg call.1 call.2 sig hinv hkey hsign) hrun

theorem addLevels_append (b : DelegationBuilder PubKey Sig Hash) (first rest) :
    b.addLevels keys (first ++ rest) =
      (b.addLevels keys first).bind fun mid => mid.addLevels keys rest := by
  induction first generalizing b with
  | nil => rfl
  | cons call first ih =>
    rcases hadd : b.addLevel keys call.1 call.2 with ⟨done, _⟩
    cases done with
    | false => simp [addLevels, hadd]
    | true => simp [addLevels, hadd, ih]

/-!
## Chains
-/

theorem made_idKept (h : dg.Made keys) : dg.IdKept keys := by
  induction h with
  | null => exact .inr rfl
  | read limitedProofid proofMaster levels => exact .inl rfl
  | built hproof _ hrun ih =>
    rw [new_eq] at hrun
    exact (addLevels_rec keys (Delegation.IdKept keys)
      (fun dg key pubkey sig h hkey _ => idKept_extend keys ⟨pubkey, sig⟩ h hkey)
      (start_idKept keys hproof ih) hrun).2

theorem addLevels_chain (hid : dg.IdKept keys) (hsigned : dg.Signed keys)
    (hrun : (new keys (.delegation dg)).addLevels keys calls = some b) :
    b = new keys (.delegation b.build) ∧ b.build.IdKept keys ∧ b.build.Signed keys := by
  refine addLevels_rec keys (fun dg => dg.IdKept keys ∧ dg.Signed keys) ?_ ⟨hid, hsigned⟩ hrun
  rintro _ _ _ _ ⟨hid, hsigned⟩ hkey hsign
  refine ⟨idKept_extend keys _ hid hkey, (signedLevels_concat keys).mpr ⟨hsigned, ?_⟩⟩
  rw [idKept_delegator keys hid hkey, computeDelegationId_eq] at hsign
  have hverify := keys.verify_signed _ _ _ hsign
  rwa [← hkey] at hverify

theorem new_build (hrun : (new keys s).addLevels keys calls = some b) :
    new keys (.delegation b.build) = b := by
  rw [new_eq] at hrun
  exact (addLevels_rec keys (fun _ => True) (fun _ _ _ _ _ _ _ => trivial) trivial hrun).1.symm

theorem addLevels_last (hrun : (new keys s).addLevels keys calls = some b) {call : Key × PubKey}
    (hlast : calls.getLast? = some call) :
    exists dg sig, b.build = Delegation.extend keys dg ⟨call.2, sig⟩ := by
  rcases getLast?_eq_some_iff.mp hlast with ⟨_, rfl⟩
  rw [addLevels_append] at hrun
  rcases Option.bind_eq_some_iff.mp hrun with ⟨mid, hmid, hrest⟩
  rw [← new_build keys hmid] at hrest
  rcases hadd : (new keys (.delegation mid.build)).addLevel keys call.1 call.2 with ⟨done, _⟩
  simp only [addLevels, hadd] at hrest
  cases done with
  | false => cases hrest
  | true =>
    cases Option.some.inj hrest
    rcases addLevel_new keys hadd with ⟨sig, rfl, -, -⟩
    exact ⟨_, sig, build_new keys _⟩

/-- Chains of levels verify, carry the running hash as their id and can be resumed anywhere; a
verification accepts the chains of at most twenty levels that are signed throughout. -/
theorem delegation_chains :
    (forall (s : Start PubKey Sig Hash) (calls : List (Key × PubKey)) b auth,
      (forall p, s = .proof p -> p.Made keys) ->
      (forall dg, s = .delegation dg -> dg.Made keys ∧ (dg.verify keys auth).accepted = true) ->
      (new keys s).addLevels keys calls = some b ->
      b.build.levels.length <= maxDelegationLevels ->
        b.build.verify keys auth = ⟨true, none, b.build.getDelegatedPubkey⟩ ∧
        (forall call, calls.getLast? = some call -> b.build.getDelegatedPubkey = call.2) ∧
        b.build.dgid = b.dgid ∧
        (b.dgid = b.build.computeDelegationId keys ∨ calls = [] ∧ s.delegated keys = .null keys) ∧
        forall first rest, calls = first ++ rest ->
          exists mid, (new keys s).addLevels keys first = some mid ∧
            (new keys (.delegation mid.build)).addLevels keys rest = some b) ∧
    forall (dg : Delegation PubKey Sig Hash) auth,
      (dg.verify keys auth).accepted = true <->
        dg.levels.length <= maxDelegationLevels ∧ dg.Signed keys := by
  refine ⟨?_, verify_accepted_iff keys⟩
  intro s calls b auth hproof hdg hrun hlevels
  have hid : (s.delegated keys).IdKept keys :=
    start_idKept keys hproof fun dg hs => made_idKept keys (hdg dg hs).1
  have hsigned : (s.delegated keys).Signed keys := by
    cases s with
    | ids ltdProofId proofMaster => exact signedLevels_nil keys _ _
    | proof p => exact signedLevels_nil keys _ _
    | delegation dg => exact ((verify_accepted_iff keys dg auth).mp (hdg dg rfl).2).2
  rcases addLevels_chain keys hid hsigned (new_eq keys s ▸ hrun) with ⟨-, hidb, hsignedb⟩
  refine ⟨verify_signed keys hsignedb hlevels auth, ?_, rfl, ?_, ?_⟩
  · intro call hlast
    rcases addLevels_last keys hrun hlast with ⟨dg, sig, hb⟩
    simp [hb, Delegation.getDelegatedPubkey, Delegation.extend, lastKey]
  · refine hidb.imp id fun hnull => ?_
    cases hlast : calls.getLast? with
    | none =>
      cases getLast?_eq_none_iff.mp hlast
      cases Option.some.inj hrun
      exact ⟨rfl, by rwa [new_eq, build_new] at hnull⟩
    | some call =>
      rcases addLevels_last keys hrun hlast with ⟨_, _, hb⟩
      simp [hnull, Delegation.null, Delegation.extend] at hb
  · rintro _ _ rfl
    rw [addLevels_append] at hrun
    rcases Option.bind_eq_some_iff.mp hrun with ⟨mid, hmid, hrest⟩
    exact ⟨mid, hmid, (new_build keys hmid).symm ▸ hrest⟩

end Model

/-- Keys are numbers, a hash is all that went into it and a signature names its key and hash. -/
def plainKeys : KeyScheme Nat Nat (Nat × List Nat) (List Nat) where
  getPubKey := Nat.succ
  signSchnorr key hash := some (key.succ, hash)
  verifySchnorr pubkey hash sig := decide (sig = (pubkey, hash))
  hashWith hash pubkey := pubkey :: hash
  nullKey := 0
  nullSig := (0, [])
  nullHash := []
  getPubKey_valid := Nat.succ_ne_zero
  verify_signed := by simp

/-- Two levels, and the second one added to what was built after the first. -/
theorem delegation_chains_plain :
    exists b mid, (DelegationBuilder.new plainKeys (.ids [] 1)).addLevels plainKeys
        [(0, 2), (1, 3)] = some b ∧
      b.build.verify plainKeys 0 = ⟨true, none, 3⟩ ∧
      (DelegationBuilder.new plainKeys (.ids [] 1)).addLevels plainKeys [(0, 2)] = some mid ∧
      (DelegationBuilder.new plainKeys (.delegation mid.build)).addLevels plainKeys [(1, 3)] =
        some b := by
  rcases (delegation_chains plainKeys).1 (.ids [] 1) [(0, 2), (1, 3)] _ 0 nofun nofun rfl
    (by decide) with ⟨hverify, _, _, _, hresume⟩
  rcases hresume [(0, 2)] [(1, 3)] rfl with ⟨mid, hmid, hrest⟩
  exact ⟨_, mid, rfl, hverify, hmid, hrest⟩

/-- The twenty-first level is signed, but one too many. -/
theorem verify_tooDeep :
    exists b, (DelegationBuilder.new plainKeys (.ids [] 1)).addLevels plainKeys
        (replicate 21 (0, 1)) = some b ∧
      b.build.Signed plainKeys ∧ b.build.verify plainKeys 0 = ⟨false, some .tooManyLevels, 0⟩ :=
  ⟨_, rfl, (@addLevels_chain _ _ _ _ plainKeys ⟨[], 1, [1], []⟩ (replicate 21 (0, 1)) _ _
    (.inl rfl) (signedLevels_nil plainKeys [1] 1) rfl).2.2, by decide⟩

end ECash.Avalanche
