import ECash.Tokens.Script

/-!
# Keys of the script index

The index stores the history of a script under a compressed form of it.  The common
shapes are stored by their hash or key only, and every other script with its length in
front.  A key that is not a point of the curve can share its compressed form with
another script.
-/

namespace ECash.Index

open Tokens List

/-!
## Script variants
-/

inductive PubKeyVariant where
  | compressed (pk : ByteArr 33)
  | uncompressed (pk : ByteArr 65)
deriving DecidableEq

inductive ScriptVariant where
  | p2pkh (hash : ByteArr 20)
  | p2sh (hash : ByteArr 20)
  | p2pk (pk : PubKeyVariant)
  | other (script : Script)
deriving DecidableEq

def opDup : Opcode := 0x76
def opEqualverify : Opcode := 0x88
def opChecksig : Opcode := 0xac

def framed (n : Nat) (first last bytes : Bytes) : Option (ByteArr n) :=
  if h : bytes.length = first.length + n + last.length ∧ bytes.take first.length = first ∧
      bytes.drop (first.length + n) = last then
    some ⟨(bytes.drop first.length).take n, by
      rw [length_take, length_drop]
      omega⟩
  else none

variable {n m : Nat} {v v' : ScriptVariant}

theorem eq_of_framed {first last bytes : Bytes} {arr : ByteArr n}
    (h : framed n first last bytes = some arr) : bytes = first ++ arr.val ++ last := by
  unfold framed at h
  split at h
  · rename_i hshape
    rcases hshape with ⟨_, hfirst, hlast⟩
    cases h
    rw [append_assoc]
    conv_lhs => rw [← take_append_drop first.length bytes, hfirst,
      ← take_append_drop n (bytes.drop first.length), drop_drop, hlast]
  · cases h

def variant (script : Script) : ScriptVariant :=
  match framed 20 [opDup, opHash160, 20] [opEqualverify, opChecksig] script.bytecode with
  | some hash => .p2pkh hash
  | none =>
    match framed 20 [opHash160, 20] [opEqual] script.bytecode with
    | some hash => .p2sh hash
    | none =>
      match framed 33 [33] [opChecksig] script.bytecode with
      | some pk => .p2pk (.compressed pk)
      | none =>
        match framed 65 [65] [opChecksig] script.bytecode with
        | some pk => .p2pk (.uncompressed pk)
        | none => .other script

def ScriptVariant.toScript : ScriptVariant -> Script
  | .p2pkh hash => { bytecode := [opDup, opHash160, 20] ++ hash.val ++ [opEqualverify, opChecksig] }
  | .p2sh hash => { bytecode := [opHash160, 20] ++ hash.val ++ [opEqual] }
  | .p2pk (.compressed pk) => { bytecode := [33] ++ pk.val ++ [opChecksig] }
  | .p2pk (.uncompressed pk) => { bytecode := [65] ++ pk.val ++ [opChecksig] }
  | .other script => script

theorem toScript_variant (script : Script) : (variant script).toScript = script := by
  unfold variant
  repeat' split
  on_goal 5 => rfl
  all_goals
    rename_i h
    exact congrArg Script.mk (eq_of_framed h).symm

theorem variant_injective {s t : Script} (h : variant s = variant t) : s = t := by
  rw [← toScript_variant s, ← toScript_variant t, h]

/-!
## Compression
-/

/-- The bytes of `write_var_int` from the last to the first. -/
def varIntBytes (n : Nat) (isLast : Bool) : Bytes :=
  let byte : UInt8 := UInt8.ofNat (n % 128) ||| (if isLast then 0x00 else 0x80)
  if n ≤ 0x7f then [byte] else byte :: varIntBytes (n / 128 - 1) false
termination_by n
decreasing_by omega

def writeVarInt (n : Nat) : Bytes :=
  (varIntBytes n true).reverse

def numSpecialScripts : Nat := 6

def parityByte (pk : ByteArr 65) : UInt8 :=
  (pk.val.getD 64 0 &&& 0x01) ||| 0x04

def xBytes (pk : ByteArr 65) : Bytes :=
  (pk.val.drop 1).take 32

def compressScriptVariant : ScriptVariant -> Bytes
  | .p2pkh hash => 0x00 :: hash.val
  | .p2sh hash => 0x01 :: hash.val
  | .p2pk (.compressed pk) => pk.val
  | .p2pk (.uncompressed pk) => parityByte pk :: xBytes pk
  | .other script => writeVarInt (script.bytecode.length + numSpecialScripts) ++ script.bytecode

/-- `ScriptGroup::ser_member`: the key of a script in the index. -/
def serMember (script : Script) : Bytes :=
  compressScriptVariant (variant script)

/-!
## Lengths
-/

theorem length_varIntBytes_mono (h : n ≤ m) (a b : Bool) :
    (varIntBytes n a).length ≤ (varIntBytes m b).length := by
  induction m using Nat.strongRecOn generalizing n a b with
  | ind m ih =>
    by_cases hn : n ≤ 0x7f
    · have hone : (varIntBytes n a).length = 1 := by
        unfold varIntBytes
        simp [hn]
      rw [hone]
      rw [varIntBytes]
      split <;> simp
    · have hm : ¬ m ≤ 0x7f := by omega
      unfold varIntBytes
      simp only [hn, hm, if_false, length_cons]
      have hrest := ih (m / 128 - 1) (by omega) (show n / 128 - 1 ≤ m / 128 - 1 by omega)
        false false
      omega

theorem writeVarInt_small (h : n ≤ 0x7f) : writeVarInt n = [UInt8.ofNat n] := by
  unfold writeVarInt varIntBytes
  have hmod : n % 128 = n := Nat.mod_eq_of_lt (by omega)
  simp [h, hmod]

def otherLength (n : Nat) : Nat :=
  (writeVarInt (n + numSpecialScripts)).length + n

theorem otherLength_strictMono (h : n < m) : otherLength n < otherLength m := by
  have hle := length_varIntBytes_mono
    (show n + numSpecialScripts ≤ m + numSpecialScripts by omega) true true
  unfold otherLength writeVarInt
  rw [length_reverse, length_reverse]
  omega

theorem otherLength_injective (h : otherLength n = otherLength m) : n = m := by
  rcases Nat.lt_trichotomy n m with hlt | heq | hgt
  · exact absurd h (Nat.ne_of_lt (otherLength_strictMono hlt))
  · exact heq
  · exact absurd h.symm (Nat.ne_of_lt (otherLength_strictMono hgt))

theorem otherLength_small (h : n ≤ 121) : otherLength n = n + 1 := by
  unfold otherLength
  rw [writeVarInt_small (show n + numSpecialScripts ≤ 0x7f by unfold numSpecialScripts; omega)]
  simp only [length_singleton]
  omega

theorem length_compress_other (script : Script) :
    (compressScriptVariant (.other script)).length = otherLength script.bytecode.length := by
  simp [compressScriptVariant, otherLength]

theorem length_xBytes (pk : ByteArr 65) : (xBytes pk).length = 32 := by
  simp [xBytes, pk.property]

theorem compress_other_of_length {script : Script} (hn : n ≤ 121)
    (h : (compressScriptVariant (.other script)).length = n + 1) :
    script.bytecode.length = n ∧
      compressScriptVariant (.other script) = UInt8.ofNat (n + 6) :: script.bytecode := by
  rw [length_compress_other, ← otherLength_small hn] at h
  have hlength := otherLength_injective h
  refine ⟨hlength, ?_⟩
  show writeVarInt (script.bytecode.length + 6) ++ script.bytecode = _
  rw [hlength, writeVarInt_small (by omega)]
  rfl

/-!
## Collisions
-/

/-- Two variants whose compressed forms coincide without the scripts being equal. -/
inductive Confused : ScriptVariant -> ScriptVariant -> Prop where
  | uncompressed (pk pk' : ByteArr 65) (hparity : parityByte pk = parityByte pk')
      (hx : xBytes pk = xBytes pk') :
      Confused (.p2pk (.uncompressed pk)) (.p2pk (.uncompressed pk'))
  | mixed (pk : ByteArr 33) (pk' : ByteArr 65) (h : pk.val = parityByte pk' :: xBytes pk') :
      Confused (.p2pk (.compressed pk)) (.p2pk (.uncompressed pk'))
  | other (pk : ByteArr 33) (script : Script) (h : pk.val = 38 :: script.bytecode) :
      Confused (.p2pk (.compressed pk)) (.other script)

theorem compress_eq_of_confused (h : Confused v v') :
    compressScriptVariant v = compressScriptVariant v' := by
  cases h with
  | uncompressed pk pk' hparity hx => simp [compressScriptVariant, hparity, hx]
  | mixed pk pk' h => exact h
  | other pk script h =>
    have hlength : script.bytecode.length = 32 := by
      have hpk := pk.property
      rw [h] at hpk
      simpa using hpk
    show pk.val = writeVarInt (script.bytecode.length + 6) ++ script.bytecode
    rw [hlength, writeVarInt_small (by decide), h]
    rfl

theorem parityByte_ne_38 (pk : ByteArr 65) : parityByte pk ≠ 38 := by
  have hall : forall b : UInt8, (b &&& 0x01) ||| 0x04 ≠ 38 := by
    intro b h
    have hnat := congrArg UInt8.toNat h
    have hle : b.toNat &&& 1 ≤ 1 := Nat.and_le_right
    have hcases : b.toNat &&& 1 = 0 ∨ b.toNat &&& 1 = 1 := by omega
    rcases hcases with hzero | hone
    · simp [hzero] at hnat
    · simp [hone] at hnat
  exact hall _

theorem length_compress_p2pk (pk : PubKeyVariant) :
    (compressScriptVariant (.p2pk pk)).length = 33 := by
  cases pk with
  | compressed pk => exact pk.property
  | uncompressed pk => simp [compressScriptVariant, length_xBytes]

theorem compress_hash_eq {b : UInt8} (hb : b < 2) {hash : ByteArr 20}
    (h : b :: hash.val = compressScriptVariant v) :
    (b = 0 ∧ .p2pkh hash = v) ∨ (b = 1 ∧ .p2sh hash = v) := by
  have hlength : (compressScriptVariant v).length = 20 + 1 := by
    rw [← h]
    simp [hash.property]
  cases v with
  | p2pkh other =>
    rcases cons.inj h with ⟨hfirst, hhash⟩
    exact .inl ⟨hfirst, congrArg _ (Subtype.ext hhash)⟩
  | p2sh other =>
    rcases cons.inj h with ⟨hfirst, hhash⟩
    exact .inr ⟨hfirst, congrArg _ (Subtype.ext hhash)⟩
  | p2pk pk =>
    rw [length_compress_p2pk] at hlength
    omega
  | other script =>
    rcases compress_other_of_length (show 20 ≤ 121 by decide) hlength with ⟨_, hbytes⟩
    rw [hbytes] at h
    have hfirst : b = UInt8.ofNat 26 := (cons.inj h).left
    rw [hfirst] at hb
    exact absurd hb (by decide)

theorem compress_p2pk_eq {pk : PubKeyVariant}
    (h : compressScriptVariant (.p2pk pk) = compressScriptVariant v) :
    .p2pk pk = v ∨ Confused (.p2pk pk) v ∨ Confused v (.p2pk pk) := by
  cases v with
  | p2pkh hash => rcases compress_hash_eq (by decide) h.symm with ⟨_, heq⟩ | ⟨_, heq⟩ <;> cases heq
  | p2sh hash => rcases compress_hash_eq (by decide) h.symm with ⟨_, heq⟩ | ⟨_, heq⟩ <;> cases heq
  | p2pk pk' =>
    cases pk with
    | compressed pk =>
      cases pk' with
      | compressed pk' =>
        have heq : pk = pk' := Subtype.ext h
        exact .inl (by rw [heq])
      | uncompressed pk' => exact .inr (.inl (.mixed pk pk' h))
    | uncompressed pk =>
      cases pk' with
      | compressed pk' => exact .inr (.inr (.mixed pk' pk h.symm))
      | uncompressed pk' =>
        rcases cons.inj h with ⟨hparity, hx⟩
        exact .inr (.inl (.uncompressed pk pk' hparity hx))
  | other script =>
    have hlength : (compressScriptVariant (.other script)).length = 32 + 1 := by
      rw [← h]
      exact length_compress_p2pk pk
    rcases compress_other_of_length (show 32 ≤ 121 by decide) hlength with ⟨_, hbytes⟩
    rw [hbytes] at h
    cases pk with
    | compressed pk => exact .inr (.inl (.other pk script h))
    | uncompressed pk => exact absurd (cons.inj h).left (parityByte_ne_38 pk)

theorem compress_eq_cases (h : compressScriptVariant v = compressScriptVariant v') :
    v = v' ∨ Confused v v' ∨ Confused v' v := by
  cases v with
  | p2pkh hash =>
    rcases compress_hash_eq (by decide) h with ⟨_, heq⟩ | ⟨hfirst, _⟩
    · exact .inl heq
    · exact absurd hfirst (by decide)
  | p2sh hash =>
    rcases compress_hash_eq (by decide) h with ⟨hfirst, _⟩ | ⟨_, heq⟩
    · exact absurd hfirst (by decide)
    · exact .inl heq
  | p2pk pk => exact compress_p2pk_eq h
  | other script =>
    cases v' with
    | p2pkh hash =>
      rcases compress_hash_eq (by decide) h.symm with ⟨_, heq⟩ | ⟨_, heq⟩ <;> cases heq
    | p2sh hash =>
      rcases compress_hash_eq (by decide) h.symm with ⟨_, heq⟩ | ⟨_, heq⟩ <;> cases heq
    | p2pk pk =>
      rcases compress_p2pk_eq h.symm with heq | hconfused | hconfused
      · exact .inl heq.symm
      · exact .inr (.inr hconfused)
      · exact .inr (.inl hconfused)
    | other script' =>
      have hlength : script.bytecode.length = script'.bytecode.length := by
        apply otherLength_injective
        rw [← length_compress_other, ← length_compress_other, h]
      have hbytes : script.bytecode = script'.bytecode := by
        simp only [compressScriptVariant, hlength] at h
        exact append_cancel_left h
      exact .inl (congrArg ScriptVariant.other (congrArg Script.mk hbytes))

/-- Two scripts share a key of the index exactly if they are equal or confused. -/
theorem serMember_eq_iff (s t : Script) :
    serMember s = serMember t <->
      s = t ∨ Confused (variant s) (variant t) ∨ Confused (variant t) (variant s) := by
  constructor
  · intro h
    exact (compress_eq_cases h).imp_left variant_injective
  · intro h
    rcases h with heq | hconfused | hconfused
    · rw [heq]
    · exact compress_eq_of_confused hconfused
    · exact (compress_eq_of_confused hconfused).symm

/-- Different scripts have different keys unless they are confused. -/
theorem serMember_injective_iff (s t : Script) :
    (s ≠ t -> serMember s ≠ serMember t) <->
      (s ≠ t -> ¬ Confused (variant s) (variant t) ∧ ¬ Confused (variant t) (variant s)) := by
  apply imp_congr_right
  intro hne
  rw [Ne, serMember_eq_iff, ← not_or]
  apply not_congr
  constructor
  · intro h
    exact h.resolve_left hne
  · exact .inr

/-- A P2PK script whose uncompressed key has this first byte and zeros after it. -/
def p2pkUncompressed (first : UInt8) : Script :=
  { bytecode := 65 :: first :: replicate 64 0 ++ [opChecksig] }

/-- The first byte of an uncompressed key is not part of the index key. -/
theorem serMember_collision :
    p2pkUncompressed 0x04 ≠ p2pkUncompressed 0x06 ∧
      serMember (p2pkUncompressed 0x04) = serMember (p2pkUncompressed 0x06) := by
  decide +kernel

end ECash.Index
