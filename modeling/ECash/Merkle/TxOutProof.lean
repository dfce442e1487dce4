import ECash.Merkle.Extraction

/-!
# Proofs that a transaction is in a block

`verifytxoutproof` reads a header and a partial tree, and lists the txids that the tree matches
in a block of the active chain.
-/

namespace ECash.Merkle

open Foundation List

variable {header hash : Type} [DecidableEq hash] {N : NodeHash hash}

/-- The txids of a block that was validated under a root. -/
structure BlockTxids (N : NodeHash hash) (root : hash) where
  vTxid : List hash
  nonempty : vTxid ≠ []
  length : vTxid.length ≤ 2 ^ 31
  distinct : vTxid.Nodup
  commits : (computeMerkleRoot N vTxid false).1 = root
  ne_null : root ≠ N.null

/-- The blocks of the active chain under their headers: the node finds them by the hash, and
different headers are taken to have different hashes. -/
structure ActiveChain (header : Type) (N : NodeHash hash) where
  hashMerkleRoot : header -> hash
  lookup : forall block, Option (BlockTxids N (hashMerkleRoot block))

inductive TxOutProofError where
  | endOfData
  | blockNotFoundInChain

def verifytxoutproof (chain : ActiveChain header N) (headers : Format header)
    (hashes : Format hash) (proof : Bytes) : Except TxOutProofError (List hash) :=
  match headers.read proof with
  | none => .error .endOfData
  | some (block, bytes) =>
    match CPartialMerkleTree.unserialize hashes bytes with
    | none => .error .endOfData
    | some (txn, _) =>
      if (extractMatches N txn []).root ≠ chain.hashMerkleRoot block then .ok []
      else
        match chain.lookup block with
        | none => .error .blockNotFoundInChain
        | some pindex =>
          if pindex.vTxid.length = txn.nTransactions then .ok (extractMatches N txn []).vMatch
          else .ok []

theorem BlockTxids.mem_of_match {root id : hash} (b : BlockTxids N root)
    {txn : CPartialMerkleTree hash} (hroot : (extractMatches N txn []).root = root)
    (hlength : b.vTxid.length = txn.nTransactions)
    (hid : id ∈ (extractMatches N txn []).vMatch) : id ∈ b.vTxid := by
  rcases bindsMatches b.nonempty b.length (b.commits.trans_ne b.ne_null) hlength.symm
    (hroot.trans b.commits.symm) with ⟨hsame, hbinds⟩
  rw [← map_snd_zip hsame.ge] at hid
  rcases mem_map.mp hid with ⟨p, hp, rfl⟩
  exact mem_of_getElem? (hbinds p hp)

/-- From any bytes only txids of a block of the active chain are listed, and those for which a
proof was made are. -/
theorem verifytxoutproof_correct (chain : ActiveChain header N) (headers : Format header)
    (hashes : Format hash) :
    (forall proof found, verifytxoutproof chain headers hashes proof = .ok found -> found = [] ∨
      exists block rest b, headers.read proof = some (block, rest) ∧
        chain.lookup block = some b ∧ forall id, id ∈ found -> id ∈ b.vTxid) ∧
    forall block b vMatch, chain.lookup block = some b ->
      exists txn, CPartialMerkleTree.new N b.vTxid vMatch = some txn ∧
        (txn.vHash.length ≤ maxSize ->
          verifytxoutproof chain headers hashes (headers.write block ++ txn.serialize hashes) =
            .ok ((matchedPositions b.vTxid vMatch).map (b.vTxid.getD · N.null))) := by
  unfold verifytxoutproof
  constructor
  · intro proof found h
    split at h
    · cases h
    rename_i block bytes hread
    split at h
    · cases h
    split at h
    · exact .inl (Except.ok.inj h).symm
    rename_i hroot
    split at h
    · cases h
    rename_i b hblock
    split at h
    · rename_i hlength
      refine .inr ⟨block, bytes, b, hread, hblock, fun id hid => ?_⟩
      rw [← Except.ok.inj h] at hid
      exact b.mem_of_match (not_not.mp hroot) hlength hid
    · exact .inl (Except.ok.inj h).symm
  · intro block b vMatch hblock
    refine ⟨_, new_eq_treeOf b.nonempty b.length, fun hsize => ?_⟩
    rcases @unserialize_treeOf hash N b.vTxid vMatch hashes b.nonempty b.length []
      with ⟨pad, hpad, hread⟩
    rw [if_neg hsize.not_gt, append_nil] at hread
    simp only [headers.read_write, hread, hblock, b.commits,
      extractMatches_treeOf b.nonempty b.length b.distinct hpad]
    simp [treeOf]

def threeTxids : BlockTxids pairHash (computeMerkleRoot pairHash [1, 2, 3] false).1 where
  vTxid := [1, 2, 3]
  nonempty := cons_ne_nil _ _
  length := by decide
  distinct := by decide
  commits := rfl
  ne_null := root_three_ne_null

/-- A chain of one block, with the header 5. -/
def threeChain : ActiveChain Nat pairHash where
  hashMerkleRoot _ := (computeMerkleRoot pairHash [1, 2, 3] false).1
  lookup block := if block = 5 then some threeTxids else none

theorem verifytxoutproof_correct_three :
    exists txn, CPartialMerkleTree.new pairHash [1, 2, 3] [true, false, true] = some txn ∧
      verifytxoutproof threeChain unaryFormat unaryFormat
        (unaryFormat.write 5 ++ txn.serialize unaryFormat) = .ok [1, 3] := by
  rcases (verifytxoutproof_correct threeChain unaryFormat unaryFormat).right 5 threeTxids
    [true, false, true] rfl with ⟨txn, hnew, hfound⟩
  refine ⟨txn, hnew, hfound ?_⟩
  cases hnew
  decide

end ECash.Merkle
