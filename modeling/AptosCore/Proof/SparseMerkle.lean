import AptosCore.Merkle.SparseTree
import AptosCore.Rust.Result

/-!
# Sparse Merkle proofs

`types/src/proof/definition.rs`: `SparseMerkleProof::verify_by_hash_partial` checks that a leaf
(or its absence) and a list of sibling hashes recompute an expected root hash. The keys of the
tree are `HashValue`s, read bit by bit from the most significant bit of the first byte
(`iter_bits`); a key is modelled by those 256 bits. The three hashes of the tree
(`SparseMerkleLeafNode::hash`, `SparseMerkleInternalNode::hash` and
`SPARSE_MERKLE_PLACEHOLDER_HASH`) form a `TreeHasher`.

The root a state commits to is the canonical sparse Merkle root of its entries, as
`compute_root_hash_impl` of the Jellyfish Merkle tests computes it. `verifyByHash_sound` says
that, for collision-free hashes, a proof accepted against that root proves the key's value hash
or, for a non-inclusion proof, that the key has none.
-/

namespace AptosCore.Proof

open Merkle

def lengthInBits : Nat := 256

/-- A `HashValue` used as a key, given by its bits, most significant first. -/
structure Key where
  bits : List Bool
  length_bits : bits.length = lengthInBits
  deriving DecidableEq

namespace Key

/-- The bit at `index`. -/
def bit (key : Key) (index : Nat) : Bool := key.bits.getD index false

/-- The length of the longest common prefix of two bit strings. -/
def commonPrefixLen : List Bool → List Bool → Nat
  | x :: xs, y :: ys => if x = y then commonPrefixLen xs ys + 1 else 0
  | _, _ => 0

def commonPrefixBitsLen (key other : Key) : Nat := commonPrefixLen key.bits other.bits

theorem eq_of_bit_eq {key other : Key} (hbits : ∀ i < lengthInBits, key.bit i = other.bit i) :
    key = other := by
  obtain ⟨bits, hbits_length⟩ := key
  obtain ⟨bits', hbits_length'⟩ := other
  congr 1
  apply List.ext_getElem (hbits_length.trans hbits_length'.symm)
  intro i hi hi'
  have hbit := hbits i (hbits_length ▸ hi)
  simp only [bit, List.getD_eq_getElem?_getD, List.getElem?_eq_getElem hi,
    List.getElem?_eq_getElem hi', Option.getD_some] at hbit
  exact hbit

theorem getElem_take_bits (key : Key) (n : Nat) :
    ∀ i (hi : i < (key.bits.take n).length), (key.bits.take n)[i] = key.bit i := by
  intro i hi
  simp only [List.length_take] at hi
  simp only [bit, List.getElem_take, List.getD_eq_getElem?_getD,
    List.getElem?_eq_getElem (show i < key.bits.length by omega), Option.getD_some]

end Key

variable {H : Type}

/-- `SparseMerkleLeafNode`. -/
structure SparseMerkleLeafNode (H : Type) where
  key : Key
  valueHash : H
  deriving DecidableEq

/-- `SparseMerkleProof`. -/
structure SparseMerkleProof (H : Type) where
  leaf : Option (SparseMerkleLeafNode H)
  siblings : List H

/-- The failed `ensure!` and `bail!` of `verify_by_hash_partial`, with the values their messages
print. -/
inductive ProofError (H : Type) where
  | tooManySiblings (rootDepth siblings : Nat)
  | keysDoNotMatch (proofKey elementKey : Key) (elementHash valueHash : H)
  | valueHashesDoNotMatch (elementKey : Key) (proofValueHash elementHash : H)
  | expectedInclusionProof (elementHash : H)
  | keyExistsInProof (elementKey proofKey : Key)
  | notInSubtree (elementKey proofKey : Key)
  | rootHashesDoNotMatch (actualRootHash expectedRootHash : H)

variable (hasher : TreeHasher Key H)

/-- The fold of `verify_by_hash_partial` recomputes the root along the key's bits below
`rootDepth`, one bit for each sibling: it reads the siblings and the bits from the bottom. -/
theorem foldl_eq_pathHash (key : Key) (siblings : List H) (rootDepth : Nat)
    (hlength : siblings.length + rootDepth ≤ lengthInBits) (current : H) :
    (siblings.reverse.zip (key.bits.reverse.drop (lengthInBits - siblings.length - rootDepth))).foldl
      (fun hash step ↦ if step.2 then hasher.internal step.1 hash else hasher.internal hash step.1)
      current =
    pathHash hasher ((key.bits.drop rootDepth).take siblings.length) siblings current := by
  have hpathLength : ((key.bits.drop rootDepth).take siblings.length).length = siblings.length := by
    simp only [List.length_take, List.length_drop, key.length_bits]
    omega
  have hbits : key.bits.reverse.drop (lengthInBits - siblings.length - rootDepth) =
      ((key.bits.drop rootDepth).take siblings.length).reverse ++ (key.bits.take rootDepth).reverse := by
    rw [List.drop_reverse, key.length_bits,
      show lengthInBits - (lengthInBits - siblings.length - rootDepth) = rootDepth + siblings.length by
        omega,
      List.take_add, List.reverse_append]
  have hzip := @List.zip_append _ _ siblings.reverse []
    ((key.bits.drop rootDepth).take siblings.length).reverse (key.bits.take rootDepth).reverse
    (by simp [hpathLength])
  rw [List.append_nil, List.zip_nil_left, List.append_nil] at hzip
  rw [hbits, hzip, List.zip_eq_zipWith, ← List.reverse_zipWith (by simp [hpathLength]),
    List.foldl_reverse, pathHash_eq_foldr, List.zip_eq_zipWith]

variable [DecidableEq H]

namespace SparseMerkleProof

def verifyByHashPartial (proof : SparseMerkleProof H) (expectedRootHash : H) (elementKey : Key)
    (elementHash : Option H) (rootDepth : Nat) : Except (ProofError H) Unit := do
  if proof.siblings.length + rootDepth > lengthInBits then
    throw (.tooManySiblings rootDepth proof.siblings.length)
  match elementHash, proof.leaf with
  | some hash, some leaf =>
    if elementKey ≠ leaf.key then
      throw (.keysDoNotMatch leaf.key elementKey hash leaf.valueHash)
    if hash ≠ leaf.valueHash then
      throw (.valueHashesDoNotMatch elementKey leaf.valueHash hash)
  | some hash, none => throw (.expectedInclusionProof hash)
  | none, some leaf =>
    if elementKey = leaf.key then
      throw (.keyExistsInProof elementKey leaf.key)
    if elementKey.commonPrefixBitsLen leaf.key < rootDepth + proof.siblings.length then
      throw (.notInSubtree elementKey leaf.key)
  | none, none => pure ()
  let currentHash :=
    (proof.leaf.map fun leaf ↦ hasher.leaf leaf.key leaf.valueHash).getD hasher.placeholder
  let actualRootHash :=
    (proof.siblings.reverse.zip
        (elementKey.bits.reverse.drop (lengthInBits - proof.siblings.length - rootDepth))).foldl
      (fun hash step ↦
        if step.2 then hasher.internal step.1 hash else hasher.internal hash step.1)
      currentHash
  if actualRootHash ≠ expectedRootHash then
    throw (.rootHashesDoNotMatch actualRootHash expectedRootHash)

/-- What `verify_by_hash_partial` accepts: no more siblings than the levels below the root, an
inclusion proof whose leaf is the element, or a non-inclusion proof whose leaf (if any) is
another key sharing the path, and a fold that recomputes the expected root. -/
theorem verifyByHashPartial_eq_ok_iff {proof : SparseMerkleProof H} {expectedRootHash : H}
    {elementKey : Key} {elementHash : Option H} {rootDepth : Nat} :
    proof.verifyByHashPartial hasher expectedRootHash elementKey elementHash rootDepth = .ok () ↔
      proof.siblings.length + rootDepth ≤ lengthInBits ∧
      (∀ leaf ∈ proof.leaf, elementKey = leaf.key ∧ elementHash = some leaf.valueHash ∨
        elementHash = none ∧ elementKey ≠ leaf.key ∧
          rootDepth + proof.siblings.length ≤ elementKey.commonPrefixBitsLen leaf.key) ∧
      (proof.leaf = none → elementHash = none) ∧
      (proof.siblings.reverse.zip
          (elementKey.bits.reverse.drop (lengthInBits - proof.siblings.length - rootDepth))).foldl
        (fun hash step ↦ if step.2 then hasher.internal step.1 hash else hasher.internal hash step.1)
        ((proof.leaf.map fun leaf ↦ hasher.leaf leaf.key leaf.valueHash).getD hasher.placeholder) =
        expectedRootHash := by
  obtain ⟨leaf, siblings⟩ := proof
  unfold verifyByHashPartial
  by_cases hlength : siblings.length + rootDepth ≤ lengthInBits
  case neg =>
    have htoo : siblings.length + rootDepth > lengthInBits := by omega
    simp [htoo, hlength]
  have hfits : ¬siblings.length + rootDepth > lengthInBits := by omega
  cases elementHash <;> cases leaf <;>
    simp [hlength, hfits, ite_eq_iff, and_assoc]

def verifyByHash (proof : SparseMerkleProof H) (expectedRootHash : H) (elementKey : Key)
    (elementHash : Option H) : Except (ProofError H) Unit :=
  proof.verifyByHashPartial hasher expectedRootHash elementKey elementHash 0

end SparseMerkleProof

/-- A state: finitely many keys, each with the hash of its value. -/
structure StateMap (H : Type) where
  entries : List (Key × H)
  nodup_keys : (entries.map Prod.fst).Nodup

namespace StateMap

/-- The value hash of a key, if the key has one. -/
def get (state : StateMap H) (key : Key) : Option H := state.entries.lookup key

/-- The canonical sparse Merkle root of a state. -/
def rootHash (state : StateMap H) : H :=
  subtreeHash hasher Key.bit lengthInBits 0 state.entries

end StateMap

/-- For collision-free hashes, a proof that `verify_by_hash` accepts against a state's root
proves the key's value hash, or, when `elementHash` is `none`, that the key has none. -/
theorem verifyByHash_sound (hcf : hasher.CollisionFree) (state : StateMap H) (key : Key)
    (elementHash : Option H) (proof : SparseMerkleProof H)
    (hok : proof.verifyByHash hasher (state.rootHash hasher) key elementHash = .ok ()) :
    elementHash = state.get key := by
  obtain ⟨hlength, hleaf, hnone, hroot⟩ :=
    (SparseMerkleProof.verifyByHashPartial_eq_ok_iff hasher).mp hok
  rw [foldl_eq_pathHash hasher key proof.siblings 0 hlength, List.drop_zero] at hroot
  have hbits : (key.bits.take proof.siblings.length).length = proof.siblings.length := by
    simp only [List.length_take, key.length_bits]
    omega
  have hkey : ∀ key key' : Key, (∀ i < lengthInBits, key.bit i = key'.bit i) → key = key' :=
    fun _ _ ↦ Key.eq_of_bit_eq
  have hpath := key.getElem_take_bits proof.siblings.length
  cases hproofLeaf : proof.leaf with
  | none =>
    rw [hproofLeaf, Option.map_none, Option.getD_none] at hroot
    have habsent :=
      not_mem_of_pathHash_placeholder Key.bit hcf hkey state.nodup_keys hpath hbits hroot
    rw [hnone hproofLeaf, StateMap.get, lookup_eq_none_of_forall_not_mem habsent]
  | some leaf =>
    rw [hproofLeaf, Option.map_some, Option.getD_some] at hroot
    obtain ⟨hmemLeaf, -, hunique⟩ :=
      mem_of_pathHash_leaf Key.bit hcf hkey state.nodup_keys hpath hbits hroot
    rcases hleaf leaf hproofLeaf with ⟨rfl, rfl⟩ | ⟨rfl, hne, -⟩
    · rw [StateMap.get, lookup_eq_some_of_mem state.nodup_keys hmemLeaf]
    · rw [StateMap.get, lookup_eq_none_of_forall_not_mem fun value hmem ↦ hne (hunique value hmem).1]

/-- A state of two keys that differ in their first bit, and a non-inclusion proof for a third
key that shares the first bit of one of them. -/
theorem verifyByHash_sound_absent :
    (TreeHasher.free Key Nat).CollisionFree ∧
      SparseMerkleProof.verifyByHash (TreeHasher.free Key Nat)
        ⟨some ⟨⟨List.replicate 256 false, List.length_replicate⟩, .value 0⟩,
          [.leaf ⟨(List.replicate 256 false).set 0 true, List.length_set.trans List.length_replicate⟩
            (.value 1)]⟩
        (StateMap.rootHash (TreeHasher.free Key Nat)
          ⟨[(⟨List.replicate 256 false, List.length_replicate⟩, .value 0),
            (⟨(List.replicate 256 false).set 0 true, List.length_set.trans List.length_replicate⟩,
              .value 1)], by decide⟩)
        ⟨(List.replicate 256 false).set 1 true, List.length_set.trans List.length_replicate⟩
        none = .ok () ∧
      none = StateMap.get
        ⟨[(⟨List.replicate 256 false, List.length_replicate⟩, (.value 0 : HashTerm Key Nat)),
          (⟨(List.replicate 256 false).set 0 true, List.length_set.trans List.length_replicate⟩,
            .value 1)], by decide⟩
        ⟨(List.replicate 256 false).set 1 true, List.length_set.trans List.length_replicate⟩ := by
  have hcf := TreeHasher.free_collisionFree Key Nat
  refine ⟨hcf, ?hok, verifyByHash_sound _ hcf _ _ _ _ ?hok⟩
  set_option maxRecDepth 8000 in rfl

end AptosCore.Proof
