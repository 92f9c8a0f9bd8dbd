import Mathlib
import AptosCore.Jellyfish.Codec

/-!
# Nodes read back from their bytes

`InternalNode::serialize` writes the children in their stored order, and `deserialize` reads them
back in the order of the set bits of the existence bitmap, lowest first, clearing each bit it
reads. The two orders agree when the stored nibbles increase, which is what `from_sorted`
expects; the round trip is then an induction over the children with one invariant: the bits
left in the existence bitmap are the nibbles of the children not read yet.
-/

namespace AptosCore.Jellyfish

open Codec Rust

namespace InternalNode

/-! ## Bitmaps -/

theorem addToBitmaps_eq (bitmaps : Nat × Nat) (child : Fin 16 × Child) :
    addToBitmaps bitmaps child = (bitmaps.1 ||| 2 ^ child.1.val,
      if child.2.isLeaf then bitmaps.2 ||| 2 ^ child.1.val else bitmaps.2) := by
  rw [addToBitmaps, Nat.one_shiftLeft]

/-- The loop of `generate_bitmaps` sets bit `j` of the existence bitmap for a child at nibble
`j`, and of the leaf bitmap for a leaf there. -/
theorem testBit_foldl_addToBitmaps (children : List (Fin 16 × Child)) (bitmaps : Nat × Nat)
    (j : Nat) :
    ((children.foldl addToBitmaps bitmaps).1.testBit j = true ↔
      bitmaps.1.testBit j = true ∨ ∃ child ∈ children, child.1.val = j) ∧
    ((children.foldl addToBitmaps bitmaps).2.testBit j = true ↔
      bitmaps.2.testBit j = true ∨ ∃ child ∈ children, child.1.val = j ∧ child.2.isLeaf) := by
  induction children generalizing bitmaps with
  | nil => simp
  | cons child children ih =>
    rw [List.foldl_cons, (ih _).1, (ih _).2, addToBitmaps_eq]
    constructor
    · simp only [Nat.testBit_or, Nat.testBit_two_pow, Bool.or_eq_true, decide_eq_true_eq,
        List.mem_cons, exists_eq_or_imp]
      tauto
    · by_cases hleaf : child.2.isLeaf
      · simp only [hleaf, if_true, Nat.testBit_or, Nat.testBit_two_pow, Bool.or_eq_true,
          decide_eq_true_eq, List.mem_cons, exists_eq_or_imp, and_true]
        tauto
      · simp only [hleaf, if_false, List.mem_cons, exists_eq_or_imp, Bool.false_eq_true,
          and_false, false_or]

/-- A leaf bitmap that is a subset of the existence bitmap passes the assertion of
`generate_bitmaps`. -/
theorem generateBitmaps_eq (node : InternalNode) :
    node.generateBitmaps = some (node.children.foldl addToBitmaps (0, 0)) := by
  have hsubset : (node.children.foldl addToBitmaps (0, 0)).1 |||
      (node.children.foldl addToBitmaps (0, 0)).2 = (node.children.foldl addToBitmaps (0, 0)).1 := by
    apply Nat.eq_of_testBit_eq
    intro j
    have hbits := testBit_foldl_addToBitmaps node.children (0, 0) j
    simp only [Nat.zero_testBit, Bool.false_eq_true, false_or] at hbits
    rw [Nat.testBit_or]
    cases hleaf : (node.children.foldl addToBitmaps (0, 0)).2.testBit j
    · rw [Bool.or_false]
    · obtain ⟨child, hmem, hnibble, -⟩ := hbits.2.mp hleaf
      rw [Bool.or_true, hbits.1.mpr ⟨child, hmem, hnibble⟩]
  unfold generateBitmaps
  rw [if_pos hsubset]

/-! ## One child -/

theorem fromSlice_take_append (hash : HashValue) (rest : List Nat) :
    HashValue.fromSlice ((hash.bytes ++ rest).take 32) = .ok hash := by
  rw [List.take_left' hash.length_bytes, HashValue.fromSlice, dif_pos hash.length_bytes]

theorem drop_append_of_hash (hash : HashValue) (rest : List Nat) :
    (hash.bytes ++ rest).drop 32 = rest := List.drop_left' hash.length_bytes

theorem and_one_shiftLeft_ne_zero_iff (leafBitmap n : Nat) :
    leafBitmap &&& 1 <<< n ≠ 0 ↔ leafBitmap.testBit n = true := by
  rw [Nat.one_shiftLeft, Nat.and_two_pow]
  cases leafBitmap.testBit n <;> simp

/-- What `serialize` writes for a child in range that is not `Null`: its version, its hash and,
for an internal child, its leaf count. -/
theorem serializeChild_eq_ok {child : Child} (hbounded : child.Bounded)
    (hnull : child.nodeType ≠ .null) :
    ∃ bytes, serializeChild child = .ok bytes ∧
      ∀ (leafBitmap existenceBitmap : Nat) (nibble : Fin 16),
        U64.trailingZerosOf 16 existenceBitmap = nibble.val →
        leafBitmap.testBit nibble.val = child.isLeaf → ∀ rest,
        deserializeChild leafBitmap existenceBitmap (bytes ++ rest) =
          .ok ((nibble, child), existenceBitmap &&& (1 <<< nibble.val ^^^ 0xFFFF), rest) := by
  obtain ⟨hash, version, nodeType⟩ := child
  obtain ⟨versionBytes, hversion, -, hreadVersion⟩ :=
    deserializeU64Varint_serializeU64Varint hbounded.1
  have hlength : ∀ tail, ¬(hash.bytes ++ tail).length < 32 := by
    intro tail
    rw [List.length_append, hash.length_bytes]
    omega
  cases nodeType with
  | null => exact absurd rfl hnull
  | leaf =>
    refine ⟨versionBytes ++ hash.bytes, ?_, fun leafBitmap existenceBitmap nibble hnext hleaf rest ↦ ?_⟩
    · simp only [serializeChild, hversion, orPanic, ok_bind]
      rfl
    · have hset : leafBitmap &&& 1 <<< nibble.val ≠ 0 :=
        (and_one_shiftLeft_ne_zero_iff _ _).mpr hleaf
      unfold deserializeChild
      simp only [List.append_assoc, hreadVersion, ok_bind, if_neg (hlength rest),
        fromSlice_take_append, drop_append_of_hash, hnext, dif_pos nibble.isLt, if_pos hset]
      rfl
  | internal leafCount =>
    obtain ⟨countBytes, hcount, -, hreadCount⟩ :=
      deserializeU64Varint_serializeU64Varint (hbounded.2 leafCount rfl)
    refine ⟨versionBytes ++ hash.bytes ++ countBytes, ?_,
      fun leafBitmap existenceBitmap nibble hnext hleaf rest ↦ ?_⟩
    · simp only [serializeChild, hversion, hcount, orPanic, ok_bind]
      rfl
    · have hclear : ¬leafBitmap &&& 1 <<< nibble.val ≠ 0 := by
        rw [and_one_shiftLeft_ne_zero_iff, hleaf]
        simp [Child.isLeaf]
      unfold deserializeChild
      simp only [List.append_assoc, hreadVersion, ok_bind, if_neg (hlength (countBytes ++ rest)),
        fromSlice_take_append, drop_append_of_hash, hnext, dif_pos nibble.isLt, if_neg hclear,
        hreadCount]
      rfl

/-! ## The children -/

theorem nodeType_ne_null_of_foldlM {children : List (Fin 16 × Child)} {start total : Nat}
    (hsum : children.foldlM (fun total child ↦ do U64.add total (← child.2.leafCount)) start =
      some total) :
    ∀ child ∈ children, child.2.nodeType ≠ .null := by
  induction children generalizing start with
  | nil => simp
  | cons child children ih =>
    rw [List.foldlM_cons, Option.bind_eq_bind, Option.bind_eq_some_iff] at hsum
    obtain ⟨next, hnext, hrest⟩ := hsum
    rw [Option.bind_eq_some_iff] at hnext
    obtain ⟨count, hcount, -⟩ := hnext
    intro other hmem
    rcases List.mem_cons.mp hmem with rfl | hmem
    · intro hnull
      rw [Child.leafCount, hnull] at hcount
      cases hcount
    · exact ih hrest other hmem

theorem nodeType_ne_null (node : InternalNode) :
    ∀ child ∈ node.children, child.2.nodeType ≠ .null :=
  nodeType_ne_null_of_foldlM node.sumLeafCounts_eq

/-- `new_impl` rebuilds a node from its own children. -/
theorem newImpl_children (node : InternalNode) : newImpl node.children = .ok node := by
  unfold newImpl
  rw [dif_neg node.children_ne_nil]
  split
  · next leafCount hsum =>
    have hcount : leafCount = node.leafCount :=
      Option.some.inj (hsum.symm.trans node.sumLeafCounts_eq)
    subst hcount
    rfl
  · next hsum =>
    rw [node.sumLeafCounts_eq] at hsum
    cases hsum

/-- The bits of an existence bitmap are the nibbles of some children. -/
def BitsOf (existenceBitmap : Nat) (children : List (Fin 16 × Child)) : Prop :=
  ∀ j, existenceBitmap.testBit j = true ↔ ∃ child ∈ children, child.1.val = j

/-- The lowest bit is the nibble of the first of children in increasing order. -/
theorem trailingZerosOf_of_bitsOf {existenceBitmap : Nat} {child : Fin 16 × Child}
    {children : List (Fin 16 × Child)}
    (hsorted : (child :: children).Pairwise fun child child' ↦ child.1 < child'.1)
    (hbits : BitsOf existenceBitmap (child :: children)) :
    U64.trailingZerosOf 16 existenceBitmap = child.1.val := by
  apply U64.trailingZerosOf_eq_of_testBit child.1.isLt
  · exact (hbits _).mpr ⟨child, List.mem_cons_self, rfl⟩
  · intro j hj
    rw [← Bool.not_eq_true, hbits j]
    rintro ⟨other, hmem, rfl⟩
    rcases List.mem_cons.mp hmem with rfl | hmem
    · exact lt_irrefl _ hj
    · have hlt : child.1 < other.1 := List.rel_of_pairwise_cons hsorted hmem
      exact absurd hj (Nat.not_lt.mpr (Fin.lt_def.mp hlt).le)

theorem bitsOf_clear {existenceBitmap : Nat} {child : Fin 16 × Child}
    {children : List (Fin 16 × Child)}
    (hsorted : (child :: children).Pairwise fun child child' ↦ child.1 < child'.1)
    (hbits : BitsOf existenceBitmap (child :: children)) :
    BitsOf (existenceBitmap &&& (1 <<< child.1.val ^^^ 0xFFFF)) children := by
  intro j
  rw [Nat.testBit_and, Nat.testBit_xor, Nat.one_shiftLeft, Nat.testBit_two_pow,
    show (0xFFFF : Nat) = 2 ^ 16 - 1 from rfl, Nat.testBit_two_pow_sub_one, Bool.and_eq_true,
    hbits j]
  constructor
  · rintro ⟨⟨other, hmem, rfl⟩, hkeep⟩
    rcases List.mem_cons.mp hmem with rfl | hmem
    · simp [other.1.isLt] at hkeep
    · exact ⟨other, hmem, rfl⟩
  · rintro ⟨other, hmem, rfl⟩
    refine ⟨⟨other, List.mem_cons_of_mem child hmem, rfl⟩, ?_⟩
    have hne : child.1.val ≠ other.1.val :=
      (Fin.lt_def.mp (List.rel_of_pairwise_cons hsorted hmem)).ne
    simp [hne, other.1.isLt]

/-- The loop of `deserialize` reads back the children `serialize` wrote, in increasing nibble
order, and clears every bit of the existence bitmap. -/
theorem deserializeChildren_of_mapM {leafBitmap existenceBitmap : Nat}
    {children : List (Fin 16 × Child)} {chunks : List (List Nat)}
    (hsorted : children.Pairwise fun child child' ↦ child.1 < child'.1)
    (hchildren : ∀ child ∈ children, child.2.Bounded ∧ child.2.nodeType ≠ .null)
    (hleaf : ∀ child ∈ children, leafBitmap.testBit child.1.val = child.2.isLeaf)
    (hbits : BitsOf existenceBitmap children)
    (hwrite : children.mapM (fun child ↦ serializeChild child.2) = .ok chunks) (rest : List Nat) :
    deserializeChildren leafBitmap children.length existenceBitmap (chunks.flatten ++ rest) =
      .ok (children, 0, rest) := by
  induction children generalizing existenceBitmap chunks with
  | nil =>
    rw [List.mapM_nil, pure_eq_ok_iff] at hwrite
    subst hwrite
    have hzero : existenceBitmap = 0 :=
      Nat.zero_of_testBit_eq_false fun j ↦ by simpa [BitsOf] using hbits j
    rw [hzero]
    rfl
  | cons child children ih =>
    rw [List.mapM_cons, bind_eq_ok_iff] at hwrite
    obtain ⟨bytes, hbytes, hwrite⟩ := hwrite
    rw [bind_eq_ok_iff] at hwrite
    obtain ⟨chunks', hchunks, hpure⟩ := hwrite
    rw [pure_eq_ok_iff] at hpure
    subst hpure
    obtain ⟨hbounded, hnull⟩ := hchildren child List.mem_cons_self
    obtain ⟨bytes', hbytes', hread⟩ := serializeChild_eq_ok hbounded hnull
    obtain rfl : bytes = bytes' := Except.ok.inj (hbytes.symm.trans hbytes')
    have hrest := ih hsorted.of_cons
      (fun other hother ↦ hchildren other (List.mem_cons_of_mem child hother))
      (fun other hother ↦ hleaf other (List.mem_cons_of_mem child hother))
      (bitsOf_clear hsorted hbits) hchunks
    rw [List.length_cons, deserializeChildren_succ, List.flatten_cons, List.append_assoc,
      hread leafBitmap existenceBitmap child.1 (trailingZerosOf_of_bitsOf hsorted hbits)
        (hleaf child List.mem_cons_self), ok_bind]
    simp only [hrest, ok_bind]
    rfl

/-! ## A node -/

theorem pow_256_two : (256 : Nat) ^ 2 = 2 ^ 16 := by norm_num

/-- `deserialize` reads back every valid node that `serialize` writes, whatever bytes follow. -/
theorem deserialize_serialize {node : InternalNode} (hvalid : node.Valid) :
    ∃ bytes, node.serialize = .ok bytes ∧ ∀ rest, deserialize (bytes ++ rest) = .ok node := by
  have hbits (j : Nat) := testBit_foldl_addToBitmaps node.children (0, 0) j
  simp only [Nat.zero_testBit, Bool.false_eq_true, false_or] at hbits
  set existenceBitmap := (node.children.foldl addToBitmaps (0, 0)).1
  set leafBitmap := (node.children.foldl addToBitmaps (0, 0)).2
  have hnodup : (node.children.map fun child ↦ child.1.val).Nodup :=
    (List.pairwise_map.mpr (hvalid.sorted.imp Fin.lt_def.mp)).imp Nat.ne_of_lt
  have hexist : BitsOf existenceBitmap node.children := fun j ↦ (hbits j).1
  have hleaf : ∀ child ∈ node.children, leafBitmap.testBit child.1.val = child.2.isLeaf := by
    intro child hmem
    cases hisLeaf : child.2.isLeaf
    · rw [← Bool.not_eq_true, (hbits _).2]
      rintro ⟨other, hother, hnibble, hotherLeaf⟩
      rw [List.inj_on_of_nodup_map hnodup hother hmem hnibble, hisLeaf] at hotherLeaf
      cases hotherLeaf
    · exact (hbits _).2.mpr ⟨child, hmem, rfl, hisLeaf⟩
  have hexist_lt : existenceBitmap < 2 ^ 16 := by
    refine Nat.lt_pow_two_of_testBit _ fun i hi ↦ ?_
    rw [← Bool.not_eq_true, hexist]
    rintro ⟨child, -, rfl⟩
    exact absurd child.1.isLt (Nat.not_lt.mpr hi)
  have hleaf_lt : leafBitmap < 2 ^ 16 := by
    refine Nat.lt_pow_two_of_testBit _ fun i hi ↦ ?_
    rw [← Bool.not_eq_true, (hbits i).2]
    rintro ⟨child, -, rfl, -⟩
    exact absurd child.1.isLt (Nat.not_lt.mpr hi)
  obtain ⟨chunks, hchunks⟩ := exists_mapM_eq_ok fun child hmem ↦
    ⟨_, (serializeChild_eq_ok (hvalid.bounded child hmem)
      (nodeType_ne_null node child hmem)).choose_spec.1⟩
  refine ⟨toBytesLE 2 existenceBitmap ++ toBytesLE 2 leafBitmap ++ chunks.flatten, ?_,
    fun rest ↦ ?_⟩
  · unfold serialize
    rw [generateBitmaps_eq]
    simp only [orPanic, ok_bind, hchunks]
    rfl
  · have hne : existenceBitmap ≠ 0 := by
      obtain ⟨child, children, hcons⟩ := List.exists_cons_of_ne_nil node.children_ne_nil
      intro hzero
      have hset := (hexist _).mpr ⟨child, by rw [hcons]; exact List.mem_cons_self, rfl⟩
      rw [hzero, Nat.zero_testBit] at hset
      cases hset
    have hsubset : existenceBitmap &&& leafBitmap = leafBitmap := by
      apply Nat.eq_of_testBit_eq
      intro j
      rw [Nat.testBit_and]
      cases hset : leafBitmap.testBit j
      · rw [Bool.and_false]
      · obtain ⟨child, hmem, hnibble, -⟩ := (hbits j).2.mp hset
        rw [Bool.and_true, (hexist j).mpr ⟨child, hmem, hnibble⟩]
    have hcount : existenceBitmap.bitIndices.length = node.children.length := by
      rw [length_bitIndices_of_testBit_iff hnodup fun i ↦ by rw [hexist, List.mem_map],
        List.length_map]
    have hread := deserializeChildren_of_mapM hvalid.sorted
      (fun child hmem ↦ ⟨hvalid.bounded child hmem, nodeType_ne_null node child hmem⟩) hleaf
      hexist hchunks rest
    unfold deserialize
    simp only [List.append_assoc, readLE_toBytesLE_append, pow_256_two,
      Nat.mod_eq_of_lt hexist_lt, Nat.mod_eq_of_lt hleaf_lt, ok_bind, if_neg hne,
      if_neg (not_not.mpr hsubset), hcount, hread]
    simp only [ne_eq, not_true_eq_false, if_false]
    exact newImpl_children node

end InternalNode

namespace LeafNode

variable {K : Type} [PrefixCodec K]

theorem readHashValue_append (hash : HashValue) (rest : List Nat) :
    readHashValue (hash.bytes ++ rest) = .ok (hash, rest) := by
  have hlength : 32 ≤ (hash.bytes ++ rest).length := by
    rw [List.length_append, hash.length_bytes]
    omega
  unfold readHashValue
  rw [dif_pos hlength, InternalNode.drop_append_of_hash]
  congr
  exact List.take_left' hash.length_bytes

/-- `bcs::from_bytes` reads back the BCS bytes of a leaf whose version is a `u64`. -/
theorem fromBytes_toBytes {leaf : LeafNode K} (hversion : leaf.valueIndex.2 < 2 ^ 64) :
    fromBytes leaf.toBytes = .ok leaf := by
  obtain ⟨accountKey, valueHash, key, version⟩ := leaf
  have hread : readLE CodecError.bcs 8 (toBytesLE 8 version) = .ok (version, []) := by
    have := readLE_toBytesLE_append CodecError.bcs 8 version []
    rwa [List.append_nil, NodeKey.pow_256_eight, Nat.mod_eq_of_lt hversion] at this
  unfold fromBytes toBytes
  simp only [List.append_assoc, readHashValue_append, ok_bind,
    PrefixCodec.deserialize_serialize_append, Option.elim, hread, ne_eq, not_true_eq_false,
    if_false]
  rfl

end LeafNode

namespace Node

variable {K : Type} [PrefixCodec K]

/-- `Node::decode` reads back every valid node that `Node::encode` writes; writing it does not
fail. -/
theorem decode_encode_of_valid {node : Node K} (hvalid : node.Valid) :
    ∃ bytes, node.encode = .ok bytes ∧ decode bytes = .ok node := by
  cases node with
  | internal node =>
    obtain ⟨bytes, hwrite, hread⟩ := InternalNode.deserialize_serialize hvalid
    have hread' := hread []
    rw [List.append_nil] at hread'
    refine ⟨NodeTag.internal.toU8 :: bytes, ?_, ?_⟩
    · simp only [encode, hwrite, ok_bind]
      rfl
    · have htag : NodeTag.fromU8 NodeTag.internal.toU8 = some .internal := rfl
      simp only [decode, htag, hread']
      rfl
  | leaf leaf =>
    refine ⟨NodeTag.leaf.toU8 :: leaf.toBytes, rfl, ?_⟩
    have htag : NodeTag.fromU8 NodeTag.leaf.toU8 = some .leaf := rfl
    simp only [decode, htag, LeafNode.fromBytes_toBytes hvalid]
    rfl
  | null => exact ⟨[NodeTag.null.toU8], rfl, rfl⟩

theorem decode_encode_of_valid_two_children :
    let node : Node Unit := .internal
      ⟨[(3, ⟨⟨List.replicate 32 1, rfl⟩, 5, .leaf⟩),
        (10, ⟨⟨List.replicate 32 2, rfl⟩, 2 ^ 60, .internal 2⟩)], 3, by simp, rfl⟩
    node.Valid ∧ ∃ bytes, node.encode = .ok bytes ∧ decode bytes = .ok node := by
  intro node
  have hvalid : node.Valid :=
    ⟨by decide, by simp [Child.Bounded]⟩
  exact ⟨hvalid, decode_encode_of_valid hvalid⟩

end Node

end AptosCore.Jellyfish
