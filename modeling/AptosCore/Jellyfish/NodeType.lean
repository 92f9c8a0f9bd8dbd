import Mathlib
import AptosCore.Codec.Bytes
import AptosCore.Rust.U64

/-!
# Jellyfish Merkle nodes and their storage codecs

`storage/jellyfish-merkle/src/node_type/mod.rs`, with the `NibblePath` of
`types/src/nibble/nibble_path/mod.rs`. A node is stored under its `NodeKey`: the version big-endian,
the number of nibbles in one byte and the bytes of the path, so that the byte order of keys is the
order of keys. The node itself is a tag byte and then, for an internal node, two little-endian
`u16` bitmaps (which nibbles have a child, which of those are leaves) and each child's version, hash
and, for an internal child, its leaf count; versions and leaf counts are written as `u64` varints
of seven bits a byte and a raw ninth byte. A leaf is its BCS bytes.

Bytes are numbers below 256 in a list (`Codec`), `u64` and `usize` are `Nat` with the checks of
the source (a `u64` varint panics when its number does not fit), a `Nibble` is a `Fin 16`, and the
key type of a leaf is any type with a prefix codec standing for its BCS format. A `Result` is an
`Except CodecError`, whose last constructor stands for a panic (`assert!`, `unwrap`,
`unreachable!`, an overflow). `InternalNode` carries what `new_impl` checks: it has children, none
of them `Null`, and its leaf count is their sum.
-/

namespace AptosCore.Jellyfish

open Codec Rust

/-- `ROOT_NIBBLE_HEIGHT`: two nibbles for each byte of a 32-byte hash. -/
def rootNibbleHeight : Nat := 32 * 2

/-- The errors of the codecs: the byte reader's end of input, the variants of `NodeDecodeError`,
the `ensure!`s of the decoders, a BCS error of a leaf, and a panic. -/
inductive CodecError where
  | unexpectedEof
  | emptyInput
  | unknownTag (unknownTag : Nat)
  | noChildren
  | extraLeaves (existing leaves : Nat)
  | notEnoughBytes (children bytes : Nat)
  | hashValueParse
  | invalidNumNibbles (numNibbles : Nat)
  | numNibblesMismatch (numNibbles : Nat) (nibbleBytes : List Nat)
  | nonZeroPadding (padding : Nat)
  | childrenEmpty
  | bcs
  | panic
  deriving DecidableEq, Repr

/-- A value the source unwraps or asserts: `none` panics. -/
def orPanic {α : Type} : Option α → Except CodecError α
  | some value => .ok value
  | none => .error .panic

theorem orPanic_eq_ok_iff {α : Type} {value : Option α} {a : α} :
    orPanic value = .ok a ↔ value = some a := by
  cases value <;> simp [orPanic]

/-! ## `u64` varints -/

/-- The loop of `serialize_u64_varint` with `count` of its eight rounds left: seven bits a byte,
the high bit set when more follow; after the eighth round the rest is written raw. -/
def serializeU64VarintLoop : Nat → Nat → Option (List Nat)
  | 0, num =>
    if num ≠ 0 ∧ num ≤ 0xFF then some [num % 256] else none
  | count + 1, num =>
    let lowBits := num % 256 &&& 0x7F
    let num := num >>> 7
    let more := if num = 0 then 0 else 0x80
    if more = 0 then some [lowBits ||| more]
    else (List.cons (lowBits ||| more)) <$> serializeU64VarintLoop count num

def serializeU64Varint (num : Nat) : Option (List Nat) := serializeU64VarintLoop 8 num

/-- The loop of `deserialize_u64_varint` at round `i` with `count` rounds left; after the eighth
round one raw byte is the top of the number. -/
def deserializeU64VarintLoop : Nat → Nat → Nat → List Nat → Except CodecError (Nat × List Nat)
  | 0, _, num, reader => do
    let (byte, reader) ← readU8 .unexpectedEof reader
    pure (num ||| byte <<< 56, reader)
  | count + 1, i, num, reader => do
    let (byte, reader) ← readU8 .unexpectedEof reader
    let num := num ||| (byte &&& 0x7F) <<< (i * 7)
    if byte &&& 0x80 = 0 then pure (num, reader)
    else deserializeU64VarintLoop count (i + 1) num reader

def deserializeU64Varint (reader : List Nat) : Except CodecError (Nat × List Nat) :=
  deserializeU64VarintLoop 8 0 0 reader

/-! ## Node keys -/

/-- `NibblePath`: `num_nibbles` nibbles, two to a byte. -/
structure NibblePath where
  numNibbles : Nat
  bytes : List Nat
  deriving DecidableEq, Repr

namespace NibblePath

def newEven (bytes : List Nat) : Option NibblePath :=
  if bytes.length ≤ rootNibbleHeight / 2 then some ⟨bytes.length * 2, bytes⟩ else none

/-- `NibblePath::new_odd`: the last byte is half padding, which must be zero. -/
def newOdd (bytes : List Nat) : Option NibblePath :=
  if bytes.length ≤ rootNibbleHeight / 2 then
    if bytes.getLast?.map (· &&& 0x0F) = some 0 then some ⟨bytes.length * 2 - 1, bytes⟩ else none
  else none

/-- The invariant of a path: at most `ROOT_NIBBLE_HEIGHT` nibbles in as many bytes as they need,
and a zero padding nibble when their number is odd. -/
structure Valid (path : NibblePath) : Prop where
  numNibbles_le : path.numNibbles ≤ rootNibbleHeight
  length_bytes : path.bytes.length = (path.numNibbles + 1) / 2
  padding : path.numNibbles % 2 = 1 → ∀ last ∈ path.bytes.getLast?, last &&& 0x0F = 0

/-- The derived `Ord`: the number of nibbles first, then the bytes. -/
instance : LT NibblePath where
  lt a b := a.numNibbles < b.numNibbles ∨ a.numNibbles = b.numNibbles ∧ a.bytes < b.bytes

theorem lt_iff (a b : NibblePath) :
    a < b ↔ a.numNibbles < b.numNibbles ∨ a.numNibbles = b.numNibbles ∧ a.bytes < b.bytes :=
  Iff.rfl

theorem newEven_eq_some_iff {bytes : List Nat} {path : NibblePath} :
    newEven bytes = some path ↔
      bytes.length ≤ rootNibbleHeight / 2 ∧ path = ⟨bytes.length * 2, bytes⟩ := by
  unfold newEven
  split_ifs with hlength
  · rw [Option.some.injEq, eq_comm]
    exact ⟨fun heq ↦ ⟨hlength, heq⟩, And.right⟩
  · exact iff_of_false (by simp) fun h ↦ hlength h.1

theorem newOdd_eq_some_iff {bytes : List Nat} {path : NibblePath} :
    newOdd bytes = some path ↔
      bytes.length ≤ rootNibbleHeight / 2 ∧ bytes.getLast?.map (· &&& 0x0F) = some 0 ∧
        path = ⟨bytes.length * 2 - 1, bytes⟩ := by
  unfold newOdd
  split_ifs with hlength hpadding
  · rw [Option.some.injEq, eq_comm]
    exact ⟨fun heq ↦ ⟨hlength, hpadding, heq⟩, fun h ↦ h.2.2⟩
  · exact iff_of_false (by simp) fun h ↦ hpadding h.2.1
  · exact iff_of_false (by simp) fun h ↦ hlength h.1

theorem valid_of_newEven {bytes : List Nat} {path : NibblePath} (h : newEven bytes = some path) :
    path.Valid := by
  obtain ⟨hlength, rfl⟩ := newEven_eq_some_iff.mp h
  refine ⟨?_, ?_, ?_⟩
  · show bytes.length * 2 ≤ rootNibbleHeight
    unfold rootNibbleHeight at hlength ⊢
    omega
  · show bytes.length = (bytes.length * 2 + 1) / 2
    omega
  · intro hodd
    exact absurd hodd (by simp)

theorem valid_of_newOdd {bytes : List Nat} {path : NibblePath} (h : newOdd bytes = some path) :
    path.Valid := by
  obtain ⟨hlength, hpadding, rfl⟩ := newOdd_eq_some_iff.mp h
  obtain ⟨last, hlast, -⟩ := Option.map_eq_some_iff.mp hpadding
  have hpos : 0 < bytes.length :=
    List.length_pos_iff.mpr fun hnil ↦ by rw [hnil] at hlast; cases hlast
  refine ⟨?_, ?_, ?_⟩
  · show bytes.length * 2 - 1 ≤ rootNibbleHeight
    unfold rootNibbleHeight at hlength ⊢
    omega
  · show bytes.length = (bytes.length * 2 - 1 + 1) / 2
    omega
  · intro _ last' hlast'
    rw [Option.mem_def] at hlast'
    rw [hlast'] at hpadding
    exact Option.some.inj hpadding

end NibblePath

/-- `NodeKey`: the version a node was written at and its path from the root. -/
structure NodeKey where
  version : Nat
  nibblePath : NibblePath
  deriving DecidableEq, Repr

namespace NodeKey

/-- `NodeKey::encode`: writing to a vector does not fail, so the result is its bytes. -/
def encode (key : NodeKey) : List Nat :=
  toBytesBE 8 key.version ++ [key.nibblePath.numNibbles % 256] ++ key.nibblePath.bytes

def decode (val : List Nat) : Except CodecError NodeKey := do
  let (version, reader) ← readBE .unexpectedEof 8 0 val
  let (numNibbles, reader) ← readU8 .unexpectedEof reader
  if rootNibbleHeight < numNibbles then throw (.invalidNumNibbles numNibbles)
  let nibbleBytes := reader
  if (numNibbles + 1) / 2 ≠ nibbleBytes.length then
    throw (.numNibblesMismatch numNibbles nibbleBytes)
  let nibblePath ←
    if numNibbles % 2 = 0 then orPanic (NibblePath.newEven nibbleBytes)
    else do
      let padding ← orPanic (nibbleBytes.getLast?.map (· &&& 0x0F))
      if padding ≠ 0 then throw (.nonZeroPadding padding)
      orPanic (NibblePath.newOdd nibbleBytes)
  pure ⟨version, nibblePath⟩

/-- A key of the storage: a `u64` version and a valid path. -/
structure Valid (key : NodeKey) : Prop where
  version_lt : key.version < 2 ^ 64
  nibblePath : key.nibblePath.Valid

/-- The derived `Ord`: the version first, then the path. -/
instance : LT NodeKey where
  lt a b := a.version < b.version ∨ a.version = b.version ∧ a.nibblePath < b.nibblePath

theorem lt_iff (a b : NodeKey) :
    a < b ↔ a.version < b.version ∨ a.version = b.version ∧ a.nibblePath < b.nibblePath :=
  Iff.rfl

end NodeKey

/-! ## Nodes -/

/-- `HashValue`: 32 bytes. -/
@[ext]
structure HashValue where
  bytes : List Nat
  length_bytes : bytes.length = 32

def HashValue.fromSlice (bytes : List Nat) : Except CodecError HashValue :=
  if h : bytes.length = 32 then .ok ⟨bytes, h⟩ else .error .hashValueParse

/-- `NodeType`. -/
inductive NodeType where
  | leaf
  | null
  | internal (leafCount : Nat)
  deriving DecidableEq, Repr

/-- `Child`: the hash, version and type of the node under one nibble. -/
structure Child where
  hash : HashValue
  version : Nat
  nodeType : NodeType

namespace Child

def isLeaf (child : Child) : Bool := child.nodeType = .leaf

/-- `Child::leaf_count`, which is `unreachable!` for a `Null` child. -/
def leafCount (child : Child) : Option Nat :=
  match child.nodeType with
  | .leaf => some 1
  | .internal leafCount => some leafCount
  | .null => none

/-- The range of a child's version (`u64`) and leaf count (`usize` on a 64-bit target). -/
def Bounded (child : Child) : Prop :=
  child.version < 2 ^ 64 ∧ ∀ leafCount, child.nodeType = .internal leafCount → leafCount < 2 ^ 64

end Child

/-- The leaf count `InternalNode::new_impl` sums over the children; `Child::leaf_count` panics on
a `Null` child and the `usize` sum on an overflow. -/
def sumLeafCounts (children : List (Fin 16 × Child)) : Option Nat :=
  children.foldlM (fun total child ↦ do U64.add total (← child.2.leafCount)) 0

/-- `InternalNode`, as `new_impl` builds it. -/
structure InternalNode where
  children : List (Fin 16 × Child)
  leafCount : Nat
  children_ne_nil : children ≠ []
  sumLeafCounts_eq : sumLeafCounts children = some leafCount

namespace InternalNode

/-- `InternalNode::new_impl` of `Children::from_sorted children`. -/
def newImpl (children : List (Fin 16 × Child)) : Except CodecError InternalNode :=
  if hempty : children = [] then .error .childrenEmpty
  else
    match hsum : sumLeafCounts children with
    | some leafCount => .ok ⟨children, leafCount, hempty, hsum⟩
    | none => .error .panic

/-- One child of the loop of `generate_bitmaps`. -/
def addToBitmaps (bitmaps : Nat × Nat) (child : Fin 16 × Child) : Nat × Nat :=
  (bitmaps.1 ||| 1 <<< child.1.val,
    if child.2.isLeaf then bitmaps.2 ||| 1 <<< child.1.val else bitmaps.2)

/-- `generate_bitmaps`, which asserts that the leaves are among the children. -/
def generateBitmaps (node : InternalNode) : Option (Nat × Nat) :=
  let bitmaps := node.children.foldl addToBitmaps (0, 0)
  if bitmaps.1 ||| bitmaps.2 = bitmaps.1 then some bitmaps else none

/-- The bytes `serialize` writes for one child. -/
def serializeChild (child : Child) : Except CodecError (List Nat) := do
  let version ← orPanic (serializeU64Varint child.version)
  match child.nodeType with
  | .leaf => pure (version ++ child.hash.bytes)
  | .internal leafCount => do
    let leafCount ← orPanic (serializeU64Varint leafCount)
    pure (version ++ child.hash.bytes ++ leafCount)
  | .null => throw .panic

/-- `InternalNode::serialize`: the bitmaps, then the children in their stored order. The bitmap
the source clears as it goes is not used. -/
def serialize (node : InternalNode) : Except CodecError (List Nat) := do
  let (existenceBitmap, leafBitmap) ← orPanic node.generateBitmaps
  let children ← node.children.mapM fun child ↦ serializeChild child.2
  pure (toBytesLE 2 existenceBitmap ++ toBytesLE 2 leafBitmap ++ children.flatten)

/-- One round of the loop of `deserialize`: the child at the lowest nibble of the existence
bitmap, which is then cleared. Shifting a `u16` by 16 overflows. -/
def deserializeChild (leafBitmap existenceBitmap : Nat) (reader : List Nat) :
    Except CodecError ((Fin 16 × Child) × Nat × List Nat) := do
  let nextChild := U64.trailingZerosOf 16 existenceBitmap
  let (version, reader) ← deserializeU64Varint reader
  if reader.length < 32 then
    throw (.notEnoughBytes existenceBitmap.bitIndices.length reader.length)
  let hash ← HashValue.fromSlice (reader.take 32)
  let reader := reader.drop 32
  if hnext : nextChild < 16 then
    let childBit := 1 <<< nextChild
    let (nodeType, reader) ←
      if leafBitmap &&& childBit ≠ 0 then pure (NodeType.leaf, reader)
      else do
        let (leafCount, reader) ← deserializeU64Varint reader
        pure (NodeType.internal leafCount, reader)
    pure ((⟨nextChild, hnext⟩, ⟨hash, version, nodeType⟩),
      existenceBitmap &&& (childBit ^^^ 0xFFFF), reader)
  else throw .panic

/-- The loop of `deserialize`, `count` rounds. -/
def deserializeChildren (leafBitmap : Nat) :
    Nat → Nat → List Nat → Except CodecError (List (Fin 16 × Child) × Nat × List Nat)
  | 0, existenceBitmap, reader => pure ([], existenceBitmap, reader)
  | count + 1, existenceBitmap, reader => do
    let (child, existenceBitmap, reader) ← deserializeChild leafBitmap existenceBitmap reader
    let (children, existenceBitmap, reader) ←
      deserializeChildren leafBitmap count existenceBitmap reader
    pure (child :: children, existenceBitmap, reader)

theorem deserializeChildren_succ (leafBitmap count existenceBitmap : Nat) (reader : List Nat) :
    deserializeChildren leafBitmap (count + 1) existenceBitmap reader = (do
      let (child, existenceBitmap, reader) ← deserializeChild leafBitmap existenceBitmap reader
      let (children, existenceBitmap, reader) ←
        deserializeChildren leafBitmap count existenceBitmap reader
      pure (child :: children, existenceBitmap, reader)) := rfl

/-- `InternalNode::deserialize`: one round for each bit of the existence bitmap. Bytes after the
last child are not read. -/
def deserialize (data : List Nat) : Except CodecError InternalNode := do
  let (existenceBitmap, reader) ← readLE .unexpectedEof 2 data
  let (leafBitmap, reader) ← readLE .unexpectedEof 2 reader
  if existenceBitmap = 0 then throw .noChildren
  if existenceBitmap &&& leafBitmap ≠ leafBitmap then
    throw (.extraLeaves existenceBitmap leafBitmap)
  let (children, existenceBitmap, _) ←
    deserializeChildren leafBitmap existenceBitmap.bitIndices.length existenceBitmap reader
  if existenceBitmap ≠ 0 then throw .panic
  newImpl children

/-- What `Children::from_sorted` expects: the nibbles strictly increase; and the versions and
leaf counts are in the range of their types. -/
structure Valid (node : InternalNode) : Prop where
  sorted : node.children.Pairwise fun child child' ↦ child.1 < child'.1
  bounded : ∀ child ∈ node.children, child.2.Bounded

end InternalNode

/-- `LeafNode`: the hashed key, the hash of the value, and the key and version of the value. -/
structure LeafNode (K : Type) where
  accountKey : HashValue
  valueHash : HashValue
  valueIndex : K × Nat

namespace LeafNode

variable {K : Type} [PrefixCodec K]

/-- `bcs::to_bytes` of a leaf: the fields in order, a hash as its 32 bytes and the version as a
little-endian `u64`. -/
def toBytes (leaf : LeafNode K) : List Nat :=
  leaf.accountKey.bytes ++ leaf.valueHash.bytes ++ PrefixCodec.serialize leaf.valueIndex.1 ++
    toBytesLE 8 leaf.valueIndex.2

/-- The BCS reader of a 32-byte array. -/
def readHashValue (input : List Nat) : Except CodecError (HashValue × List Nat) :=
  if h : 32 ≤ input.length then .ok (⟨input.take 32, by simp [h]⟩, input.drop 32)
  else .error .bcs

/-- `bcs::from_bytes` of a leaf, which fails unless it uses every byte. -/
def fromBytes (input : List Nat) : Except CodecError (LeafNode K) := do
  let (accountKey, input) ← readHashValue input
  let (valueHash, input) ← readHashValue input
  let (key, input) ← (PrefixCodec.deserialize input).elim (.error .bcs) .ok
  let (version, input) ← readLE .bcs 8 input
  if input ≠ [] then throw .bcs
  pure ⟨accountKey, valueHash, (key, version)⟩

end LeafNode

/-- `Node`. -/
inductive Node (K : Type) where
  | internal (node : InternalNode)
  | leaf (node : LeafNode K)
  | null

/-- `NodeTag`. -/
inductive NodeTag where
  | leaf
  | internal
  | null
  deriving DecidableEq, Repr

namespace NodeTag

/-- The `u8` of a tag. -/
def toU8 : NodeTag → Nat
  | .leaf => 1
  | .internal => 2
  | .null => 3

def fromU8 (tag : Nat) : Option NodeTag :=
  if tag = 1 then some .leaf
  else if tag = 2 then some .internal
  else if tag = 3 then some .null
  else none

end NodeTag

namespace Node

variable {K : Type} [PrefixCodec K]

def encode : Node K → Except CodecError (List Nat)
  | .internal node => do
    let bytes ← node.serialize
    pure (NodeTag.internal.toU8 :: bytes)
  | .leaf node => pure (NodeTag.leaf.toU8 :: node.toBytes)
  | .null => pure [NodeTag.null.toU8]

def decode (val : List Nat) : Except CodecError (Node K) :=
  match val with
  | [] => .error .emptyInput
  | tag :: rest =>
    match NodeTag.fromU8 tag with
    | some .internal => Node.internal <$> InternalNode.deserialize rest
    | some .leaf => Node.leaf <$> LeafNode.fromBytes rest
    | some .null => .ok .null
    | none => .error (.unknownTag tag)

/-- A node whose values are in the range of their types and whose children are sorted. -/
def Valid : Node K → Prop
  | .internal node => node.Valid
  | .leaf node => node.valueIndex.2 < 2 ^ 64
  | .null => True

end Node

end AptosCore.Jellyfish
