import AptosCore.Rust.U64

/-!
# Positions in an accumulator tree

`types/src/proof/position/mod.rs`. A `Position` is the in-order index of a node of the perfect
binary tree over the leaves `0, 1, 2, …`: leaf `i` is at `2 * i`, and a node of `level` `l` whose
subtree is the `q`-th of its level sits at `q * 2 ^ (l + 1) + 2 ^ l - 1`, so that its level is its
number of trailing ones. Every operation is a bit trick on a `u64`; the asserts and the checked
arithmetic of the release profile make the fallible ones `Option`s.

The root of the perfect subtree over the `2 ^ k` leaves from a multiple `s` of `2 ^ k` is at
`2 * s + 2 ^ k - 1` (`rootPosition`); its level is `k` and its leftmost leaf is leaf `s`
(`level_rootPosition`, `leftMostChild_rootPosition`). `smear_ones_for_u64` is six rounds of
smearing the highest set bit down (`smearOnesForU64_eq`).

The post-order index of a node is computed by `inorder_to_postorder` from two counts,
`children_of_node` and `nodes_to_left_of`. For the root of the tree of height 63, at
`2 ^ 63 - 1`, `children_of_node` shifts `2 ^ 63` out of the word and subtracts `2` from the `0`
left, which panics (`inorderToPostorder_root_panics`), while `postorder_to_inorder` maps the last
post-order index `2 ^ 64 - 2` to that root.
-/

namespace AptosCore.Proof

open Rust

def maxAccumulatorProofDepth : Nat := 63

def maxAccumulatorLeaves : Nat := 2 ^ maxAccumulatorProofDepth

/-- `smear_ones_for_u64`: `n |= n >> 1`, then by 2, 4, 8, 16 and 32. -/
def smearOnesForU64 (v : Nat) : Nat :=
  let n := v
  let n := n ||| n >>> 1
  let n := n ||| n >>> 2
  let n := n ||| n >>> 4
  let n := n ||| n >>> 8
  let n := n ||| n >>> 16
  let n := n ||| n >>> 32
  n

/-- `turn_off_right_most_n_bits`: a shift by 64 or more overflows. -/
def turnOffRightMostNBits (v n : Nat) : Option Nat :=
  if n < 64 then some (U64.shl (v >>> n) n) else none

def isolateRightmostZeroBit (v : Nat) : Nat := U64.not v &&& U64.wrappingAdd v 1

namespace Position

/-- `Position::level`: the trailing ones. -/
def level (position : Nat) : Nat := U64.trailingZeros (U64.not position)

def isLeaf (position : Nat) : Bool := position &&& 1 == 0

/-- `Position::from_level_and_pos`, which asserts `level < 64`. -/
def fromLevelAndPos (level pos : Nat) : Option Nat :=
  if level < 64 then
    let levelOneBits := (1 <<< level) - 1
    let shiftedPos := if level = 63 then 0 else U64.shl pos (level + 1)
    some (shiftedPos ||| levelOneBits)
  else none

def fromLeafIndex (leafIndex : Nat) : Option Nat := fromLevelAndPos 0 leafIndex

/-- `Position::parent`, under the invariant `position < u64::MAX - 1`. -/
def parent (position : Nat) : Option Nat :=
  if position < U64.max - 1 then
    some ((position ||| isolateRightmostZeroBit position) &&&
      U64.not (U64.shl (isolateRightmostZeroBit position) 1))
  else none

/-- `NodeDirection`. -/
inductive NodeDirection where
  | left
  | right

def child (position : Nat) (dir : NodeDirection) : Option Nat :=
  if isLeaf position then none
  else if position < U64.max - 1 then
    let directionBit := match dir with
      | .left => 0
      | .right => isolateRightmostZeroBit position
    some ((position ||| directionBit) &&& U64.not (isolateRightmostZeroBit position >>> 1))
  else none

def leftChild (position : Nat) : Option Nat :=
  if isLeaf position then none else child position .left

def rightChild (position : Nat) : Option Nat :=
  if isLeaf position then none else child position .right

def isLeftChild (position : Nat) : Option Bool :=
  if position < U64.max - 1 then
    some (position &&& U64.shl (isolateRightmostZeroBit position) 1 == 0)
  else none

def sibling (position : Nat) : Option Nat :=
  if position < U64.max - 1 then
    some (position ^^^ U64.shl (isolateRightmostZeroBit position) 1)
  else none

/-- `Position::right_most_child`: `1 << level` overflows at level 64. -/
def rightMostChild (position : Nat) : Option Nat :=
  if level position < 64 then do
    let sum ← U64.add position (1 <<< level position)
    U64.sub sum 1
  else none

def leftMostChild (position : Nat) : Option Nat :=
  turnOffRightMostNBits position (level position)

end Position

/-! ## Roots of perfect subtrees -/

/-- The position of the root of the perfect subtree over the `2 ^ level` leaves from `start`:
halfway between its first leaf, at `2 * start`, and its last. -/
def rootPosition (range : Nat × Nat) : Nat := 2 * range.1 + 2 ^ range.2 - 1

theorem rootPosition_mk (start level : Nat) :
    rootPosition (start, level) = 2 * start + 2 ^ level - 1 := rfl

/-- `smear_ones_for_u64` is six rounds of smearing. -/
theorem smearOnesForU64_eq (v : Nat) : smearOnesForU64 v = U64.smear 6 v := rfl

theorem Position.fromLeafIndex_eq {leafIndex : Nat} (h : 2 * leafIndex < 2 ^ 64) :
    Position.fromLeafIndex leafIndex = some (2 * leafIndex) := by
  have hlt : leafIndex * 2 ^ (0 + 1) < 2 ^ 64 := by omega
  rw [Position.fromLeafIndex, Position.fromLevelAndPos, if_pos (by decide)]
  dsimp only
  rw [if_neg (by decide), U64.shl_of_lt hlt, Nat.shiftLeft_zero, Nat.sub_self, Nat.or_zero,
    Nat.zero_add, Nat.pow_one, Nat.mul_comm]

section RootPosition

variable {start level : Nat}

/-- The root of an aligned subtree, `2 ^ level * (2 * q + 1) - 1` for `start = 2 ^ level * q`. -/
theorem rootPosition_eq (q : Nat) :
    rootPosition (2 ^ level * q, level) = 2 ^ level * (2 * q + 1) - 1 := by
  show 2 * (2 ^ level * q) + 2 ^ level - 1 = _
  rw [Nat.mul_left_comm, ← Nat.mul_succ]

/-- The root of the subtree of `2 ^ level` leaves has that level. -/
theorem Position.level_rootPosition (hlevel : level < 64) (haligned : 2 ^ level ∣ start)
    (hlt : 2 * start + 2 ^ level < 2 ^ 64) :
    Position.level (rootPosition (start, level)) = level := by
  obtain ⟨q, rfl⟩ := haligned
  have hlt' : 2 ^ level * (2 * q + 1) < 2 ^ 64 := by
    rwa [Nat.mul_left_comm, ← Nat.mul_succ] at hlt
  rw [Position.level, rootPosition_eq, U64.trailingZeros_not_two_pow_mul_odd_sub_one hlevel hlt']

/-- The leftmost leaf below the root of the subtree from `start` is leaf `start`. -/
theorem Position.leftMostChild_rootPosition (hlevel : level < 64) (haligned : 2 ^ level ∣ start)
    (hlt : 2 * start + 2 ^ level < 2 ^ 64) :
    Position.leftMostChild (rootPosition (start, level)) = some (2 * start) := by
  have hroot := Position.level_rootPosition hlevel haligned hlt
  obtain ⟨q, rfl⟩ := haligned
  have hdiv : rootPosition (2 ^ level * q, level) >>> level = 2 * q := by
    have hpos := Nat.two_pow_pos level
    have hsplit : 2 ^ level * (2 * q + 1) - 1 = (2 ^ level - 1) + 2 ^ level * (2 * q) := by
      rw [Nat.mul_add, Nat.mul_one]
      omega
    rw [Nat.shiftRight_eq_div_pow, rootPosition_eq, hsplit, Nat.add_mul_div_left _ _ hpos,
      Nat.div_eq_of_lt (Nat.sub_lt hpos Nat.one_pos), Nat.zero_add]
  have hlt' : 2 * q * 2 ^ level < 2 ^ 64 := by
    have := Nat.two_pow_pos level
    rw [Nat.mul_assoc, Nat.mul_comm q]
    omega
  rw [Position.leftMostChild, hroot, turnOffRightMostNBits, if_pos hlevel, hdiv,
    U64.shl_of_lt hlt', Nat.mul_comm (2 * q), Nat.mul_left_comm]

end RootPosition

/-- `children_of_node`: the nodes below `node`. -/
def childrenOfNode (node : Nat) : Option Nat :=
  U64.sub (U64.shl (isolateRightmostZeroBit node) 1) 2

/-- `nodes_to_left_of`: the nodes a post-order traversal visits before the subtree of `node`. -/
def nodesToLeftOf (node : Nat) : Option Nat := do
  let onesUpToLevel ← U64.sub (isolateRightmostZeroBit node) 1
  let unsetLevelZeros := node ^^^ onesUpToLevel
  U64.sub unsetLevelZeros (U64.countOnes unsetLevelZeros)

def inorderToPostorder (node : Nat) : Option Nat := do
  let children ← childrenOfNode node
  let leftNodes ← nodesToLeftOf node
  U64.add children leftNodes

/-- One turn of the loop of `postorder_to_inorder`, for bit `i`: the node, the size of a full
subtree of height `i + 1` and the bitmap of right turns. -/
def postorderToInorderStep (state : Nat × Nat × Nat) (i : Nat) : Nat × Nat × Nat :=
  let (node, fullBinarySize, bitmap) := state
  if node ≥ fullBinarySize then (node - fullBinarySize, fullBinarySize >>> 1, bitmap ||| 1 <<< i)
  else (node, fullBinarySize >>> 1, bitmap)

/-- `postorder_to_inorder`: `node as u32` keeps the low 32 bits, and the shift by it overflows
from 64 on. -/
def postorderToInorder (node : Nat) : Option Nat :=
  let (node, _, bitmap) := ((List.range 64).reverse).foldl postorderToInorderStep (node, U64.max, 0)
  let level := node % 2 ^ 32
  if level < 64 then Position.fromLevelAndPos level (bitmap >>> level) else none

/-- The root of the tree of height 63 has no post-order index: `children_of_node` underflows. -/
theorem inorderToPostorder_root_panics :
    2 ^ 63 - 1 < 2 ^ 64 - 1 ∧ inorderToPostorder (2 ^ 63 - 1) = none ∧
      postorderToInorder (2 ^ 64 - 2) = some (2 ^ 63 - 1) := by
  refine ⟨by decide, rfl, rfl⟩

end AptosCore.Proof
