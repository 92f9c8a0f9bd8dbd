import AptosCore.Proof.FrozenSubtree

/-!
# The in-memory accumulator

`InMemoryAccumulator` of `types/src/proof/accumulator/mod.rs`: the roots of the frozen subtrees
of the leaves so far, their number and the root hash. The hashes are those of an
`AccumulatorHasher`, the internal node hash and the placeholder; a failed `expect`, assert or
checked operation is the error `panic`.

Over leaves `L`, the frozen roots of `n` leaves are `frontierRoots` of `n`. `append_one` pushes
the leaf and merges once per trailing one bit of `n`, which is the carry of
`mergeIter_frontierRoots` (`appendOne_frontierRoots`); so `append` keeps the frozen roots of
the leaves so far, one for each set bit of their number, and never reaches its `expect`.
`append_subtrees` carries each subtree that `FrozenSubtreeSiblingIterator` yields while the
rightmost frozen subtree fits (`appendSubtreesLoop_eq`), and appends the rest as they are, which
`frontier_add` keeps. Hence appending in one batch or two, or by the hashes of the sibling
subtrees, gives the same accumulator (`append_batch_independent`).
-/

namespace AptosCore.Proof

open Rust Merkle

/-- The hashes of an accumulator. -/
structure AccumulatorHasher (H : Type) where
  /-- `MerkleTreeInternalNode::<H>::new(left, right).hash()`. -/
  internal : H → H → H
  /-- `ACCUMULATOR_PLACEHOLDER_HASH`. -/
  placeholder : H

/-- The errors of `InMemoryAccumulator`, and a panic. -/
inductive AccumulatorError where
  /-- "The number of frozen subtrees does not match the number of leaves." -/
  | frozenSubtreeRootsMismatch
  /-- "Too many new leaves." -/
  | tooManyNewLeaves
  /-- "Too few subtrees." -/
  | tooFewSubtrees
  /-- A failed `expect`, assert or checked operation. -/
  | panic
  deriving DecidableEq, Repr

def expect {β : Type} : Option β → Except AccumulatorError β
  | some value => .ok value
  | none => .error .panic

@[simp] theorem expect_some {β : Type} (value : β) : expect (some value) = .ok value := rfl

/-- `InMemoryAccumulator`. -/
structure InMemoryAccumulator (H : Type) where
  frozenSubtreeRoots : List H
  numLeaves : Nat
  rootHash : H

namespace InMemoryAccumulator

variable {H : Type} (hasher : AccumulatorHasher H)

/-- The loop of `compute_root_hash` over the bits of `bitmap`, with the frozen roots from the
right: a set bit takes the next root as the left sibling, a clear one pads with the
placeholder. -/
def computeRootHashLoop (bitmap : Nat) (currentHash : H) (frozenSubtreeIter : List H) :
    Except AccumulatorError H :=
  if _hbitmap : bitmap > 0 then
    if bitmap &&& 1 ≠ 0 then
      match frozenSubtreeIter with
      | [] => .error .panic
      | root :: frozenSubtreeIter =>
        computeRootHashLoop (bitmap >>> 1) (hasher.internal root currentHash) frozenSubtreeIter
    else
      computeRootHashLoop (bitmap >>> 1) (hasher.internal currentHash hasher.placeholder)
        frozenSubtreeIter
  else .ok currentHash
termination_by bitmap
decreasing_by all_goals (rw [Nat.shiftRight_one]; omega)

def computeRootHash (frozenSubtreeRoots : List H) (numLeaves : Nat) : Except AccumulatorError H :=
  match frozenSubtreeRoots with
  | [] => .ok hasher.placeholder
  | [root] => .ok root
  | _ => do
    let bitmap ← expect (U64.shrChecked numLeaves (U64.trailingZeros numLeaves))
    computeRootHashLoop hasher bitmap hasher.placeholder frozenSubtreeRoots.reverse

def new (frozenSubtreeRoots : List H) (numLeaves : Nat) :
    Except AccumulatorError (InMemoryAccumulator H) :=
  if frozenSubtreeRoots.length = U64.countOnes numLeaves then do
    let rootHash ← computeRootHash hasher frozenSubtreeRoots numLeaves
    pure ⟨frozenSubtreeRoots, numLeaves, rootHash⟩
  else .error .frozenSubtreeRootsMismatch

/-- `InMemoryAccumulator::default`, which `expect`s `new(vec![], 0)`. -/
def default : Except AccumulatorError (InMemoryAccumulator H) :=
  (new hasher [] 0).mapError fun _ ↦ .panic

/-- `append_one`: push the leaf, then merge the last two roots once for each trailing one of
the leaf count; a pop of a missing root panics. -/
def appendOne (frozenSubtreeRoots : List H) (numExistingLeaves : Nat) (leaf : H) :
    Except AccumulatorError (List H) :=
  let numTrailingOnes := U64.trailingZeros (U64.not numExistingLeaves)
  expect (mergeIter hasher.internal numTrailingOnes (frozenSubtreeRoots ++ [leaf]))

/-- The loop of `append` over the leaves. -/
def appendLoop (frozenSubtreeRoots : List H) (numLeaves : Nat) :
    List H → Except AccumulatorError (List H × Nat)
  | [] => .ok (frozenSubtreeRoots, numLeaves)
  | leaf :: leaves => do
    let frozenSubtreeRoots ← appendOne hasher frozenSubtreeRoots numLeaves leaf
    let numLeaves ← expect (U64.add numLeaves 1)
    appendLoop frozenSubtreeRoots numLeaves leaves

/-- `append`, which `expect`s the accumulator it builds to be valid. -/
def append (self : InMemoryAccumulator H) (leaves : List H) :
    Except AccumulatorError (InMemoryAccumulator H) := do
  let (frozenSubtreeRoots, numLeaves) ←
    appendLoop hasher self.frozenSubtreeRoots self.numLeaves leaves
  (new hasher frozenSubtreeRoots numLeaves).mapError fun _ ↦ .panic

def fromLeaves (leaves : List H) : Except AccumulatorError (InMemoryAccumulator H) := do
  let accumulator ← InMemoryAccumulator.default hasher
  accumulator.append hasher leaves

/-- The inner loop of `append_subtrees`: while bit `mask` of the leaf count is set, the last
frozen root is the left sibling of `currentHash`; the pop panics on an empty stack. -/
def carrySubtree (currentNumLeaves : Nat) (currentSubtreeRoots : List H) (currentHash : H)
    (mask : Nat) : Option (List H × H × Nat) :=
  if currentNumLeaves &&& mask ≠ 0 then
    match _hlast : currentSubtreeRoots.getLast? with
    | none => none
    | some leftHash =>
      carrySubtree currentNumLeaves currentSubtreeRoots.dropLast
        (hasher.internal leftHash currentHash) (U64.shl mask 1)
  else some (currentSubtreeRoots, currentHash, mask)
termination_by currentSubtreeRoots.length
decreasing_by
  have hne : currentSubtreeRoots ≠ [] := by
    rintro rfl
    cases _hlast
  have := List.length_pos_of_ne_nil hne
  rw [List.length_dropLast]
  omega

/-- The outer loop of `append_subtrees`: while the rightmost frozen subtree fits in the new
leaves left, the next subtree is carried into the frozen roots. -/
def appendSubtreesLoop (currentSubtreeRoots : List H)
    (currentNumLeaves remainingNewLeaves rightmostFrozenSubtreeSize : Nat) :
    List H → Except AccumulatorError (List H × Nat × Nat × List H)
  | [] =>
    if remainingNewLeaves ≥ rightmostFrozenSubtreeSize then .error .tooFewSubtrees
    else .ok (currentSubtreeRoots, currentNumLeaves, remainingNewLeaves, [])
  | currentHash :: subtreeIter =>
    if remainingNewLeaves ≥ rightmostFrozenSubtreeSize then do
      let (currentSubtreeRoots, currentHash, mask) ← expect
        (carrySubtree hasher currentNumLeaves currentSubtreeRoots currentHash
          rightmostFrozenSubtreeSize)
      let currentNumLeaves ← expect (U64.add currentNumLeaves rightmostFrozenSubtreeSize)
      let remainingNewLeaves ← expect (U64.sub remainingNewLeaves rightmostFrozenSubtreeSize)
      appendSubtreesLoop (currentSubtreeRoots ++ [currentHash]) currentNumLeaves
        remainingNewLeaves mask subtreeIter
    else .ok (currentSubtreeRoots, currentNumLeaves, remainingNewLeaves, currentHash :: subtreeIter)

def appendSubtrees (self : InMemoryAccumulator H) (subtrees : List H) (numNewLeaves : Nat) :
    Except AccumulatorError (InMemoryAccumulator H) := do
  let maxNewLeaves ← expect (U64.sub maxAccumulatorLeaves self.numLeaves)
  if numNewLeaves ≤ maxNewLeaves then
    if self.numLeaves = 0 then new hasher subtrees numNewLeaves
    else do
      let rightmostFrozenSubtreeSize ←
        expect (U64.shlChecked 1 (U64.trailingZeros self.numLeaves))
      let (currentSubtreeRoots, currentNumLeaves, remainingNewLeaves, subtreeIter) ←
        appendSubtreesLoop hasher self.frozenSubtreeRoots self.numLeaves numNewLeaves
          rightmostFrozenSubtreeSize subtrees
      let currentNumLeaves ← expect (U64.add currentNumLeaves remainingNewLeaves)
      new hasher (currentSubtreeRoots ++ subtreeIter) currentNumLeaves
  else .error .tooManyNewLeaves

/-! ## What the accumulator stands for -/

/-- Leaf `i` of `leaves`; the placeholder past the end. -/
def leafAt (leaves : List H) (i : Nat) : H := leaves.getD i hasher.placeholder

/-- The hash of the node at `position` over the leaves: the root of the perfect subtree below
it, of its level and from its leftmost leaf. -/
def positionHash (leaves : Nat → H) (position : Nat) : Option H :=
  (Position.leftMostChild position).map fun leftmostLeaf ↦
    subtreeRoot hasher.internal leaves (Position.level position) (leftmostLeaf / 2)

/-! ## The root hash and `new` -/

/-- The loop of `compute_root_hash` has a frozen root for each set bit of its bitmap. -/
theorem computeRootHashLoop_ok (bitmap : Nat) (currentHash : H) (frozenSubtreeIter : List H)
    (hlen : bitmap.bitIndices.length ≤ frozenSubtreeIter.length) :
    ∃ rootHash, computeRootHashLoop hasher bitmap currentHash frozenSubtreeIter = .ok rootHash := by
  induction bitmap using Nat.strong_induction_on generalizing currentHash frozenSubtreeIter with
  | _ bitmap ih =>
    rcases Nat.eq_zero_or_pos bitmap with rfl | hpos
    · exact ⟨currentHash, by unfold computeRootHashLoop; rw [dif_neg (Nat.lt_irrefl 0)]⟩
    · have hhalf : bitmap >>> 1 < bitmap := by
        rw [Nat.shiftRight_one]
        omega
      unfold computeRootHashLoop
      rw [dif_pos hpos, Nat.and_one_is_mod]
      rcases Nat.mod_two_eq_zero_or_one bitmap with heven | hodd
      · have hsplit : bitmap = 2 * (bitmap >>> 1) := by
          rw [Nat.shiftRight_one]
          omega
        rw [if_neg (by omega)]
        rw [hsplit, Nat.bitIndices_two_mul, List.length_map] at hlen
        exact ih _ hhalf _ _ hlen
      · have hsplit : bitmap = 2 * (bitmap >>> 1) + 1 := by
          rw [Nat.shiftRight_one]
          omega
        rw [if_pos (by omega)]
        rw [hsplit, Nat.bitIndices_two_mul_add_one, List.length_cons, List.length_map] at hlen
        cases frozenSubtreeIter with
        | nil => exact absurd hlen (by simp)
        | cons root rest =>
          exact ih _ hhalf _ _ (by simpa using hlen)

/-- With a frozen root for each set bit of the leaf count, `compute_root_hash` returns. -/
theorem computeRootHash_ok {frozenSubtreeRoots : List H} {numLeaves : Nat}
    (hlen : frozenSubtreeRoots.length = U64.countOnes numLeaves) (hlt : numLeaves < 2 ^ 64) :
    ∃ rootHash, computeRootHash hasher frozenSubtreeRoots numLeaves = .ok rootHash := by
  match frozenSubtreeRoots, hlen with
  | [], _ => exact ⟨_, rfl⟩
  | [_], _ => exact ⟨_, rfl⟩
  | first :: second :: rest, hlen =>
    have hne : numLeaves ≠ 0 := by
      rintro rfl
      simp [U64.countOnes] at hlen
    obtain ⟨m, hm, htz⟩ := U64.exists_eq_two_pow_trailingZeros_mul_odd hne hlt
    have hshift : U64.shrChecked numLeaves (U64.trailingZeros numLeaves) = some (2 * m + 1) := by
      rw [U64.shrChecked, if_pos htz, Nat.shiftRight_eq_div_pow]
      congr 1
      exact Nat.div_eq_of_eq_mul_right (Nat.two_pow_pos _) hm
    have hbits : (2 * m + 1).bitIndices.length = (first :: second :: rest).reverse.length := by
      rw [List.length_reverse, hlen, U64.countOnes, hm, Nat.bitIndices_two_pow_mul,
        List.length_map]
    obtain ⟨rootHash, hroot⟩ := computeRootHashLoop_ok hasher (2 * m + 1) hasher.placeholder
      (first :: second :: rest).reverse (Nat.le_of_eq hbits)
    refine ⟨rootHash, ?_⟩
    rw [computeRootHash, hshift]
    exacts [hroot, List.cons_ne_nil _ _, by simp]

/-- `new` accepts a frozen root for each set bit of the leaf count. -/
theorem new_ok {frozenSubtreeRoots : List H} {numLeaves : Nat}
    (hlen : frozenSubtreeRoots.length = U64.countOnes numLeaves) (hlt : numLeaves < 2 ^ 64) :
    ∃ rootHash,
      new hasher frozenSubtreeRoots numLeaves = .ok ⟨frozenSubtreeRoots, numLeaves, rootHash⟩ := by
  obtain ⟨rootHash, hroot⟩ := computeRootHash_ok hasher hlen hlt
  exact ⟨rootHash, by rw [new, if_pos hlen, hroot]; rfl⟩

/-- `new` accepts the frozen roots of any leaf count. -/
theorem new_frontierRoots (leaves : Nat → H) {numLeaves : Nat} (hlt : numLeaves < 2 ^ 64) :
    ∃ rootHash, new hasher (frontierRoots hasher.internal leaves numLeaves) numLeaves =
      .ok ⟨frontierRoots hasher.internal leaves numLeaves, numLeaves, rootHash⟩ :=
  new_ok hasher (length_frontierRoots hasher.internal leaves numLeaves) hlt

theorem default_eq : InMemoryAccumulator.default hasher = .ok ⟨[], 0, hasher.placeholder⟩ := by
  rw [InMemoryAccumulator.default, new, if_pos (by simp [U64.countOnes])]
  rfl

/-! ## Appending leaves -/

/-- `append_one` keeps the frozen roots: after `n` leaves, leaf `n` gives the frozen roots of
`n + 1`. -/
theorem appendOne_frontierRoots (leaves : Nat → H) {n : Nat} (hlt : n + 1 < 2 ^ 64) :
    appendOne hasher (frontierRoots hasher.internal leaves n) n (leaves n) =
      .ok (frontierRoots hasher.internal leaves (n + 1)) := by
  obtain ⟨u, q, hn⟩ := exists_eq_carry_form 0 n
  rw [Nat.pow_zero, Nat.one_mul, Nat.zero_add] at hn
  have hpos := Nat.one_le_two_pow (n := u)
  have hdouble : 2 ^ (u + 1) * q = 2 ^ u * (2 * q) := by rw [Nat.pow_succ, Nat.mul_assoc]
  have hodd : n + 1 = 2 ^ u * (2 * q + 1) := by
    rw [Nat.mul_add, Nat.mul_one, ← hdouble]
    omega
  have hu : u < 64 := by
    have hle : 2 ^ u ≤ n + 1 := by
      rw [hodd]
      exact Nat.le_mul_of_pos_right _ (Nat.succ_pos _)
    exact (Nat.pow_lt_pow_iff_right (by decide)).mp (Nat.lt_of_le_of_lt hle hlt)
  have htz : U64.trailingZeros (U64.not n) = u := by
    have := U64.trailingZeros_not_two_pow_mul_odd_sub_one hu (hodd ▸ hlt)
    rwa [← hodd, Nat.add_sub_cancel] at this
  have hcarry := mergeIter_frontierRoots hasher.internal leaves q 0 u
  rw [Nat.zero_add, Nat.pow_zero, ← hn, subtreeRoot_zero,
    show 2 ^ (u + 1) * q + 2 ^ u = n + 1 by omega] at hcarry
  rw [appendOne, htz, hcarry]
  rfl

/-- The loop of `append` keeps the frozen roots of the leaves so far. -/
theorem appendLoop_frontierRoots (leaves : Nat → H) (n : Nat) (batch : List H)
    (hbatch : ∀ i (hi : i < batch.length), leaves (n + i) = batch[i])
    (hlt : n + batch.length < 2 ^ 64) :
    appendLoop hasher (frontierRoots hasher.internal leaves n) n batch =
      .ok (frontierRoots hasher.internal leaves (n + batch.length), n + batch.length) := by
  induction batch generalizing n with
  | nil => rfl
  | cons leaf batch ih =>
    rw [List.length_cons] at hlt
    have hleaf : leaves n = leaf := hbatch 0 (Nat.succ_pos _)
    have hrest := ih (n + 1) (fun i hi ↦ by
      rw [show n + 1 + i = n + (i + 1) by omega]
      exact hbatch (i + 1) (by rw [List.length_cons]; omega)) (by omega)
    rw [appendLoop, ← hleaf, appendOne_frontierRoots hasher leaves (by omega),
      U64.add_of_lt (by omega), expect_some]
    refine hrest.trans ?_
    rw [List.length_cons, Nat.add_right_comm, Nat.add_assoc]

/-- `append` builds the accumulator of the frozen roots of the leaves so far. -/
theorem append_eq (leaves : Nat → H) (self : InMemoryAccumulator H) (batch : List H)
    (hroots : self.frozenSubtreeRoots = frontierRoots hasher.internal leaves self.numLeaves)
    (hbatch : ∀ i (hi : i < batch.length), leaves (self.numLeaves + i) = batch[i])
    (hlt : self.numLeaves + batch.length < 2 ^ 64) :
    self.append hasher batch =
      new hasher (frontierRoots hasher.internal leaves (self.numLeaves + batch.length))
        (self.numLeaves + batch.length) := by
  obtain ⟨rootHash, hnew⟩ := new_frontierRoots hasher leaves hlt
  rw [append, hroots, appendLoop_frontierRoots hasher leaves _ batch hbatch hlt]
  show (new hasher _ _).mapError _ = _
  rw [hnew]
  rfl

theorem leafAt_getElem (leaves : List H) {i : Nat} (hi : i < leaves.length) :
    leafAt hasher leaves i = leaves[i] := by
  rw [leafAt, List.getD_eq_getElem?_getD, List.getElem?_eq_getElem hi, Option.getD_some]

/-- `from_leaves` builds the accumulator of the frozen roots of its leaves. -/
theorem fromLeaves_eq (leaves : List H) (hlt : leaves.length < 2 ^ 64) :
    fromLeaves hasher leaves =
      new hasher (frontierRoots hasher.internal (leafAt hasher leaves) leaves.length)
        leaves.length := by
  have hempty : ([] : List H) = frontierRoots hasher.internal (leafAt hasher leaves) 0 := by
    simp [frontierRoots, Merkle.frontier]
  have happend := append_eq hasher (leafAt hasher leaves) ⟨[], 0, hasher.placeholder⟩ leaves
    hempty (fun i hi ↦ by rw [Nat.zero_add, leafAt_getElem hasher leaves hi])
    (by rwa [Nat.zero_add])
  rw [Nat.zero_add] at happend
  rw [fromLeaves, default_eq]
  exact happend

/-! ## Appending subtrees -/

/-- The inner loop of `append_subtrees` merges once for each set bit of the leaf count from
`mask = 2 ^ t` up to the first clear one: on the stack with the current hash pushed, it is
`mergeIter`, and it stops at the mask of that clear bit. -/
theorem carrySubtree_eq (currentNumLeaves : Nat) (roots : List H) (currentHash : H) (t u : Nat)
    (hset : ∀ i < u, currentNumLeaves.testBit (t + i) = true)
    (hclear : currentNumLeaves.testBit (t + u) = false) (hlt : 2 ^ (t + u) < 2 ^ 64) :
    (carrySubtree hasher currentNumLeaves roots currentHash (2 ^ t)).map
        (fun result ↦ (result.1 ++ [result.2.1], result.2.2)) =
      (mergeIter hasher.internal u (roots ++ [currentHash])).map (·, 2 ^ (t + u)) := by
  induction u generalizing roots currentHash t with
  | zero =>
    have hzero : currentNumLeaves &&& 2 ^ t = 0 := U64.and_two_pow_eq_zero_iff.mpr hclear
    unfold carrySubtree
    rw [if_neg (not_not.mpr hzero)]
    rfl
  | succ u ih =>
    have hne : currentNumLeaves &&& 2 ^ t ≠ 0 := fun hzero ↦ by
      have hbit := hset 0 (Nat.succ_pos u)
      have hclear0 := U64.and_two_pow_eq_zero_iff.mp hzero
      rw [Nat.add_zero, hclear0] at hbit
      cases hbit
    have hshift : U64.shl (2 ^ t) 1 = 2 ^ (t + 1) := by
      have hle : 2 ^ (t + 1) ≤ 2 ^ (t + (u + 1)) := Nat.pow_le_pow_right (by decide) (by omega)
      rw [U64.shl_of_lt (by rw [← Nat.pow_add]; omega), ← Nat.pow_add]
    unfold carrySubtree
    rw [if_pos hne, mergeIter_succ', mergeLast_concat]
    split
    · next hlast => rw [hlast]; rfl
    · next leftHash hlast =>
      have hrest := ih roots.dropLast (hasher.internal leftHash currentHash) (t + 1)
        (fun i hi ↦ by rw [Nat.add_assoc, Nat.add_comm 1 i]; exact hset (i + 1) (by omega))
        (by rw [Nat.add_assoc, Nat.add_comm 1 u]; exact hclear)
        (by rw [Nat.add_assoc, Nat.add_comm 1 u]; exact hlt)
      rw [hlast, Option.map_some, Option.bind_some, hshift, hrest,
        show t + 1 + u = t + (u + 1) by omega]

/-- The outer loop of `append_subtrees` stops once the rightmost frozen subtree no longer
fits. -/
theorem appendSubtreesLoop_of_lt (currentSubtreeRoots : List H)
    {currentNumLeaves remainingNewLeaves rightmostFrozenSubtreeSize : Nat}
    (hlt : remainingNewLeaves < rightmostFrozenSubtreeSize) (subtrees : List H) :
    appendSubtreesLoop hasher currentSubtreeRoots currentNumLeaves remainingNewLeaves
        rightmostFrozenSubtreeSize subtrees =
      .ok (currentSubtreeRoots, currentNumLeaves, remainingNewLeaves, subtrees) := by
  cases subtrees with
  | nil => rw [appendSubtreesLoop, if_neg (Nat.not_le_of_lt hlt)]
  | cons currentHash subtrees => rw [appendSubtreesLoop, if_neg (Nat.not_le_of_lt hlt)]

/-- The hash at the root of an aligned subtree is the root of the subtree. -/
theorem positionHash_rootPosition (leaves : Nat → H) {range : Nat × Nat}
    (haligned : 2 ^ range.2 ∣ range.1) (hbound : range.1 + 2 ^ range.2 ≤ maxAccumulatorLeaves) :
    positionHash hasher leaves (rootPosition range) =
      some (subtreeRoot hasher.internal leaves range.2 range.1) := by
  have hmax : maxAccumulatorLeaves = 2 ^ 63 := rfl
  have h64 : (2 : Nat) ^ 64 = 2 * 2 ^ 63 := by decide
  have hroot := isRootOf_rootPosition haligned hbound
  have hleaf : 2 * range.1 < 2 ^ 64 := by
    have := Nat.two_pow_pos range.2
    omega
  rw [positionHash, hroot.leftMostChild, Position.fromLeafIndex_eq hleaf, Option.map_some,
    hroot.level, Nat.mul_div_cancel_left _ (by decide)]

/-- The hashes at the roots of aligned subtrees are their roots. -/
theorem mapM_positionHash (leaves : Nat → H) (ranges : List (Nat × Nat))
    (hranges : ∀ range ∈ ranges,
      2 ^ range.2 ∣ range.1 ∧ range.1 + 2 ^ range.2 ≤ maxAccumulatorLeaves) :
    (ranges.map rootPosition).mapM (positionHash hasher leaves) =
      some (ranges.map fun range ↦ subtreeRoot hasher.internal leaves range.2 range.1) := by
  induction ranges with
  | nil => rfl
  | cons range ranges ih =>
    obtain ⟨haligned, hbound⟩ := hranges range List.mem_cons_self
    rw [List.map_cons, List.mapM_cons, positionHash_rootPosition hasher leaves haligned hbound,
      ih fun range' hmem ↦ hranges range' (List.mem_cons_of_mem range hmem)]
    rfl

/-- The subtrees of the set bits of what is left after a multiple of their sizes: their
positions hash to their roots. -/
theorem mapM_positionHash_rangesOf (leaves : Nat → H) {current remaining j : Nat}
    (hlt : remaining < 2 ^ j) (hdvd : 2 ^ j ∣ current)
    (hbound : current + remaining ≤ maxAccumulatorLeaves) :
    ((rangesOf current remaining.bitIndices.reverse).map rootPosition).mapM
        (positionHash hasher leaves) =
      some ((rangesOf current remaining.bitIndices.reverse).map fun range ↦
        subtreeRoot hasher.internal leaves range.2 range.1) := by
  have htiles := tiles_rangesOf current remaining.bitIndices.reverse
  rw [sum_map_two_pow_reverse_bitIndices] at htiles
  refine mapM_positionHash hasher leaves _ fun range hmem ↦ ⟨?_, ?_⟩
  · exact aligned_rangesOf_of_lt hlt hdvd range hmem
  · have := (htiles.mem_bounds hmem).2
    omega

/-- The outer loop of `append_subtrees` on the hashes of the subtrees that
`FrozenSubtreeSiblingIterator` yields: each carry keeps the frozen roots of the leaves so far,
and the loop stops once what is left is below the rightmost frozen subtree, with the hashes of
its set bits left to append. -/
theorem appendSubtreesLoop_eq (leaves : Nat → H) {current remaining : Nat}
    (hcurrent : current ≠ 0) (hbound : current + remaining ≤ maxAccumulatorLeaves)
    {fuel : Nat} {positions : List Nat} {subtrees : List H}
    (hcollect : collect FrozenSubtreeSiblingIterator.next fuel ⟨current, remaining⟩ =
      some positions)
    (hhash : positions.mapM (positionHash hasher leaves) = some subtrees) :
    ∃ current' remaining', current' ≠ 0 ∧ current' + remaining' = current + remaining ∧
      remaining' < 2 ^ U64.trailingZeros current' ∧
      appendSubtreesLoop hasher (frontierRoots hasher.internal leaves current) current remaining
          (2 ^ U64.trailingZeros current) subtrees =
        .ok (frontierRoots hasher.internal leaves current', current', remaining',
          (rangesOf current' remaining'.bitIndices.reverse).map fun range ↦
            subtreeRoot hasher.internal leaves range.2 range.1) := by
  have hmax : maxAccumulatorLeaves = 2 ^ 63 := rfl
  have h64 : (2 : Nat) ^ 64 = 2 * 2 ^ 63 := by decide
  induction remaining using Nat.strong_induction_on generalizing current fuel positions subtrees with
  | _ remaining ih =>
    obtain ⟨m, hm, htz⟩ := U64.exists_eq_two_pow_trailingZeros_mul_odd hcurrent (by omega)
    generalize ht : U64.trailingZeros current = t at hm htz ⊢
    have hpos := Nat.two_pow_pos t
    by_cases hfits : 2 ^ t ≤ remaining
    · have hnext := FrozenSubtreeSiblingIterator.next_of_fits hcurrent (ht ▸ hfits) hbound
      rw [ht] at hnext
      obtain ⟨fuel', positions', -, rfl, hcollect'⟩ := collect_eq_some_of_yield _ hnext hcollect
      have hhead : positionHash hasher leaves (rootPosition (current, t)) =
          some (subtreeRoot hasher.internal leaves t current) :=
        positionHash_rootPosition hasher leaves ⟨2 * m + 1, hm⟩
          (show current + 2 ^ t ≤ maxAccumulatorLeaves by omega)
      simp only [List.mapM_cons, hhead, Option.bind_eq_bind, Option.bind_some,
        Option.bind_eq_some_iff, Option.pure_def, Option.some.injEq] at hhash
      obtain ⟨subtrees', hhash', rfl⟩ := hhash
      obtain ⟨u, q, hform⟩ := exists_eq_carry_form t (2 * m + 1)
      rw [← hm] at hform
      have hle : 2 ^ t ≤ 2 ^ (t + u) := Nat.pow_le_pow_right (by decide) (Nat.le_add_right t u)
      have hnew : current + 2 ^ t = 2 ^ (t + u) * (2 * q + 1) := by
        have hdouble : 2 ^ (t + u + 1) * q = 2 ^ (t + u) * (2 * q) := by
          rw [Nat.pow_succ, Nat.mul_assoc]
        rw [Nat.mul_add, Nat.mul_one, ← hdouble]
        omega
      have hcarrylt : 2 ^ (t + u) < 2 ^ 64 := by
        have : 2 ^ (t + u) ≤ current + 2 ^ t := by
          rw [hnew]
          exact Nat.le_mul_of_pos_right _ (Nat.succ_pos _)
        omega
      have htu : t + u < 64 := (Nat.pow_lt_pow_iff_right (by decide)).mp hcarrylt
      have hcarry := carrySubtree_eq hasher current (frontierRoots hasher.internal leaves current)
        (subtreeRoot hasher.internal leaves t current) t u
        (fun i hi ↦ by rw [hform, testBit_carry_form q t u (by omega), decide_eq_true hi])
        (by rw [hform, testBit_carry_form q t u (Nat.le_refl u), decide_eq_false (Nat.lt_irrefl u)])
        hcarrylt
      have hmerge := mergeIter_frontierRoots hasher.internal leaves q t u
      rw [← hform, show 2 ^ (t + u + 1) * q + 2 ^ (t + u) = current + 2 ^ t by omega] at hmerge
      rw [hmerge, Option.map_some] at hcarry
      obtain ⟨⟨roots', currentHash', mask'⟩, hcs, hpair⟩ := Option.map_eq_some_iff.mp hcarry
      simp only [Prod.mk.injEq] at hpair
      obtain ⟨hroots', rfl⟩ := hpair
      have htz' : U64.trailingZeros (current + 2 ^ t) = t + u := by
        rw [hnew, U64.trailingZeros_two_pow_mul_odd htu]
      obtain ⟨current', remaining', hcurrent', hsum, hlt', hloop⟩ :=
        @ih (remaining - 2 ^ t) (by omega) (current + 2 ^ t) (by omega) (by omega) _ _ _
          hcollect' hhash'
      refine ⟨current', remaining', hcurrent', by omega, hlt', ?_⟩
      rw [appendSubtreesLoop, if_pos hfits, hcs, expect_some, U64.add_of_lt (by omega),
        U64.sub_of_le hfits]
      rw [htz', ← hroots'] at hloop
      exact hloop
    · have hlt : remaining < 2 ^ t := Nat.lt_of_not_le hfits
      have hdvd : 2 ^ t ∣ current := ⟨2 * m + 1, hm⟩
      have hall := FrozenSubtreeSiblingIterator.collect_of_lt hlt hdvd hbound
      rw [← collect_unique _ hall hcollect,
        mapM_positionHash_rangesOf hasher leaves hlt hdvd hbound, Option.some.injEq] at hhash
      subst hhash
      refine ⟨current, remaining, hcurrent, rfl, ht ▸ hlt, ?_⟩
      exact appendSubtreesLoop_of_lt hasher _ hlt _

/-- `append_subtrees` with the hashes of the subtrees that `FrozenSubtreeSiblingIterator`
yields builds the accumulator of the frozen roots of all the leaves. -/
theorem appendSubtrees_eq (leaves : Nat → H) (self : InMemoryAccumulator H) {numNewLeaves : Nat}
    (hroots : self.frozenSubtreeRoots = frontierRoots hasher.internal leaves self.numLeaves)
    (hbound : self.numLeaves + numNewLeaves ≤ maxAccumulatorLeaves)
    {fuel : Nat} {positions : List Nat} {subtrees : List H}
    (hcollect : (FrozenSubtreeSiblingIterator.new self.numLeaves
        (self.numLeaves + numNewLeaves)).bind (collect FrozenSubtreeSiblingIterator.next fuel) =
      some positions)
    (hhash : positions.mapM (positionHash hasher leaves) = some subtrees) :
    self.appendSubtrees hasher subtrees numNewLeaves =
      new hasher (frontierRoots hasher.internal leaves (self.numLeaves + numNewLeaves))
        (self.numLeaves + numNewLeaves) := by
  have hmax : maxAccumulatorLeaves = 2 ^ 63 := rfl
  have h64 : (2 : Nat) ^ 64 = 2 * 2 ^ 63 := by decide
  obtain ⟨roots, numLeaves, rootHash⟩ := self
  dsimp only at hroots hbound hcollect ⊢
  subst hroots
  rw [FrozenSubtreeSiblingIterator.new_eq (Nat.le_add_right _ _) hbound, Option.bind_some,
    Nat.add_sub_cancel_left] at hcollect
  rw [appendSubtrees]
  dsimp only
  rw [U64.sub_of_le (by omega), expect_some]
  dsimp only [bind, Except.bind]
  rw [if_pos (by omega)]
  by_cases hzero : numLeaves = 0
  · subst hzero
    have hall := FrozenSubtreeSiblingIterator.collect_of_lt (j := 64) (by omega)
      (Nat.dvd_zero _) hbound
    rw [← collect_unique _ hall hcollect, mapM_positionHash_rangesOf hasher leaves
      (j := 64) (by omega) (Nat.dvd_zero _) hbound, Option.some.injEq] at hhash
    subst hhash
    rw [if_pos rfl, Nat.zero_add]
    rfl
  · obtain ⟨m, hm, htz⟩ := U64.exists_eq_two_pow_trailingZeros_mul_odd hzero (by omega)
    obtain ⟨current, remaining, hcurrent, hsum, hlt, hloop⟩ :=
      appendSubtreesLoop_eq hasher leaves hzero hbound hcollect hhash
    obtain ⟨m', hm', -⟩ := U64.exists_eq_two_pow_trailingZeros_mul_odd hcurrent (by omega)
    have hrest : frontierRoots hasher.internal leaves (current + remaining) =
        frontierRoots hasher.internal leaves current ++
          (rangesOf current remaining.bitIndices.reverse).map fun range ↦
            subtreeRoot hasher.internal leaves range.2 range.1 := by
      rw [frontierRoots, frontier_add ⟨2 * m' + 1, hm'⟩ hlt, List.map_append, frontierRoots]
    rw [if_neg hzero, U64.shlChecked_one htz, expect_some]
    dsimp only [bind, Except.bind]
    rw [hloop]
    dsimp only
    rw [U64.add_of_lt (by omega), expect_some]
    dsimp only [bind, Except.bind]
    rw [← hrest, hsum]

/-! ## Batch independence -/

/-- The in-memory accumulator does not depend on how its leaves are batched: for leaf lists `a`
and `b` with `|a| + |b| ≤ MAX_ACCUMULATOR_LEAVES`, `from_leaves(a).append(b)` and
`from_leaves(a ++ b)` return the same accumulator, whose frozen roots are those of the leaves
`a ++ b`, one for each set bit of its leaf count, so that no `expect` fails; and
`from_leaves(a).append_subtrees(S, |b|)` returns it too, for `S` the hashes over `a ++ b` of the
positions that `FrozenSubtreeSiblingIterator::new(|a|, |a| + |b|)` yields. -/
theorem append_batch_independent (a b : List H)
    (hbound : a.length + b.length ≤ maxAccumulatorLeaves) :
    ∃ accumulator accumulator', fromLeaves hasher a = .ok accumulator ∧
      fromLeaves hasher (a ++ b) = .ok accumulator' ∧
      accumulator.append hasher b = .ok accumulator' ∧
      accumulator'.frozenSubtreeRoots =
        frontierRoots hasher.internal (leafAt hasher (a ++ b)) (a.length + b.length) ∧
      accumulator'.numLeaves = a.length + b.length ∧
      accumulator'.frozenSubtreeRoots.length = U64.countOnes accumulator'.numLeaves ∧
      ∀ fuel positions subtrees,
        (FrozenSubtreeSiblingIterator.new a.length (a.length + b.length)).bind
            (collect FrozenSubtreeSiblingIterator.next fuel) = some positions →
        positions.mapM (positionHash hasher (leafAt hasher (a ++ b))) = some subtrees →
        accumulator.appendSubtrees hasher subtrees b.length = .ok accumulator' := by
  have hmax : maxAccumulatorLeaves = 2 ^ 63 := rfl
  have h64 : (2 : Nat) ^ 64 = 2 * 2 ^ 63 := by decide
  have hinitial : frontierRoots hasher.internal (leafAt hasher a) a.length =
      frontierRoots hasher.internal (leafAt hasher (a ++ b)) a.length :=
    frontierRoots_congr hasher.internal fun i hi ↦ by
      rw [leafAt, leafAt, List.getD_eq_getElem?_getD, List.getD_eq_getElem?_getD,
        List.getElem?_append_left hi]
  obtain ⟨rootHash, hnew⟩ :=
    new_frontierRoots hasher (leafAt hasher a) (show a.length < 2 ^ 64 by omega)
  obtain ⟨rootHash', hnew'⟩ :=
    new_frontierRoots hasher (leafAt hasher (a ++ b)) (show a.length + b.length < 2 ^ 64 by omega)
  have hfrom : fromLeaves hasher a =
      .ok ⟨frontierRoots hasher.internal (leafAt hasher a) a.length, a.length, rootHash⟩ := by
    rw [fromLeaves_eq hasher a (by omega), hnew]
  have hfrom' : fromLeaves hasher (a ++ b) =
      .ok ⟨frontierRoots hasher.internal (leafAt hasher (a ++ b)) (a.length + b.length),
        a.length + b.length, rootHash'⟩ := by
    rw [fromLeaves_eq hasher (a ++ b) (by rw [List.length_append]; omega), List.length_append,
      hnew']
  refine ⟨_, _, hfrom, hfrom', ?_, rfl, rfl,
    length_frontierRoots hasher.internal _ _, fun fuel positions subtrees hcollect hhash ↦ ?_⟩
  · rw [append_eq hasher (leafAt hasher (a ++ b)) _ b hinitial (fun i hi ↦ by
      rw [leafAt, List.getD_eq_getElem?_getD, List.getElem?_append_right (Nat.le_add_right _ _),
        Nat.add_sub_cancel_left, List.getElem?_eq_getElem hi, Option.getD_some])
      (show a.length + b.length < 2 ^ 64 by omega)]
    exact hnew'
  · rw [appendSubtrees_eq hasher (leafAt hasher (a ++ b)) _ hinitial hbound hcollect hhash]
    exact hnew'

/-- Three leaves, then two, with the sum as the internal hash. Appending `4, 5` goes through the
carry of `append_subtrees`: the new leaf `4` closes the subtree of the first four leaves, whose
root `10` replaces the two frozen roots of `1, 2, 3`. -/
theorem append_batch_independent_three_two :
    [1, 2, 3].length + [4, 5].length ≤ maxAccumulatorLeaves ∧
    ∃ accumulator accumulator',
      fromLeaves ⟨(· + ·), 0⟩ [1, 2, 3] = .ok accumulator ∧
      fromLeaves ⟨(· + ·), 0⟩ ([1, 2, 3] ++ [4, 5]) = .ok accumulator' ∧
      accumulator.append ⟨(· + ·), 0⟩ [4, 5] = .ok accumulator' ∧
      accumulator'.frozenSubtreeRoots = [10, 5] ∧ accumulator'.numLeaves = 5 ∧
      accumulator.appendSubtrees ⟨(· + ·), 0⟩ [4, 5] 2 = .ok accumulator' := by
  have hbound : [1, 2, 3].length + [4, 5].length ≤ maxAccumulatorLeaves := by decide
  obtain ⟨accumulator, accumulator', hfrom, hfrom', happend, hroots, hnum, -, hsubtrees⟩ :=
    append_batch_independent (⟨(· + ·), 0⟩ : AccumulatorHasher Nat) [1, 2, 3] [4, 5] hbound
  have hpositions : (FrozenSubtreeSiblingIterator.new 3 5).bind
      (collect FrozenSubtreeSiblingIterator.next 3) = some [6, 8] := by decide
  have hhashes : [6, 8].mapM (positionHash ⟨(· + ·), 0⟩
      (leafAt ⟨(· + ·), 0⟩ ([1, 2, 3] ++ [4, 5]))) = some [4, 5] := by decide
  have hfrontier : frontierRoots (· + ·) (leafAt ⟨(· + ·), 0⟩ ([1, 2, 3] ++ [4, 5])) 5 =
      [10, 5] := by decide
  exact ⟨hbound, accumulator, accumulator', hfrom, hfrom', happend, hroots.trans hfrontier, hnum,
    hsubtrees 3 [6, 8] [4, 5] hpositions hhashes⟩

end InMemoryAccumulator

end AptosCore.Proof
