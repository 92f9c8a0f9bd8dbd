import AptosCore.Proof.Position
import AptosCore.Merkle.Frontier
import AptosCore.Rust.Iterator

/-!
# Frozen subtrees

`FrozenSubTreeIterator` and `FrozenSubtreeSiblingIterator` of `types/src/proof/position/mod.rs`,
each a state and a `next` step for `Rust.collect`.

`FrozenSubTreeIterator::new(n)` yields the roots of the frozen subtrees of `n` leaves, the
subtrees of `frontier n`, one for each set bit of `n`, the largest first: each step takes the
highest bit of what is left by `smear_ones_for_u64` and clears it (`FrozenSubTreeIterator.next_of_ne_zero`).

`FrozenSubtreeSiblingIterator::new(c, n)` yields the subtrees that fill the leaves from `c` to
`n`. While the rightmost frozen subtree of `c` fits in what is left, it yields one of that size
(`next_of_fits`), which a binary counter carries into the frozen subtrees; then it yields the set
bits of what is left, largest first (`collect_of_lt`), which the frozen subtrees keep. Either way
the subtrees are aligned to their size and laid end to end, and carry-merging them onto the
frozen subtrees of `c` gives those of `n` (`frozenSubtrees_decomposition`).
-/

namespace AptosCore.Proof

open Rust Merkle

/-- `position` is the root of the perfect subtree over the `2 ^ range.2` leaves from `range.1`
for the position API: its level is `range.2` and its leftmost leaf is leaf `range.1`. -/
structure IsRootOf (position : Nat) (range : Nat × Nat) : Prop where
  level : Position.level position = range.2
  leftMostChild : Position.leftMostChild position = Position.fromLeafIndex range.1

/-- A subtree aligned to its size among the first `2 ^ 63` leaves has its root at
`rootPosition`. -/
theorem isRootOf_rootPosition {range : Nat × Nat} (haligned : 2 ^ range.2 ∣ range.1)
    (hbound : range.1 + 2 ^ range.2 ≤ maxAccumulatorLeaves) :
    IsRootOf (rootPosition range) range := by
  have hmax : maxAccumulatorLeaves = 2 ^ 63 := rfl
  have h64 : (2 : Nat) ^ 64 = 2 * 2 ^ 63 := by decide
  have hpos := Nat.two_pow_pos range.2
  have hlevel : range.2 < 64 := by
    have hle : 2 ^ range.2 < 2 ^ 64 := by omega
    exact (Nat.pow_lt_pow_iff_right (by decide)).mp hle
  have hlt : 2 * range.1 + 2 ^ range.2 < 2 ^ 64 := by omega
  have hleaf : 2 * range.1 < 2 ^ 64 := by omega
  exact ⟨Position.level_rootPosition hlevel haligned hlt,
    (Position.leftMostChild_rootPosition hlevel haligned hlt).trans
      (Position.fromLeafIndex_eq hleaf).symm⟩

/-! ## The frozen subtrees of a leaf count -/

/-- `FrozenSubTreeIterator`: the bits of the leaf count still to yield, and the leaves before
them. -/
structure FrozenSubTreeIterator where
  bitmap : Nat
  seenLeaves : Nat

namespace FrozenSubTreeIterator

def new (numLeaves : Nat) : FrozenSubTreeIterator := ⟨numLeaves, 0⟩

/-- `FrozenSubTreeIterator::next`: `none` on a failed assert or an overflow. -/
def next (self : FrozenSubTreeIterator) : Option (Option (Nat × FrozenSubTreeIterator)) :=
  if self.seenLeaves < U64.max - self.bitmap then
    if self.bitmap = 0 then some none
    else
      let rootOffset := smearOnesForU64 self.bitmap >>> 1
      if rootOffset < self.bitmap then do
        let numLeaves ← U64.add rootOffset 1
        let leftmostLeaf ← Position.fromLeafIndex self.seenLeaves
        let root ← U64.add leftmostLeaf rootOffset
        let seenLeaves ← U64.add self.seenLeaves numLeaves
        pure (some (root, ⟨self.bitmap &&& U64.not numLeaves, seenLeaves⟩))
      else none
  else none

/-- A step yields the root of the subtree of the highest bit left and clears that bit. -/
theorem next_of_ne_zero {bitmap seenLeaves : Nat} (hbitmap : bitmap ≠ 0)
    (hbound : seenLeaves + bitmap ≤ maxAccumulatorLeaves) :
    next ⟨bitmap, seenLeaves⟩ = some (some (rootPosition (seenLeaves, Nat.log2 bitmap),
      ⟨bitmap - 2 ^ Nat.log2 bitmap, seenLeaves + 2 ^ Nat.log2 bitmap⟩)) := by
  have hmax : maxAccumulatorLeaves = 2 ^ 63 := rfl
  have h64 : (2 : Nat) ^ 64 = 2 * 2 ^ 63 := by decide
  have hlt : bitmap < 2 ^ 64 := by omega
  have hlog : Nat.log2 bitmap < 64 := (Nat.log2_lt hbitmap).mpr hlt
  have hle : 2 ^ Nat.log2 bitmap ≤ bitmap := Nat.log2_self_le hbitmap
  have hhigh : bitmap < 2 ^ (Nat.log2 bitmap + 1) := Nat.lt_log2_self
  have hsmear := U64.smear_six hbitmap hlt
  generalize Nat.log2 bitmap = k at hlog hle hhigh hsmear ⊢
  have hpow : 2 ^ (k + 1) = 2 * 2 ^ k := by rw [Nat.pow_succ, Nat.mul_comm]
  have hpos := Nat.two_pow_pos k
  have hoffset : smearOnesForU64 bitmap >>> 1 = 2 ^ k - 1 := by
    rw [smearOnesForU64_eq, hsmear, Nat.shiftRight_one]
    omega
  have hclear : bitmap &&& U64.not (2 ^ k) = bitmap - 2 ^ k := by
    have hsplit : bitmap = 2 ^ k + (bitmap - 2 ^ k) := by omega
    conv_lhs => rw [hsplit]
    exact U64.two_pow_add_and_not hlog (by omega)
  have hnum : U64.add (2 ^ k - 1) 1 = some (2 ^ k) := by
    rw [U64.add_of_lt (by omega), Nat.sub_add_cancel hpos]
  have hroot : U64.add (2 * seenLeaves) (2 ^ k - 1) = some (rootPosition (seenLeaves, k)) := by
    rw [U64.add_of_lt (by omega), rootPosition_mk]
    congr 1
    omega
  have hseen : U64.add seenLeaves (2 ^ k) = some (seenLeaves + 2 ^ k) :=
    U64.add_of_lt (by omega)
  have hassert : seenLeaves < U64.max - bitmap := by
    unfold U64.max
    omega
  rw [next]
  dsimp only
  rw [if_pos hassert, if_neg hbitmap, hoffset, if_pos (by omega), hnum,
    Position.fromLeafIndex_eq (by omega)]
  simp only [Option.bind_eq_bind, Option.bind_some, hroot, hseen, hclear]
  rfl

/-- From `seenLeaves` with `bitmap` still to go, the iterator yields, in as many steps as
`bitmap` has set bits, the roots of the subtrees of those bits laid from `seenLeaves` on, the
largest first, and ends. -/
theorem collect_eq {bitmap seenLeaves : Nat} (hbound : seenLeaves + bitmap ≤ maxAccumulatorLeaves) :
    collect next (bitmap.bitIndices.length + 1) ⟨bitmap, seenLeaves⟩ =
      some ((rangesOf seenLeaves bitmap.bitIndices.reverse).map rootPosition) := by
  induction bitmap using Nat.strong_induction_on generalizing seenLeaves with
  | _ bitmap ih =>
    rcases Nat.eq_zero_or_pos bitmap with rfl | hpos
    · have hassert : seenLeaves < U64.max - 0 := by
        have hmax : maxAccumulatorLeaves = 2 ^ 63 := rfl
        unfold U64.max
        omega
      have hend : next ⟨0, seenLeaves⟩ = some none := by
        rw [next]
        dsimp only
        rw [if_pos hassert, if_pos rfl]
      rw [collect_succ_of_end next hend]
      rfl
    · have hne := Nat.pos_iff_ne_zero.mp hpos
      have hle : 2 ^ Nat.log2 bitmap ≤ bitmap := Nat.log2_self_le hne
      have hrest := @ih (bitmap - 2 ^ Nat.log2 bitmap) (Nat.sub_lt hpos (Nat.two_pow_pos _))
        (seenLeaves + 2 ^ Nat.log2 bitmap) (by omega)
      rw [bitIndices_eq_concat_log2 hne, List.length_append, List.length_singleton,
        List.reverse_append, List.reverse_singleton, List.singleton_append, rangesOf_cons,
        List.map_cons, collect_succ_of_yield next (next_of_ne_zero hne hbound), hrest]
      rfl

/-- `FrozenSubTreeIterator::new(n)` yields the roots of the frozen subtrees of `n` leaves. -/
theorem collect_new {numLeaves : Nat} (hbound : numLeaves ≤ maxAccumulatorLeaves) :
    collect next (U64.countOnes numLeaves + 1) (new numLeaves) =
      some ((frontier numLeaves).map rootPosition) :=
  collect_eq (by omega)

end FrozenSubTreeIterator

/-! ## The subtrees appended after a leaf count -/

/-- `FrozenSubtreeSiblingIterator`: the leaves so far, and how many more to cover. -/
structure FrozenSubtreeSiblingIterator where
  currentNumLeaves : Nat
  remainingNewLeaves : Nat

namespace FrozenSubtreeSiblingIterator

/-- `FrozenSubtreeSiblingIterator::new`, whose two asserts panic. -/
def new (currentNumLeaves newNumLeaves : Nat) : Option FrozenSubtreeSiblingIterator :=
  if newNumLeaves ≤ maxAccumulatorLeaves then
    if currentNumLeaves ≤ newNumLeaves then
      some ⟨currentNumLeaves, newNumLeaves - currentNumLeaves⟩
    else none
  else none

/-- `next_new_leaf_batch`: the highest power of two in what is left; the `usize` subtraction
and the shift panic out of range. -/
def nextNewLeafBatch (self : FrozenSubtreeSiblingIterator) : Option Nat := do
  let zeros := U64.leadingZeros self.remainingNewLeaves
  let shift ← U64.sub maxAccumulatorProofDepth zeros
  U64.shlChecked 1 shift

/-- The size of the next subtree, the first `let` of `next`: that of the rightmost frozen
subtree if it fits in what is left, the largest that fits otherwise. -/
def nextSubtreeLeaves (self : FrozenSubtreeSiblingIterator) : Option Nat :=
  if self.currentNumLeaves > 0 then do
    let rightmostFrozenSubtreeLeaves ← U64.shlChecked 1 (U64.trailingZeros self.currentNumLeaves)
    if self.remainingNewLeaves ≥ rightmostFrozenSubtreeLeaves then
      pure rightmostFrozenSubtreeLeaves
    else self.nextNewLeafBatch
  else self.nextNewLeafBatch

/-- `FrozenSubtreeSiblingIterator::next`: the root is the middle of the first and last leaves. -/
def next (self : FrozenSubtreeSiblingIterator) :
    Option (Option (Nat × FrozenSubtreeSiblingIterator)) :=
  if self.remainingNewLeaves = 0 then some none
  else do
    let nextSubtreeLeaves ← self.nextSubtreeLeaves
    let firstLeafIndex := self.currentNumLeaves
    let lastLeafIndex ← (U64.add firstLeafIndex nextSubtreeLeaves).bind (U64.sub · 1)
    let currentNumLeaves ← U64.add self.currentNumLeaves nextSubtreeLeaves
    let remainingNewLeaves ← U64.sub self.remainingNewLeaves nextSubtreeLeaves
    let position ← U64.add firstLeafIndex lastLeafIndex
    pure (some (position, ⟨currentNumLeaves, remainingNewLeaves⟩))

theorem new_eq {currentNumLeaves newNumLeaves : Nat} (hle : currentNumLeaves ≤ newNumLeaves)
    (hbound : newNumLeaves ≤ maxAccumulatorLeaves) :
    new currentNumLeaves newNumLeaves =
      some ⟨currentNumLeaves, newNumLeaves - currentNumLeaves⟩ := by
  rw [new, if_pos hbound, if_pos hle]

/-- The batch is the highest power of two in what is left. -/
theorem nextNewLeafBatch_eq {current remaining : Nat} (hremaining : remaining ≠ 0)
    (hlt : remaining < 2 ^ 64) :
    nextNewLeafBatch ⟨current, remaining⟩ = some (2 ^ Nat.log2 remaining) := by
  have hlog : Nat.log2 remaining < 64 := (Nat.log2_lt hremaining).mpr hlt
  have hzeros : U64.leadingZeros remaining = 63 - Nat.log2 remaining := by
    rw [U64.leadingZeros, if_neg hremaining]
  have hshift : U64.sub maxAccumulatorProofDepth (63 - Nat.log2 remaining) =
      some (Nat.log2 remaining) := by
    rw [maxAccumulatorProofDepth, U64.sub_of_le (by omega)]
    congr 1
    omega
  rw [nextNewLeafBatch]
  dsimp only
  rw [hzeros, hshift, Option.bind_eq_bind, Option.bind_some, U64.shlChecked_one hlog]

/-- With a nonzero leaf count whose rightmost frozen subtree fits in what is left, the next
subtree has its size. -/
theorem nextSubtreeLeaves_of_fits {current remaining : Nat} (hcurrent : current ≠ 0)
    (hlt : current < 2 ^ 64) (hfits : 2 ^ U64.trailingZeros current ≤ remaining) :
    nextSubtreeLeaves ⟨current, remaining⟩ = some (2 ^ U64.trailingZeros current) := by
  obtain ⟨m, -, htz⟩ := U64.exists_eq_two_pow_trailingZeros_mul_odd hcurrent hlt
  rw [nextSubtreeLeaves]
  dsimp only
  rw [if_pos (Nat.pos_of_ne_zero hcurrent), U64.shlChecked_one htz, Option.bind_eq_bind,
    Option.bind_some, if_pos hfits]
  rfl

/-- With what is left below a power of two that divides the leaf count, the next subtree is the
largest that fits. -/
theorem nextSubtreeLeaves_of_lt {current remaining j : Nat} (hremaining : remaining ≠ 0)
    (hlt : remaining < 2 ^ j) (hdvd : 2 ^ j ∣ current) (hcurrent : current < 2 ^ 64)
    (hremaining64 : remaining < 2 ^ 64) :
    nextSubtreeLeaves ⟨current, remaining⟩ = some (2 ^ Nat.log2 remaining) := by
  rw [nextSubtreeLeaves]
  dsimp only
  rcases Nat.eq_zero_or_pos current with rfl | hpos
  · rw [if_neg (Nat.lt_irrefl 0), nextNewLeafBatch_eq hremaining hremaining64]
  · obtain ⟨m, hm, htz⟩ :=
      U64.exists_eq_two_pow_trailingZeros_mul_odd (Nat.pos_iff_ne_zero.mp hpos) hcurrent
    have hj : j ≤ U64.trailingZeros current := by
      rw [hm] at hdvd
      exact U64.le_of_two_pow_dvd_two_pow_mul_odd hdvd
    have hbig : remaining < 2 ^ U64.trailingZeros current :=
      Nat.lt_of_lt_of_le hlt (Nat.pow_le_pow_right (by decide) hj)
    rw [if_pos hpos, U64.shlChecked_one htz, Option.bind_eq_bind, Option.bind_some,
      if_neg (Nat.not_le_of_lt hbig), nextNewLeafBatch_eq hremaining hremaining64]

/-- A step that takes a subtree of `2 ^ k` leaves yields its root and moves past it. -/
theorem next_of_nextSubtreeLeaves {current remaining k : Nat}
    (hsize : nextSubtreeLeaves ⟨current, remaining⟩ = some (2 ^ k)) (hk : 2 ^ k ≤ remaining)
    (hbound : current + remaining ≤ maxAccumulatorLeaves) :
    next ⟨current, remaining⟩ =
      some (some (rootPosition (current, k), ⟨current + 2 ^ k, remaining - 2 ^ k⟩)) := by
  have hmax : maxAccumulatorLeaves = 2 ^ 63 := rfl
  have h64 : (2 : Nat) ^ 64 = 2 * 2 ^ 63 := by decide
  have hpos := Nat.two_pow_pos k
  have hcurrent : U64.add current (2 ^ k) = some (current + 2 ^ k) := U64.add_of_lt (by omega)
  have hlast : U64.sub (current + 2 ^ k) 1 = some (current + 2 ^ k - 1) :=
    U64.sub_of_le (by omega)
  have hposition : U64.add current (current + 2 ^ k - 1) = some (rootPosition (current, k)) := by
    rw [U64.add_of_lt (by omega), rootPosition_mk]
    congr 1
    omega
  rw [next, if_neg (show remaining ≠ 0 by omega)]
  simp only [Option.bind_eq_bind, hsize, Option.bind_some, hcurrent, hlast, hposition,
    U64.sub_of_le hk]
  rfl

/-- While the rightmost frozen subtree fits in what is left, a step yields a subtree of its
size. -/
theorem next_of_fits {current remaining : Nat} (hcurrent : current ≠ 0)
    (hfits : 2 ^ U64.trailingZeros current ≤ remaining)
    (hbound : current + remaining ≤ maxAccumulatorLeaves) :
    next ⟨current, remaining⟩ = some (some (rootPosition (current, U64.trailingZeros current),
      ⟨current + 2 ^ U64.trailingZeros current, remaining - 2 ^ U64.trailingZeros current⟩)) := by
  have hmax : maxAccumulatorLeaves = 2 ^ 63 := rfl
  have h64 : (2 : Nat) ^ 64 = 2 * 2 ^ 63 := by decide
  exact next_of_nextSubtreeLeaves (nextSubtreeLeaves_of_fits hcurrent (by omega) hfits) hfits hbound

/-- Once what is left is below a power of two that divides the leaf count, the iterator yields
the subtrees of the set bits of what is left, largest first, and ends. -/
theorem collect_of_lt {current remaining j : Nat} (hlt : remaining < 2 ^ j)
    (hdvd : 2 ^ j ∣ current) (hbound : current + remaining ≤ maxAccumulatorLeaves) :
    collect next (remaining.bitIndices.length + 1) ⟨current, remaining⟩ =
      some ((rangesOf current remaining.bitIndices.reverse).map rootPosition) := by
  have hmax : maxAccumulatorLeaves = 2 ^ 63 := rfl
  have h64 : (2 : Nat) ^ 64 = 2 * 2 ^ 63 := by decide
  induction remaining using Nat.strong_induction_on generalizing current j with
  | _ remaining ih =>
    rcases Nat.eq_zero_or_pos remaining with rfl | hpos
    · have hend : next ⟨current, 0⟩ = some none := by rw [next, if_pos rfl]
      rw [collect_succ_of_end next hend]
      rfl
    · have hne := Nat.pos_iff_ne_zero.mp hpos
      have hle : 2 ^ Nat.log2 remaining ≤ remaining := Nat.log2_self_le hne
      have hhigh : remaining < 2 ^ (Nat.log2 remaining + 1) := Nat.lt_log2_self
      have hkj : Nat.log2 remaining < j :=
        (Nat.pow_lt_pow_iff_right (by decide)).mp (Nat.lt_of_le_of_lt hle hlt)
      have hsize := nextSubtreeLeaves_of_lt hne hlt hdvd (by omega) (by omega)
      have hrestlt : remaining - 2 ^ Nat.log2 remaining < 2 ^ Nat.log2 remaining := by
        rw [Nat.pow_succ] at hhigh
        omega
      have hrestdvd : 2 ^ Nat.log2 remaining ∣ current + 2 ^ Nat.log2 remaining :=
        Nat.dvd_add (Nat.dvd_trans (Nat.pow_dvd_pow 2 (Nat.le_of_lt hkj)) hdvd) (Nat.dvd_refl _)
      have hrest := ih (remaining - 2 ^ Nat.log2 remaining)
        (Nat.sub_lt hpos (Nat.two_pow_pos _)) hrestlt hrestdvd (by omega)
      rw [bitIndices_eq_concat_log2 hne, List.length_append, List.length_singleton,
        List.reverse_append, List.reverse_singleton, List.singleton_append, rangesOf_cons,
        List.map_cons, collect_succ_of_yield next (next_of_nextSubtreeLeaves hsize hle hbound),
        hrest]
      rfl

/-- From `current` with `remaining` to go, the iterator yields the roots of subtrees aligned to
their sizes and laid end to end from `current` to `current + remaining`, and ends. -/
theorem collect_tiles {current remaining : Nat}
    (hbound : current + remaining ≤ maxAccumulatorLeaves) :
    ∃ ranges, collect next (ranges.length + 1) ⟨current, remaining⟩ =
        some (ranges.map rootPosition) ∧
      Tiles current ranges (current + remaining) ∧ ∀ range ∈ ranges, 2 ^ range.2 ∣ range.1 := by
  have hmax : maxAccumulatorLeaves = 2 ^ 63 := rfl
  have h64 : (2 : Nat) ^ 64 = 2 * 2 ^ 63 := by decide
  induction remaining using Nat.strong_induction_on generalizing current with
  | _ remaining ih =>
    by_cases hfits : current ≠ 0 ∧ 2 ^ U64.trailingZeros current ≤ remaining
    · obtain ⟨hcurrent, hle⟩ := hfits
      have hpos := Nat.two_pow_pos (U64.trailingZeros current)
      obtain ⟨ranges, hcollect, htiles, haligned⟩ :=
        @ih (remaining - 2 ^ U64.trailingZeros current) (by omega)
          (current + 2 ^ U64.trailingZeros current) (by omega)
      obtain ⟨m, hm, -⟩ := U64.exists_eq_two_pow_trailingZeros_mul_odd hcurrent (by omega)
      refine ⟨(current, U64.trailingZeros current) :: ranges, ?_, ?_, ?_⟩
      · rw [List.length_cons, collect_succ_of_yield next (next_of_fits hcurrent hle hbound),
          hcollect]
        rfl
      · refine ⟨rfl, ?_⟩
        rwa [show current + 2 ^ U64.trailingZeros current +
          (remaining - 2 ^ U64.trailingZeros current) = current + remaining by omega] at htiles
      · intro range hmem
        rcases List.mem_cons.mp hmem with rfl | hmem
        · exact ⟨2 * m + 1, hm⟩
        · exact haligned range hmem
    · obtain ⟨j, hlt, hdvd⟩ : ∃ j, remaining < 2 ^ j ∧ 2 ^ j ∣ current := by
        by_cases hcurrent : current = 0
        · exact ⟨64, by omega, hcurrent ▸ Nat.dvd_zero _⟩
        · obtain ⟨m, hm, -⟩ := U64.exists_eq_two_pow_trailingZeros_mul_odd hcurrent (by omega)
          exact ⟨U64.trailingZeros current, by omega, ⟨2 * m + 1, hm⟩⟩
      refine ⟨rangesOf current remaining.bitIndices.reverse, ?_, ?_, ?_⟩
      · rw [length_rangesOf, List.length_reverse]
        exact collect_of_lt hlt hdvd hbound
      · have := tiles_rangesOf current remaining.bitIndices.reverse
        rwa [sum_map_two_pow_reverse_bitIndices] at this
      · exact aligned_rangesOf_of_lt hlt hdvd

end FrozenSubtreeSiblingIterator

/-- The frozen subtrees: for `n ≤ MAX_ACCUMULATOR_LEAVES`, `FrozenSubTreeIterator::new(n)` yields
`popcount(n)` positions and ends, the roots of subtrees aligned to their sizes, laid end to end
over the leaves `[0, n)`, each before the next and of a strictly smaller size; and for
`c ≤ n ≤ MAX_ACCUMULATOR_LEAVES`, `FrozenSubtreeSiblingIterator::new(c, n)` yields the roots of
subtrees aligned to their sizes and laid end to end over `[c, n)`, which carry-merged onto the
frozen subtrees of `c` give those of `n`. -/
theorem frozenSubtrees_decomposition :
    (∀ numLeaves ≤ maxAccumulatorLeaves,
      collect FrozenSubTreeIterator.next (U64.countOnes numLeaves + 1)
          (FrozenSubTreeIterator.new numLeaves) = some ((frontier numLeaves).map rootPosition) ∧
        (frontier numLeaves).length = U64.countOnes numLeaves ∧
        Tiles 0 (frontier numLeaves) numLeaves ∧
        (frontier numLeaves).Pairwise (fun range range' ↦
          range.1 + 2 ^ range.2 ≤ range'.1 ∧ range'.2 < range.2) ∧
        ∀ range ∈ frontier numLeaves, 2 ^ range.2 ∣ range.1 ∧ IsRootOf (rootPosition range) range) ∧
    ∀ currentNumLeaves newNumLeaves, currentNumLeaves ≤ newNumLeaves →
      newNumLeaves ≤ maxAccumulatorLeaves →
      ∃ ranges, (FrozenSubtreeSiblingIterator.new currentNumLeaves newNumLeaves).bind
            (collect FrozenSubtreeSiblingIterator.next (ranges.length + 1)) =
          some (ranges.map rootPosition) ∧
        Tiles currentNumLeaves ranges newNumLeaves ∧
        (∀ range ∈ ranges, 2 ^ range.2 ∣ range.1 ∧ IsRootOf (rootPosition range) range) ∧
        ranges.foldl carryMerge (frontier currentNumLeaves).reverse =
          (frontier newNumLeaves).reverse := by
  constructor
  · intro numLeaves hbound
    have htiles := tiles_frontier numLeaves
    refine ⟨FrozenSubTreeIterator.collect_new hbound, length_frontier numLeaves, htiles, ?_,
      fun range hmem ↦ ?_⟩
    · exact List.Pairwise.and htiles.pairwise_before (frontier_pairwise_level numLeaves)
    · have haligned := aligned_frontier numLeaves range hmem
      have := (htiles.mem_bounds hmem).2
      exact ⟨haligned, isRootOf_rootPosition haligned (by omega)⟩
  · intro currentNumLeaves newNumLeaves hle hbound
    obtain ⟨ranges, hcollect, htiles, haligned⟩ :=
      @FrozenSubtreeSiblingIterator.collect_tiles currentNumLeaves
        (newNumLeaves - currentNumLeaves) (by omega)
    rw [Nat.add_sub_cancel' hle] at htiles
    refine ⟨ranges, ?_, htiles, fun range hmem ↦ ?_, foldl_carryMerge_frontier htiles haligned⟩
    · rw [FrozenSubtreeSiblingIterator.new_eq hle hbound, Option.bind_some, hcollect]
    · have := (htiles.mem_bounds hmem).2
      exact ⟨haligned range hmem, isRootOf_rootPosition (haligned range hmem) (by omega)⟩

/-- Six leaves, and the siblings from two to six. -/
theorem frozenSubtrees_decomposition_six :
    (6 ≤ maxAccumulatorLeaves ∧
      collect FrozenSubTreeIterator.next (U64.countOnes 6 + 1) (FrozenSubTreeIterator.new 6) =
        some ((frontier 6).map rootPosition)) ∧
    2 ≤ 6 ∧ 6 ≤ maxAccumulatorLeaves ∧
      ∃ ranges, (FrozenSubtreeSiblingIterator.new 2 6).bind
          (collect FrozenSubtreeSiblingIterator.next (ranges.length + 1)) =
        some (ranges.map rootPosition) ∧ Tiles 2 ranges 6 := by
  have hbound : 6 ≤ maxAccumulatorLeaves := by decide
  obtain ⟨ranges, hcollect, htiles, -⟩ :=
    frozenSubtrees_decomposition.2 2 6 (by decide) hbound
  exact ⟨⟨hbound, (frozenSubtrees_decomposition.1 6 hbound).1⟩, by decide, hbound,
    ranges, hcollect, htiles⟩

end AptosCore.Proof
