import Mathlib
import AptosCore.Rust.BinarySearch

/-!
# Weighted choice of the proposer

`consensus/src/liveness/proposer_election.rs`, `choose_index`: the weights are rewritten in place
as running totals (a total past `u128::MAX` panics), a value is drawn below the total weight by
`next_in_range`, and `binary_search_by` over the running totals, with a comparator that answers
`Less` for a total at most the drawn value and `Greater` otherwise, returns the index in its
`Err`. `next_in_range` reads a `u128` from the first 16 bytes of the SHA3-256 hash of the seed
state; that number is the `seed` here, and the hash itself is not modelled.

The running totals are the prefix sums of the weights, so the comparator answers `Less` on a
prefix of them and the search returns the length of that prefix: the index `i` whose weight
interval `[w₀ + ⋯ + wᵢ₋₁, w₀ + ⋯ + wᵢ)` holds the drawn value (`chooseIndex_exact`). Such an
interval is empty for a zero weight, so a validator of zero weight is never chosen, and of the
`Σ w` values below the total exactly `wᵢ` choose `i`.
-/

namespace AptosCore.Consensus

/-- `next_in_range(state, max)`, `seed` being the `u128` the hash of `state` starts with; the
remainder by a zero `max` panics. -/
def nextInRange (seed max : Nat) : Option Nat :=
  if max = 0 then none else some (seed % max)

/-- The loop of `choose_index` that rewrites each weight as the running total, which
`checked_add(..).expect(..)` keeps below `2 ^ 128`; it returns the totals and the last one. -/
def cumulativeWeights (totalWeight : Nat) : List Nat → Option (List Nat × Nat)
  | [] => some ([], totalWeight)
  | w :: weights =>
    let totalWeight := totalWeight + w
    if totalWeight < 2 ^ 128 then
      (cumulativeWeights totalWeight weights).map fun (rest, total) ↦ (totalWeight :: rest, total)
    else none

/-- `choose_index(weights, state)`: `unwrap_err` panics on an `Ok`. -/
def chooseIndex (weights : List Nat) (seed : Nat) : Option Nat := do
  let (weights, totalWeight) ← cumulativeWeights 0 weights
  let chosenWeight ← nextInRange seed totalWeight
  match Rust.binarySearchBy weights (fun w ↦ if w ≤ chosenWeight then .lt else .gt) with
  | .error index => some index
  | .ok _ => none

/-! ## Prefix sums of the weights -/

section PrefixSums

variable {weights : List Nat}

theorem sum_take_le_sum_take {a b : Nat} (hab : a ≤ b) :
    (weights.take a).sum ≤ (weights.take b).sum := by
  obtain ⟨k, rfl⟩ := Nat.exists_eq_add_of_le hab
  rw [List.take_add, List.sum_append]
  exact Nat.le_add_right _ _

/-- A value below the total weight lies in the interval of some index. -/
theorem exists_mem_interval {c : Nat} (hc : c < weights.sum) :
    ∃ i < weights.length, (weights.take i).sum ≤ c ∧ c < (weights.take (i + 1)).sum := by
  have hex : ∃ j, c < (weights.take (j + 1)).sum := ⟨weights.length, by
    rwa [List.take_of_length_le (by omega)]⟩
  classical
  refine ⟨Nat.find hex, ?_, ?_, Nat.find_spec hex⟩
  · by_contra hge
    have hlen : 0 < weights.length := List.length_pos_of_ne_nil (by rintro rfl; simp at hc)
    have hmin := Nat.find_min hex (show weights.length - 1 < Nat.find hex by omega)
    rw [Nat.sub_add_cancel hlen, List.take_length] at hmin
    exact hmin hc
  · rcases Nat.eq_zero_or_pos (Nat.find hex) with hzero | hpos
    · rw [hzero, List.take_zero, List.sum_nil]
      exact Nat.zero_le c
    · have hmin := Nat.find_min hex (show Nat.find hex - 1 < Nat.find hex by omega)
      rw [Nat.sub_add_cancel hpos] at hmin
      exact Nat.le_of_not_lt hmin

theorem eq_of_mem_interval {c i j : Nat}
    (hi : (weights.take i).sum ≤ c ∧ c < (weights.take (i + 1)).sum)
    (hj : (weights.take j).sum ≤ c ∧ c < (weights.take (j + 1)).sum) : i = j := by
  by_contra hne
  rcases Nat.lt_or_gt_of_ne hne with hlt | hgt
  · have := @sum_take_le_sum_take weights (i + 1) j hlt
    omega
  · have := @sum_take_le_sum_take weights (j + 1) i hgt
    omega

theorem sum_take_succ_sub {i : Nat} (hi : i < weights.length) :
    (weights.take (i + 1)).sum - (weights.take i).sum = weights[i] := by
  rw [List.sum_take_succ weights i hi]
  omega

end PrefixSums

/-! ## The choice -/

theorem cumulativeWeights_eq (totalWeight : Nat) (weights : List Nat)
    (hbound : totalWeight + weights.sum < 2 ^ 128) :
    ∃ totals, cumulativeWeights totalWeight weights = some (totals, totalWeight + weights.sum) ∧
      totals.length = weights.length ∧
      ∀ i (hi : i < totals.length), totals[i] = totalWeight + (weights.take (i + 1)).sum := by
  induction weights generalizing totalWeight with
  | nil => exact ⟨[], rfl, rfl, fun i hi ↦ absurd hi (Nat.not_lt_zero i)⟩
  | cons w weights ih =>
    rw [List.sum_cons] at hbound
    obtain ⟨rest, hrest, hlen, htotals⟩ := ih (totalWeight + w) (by omega)
    refine ⟨(totalWeight + w) :: rest, ?_, by simp [hlen], fun i hi ↦ ?_⟩
    · rw [cumulativeWeights, if_pos (by omega), hrest]
      simp only [Option.map_some, List.sum_cons]
      congr 2
      omega
    · cases i with
      | zero => simp
      | succ i =>
        rw [List.getElem_cons_succ, htotals i (by simpa using hi), List.take_succ_cons,
          List.sum_cons]
        omega

/-- A drawn value `c` below the total weight chooses the index whose weight interval holds it. -/
theorem chooseIndex_eq_of_mem_interval {weights : List Nat} (hbound : weights.sum < 2 ^ 128)
    {seed i : Nat} (hi : i < weights.length)
    (hmem : (weights.take i).sum ≤ seed % weights.sum ∧
      seed % weights.sum < (weights.take (i + 1)).sum) :
    chooseIndex weights seed = some i := by
  obtain ⟨totals, hcum, hlen, htotals⟩ := cumulativeWeights_eq 0 weights (by omega)
  rw [Nat.zero_add] at hcum
  simp only [Nat.zero_add] at htotals
  have hpos : weights.sum ≠ 0 := by
    have := @sum_take_le_sum_take weights (i + 1) weights.length (by omega)
    rw [List.take_length] at this
    omega
  have hsearch : Rust.binarySearchBy totals
      (fun w ↦ if w ≤ seed % weights.sum then .lt else .gt) = .error i := by
    apply Rust.binarySearchBy_eq_error
    · intro j hj hji
      have := @sum_take_le_sum_take weights (j + 1) i hji
      rw [htotals j hj, if_pos (by omega)]
    · intro j hj hij
      have := @sum_take_le_sum_take weights (i + 1) (j + 1) (by omega)
      rw [htotals j hj, if_neg (by omega)]
    · omega
  simp [chooseIndex, hcum, nextInRange, hpos, hsearch]

/-- `choose_index` is exact: for weights of total at most `u128::MAX`, at least one positive,
every seed chooses the unique index whose weight interval holds the drawn value; that index is in
range and has positive weight; and of the values below the total weight, exactly `wᵢ` choose
`i`. -/
theorem chooseIndex_exact (weights : List Nat) (hpos : ∃ w ∈ weights, 0 < w)
    (hbound : weights.sum < 2 ^ 128) :
    (∀ seed, ∃ i, chooseIndex weights seed = some i ∧
      (weights.take i).sum ≤ seed % weights.sum ∧ seed % weights.sum < (weights.take (i + 1)).sum ∧
      (∀ j, (weights.take j).sum ≤ seed % weights.sum →
        seed % weights.sum < (weights.take (j + 1)).sum → j = i) ∧
      ∃ hi : i < weights.length, 0 < weights[i]) ∧
    ∀ i (hi : i < weights.length),
      ((Finset.range weights.sum).filter fun seed ↦ chooseIndex weights seed = some i).card =
        weights[i] := by
  have htotal : 0 < weights.sum := by
    obtain ⟨w, hw, hwpos⟩ := hpos
    exact Nat.pos_of_ne_zero fun hzero ↦
      Nat.ne_of_gt hwpos (List.sum_eq_zero_iff_forall_eq_nat.mp hzero w hw)
  constructor
  · intro seed
    obtain ⟨i, hi, hmem⟩ := exists_mem_interval (Nat.mod_lt seed htotal)
    refine ⟨i, chooseIndex_eq_of_mem_interval hbound hi hmem, hmem.1, hmem.2,
      fun j hlo hhi ↦ eq_of_mem_interval ⟨hlo, hhi⟩ hmem, hi, ?_⟩
    have := sum_take_succ_sub hi
    omega
  · intro i hi
    have hfilter : ((Finset.range weights.sum).filter fun seed ↦ chooseIndex weights seed = some i) =
        Finset.Ico (weights.take i).sum (weights.take (i + 1)).sum := by
      ext seed
      rw [Finset.mem_filter, Finset.mem_range, Finset.mem_Ico]
      constructor
      · rintro ⟨hseed, hchoose⟩
        obtain ⟨j, hj, hmem⟩ := exists_mem_interval (Nat.mod_lt seed htotal)
        rw [chooseIndex_eq_of_mem_interval hbound hj hmem, Option.some.injEq] at hchoose
        rw [Nat.mod_eq_of_lt hseed, hchoose] at hmem
        exact hmem
      · rintro ⟨hlo, hhi⟩
        have hseed : seed < weights.sum := by
          have := @sum_take_le_sum_take weights (i + 1) weights.length (by omega)
          rw [List.take_length] at this
          omega
        refine ⟨hseed, chooseIndex_eq_of_mem_interval hbound hi ?_⟩
        rw [Nat.mod_eq_of_lt hseed]
        exact ⟨hlo, hhi⟩
    rw [hfilter, Nat.card_Ico, sum_take_succ_sub hi]

/-- Three validators, the first without stake. -/
theorem chooseIndex_exact_three :
    (∃ w ∈ [0, 3, 1], 0 < w) ∧ [0, 3, 1].sum < 2 ^ 128 ∧
      (∀ seed, ∃ i, chooseIndex [0, 3, 1] seed = some i ∧
        ([0, 3, 1].take i).sum ≤ seed % [0, 3, 1].sum ∧
        seed % [0, 3, 1].sum < ([0, 3, 1].take (i + 1)).sum ∧
        (∀ j, ([0, 3, 1].take j).sum ≤ seed % [0, 3, 1].sum →
          seed % [0, 3, 1].sum < ([0, 3, 1].take (j + 1)).sum → j = i) ∧
        ∃ hi : i < [0, 3, 1].length, 0 < [0, 3, 1][i]) ∧
      ∀ i (hi : i < [0, 3, 1].length),
        ((Finset.range [0, 3, 1].sum).filter fun seed ↦ chooseIndex [0, 3, 1] seed = some i).card =
          [0, 3, 1][i] := by
  have hpos : ∃ w ∈ [0, 3, 1], 0 < w := ⟨3, by simp, by decide⟩
  have hbound : [0, 3, 1].sum < 2 ^ 128 := by decide
  exact ⟨hpos, hbound, chooseIndex_exact [0, 3, 1] hpos hbound⟩

end AptosCore.Consensus
