import AptosCore.Rust.U64

/-!
# The frontier of a Merkle accumulator

The leaves of an append-only Merkle tree, numbered from `0`, fall into perfect subtrees: `n`
leaves split into one subtree of `2 ^ i` leaves for each set bit `i` of `n`, the largest first
(`frontier n`), each starting where the one before ends. A subtree of `2 ^ level` leaves from
`start` has the root `subtreeRoot`, made by the internal hash `node` from the two halves below.

Adding leaves after `c` leaves, in a batch `r` smaller than the smallest subtree of `c`, keeps the
subtrees of `c` and adds those of `r` after them (`frontier_add`). Adding one subtree of the size
of the last `u` ones of a run of consecutive sizes merges them: `u` merges of the last two roots
on the stack of roots give the root of the doubled subtree (`mergeIter_frontierRoots`). The first is
how a batch is appended; the second is the carry of a binary counter, which appends one leaf or one
subtree.
-/

namespace AptosCore.Merkle

/-! ## Set bits -/

section BitIndices

/-- The set bits of `r + 2 ^ k * c` for `r` below `2 ^ k`: those of `r`, then those of `c`
shifted by `k`. -/
theorem bitIndices_add_two_pow_mul {r k : Nat} (hr : r < 2 ^ k) (c : Nat) :
    (r + 2 ^ k * c).bitIndices = r.bitIndices ++ c.bitIndices.map (· + k) := by
  have hsorted : (r.bitIndices ++ c.bitIndices.map (· + k)).SortedLT := by
    rw [← Nat.bitIndices_two_pow_mul]
    rw [List.sortedLT_iff_pairwise, List.pairwise_append]
    refine ⟨List.sortedLT_iff_pairwise.mp Nat.bitIndices_sorted,
      List.sortedLT_iff_pairwise.mp Nat.bitIndices_sorted, fun i hi j hj ↦ ?_⟩
    have hi' : 2 ^ i ≤ r := Nat.two_pow_le_of_mem_bitIndices hi
    rw [Nat.bitIndices_two_pow_mul, List.mem_map] at hj
    obtain ⟨j, -, rfl⟩ := hj
    have : i < k := (Nat.pow_lt_pow_iff_right (by decide)).mp (Nat.lt_of_le_of_lt hi' hr)
    omega
  rw [← Nat.bitIndices_sum_map_two_pow hsorted, List.map_append, List.sum_append,
    ← Nat.bitIndices_two_pow_mul, Nat.sum_map_two_pow_bitIndices,
    Nat.sum_map_two_pow_bitIndices]

theorem bitIndices_two_pow_sub_one (t : Nat) : (2 ^ t - 1).bitIndices = List.range t := by
  induction t with
  | zero => simp
  | succ t ih =>
    have h : 2 ^ (t + 1) - 1 = 2 * (2 ^ t - 1) + 1 := by
      have := Nat.one_le_two_pow (n := t)
      rw [Nat.pow_succ]
      omega
    rw [h, Nat.bitIndices_two_mul_add_one, ih, List.range_succ_eq_map]

/-- The powers of two of the set bits add up to the number, in any order. -/
theorem sum_map_two_pow_reverse_bitIndices (n : Nat) :
    (n.bitIndices.reverse.map (2 ^ ·)).sum = n := by
  rw [List.map_reverse, List.sum_reverse, Nat.sum_map_two_pow_bitIndices]

/-- The highest set bit is the last: the others are those of the number without it. -/
theorem bitIndices_eq_concat_log2 {v : Nat} (hv : v ≠ 0) :
    v.bitIndices = (v - 2 ^ Nat.log2 v).bitIndices ++ [Nat.log2 v] := by
  have hle : 2 ^ Nat.log2 v ≤ v := Nat.log2_self_le hv
  have hlt : v - 2 ^ Nat.log2 v < 2 ^ Nat.log2 v := by
    have hhigh : v < 2 ^ (Nat.log2 v + 1) := Nat.lt_log2_self
    rw [Nat.pow_succ] at hhigh
    omega
  have hv' : v = (v - 2 ^ Nat.log2 v) + 2 ^ Nat.log2 v * 2 ^ 0 := by
    rw [Nat.pow_zero, Nat.mul_one]
    omega
  conv_lhs => rw [hv']
  rw [bitIndices_add_two_pow_mul hlt, Nat.bitIndices_two_pow, List.map_singleton, Nat.zero_add]

/-- A number is `2 ^ t` times `2 ^ (u + 1) * q + 2 ^ u - 1`: its lowest `t` bits are clear and the
next `u` set, then one clear. -/
theorem exists_eq_carry_form (t x : Nat) :
    ∃ u q, 2 ^ t * x = 2 ^ (t + u + 1) * q + (2 ^ (t + u) - 2 ^ t) := by
  obtain ⟨u, q, hx⟩ := Rust.U64.exists_eq_two_pow_mul_odd (Nat.succ_ne_zero x)
  refine ⟨u, q, ?_⟩
  have hle : 2 ^ t ≤ 2 ^ (t + u) := Nat.pow_le_pow_right (by decide) (Nat.le_add_right t u)
  have hsucc : 2 ^ t * x + 2 ^ t = 2 ^ (t + u + 1) * q + 2 ^ (t + u) := by
    rw [← Nat.mul_succ, hx, ← Nat.mul_assoc, ← Nat.pow_add, Nat.mul_add, Nat.mul_one,
      ← Nat.mul_assoc, Nat.pow_succ]
  omega

end BitIndices

/-! ## Perfect subtrees -/

section Subtrees

variable {α : Type} (node : α → α → α)

/-- The root of the perfect subtree over the `2 ^ level` leaves from `start`. -/
def subtreeRoot (leaves : Nat → α) : Nat → Nat → α
  | 0, start => leaves start
  | level + 1, start =>
    node (subtreeRoot leaves level start) (subtreeRoot leaves level (start + 2 ^ level))

@[simp] theorem subtreeRoot_zero (leaves : Nat → α) (start : Nat) :
    subtreeRoot node leaves 0 start = leaves start := rfl

theorem subtreeRoot_succ (leaves : Nat → α) (level start : Nat) :
    subtreeRoot node leaves (level + 1) start =
      node (subtreeRoot node leaves level start) (subtreeRoot node leaves level (start + 2 ^ level)) :=
  rfl

theorem subtreeRoot_congr {leaves leaves' : Nat → α} {level start : Nat}
    (h : ∀ i, start ≤ i → i < start + 2 ^ level → leaves i = leaves' i) :
    subtreeRoot node leaves level start = subtreeRoot node leaves' level start := by
  induction level generalizing start with
  | zero => exact h start le_rfl (by simp)
  | succ level ih =>
    rw [subtreeRoot_succ, subtreeRoot_succ]
    have hpow : 2 ^ (level + 1) = 2 ^ level + 2 ^ level := by rw [Nat.pow_succ]; omega
    rw [ih fun i hlo hhi ↦ h i hlo (by omega), ih fun i hlo hhi ↦ h i (by omega) (by omega)]

/-- Consecutive perfect subtrees from `start`, of the given levels in order. -/
def rangesOf : Nat → List Nat → List (Nat × Nat)
  | _, [] => []
  | start, level :: levels => (start, level) :: rangesOf (start + 2 ^ level) levels

@[simp] theorem rangesOf_nil (start : Nat) : rangesOf start [] = [] := rfl

@[simp] theorem rangesOf_cons (start level : Nat) (levels : List Nat) :
    rangesOf start (level :: levels) = (start, level) :: rangesOf (start + 2 ^ level) levels := rfl

theorem rangesOf_append (start : Nat) (levels levels' : List Nat) :
    rangesOf start (levels ++ levels') =
      rangesOf start levels ++ rangesOf (start + (levels.map (2 ^ ·)).sum) levels' := by
  induction levels generalizing start with
  | nil => simp
  | cons level levels ih =>
    rw [List.cons_append, rangesOf_cons, rangesOf_cons, ih, List.map_cons, List.sum_cons,
      Nat.add_assoc, List.cons_append]

theorem map_snd_rangesOf (start : Nat) (levels : List Nat) :
    (rangesOf start levels).map Prod.snd = levels := by
  induction levels generalizing start with
  | nil => rfl
  | cons level levels ih => rw [rangesOf_cons, List.map_cons, ih]

theorem length_rangesOf (start : Nat) (levels : List Nat) :
    (rangesOf start levels).length = levels.length := by
  rw [← List.length_map, map_snd_rangesOf]

/-- `ranges` are perfect subtrees laid end to end, the first from `start`, the last up to
`stop`. -/
def Tiles : Nat → List (Nat × Nat) → Nat → Prop
  | start, [], stop => start = stop
  | start, range :: ranges, stop => range.1 = start ∧ Tiles (start + 2 ^ range.2) ranges stop

@[simp] theorem tiles_nil {start stop : Nat} : Tiles start [] stop ↔ start = stop := Iff.rfl

@[simp] theorem tiles_cons {start stop : Nat} {range : Nat × Nat} {ranges : List (Nat × Nat)} :
    Tiles start (range :: ranges) stop ↔
      range.1 = start ∧ Tiles (start + 2 ^ range.2) ranges stop := Iff.rfl

theorem tiles_rangesOf (start : Nat) (levels : List Nat) :
    Tiles start (rangesOf start levels) (start + (levels.map (2 ^ ·)).sum) := by
  induction levels generalizing start with
  | nil => simp
  | cons level levels ih =>
    rw [rangesOf_cons, tiles_cons, List.map_cons, List.sum_cons, ← Nat.add_assoc]
    exact ⟨rfl, ih (start + 2 ^ level)⟩

theorem Tiles.le {start stop : Nat} {ranges : List (Nat × Nat)}
    (htiles : Tiles start ranges stop) : start ≤ stop := by
  induction ranges generalizing start with
  | nil => exact Nat.le_of_eq htiles
  | cons range ranges ih =>
    have := ih htiles.2
    have := Nat.two_pow_pos range.2
    omega

/-- Each subtree of a tiling lies between its ends. -/
theorem Tiles.mem_bounds {start stop : Nat} {ranges : List (Nat × Nat)}
    (htiles : Tiles start ranges stop) {range : Nat × Nat} (hmem : range ∈ ranges) :
    start ≤ range.1 ∧ range.1 + 2 ^ range.2 ≤ stop := by
  induction ranges generalizing start with
  | nil => cases hmem
  | cons first ranges ih =>
    obtain ⟨hstart, hrest⟩ := htiles
    rcases List.mem_cons.mp hmem with rfl | hmem
    · have := hrest.le
      omega
    · have := ih hrest hmem
      have := Nat.two_pow_pos first.2
      omega

/-- The subtrees of a tiling come left to right, each ending before the next begins. -/
theorem Tiles.pairwise_before {start stop : Nat} {ranges : List (Nat × Nat)}
    (htiles : Tiles start ranges stop) :
    ranges.Pairwise fun range range' ↦ range.1 + 2 ^ range.2 ≤ range'.1 := by
  induction ranges generalizing start with
  | nil => exact .nil
  | cons first ranges ih =>
    obtain ⟨hstart, hrest⟩ := htiles
    refine .cons (fun range hmem ↦ ?_) (ih hrest)
    have := (hrest.mem_bounds hmem).1
    omega

/-- Subtrees of decreasing levels from a start aligned to all of them are each aligned. -/
theorem aligned_rangesOf (start : Nat) (levels : List Nat)
    (hsorted : levels.Pairwise (· > ·)) (haligned : ∀ level ∈ levels, 2 ^ level ∣ start) :
    ∀ range ∈ rangesOf start levels, 2 ^ range.2 ∣ range.1 := by
  induction levels generalizing start with
  | nil => simp
  | cons level levels ih =>
    rw [List.pairwise_cons] at hsorted
    intro range hmem
    rw [rangesOf_cons, List.mem_cons] at hmem
    rcases hmem with rfl | hmem
    · exact haligned level List.mem_cons_self
    · refine ih (start + 2 ^ level) hsorted.2 (fun level' hmem' ↦ ?_) range hmem
      exact Nat.dvd_add (haligned level' (List.mem_cons_of_mem level hmem'))
        (Nat.pow_dvd_pow 2 (Nat.le_of_lt (hsorted.1 level' hmem')))

/-- The subtrees of the set bits of `r`, below `2 ^ j`, laid from a multiple of `2 ^ j`, are
each aligned. -/
theorem aligned_rangesOf_of_lt {start r j : Nat} (hlt : r < 2 ^ j) (hdvd : 2 ^ j ∣ start) :
    ∀ range ∈ rangesOf start r.bitIndices.reverse, 2 ^ range.2 ∣ range.1 := by
  refine aligned_rangesOf start _ ?_ fun level hmem ↦ ?_
  · rw [List.pairwise_reverse]
    exact List.sortedLT_iff_pairwise.mp Nat.bitIndices_sorted
  · have hle := Nat.two_pow_le_of_mem_bitIndices (List.mem_reverse.mp hmem)
    have hlevel : level < j :=
      (Nat.pow_lt_pow_iff_right (by decide)).mp (Nat.lt_of_le_of_lt hle hlt)
    exact Nat.dvd_trans (Nat.pow_dvd_pow 2 (Nat.le_of_lt hlevel)) hdvd

/-- The frozen subtrees of `n` leaves: one for each set bit of `n`, the largest first. -/
def frontier (n : Nat) : List (Nat × Nat) := rangesOf 0 n.bitIndices.reverse

theorem length_frontier (n : Nat) : (frontier n).length = n.bitIndices.length := by
  rw [frontier, length_rangesOf, List.length_reverse]

/-- The frozen subtrees cover the leaves from `0` to `n`. -/
theorem tiles_frontier (n : Nat) : Tiles 0 (frontier n) n := by
  have := tiles_rangesOf 0 n.bitIndices.reverse
  rwa [Nat.zero_add, sum_map_two_pow_reverse_bitIndices] at this

theorem frontier_pairwise_level (n : Nat) : (frontier n).Pairwise fun range range' ↦ range'.2 < range.2 := by
  have hsorted : n.bitIndices.reverse.Pairwise (· > ·) := by
    rw [List.pairwise_reverse]
    exact List.sortedLT_iff_pairwise.mp Nat.bitIndices_sorted
  rw [← map_snd_rangesOf 0 n.bitIndices.reverse, List.pairwise_map] at hsorted
  exact hsorted

theorem aligned_frontier (n : Nat) : ∀ range ∈ frontier n, 2 ^ range.2 ∣ range.1 := by
  refine aligned_rangesOf 0 _ ?_ (fun level _ ↦ Nat.dvd_zero _)
  rw [List.pairwise_reverse]
  exact List.sortedLT_iff_pairwise.mp Nat.bitIndices_sorted

/-- Leaves added in a batch smaller than the smallest subtree keep the subtrees and add their
own after them. -/
theorem frontier_add {c r k : Nat} (hc : 2 ^ k ∣ c) (hr : r < 2 ^ k) :
    frontier (c + r) = frontier c ++ rangesOf c r.bitIndices.reverse := by
  obtain ⟨q, rfl⟩ := hc
  rw [frontier, Nat.add_comm, bitIndices_add_two_pow_mul hr, ← Nat.bitIndices_two_pow_mul,
    List.reverse_append, rangesOf_append, Nat.zero_add, sum_map_two_pow_reverse_bitIndices,
    frontier]

/-- The roots of the frozen subtrees of `n` leaves. -/
def frontierRoots (leaves : Nat → α) (n : Nat) : List α :=
  (frontier n).map fun range ↦ subtreeRoot node leaves range.2 range.1

theorem frontierRoots_congr {leaves leaves' : Nat → α} {n : Nat}
    (h : ∀ i < n, leaves i = leaves' i) :
    frontierRoots node leaves n = frontierRoots node leaves' n := by
  refine List.map_congr_left fun range hmem ↦ subtreeRoot_congr node fun i hlo hhi ↦ h i ?_
  have := ((tiles_frontier n).mem_bounds hmem).2
  omega

theorem length_frontierRoots (leaves : Nat → α) (n : Nat) :
    (frontierRoots node leaves n).length = n.bitIndices.length := by
  rw [frontierRoots, List.length_map, length_frontier]

end Subtrees

/-! ## Merging the last two roots -/

section Merge

variable {α : Type} (node : α → α → α)

/-- Pops the last two roots and pushes the root above them; `none` with fewer than two. -/
def mergeLast (roots : List α) : Option (List α) := do
  let right ← roots.getLast?
  let roots := roots.dropLast
  let left ← roots.getLast?
  pure (roots.dropLast ++ [node left right])

@[simp] theorem mergeLast_append_pair (roots : List α) (left right : α) :
    mergeLast node (roots ++ [left, right]) = some (roots ++ [node left right]) := by
  have hdrop : (roots ++ [left, right]).dropLast = roots ++ [left] := by
    rw [show [left, right] = [left] ++ [right] from rfl, ← List.append_assoc,
      List.dropLast_concat]
  simp [mergeLast, hdrop]

theorem mergeLast_concat (roots : List α) (right : α) :
    mergeLast node (roots ++ [right]) =
      roots.getLast?.map fun left ↦ roots.dropLast ++ [node left right] := by
  cases hlast : roots.getLast? <;> simp [mergeLast, hlast]

/-- `u` merges in a row. -/
def mergeIter : Nat → List α → Option (List α)
  | 0, roots => some roots
  | u + 1, roots => (mergeIter u roots).bind (mergeLast node)

theorem mergeIter_succ' (u : Nat) (roots : List α) :
    mergeIter node (u + 1) roots = (mergeLast node roots).bind (mergeIter node u) := by
  induction u generalizing roots with
  | zero =>
    rw [mergeIter, mergeIter, Option.bind_some]
    cases mergeLast node roots <;> rfl
  | succ u ih =>
    rw [mergeIter, ih, Option.bind_assoc]
    rfl

/-- The subtrees of `u` consecutive levels from `t + u - 1` down to `t`, and one more of level
`t` after them, merge into the subtree of level `t + u`: the carry of adding `2 ^ t`. -/
theorem mergeIter_rangesOf (leaves : Nat → α) (t u : Nat) (start : Nat) (roots : List α) :
    mergeIter node u (roots ++
        (rangesOf start ((List.range u).reverse.map (· + t))).map
          (fun range ↦ subtreeRoot node leaves range.2 range.1) ++
        [subtreeRoot node leaves t (start + 2 ^ (t + u) - 2 ^ t)]) =
      some (roots ++ [subtreeRoot node leaves (t + u) start]) := by
  induction u generalizing start roots with
  | zero => simp [mergeIter]
  | succ u ih =>
    have hpow : 2 ^ (t + (u + 1)) = 2 ^ (t + u) + 2 ^ (t + u) := by
      rw [← Nat.add_assoc, Nat.pow_succ]
      omega
    have hle : 2 ^ t ≤ 2 ^ (t + u) := Nat.pow_le_pow_right (by decide) (Nat.le_add_right t u)
    have hstart : start + 2 ^ (t + (u + 1)) - 2 ^ t =
        start + 2 ^ (t + u) + 2 ^ (t + u) - 2 ^ t := by
      omega
    have hlevels : (List.range (u + 1)).reverse.map (· + t) =
        (t + u) :: (List.range u).reverse.map (· + t) := by
      rw [List.range_succ, List.reverse_append, List.reverse_singleton, List.singleton_append,
        List.map_cons, Nat.add_comm u t]
    rw [hlevels, rangesOf_cons, List.map_cons, hstart, List.append_cons roots, mergeIter, ih,
      Option.bind_some, List.append_assoc, List.singleton_append, mergeLast_append_pair,
      ← subtreeRoot_succ node leaves (t + u) start]
    rfl

/-- In the form of `mergeIter_frontierRoots` the bits `t, …, t + u - 1` are set and bit `t + u`
is clear. -/
theorem testBit_carry_form (q t u : Nat) {i : Nat} (hi : i ≤ u) :
    (2 ^ (t + u + 1) * q + (2 ^ (t + u) - 2 ^ t)).testBit (t + i) = decide (i < u) := by
  have hlt : 2 ^ (t + u) < 2 ^ (t + u + 1) := Nat.pow_lt_pow_right (by decide) (by omega)
  have hrunlt : 2 ^ (t + u) - 2 ^ t < 2 ^ (t + u + 1) := Nat.lt_of_le_of_lt (Nat.sub_le _ _) hlt
  have hrun : 2 ^ (t + u) - 2 ^ t = 2 ^ t * (2 ^ u - 1) := by
    rw [Nat.mul_sub, Nat.mul_one, ← Nat.pow_add]
  rw [Nat.testBit_two_pow_mul_add _ hrunlt, if_pos (by omega), hrun, Nat.testBit_two_pow_mul,
    Nat.add_sub_cancel_left, Nat.testBit_two_pow_sub_one, decide_eq_true (Nat.le_add_right t i),
    Bool.true_and]

/-- The carry of a binary counter on the roots: after `c` leaves whose bits `t, …, t + u - 1` are
set, bit `t + u` clear and the bits below `t` clear, a subtree of `2 ^ t` leaves from `c` merges
`u` times and leaves the roots of `c + 2 ^ t` leaves. -/
theorem mergeIter_frontierRoots (leaves : Nat → α) (q t u : Nat) :
    mergeIter node u (frontierRoots node leaves (2 ^ (t + u + 1) * q + (2 ^ (t + u) - 2 ^ t)) ++
        [subtreeRoot node leaves t (2 ^ (t + u + 1) * q + (2 ^ (t + u) - 2 ^ t))]) =
      some (frontierRoots node leaves (2 ^ (t + u + 1) * q + 2 ^ (t + u))) := by
  have hle : 2 ^ t ≤ 2 ^ (t + u) := Nat.pow_le_pow_right (by decide) (Nat.le_add_right t u)
  have hlt : 2 ^ (t + u) < 2 ^ (t + u + 1) := Nat.pow_lt_pow_right (by decide) (by omega)
  have hdvd : 2 ^ (t + u + 1) ∣ 2 ^ (t + u + 1) * q := Dvd.intro q rfl
  have hrun : (2 ^ (t + u) - 2 ^ t).bitIndices.reverse = (List.range u).reverse.map (· + t) := by
    have h : 2 ^ (t + u) - 2 ^ t = 0 + 2 ^ t * (2 ^ u - 1) := by
      rw [Nat.zero_add, Nat.mul_sub, Nat.mul_one, ← Nat.pow_add]
    rw [h, bitIndices_add_two_pow_mul (Nat.two_pow_pos t), bitIndices_two_pow_sub_one,
      Nat.bitIndices_zero, List.nil_append, List.map_reverse]
  have hrunlt : 2 ^ (t + u) - 2 ^ t < 2 ^ (t + u + 1) := Nat.lt_of_le_of_lt (Nat.sub_le _ _) hlt
  rw [frontierRoots, frontierRoots, frontier_add hdvd hrunlt, frontier_add hdvd hlt,
    Nat.bitIndices_two_pow, hrun, List.map_append, List.map_append]
  have hstart : 2 ^ (t + u + 1) * q + (2 ^ (t + u) - 2 ^ t) =
      2 ^ (t + u + 1) * q + 2 ^ (t + u) - 2 ^ t := by omega
  rw [hstart, mergeIter_rangesOf]
  rfl

end Merge

/-! ## Carry on the subtrees -/

section Carry

/-- Pushes a subtree on a stack of subtrees, top first, merging it with the top while the two have
the same size: the carry of a binary counter. -/
def carryMerge : List (Nat × Nat) → Nat × Nat → List (Nat × Nat)
  | [], range => [range]
  | top :: stack, range =>
    if top.2 = range.2 then carryMerge stack (top.1, top.2 + 1) else range :: top :: stack

/-- A nonzero count is its frozen subtrees but the last, and the last of the size of its lowest
bit. -/
theorem frontier_two_pow_mul_odd (t m : Nat) :
    frontier (2 ^ t * (2 * m + 1)) = frontier (2 ^ (t + 1) * m) ++ [(2 ^ (t + 1) * m, t)] := by
  have hsplit : 2 ^ t * (2 * m + 1) = 2 ^ (t + 1) * m + 2 ^ t := by
    rw [Nat.mul_add, Nat.mul_one, Nat.pow_succ, Nat.mul_assoc]
  have hlt : 2 ^ t < 2 ^ (t + 1) := Nat.pow_lt_pow_right (by decide) (Nat.lt_succ_self t)
  rw [hsplit, frontier_add (Dvd.intro m rfl) hlt, Nat.bitIndices_two_pow]
  rfl

/-- Pushing the subtree of `2 ^ k` leaves after `c` on the stack of `c` gives the stack of
`c + 2 ^ k`, when `c` is a multiple of `2 ^ k`. -/
theorem carryMerge_frontier {c k : Nat} (hk : 2 ^ k ∣ c) :
    carryMerge (frontier c).reverse (c, k) = (frontier (c + 2 ^ k)).reverse := by
  induction c using Nat.strong_induction_on generalizing k with
  | _ c ih =>
    rcases Nat.eq_zero_or_pos c with rfl | hpos
    · have hzero : frontier 0 = [] := rfl
      rw [hzero, Nat.zero_add, frontier, Nat.bitIndices_two_pow]
      rfl
    · obtain ⟨t, m, rfl⟩ := Rust.U64.exists_eq_two_pow_mul_odd (Nat.pos_iff_ne_zero.mp hpos)
      have hsplit : 2 ^ t * (2 * m + 1) = 2 ^ (t + 1) * m + 2 ^ t := by
        rw [Nat.mul_add, Nat.mul_one, Nat.pow_succ, Nat.mul_assoc]
      have hkt : k ≤ t := Rust.U64.le_of_two_pow_dvd_two_pow_mul_odd hk
      rw [frontier_two_pow_mul_odd, List.reverse_append, List.reverse_singleton,
        List.singleton_append, carryMerge]
      by_cases hkt' : t = k
      · subst hkt'
        have hlt : 2 ^ (t + 1) * m < 2 ^ t * (2 * m + 1) := by
          have := Nat.two_pow_pos t
          omega
        have htwo : 2 ^ (t + 1) = 2 ^ t + 2 ^ t := by rw [Nat.pow_succ]; omega
        have hsum : 2 ^ (t + 1) * m + 2 ^ (t + 1) = 2 ^ t * (2 * m + 1) + 2 ^ t := by
          rw [hsplit]
          omega
        rw [if_pos rfl, ih _ hlt (Dvd.intro m rfl), hsum]
      · have hdvd : 2 ^ (k + 1) ∣ 2 ^ t * (2 * m + 1) :=
          Nat.dvd_trans (Nat.pow_dvd_pow 2 (by omega)) (Dvd.intro _ rfl)
        have hlt : 2 ^ k < 2 ^ (k + 1) := Nat.pow_lt_pow_right (by decide) (Nat.lt_succ_self k)
        rw [if_neg hkt', frontier_add hdvd hlt, Nat.bitIndices_two_pow, frontier_two_pow_mul_odd]
        simp

/-- Carry-merging the subtrees of a tiling from `c` to `n`, each aligned to its size, onto the
stack of `c` gives the stack of `n`. -/
theorem foldl_carryMerge_frontier {c n : Nat} {ranges : List (Nat × Nat)}
    (htiles : Tiles c ranges n) (haligned : ∀ range ∈ ranges, 2 ^ range.2 ∣ range.1) :
    ranges.foldl carryMerge (frontier c).reverse = (frontier n).reverse := by
  induction ranges generalizing c with
  | nil => rw [tiles_nil.mp htiles, List.foldl_nil]
  | cons range ranges ih =>
    obtain ⟨hstart, hrest⟩ := htiles
    have hk : 2 ^ range.2 ∣ c := hstart ▸ haligned range List.mem_cons_self
    rw [List.foldl_cons, show range = (c, range.2) from Prod.ext hstart rfl,
      carryMerge_frontier hk]
    exact ih hrest fun range' hmem ↦ haligned range' (List.mem_cons_of_mem range hmem)

end Carry

end AptosCore.Merkle
