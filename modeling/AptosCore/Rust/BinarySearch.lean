import Mathlib

/-!
# `<[T]>::binary_search_by`

The search of the Rust 1.78 standard library over a slice `v` with a comparator `f`. It keeps a
window `[left, right)` such that `f` returns `Less` on every element left of it and `Greater` on
every element from `right` on, and halves the window around its middle element `left + size / 2`
until the window is empty (`Err(left)`) or `f` returns `Equal` there (`Ok(mid)`). `Ok` and `Err`
are `Except.ok` and `Except.error`.

When `f` returns `Less` on a prefix of the slice and `Greater` on the rest, as a comparator that
never returns `Equal` does on a slice sorted for it, the search returns `Err` of the length of
that prefix (`binarySearchBy_eq_error`), whichever middle elements it reads on the way.
-/

namespace AptosCore.Rust

variable {α : Type}

/-- The loop of `binary_search_by` on the window `[left, right)`; `right ≤ v.len()` is the
invariant that makes the unchecked read of the middle element in bounds. -/
def binarySearchLoop (v : List α) (f : α → Ordering) (left right : Nat)
    (hright : right ≤ v.length) : Except Nat Nat :=
  if hlt : left < right then
    let mid := left + (right - left) / 2
    have hmid : mid < v.length := by omega
    match f v[mid] with
    | .lt => binarySearchLoop v f (mid + 1) right hright
    | .gt => binarySearchLoop v f left mid (by omega)
    | .eq => .ok mid
  else .error left
termination_by right - left

def binarySearchBy (v : List α) (f : α → Ordering) : Except Nat Nat :=
  binarySearchLoop v f 0 v.length (Nat.le_refl _)

section Partition

variable {v : List α} {f : α → Ordering} {p : Nat}

/-- The loop invariant: `f` returns `Less` below the partition point `p` and `Greater` from it on,
and `p` lies in the window, so the window closes on `p`. -/
theorem binarySearchLoop_eq_error
    (hless : ∀ i (hi : i < v.length), i < p → f v[i] = .lt)
    (hgreater : ∀ i (hi : i < v.length), p ≤ i → f v[i] = .gt)
    {left right : Nat} (hright : right ≤ v.length) (hleft : left ≤ p) (hp : p ≤ right) :
    binarySearchLoop v f left right hright = .error p := by
  induction left, right, hright using binarySearchLoop.induct v f with
  | case1 left right hright hlt mid hmid hcmp ih =>
    have hbelow : mid < p := by
      by_contra hge
      rw [hgreater mid hmid (Nat.le_of_not_lt hge)] at hcmp
      cases hcmp
    rw [binarySearchLoop, dif_pos hlt]
    dsimp only
    split
    next => exact ih (by omega) hp
    next hgt => exact absurd (hgt.symm.trans hcmp) (by decide)
    next heq => exact absurd (heq.symm.trans hcmp) (by decide)
  | case2 left right hright hlt mid hmid hcmp ih =>
    have habove : p ≤ mid := by
      by_contra hlt'
      rw [hless mid hmid (Nat.lt_of_not_le hlt')] at hcmp
      cases hcmp
    rw [binarySearchLoop, dif_pos hlt]
    dsimp only
    split
    next hlt' => exact absurd (hlt'.symm.trans hcmp) (by decide)
    next => exact ih hleft habove
    next heq => exact absurd (heq.symm.trans hcmp) (by decide)
  | case3 left right hright hlt mid hmid hcmp =>
    have hne : f v[mid] ≠ .eq := by
      by_cases hbelow : mid < p
      · rw [hless mid hmid hbelow]
        decide
      · rw [hgreater mid hmid (Nat.le_of_not_lt hbelow)]
        decide
    exact absurd hcmp hne
  | case4 left right hright hge =>
    rw [binarySearchLoop, dif_neg hge]
    congr 1
    omega

/-- On a slice that `f` splits into a `Less` prefix of length `p` and a `Greater` rest, the
search returns `Err(p)`. -/
theorem binarySearchBy_eq_error
    (hless : ∀ i (hi : i < v.length), i < p → f v[i] = .lt)
    (hgreater : ∀ i (hi : i < v.length), p ≤ i → f v[i] = .gt) (hp : p ≤ v.length) :
    binarySearchBy v f = .error p :=
  binarySearchLoop_eq_error hless hgreater (Nat.le_refl _) (Nat.zero_le p) hp

end Partition

end AptosCore.Rust
