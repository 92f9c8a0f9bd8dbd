import Mathlib

/-!
# Collecting an iterator

An `Iterator` is a state and a `next` step that yields an item and the next state, ends, or
panics: `next` returns `some (some (item, state))`, `some none` or `none`. What
`iter.collect::<Vec<_>>()` returns is the list of items up to the end, `collect` here, run with
enough `fuel` calls of `next`; more fuel changes nothing once the end is reached
(`collect_add`).
-/

namespace AptosCore.Rust

variable {σ α : Type} (next : σ → Option (Option (α × σ)))

/-- The items yielded from `state` within `fuel` calls of `next`; `none` on a panic or when the
fuel runs out first. -/
def collect : Nat → σ → Option (List α)
  | 0, _ => none
  | fuel + 1, state =>
    match next state with
    | none => none
    | some none => some []
    | some (some (item, state)) => (item :: ·) <$> collect fuel state

theorem collect_succ_of_end {state : σ} (hend : next state = some none) (fuel : Nat) :
    collect next (fuel + 1) state = some [] := by
  rw [collect, hend]

theorem collect_succ_of_yield {state state' : σ} {item : α}
    (hyield : next state = some (some (item, state'))) (fuel : Nat) :
    collect next (fuel + 1) state = (item :: ·) <$> collect next fuel state' := by
  rw [collect, hyield]

theorem collect_add {fuel : Nat} {state : σ} {items : List α}
    (hitems : collect next fuel state = some items) (extra : Nat) :
    collect next (fuel + extra) state = some items := by
  induction fuel generalizing state items with
  | zero => cases hitems
  | succ fuel ih =>
    rw [show fuel + 1 + extra = (fuel + extra) + 1 by omega, collect]
    rw [collect] at hitems
    split at hitems
    · cases hitems
    · exact hitems
    · next item state' hyield =>
      cases hrest : collect next fuel state' with
      | none => rw [hrest] at hitems; cases hitems
      | some rest =>
        rw [hrest] at hitems
        rw [ih hrest]
        exact hitems

/-- A run that ends starts with the item of its first step. -/
theorem collect_eq_some_of_yield {state state' : σ} {item : α}
    (hyield : next state = some (some (item, state'))) {fuel : Nat} {items : List α}
    (hitems : collect next fuel state = some items) :
    ∃ fuel' items', fuel = fuel' + 1 ∧ items = item :: items' ∧
      collect next fuel' state' = some items' := by
  cases fuel with
  | zero => cases hitems
  | succ fuel =>
    rw [collect_succ_of_yield next hyield] at hitems
    obtain ⟨items', hrest, rfl⟩ := Option.map_eq_some_iff.mp hitems
    exact ⟨fuel, items', rfl, rfl, hrest⟩

/-- The items of a run that ends do not depend on the fuel. -/
theorem collect_unique {fuel fuel' : Nat} {state : σ} {items items' : List α}
    (hitems : collect next fuel state = some items)
    (hitems' : collect next fuel' state = some items') : items = items' := by
  have hmore := collect_add next hitems fuel'
  rw [Nat.add_comm, collect_add next hitems' fuel] at hmore
  exact (Option.some.inj hmore).symm

end AptosCore.Rust
