import Mathlib

/-!
# `Result` and optional bounds

A Rust `Result` is an `Except`: the `?` operator is `Except.bind` in a `do` block and
`map_err` is `Except.mapError`. The lemmas here take such a computation apart one step at a
time, so that a function with several `?` is inverted by `obtain` and never unfolded twice.

An optional bound (`Option`, where `None` means no bound) is merged by `Option.merge min`;
the last lemma says that a condition closed upwards holds of the merged bound exactly when it
holds of both.
-/

namespace AptosCore.Rust

variable {ε ε' α β : Type}

@[simp] theorem bind_eq_ok_iff {x : Except ε α} {f : α → Except ε β} {b : β} :
    (x >>= f) = .ok b ↔ ∃ a, x = .ok a ∧ f a = .ok b := by
  cases x <;> simp [bind, Except.bind]

@[simp] theorem ok_bind (a : α) (f : α → Except ε β) : (Except.ok a >>= f) = f a := rfl

theorem error_bind (e : ε) (f : α → Except ε β) : (Except.error e >>= f) = .error e := rfl

/-- A check that returns nothing, followed by more work, succeeds exactly when both do. -/
theorem bind_unit_eq_ok_iff {x : Except ε Unit} {f : Unit → Except ε β} {b : β} :
    (x >>= f) = .ok b ↔ x = .ok () ∧ f () = .ok b := by
  rw [bind_eq_ok_iff]
  exact ⟨fun ⟨⟨⟩, hx, hf⟩ ↦ ⟨hx, hf⟩, fun ⟨hx, hf⟩ ↦ ⟨(), hx, hf⟩⟩

@[simp] theorem ite_throw_eq_ok_iff {c : Prop} [Decidable c] {e : ε} :
    ((if c then throw e else pure ()) : Except ε Unit) = .ok () ↔ ¬ c := by
  split_ifs with hc
  · exact iff_of_false (fun hok ↦ by cases hok) (not_not.mpr hc)
  · exact iff_of_true rfl hc

/-- A mapped computation succeeds exactly when the computation does. -/
theorem map_eq_ok_iff {x : Except ε α} {f : α → β} {b : β} :
    (f <$> x) = .ok b ↔ ∃ a, x = .ok a ∧ f a = b := by
  cases x <;> simp [Functor.map, Except.map]

@[simp] theorem throw_eq_error {e : ε} : (throw e : Except ε α) = .error e := rfl

@[simp] theorem pure_eq_ok_iff {a b : α} : (pure a : Except ε α) = .ok b ↔ a = b := by
  simp [pure, Except.pure]

/-- A traversal succeeds when each of its steps does. -/
theorem exists_mapM_eq_ok {f : α → Except ε β} {items : List α}
    (hitems : ∀ item ∈ items, ∃ result, f item = .ok result) :
    ∃ results, items.mapM f = .ok results := by
  induction items with
  | nil => exact ⟨[], rfl⟩
  | cons item items ih =>
    obtain ⟨result, hresult⟩ := hitems item List.mem_cons_self
    obtain ⟨results, hresults⟩ :=
      ih fun other hother ↦ hitems other (List.mem_cons_of_mem item hother)
    refine ⟨result :: results, ?_⟩
    rw [List.mapM_cons, hresult, ok_bind, hresults, ok_bind]
    rfl

@[simp] theorem mapError_eq_ok_iff {x : Except ε α} {g : ε → ε'} {a : α} :
    x.mapError g = .ok a ↔ x = .ok a := by
  cases x <;> simp [Except.mapError]

/-- A condition closed upwards holds of the smaller of two optional bounds exactly when it
holds of both. -/
theorem forall_mem_merge_min_iff [LinearOrder α] {P : α → Prop}
    (hP : ∀ x y, x ≤ y → P x → P y) (a b : Option α) :
    (∀ x ∈ Option.merge min a b, P x) ↔ (∀ x ∈ a, P x) ∧ (∀ x ∈ b, P x) := by
  cases a with
  | none => cases b <;> simp [Option.merge]
  | some x =>
    cases b with
    | none => simp [Option.merge]
    | some y =>
      simp only [Option.merge, Option.mem_def, Option.some.injEq, forall_eq']
      constructor
      · intro hmin
        exact ⟨hP _ _ (min_le_left x y) hmin, hP _ _ (min_le_right x y) hmin⟩
      · rintro ⟨hx, hy⟩
        rcases min_choice x y with hxy | hxy <;> rw [hxy] <;> assumption

theorem merge_min_eq_or [LinearOrder α] (a b : Option α) :
    Option.merge min a b = a ∨ Option.merge min a b = b := by
  cases a with
  | none => exact .inr (by cases b <;> rfl)
  | some x =>
    cases b with
    | none => exact .inl rfl
    | some y => rcases min_choice x y with hxy | hxy <;> simp [Option.merge, hxy]

end AptosCore.Rust
