import Mathlib
import AptosCore.Transition.Simulation

/-!
# Runs along a measure

Two ways a run of a step function `σ → α → σ × β` inherits what each of its steps does to one
component of the state.

A step that moves a component `view state` only along a relation `r` (or leaves it) moves it
along the reflexive-transitive closure of `r` over a whole run (`run_reflTransGen`): the history
of the component is a path of `r`.

A step that never lowers a measure `μ` into a preorder lets an event happen at most once in a
run when every occurrence of the event takes the measure from at most `v` to beyond `v`
(`eventCount_le_one`): once past `v`, the measure never comes back. This is how a version
number that only grows guarantees that an operation on one version succeeds once.

A function that takes several steps one after the other ends where a run ends (`Reaches`), so
whatever every step keeps holds after it (`Reaches.invariant`), and what every step moves along
a relation has moved along its paths (`Reaches.reflTransGen`).
-/

namespace AptosCore.Transition

variable {σ α β : Type}

/-- The history of a component of the state over a run is a path of `r` when each step moves the
component along a path of `r`. -/
theorem run_reflTransGen {γ : Type} {step : σ → α → σ × β} (view : σ → γ) {r : γ → γ → Prop}
    (hstep : ∀ state input, Relation.ReflTransGen r (view state) (view (step state input).1))
    (state : σ) (inputs : List α) :
    Relation.ReflTransGen r (view state) (view (run step state inputs).1) := by
  induction inputs generalizing state with
  | nil => exact Relation.ReflTransGen.refl
  | cons input inputs ih => exact (hstep state input).trans (ih (step state input).1)

section Crossing

variable {ι : Type} [Preorder ι] {step : σ → α → σ × β} (μ : σ → ι) (v : ι)
  (event : α → β → Prop) [∀ input output, Decidable (event input output)]

/-- The positions of a run at which the event happens. -/
def eventCount (step : σ → α → σ × β) (state : σ) (inputs : List α) : Nat :=
  (inputs.zip (run step state inputs).2).countP fun p ↦ decide (event p.1 p.2)

@[simp]
theorem eventCount_nil (state : σ) : eventCount event step state [] = 0 := rfl

theorem eventCount_cons (state : σ) (input : α) (inputs : List α) :
    eventCount event step state (input :: inputs) =
      eventCount event step (step state input).1 inputs +
        if event input (step state input).2 then 1 else 0 := by
  simp only [eventCount, run_cons, List.zip_cons_cons, List.countP_cons, decide_eq_true_eq]

variable {μ v event}

/-- Once the measure is past `v`, an event that crosses `v` never happens again. -/
theorem eventCount_eq_zero_of_not_le (hmono : ∀ state input, μ state ≤ μ (step state input).1)
    (hcross : ∀ state input, event input (step state input).2 → μ state ≤ v)
    {state : σ} (hpast : ¬μ state ≤ v) (inputs : List α) :
    eventCount event step state inputs = 0 := by
  induction inputs generalizing state with
  | nil => rfl
  | cons input inputs ih =>
    have hnext : ¬μ (step state input).1 ≤ v := fun hle ↦ hpast ((hmono state input).trans hle)
    have hnot : ¬event input (step state input).2 := fun hevent ↦ hpast (hcross _ _ hevent)
    rw [eventCount_cons, ih hnext, if_neg hnot]

/-- An event that takes a never decreasing measure across `v` happens at most once in a run. -/
theorem eventCount_le_one (hmono : ∀ state input, μ state ≤ μ (step state input).1)
    (hcross : ∀ state input, event input (step state input).2 →
      μ state ≤ v ∧ ¬μ (step state input).1 ≤ v)
    (state : σ) (inputs : List α) : eventCount event step state inputs ≤ 1 := by
  induction inputs generalizing state with
  | nil => exact Nat.zero_le 1
  | cons input inputs ih =>
    rw [eventCount_cons]
    by_cases hevent : event input (step state input).2
    · rw [if_pos hevent, eventCount_eq_zero_of_not_le hmono (fun s i h ↦ (hcross s i h).1)
        (hcross state input hevent).2]
    · rw [if_neg hevent]
      exact ih _

end Crossing

/-! ## Where runs end -/

/-- A run fed `inputs ++ more` is the run fed `more` from where the run fed `inputs` ends. -/
theorem run_append (step : σ → α → σ × β) (state : σ) (inputs more : List α) :
    (run step state (inputs ++ more)).1 = (run step (run step state inputs).1 more).1 := by
  induction inputs generalizing state with
  | nil => rfl
  | cons input inputs ih => exact ih (step state input).1

/-- `state'` is where some run from `state` ends. -/
def Reaches (step : σ → α → σ × β) (state state' : σ) : Prop :=
  ∃ inputs, (run step state inputs).1 = state'

namespace Reaches

variable {step : σ → α → σ × β} {state state' state'' : σ}

theorem refl (state : σ) : Reaches step state state := ⟨[], rfl⟩

theorem single (input : α) (h : (step state input).1 = state') : Reaches step state state' :=
  ⟨[input], h⟩

theorem trans (h : Reaches step state state') (h' : Reaches step state' state'') :
    Reaches step state state'' := by
  obtain ⟨inputs, rfl⟩ := h
  obtain ⟨more, rfl⟩ := h'
  exact ⟨inputs ++ more, run_append step state inputs more⟩

/-- What every step keeps holds wherever a run ends. -/
theorem invariant {P : σ → Prop} (hstep : ∀ state input, P state → P (step state input).1)
    (h : Reaches step state state') (hstate : P state) : P state' := by
  obtain ⟨inputs, rfl⟩ := h
  exact run_invariant hstep hstate inputs

/-- Where a run ends, a component of the state has moved along a path of `r` when each step
moves it along one. -/
theorem reflTransGen {γ : Type} (view : σ → γ) {r : γ → γ → Prop}
    (hstep : ∀ state input, Relation.ReflTransGen r (view state) (view (step state input).1))
    (h : Reaches step state state') : Relation.ReflTransGen r (view state) (view state') := by
  obtain ⟨inputs, rfl⟩ := h
  exact run_reflTransGen view hstep state inputs

end Reaches

end AptosCore.Transition
