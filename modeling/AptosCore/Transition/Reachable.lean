import Mathlib

/-!
# Runs of a transition function

A system given by a step function on its states, driven by inputs from an environment that may
only feed the admissible ones. `Reachable` holds of the states that a run of admissible inputs
leads to from the initial state. A property holds of every reachable state when it holds
initially and every admissible step preserves it (`Reachable.invariant`), and a concrete run of
admissible inputs ends in a reachable state (`Reachable.foldl`).
-/

namespace AptosCore.Transition

variable {σ α : Type} (step : σ → α → σ) (admissible : α → Prop) (init : σ)

/-- The states a run of admissible inputs leads to from `init`. -/
inductive Reachable : σ → Prop
  | init : Reachable init
  | step {state : σ} {input : α} : Reachable state → admissible input →
      Reachable (step state input)

variable {step admissible init}

/-- The invariant rule: a property of the initial state that every admissible step from a
reachable state preserves holds in every reachable state. -/
theorem Reachable.invariant {P : σ → Prop} (hinit : P init)
    (hstep : ∀ state input, Reachable step admissible init state → admissible input → P state →
      P (step state input))
    {state : σ} (hreach : Reachable step admissible init state) : P state := by
  induction hreach with
  | init => exact hinit
  | step hreach hadmissible ih => exact hstep _ _ hreach hadmissible ih

/-- A run of admissible inputs from a reachable state ends in a reachable state. -/
theorem Reachable.foldl {state : σ} (hreach : Reachable step admissible init state)
    (inputs : List α) (hadmissible : ∀ input ∈ inputs, admissible input) :
    Reachable step admissible init (inputs.foldl step state) := by
  induction inputs generalizing state with
  | nil => exact hreach
  | cons input rest ih =>
    exact ih (hreach.step (hadmissible input List.mem_cons_self))
      fun other hother ↦ hadmissible other (List.mem_cons_of_mem _ hother)

end AptosCore.Transition
