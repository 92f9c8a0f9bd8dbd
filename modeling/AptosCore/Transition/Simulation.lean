import Mathlib

/-!
# Simulation of one step function by another

A system that answers each input with an output is a step function `σ → α → σ × β`; `run` feeds
it a list of inputs and collects the outputs. A map `abs` from its states to the states of a
specification `τ → α → τ × β` is a simulation from the states that satisfy `inv` when every step
from such a state keeps `inv` and, seen through `abs`, is the specification's step with the same
output (`Simulates`). Every run from such a state is then the specification's run from the image
of its start, with the same outputs (`Simulates.abs_run`), and an input of the run meets a
condition on the specification's states exactly when it does on the system's seen through `abs`
(`Simulates.eventually_iff`).

A simulation may hold only on the inputs that a condition on the specification's state allows
(`SimulatesOn`); a run then follows the specification as long as no input is fed where it is not
allowed (`SimulatesOn.abs_run`).

A system whose calls may abort, as a transaction does, is made a step function by `atomic`: an
aborted call leaves the state unchanged. Two such systems that abort together and otherwise agree
through `abs` simulate (`SimulatesOn.of_atomic`, `Simulates.of_atomic`).
-/

namespace AptosCore.Transition

variable {σ τ α β : Type}

/-- The last state and the outputs of `step` fed `inputs` one after the other. -/
def run (step : σ → α → σ × β) : σ → List α → σ × List β
  | state, [] => (state, [])
  | state, input :: inputs =>
    ((run step (step state input).1 inputs).1,
      (step state input).2 :: (run step (step state input).1 inputs).2)

@[simp]
theorem run_nil (step : σ → α → σ × β) (state : σ) : run step state [] = (state, []) := rfl

@[simp]
theorem run_cons (step : σ → α → σ × β) (state : σ) (input : α) (inputs : List α) :
    run step state (input :: inputs) =
      ((run step (step state input).1 inputs).1,
        (step state input).2 :: (run step (step state input).1 inputs).2) := rfl

/-- The invariant rule for runs: a property that every step keeps holds at the end of a run
that starts where it holds. -/
theorem run_invariant {step : σ → α → σ × β} {P : σ → Prop}
    (hstep : ∀ state input, P state → P (step state input).1) {state : σ} (hstate : P state)
    (inputs : List α) : P (run step state inputs).1 := by
  induction inputs generalizing state with
  | nil => exact hstate
  | cons input inputs ih => exact ih (hstep state input hstate)

/-- Some input of the run is fed in a state where it meets `P`. -/
def Eventually (step : σ → α → σ × β) (P : σ → α → Prop) : σ → List α → Prop
  | _, [] => False
  | state, input :: inputs => P state input ∨ Eventually step P (step state input).1 inputs

@[simp]
theorem eventually_nil (step : σ → α → σ × β) (P : σ → α → Prop) (state : σ) :
    ¬Eventually step P state [] := id

@[simp]
theorem eventually_cons (step : σ → α → σ × β) (P : σ → α → Prop) (state : σ) (input : α)
    (inputs : List α) :
    Eventually step P state (input :: inputs) ↔
      P state input ∨ Eventually step P (step state input).1 inputs := Iff.rfl

/-- No input of the run meets `P` when none of them meets it in any state. -/
theorem not_eventually_of_forall {step : σ → α → σ × β} {P : σ → α → Prop} {inputs : List α}
    (hP : ∀ state, ∀ input ∈ inputs, ¬P state input) (state : σ) :
    ¬Eventually step P state inputs := by
  induction inputs generalizing state with
  | nil => exact id
  | cons input inputs ih =>
    rw [eventually_cons, not_or]
    exact ⟨hP state input List.mem_cons_self,
      ih (fun state' input' hmem ↦ hP state' input' (List.mem_cons_of_mem _ hmem)) _⟩

/-- `abs` is a simulation of `step` by `spec` from the states that satisfy `inv`. -/
structure Simulates (inv : σ → Prop) (step : σ → α → σ × β) (spec : τ → α → τ × β)
    (abs : σ → τ) : Prop where
  inv_step : ∀ {state} input, inv state → inv (step state input).1
  abs_step : ∀ {state} input, inv state →
    Prod.map abs id (step state input) = spec (abs state) input

namespace Simulates

variable {inv : σ → Prop} {step : σ → α → σ × β} {spec : τ → α → τ × β} {abs : σ → τ}

theorem inv_run (h : Simulates inv step spec abs) {state : σ} (hinv : inv state)
    (inputs : List α) : inv (run step state inputs).1 :=
  run_invariant (fun _ input ↦ h.inv_step input) hinv inputs

/-- A run of the system is the specification's run from the image of its start. -/
theorem abs_run (h : Simulates inv step spec abs) {state : σ} (hinv : inv state)
    (inputs : List α) : Prod.map abs id (run step state inputs) = run spec (abs state) inputs := by
  induction inputs generalizing state with
  | nil => rfl
  | cons input inputs ih =>
    have hstep := h.abs_step input hinv
    have hrest := ih (h.inv_step input hinv)
    rw [Prod.ext_iff] at hstep hrest
    simp only [Prod.map_fst, Prod.map_snd, id] at hstep hrest
    rw [run_cons, run_cons, ← hstep.1, ← hstep.2, ← hrest.1, ← hrest.2]
    rfl

theorem eventually_iff (h : Simulates inv step spec abs) {state : σ} (hinv : inv state)
    (P : τ → α → Prop) (inputs : List α) :
    Eventually step (fun state input ↦ P (abs state) input) state inputs ↔
      Eventually spec P (abs state) inputs := by
  induction inputs generalizing state with
  | nil => exact Iff.rfl
  | cons input inputs ih =>
    have hstate : abs (step state input).1 = (spec (abs state) input).1 :=
      congrArg Prod.fst (h.abs_step input hinv)
    rw [eventually_cons, eventually_cons, ih (h.inv_step input hinv), hstate]

end Simulates

/-! ## Calls that may abort -/

/-- A system whose calls may abort: an aborted call answers `none` and leaves the state as it
was, as an aborted transaction does. -/
def atomic (apply : σ → α → Option (σ × β)) (state : σ) (input : α) : σ × Option β :=
  match apply state input with
  | some result => (result.1, some result.2)
  | none => (state, none)

theorem atomic_of_eq_some {apply : σ → α → Option (σ × β)} {state : σ} {input : α}
    {result : σ × β} (h : apply state input = some result) :
    atomic apply state input = (result.1, some result.2) := by
  unfold atomic
  rw [h]

theorem atomic_of_eq_none {apply : σ → α → Option (σ × β)} {state : σ} {input : α}
    (h : apply state input = none) : atomic apply state input = (state, none) := by
  unfold atomic
  rw [h]

/-! ## Simulation on the allowed inputs -/

/-- `abs` is a simulation of `step` by `spec` from the states that satisfy `inv`, on the inputs
that `allowed` admits in the specification's state. -/
structure SimulatesOn (allowed : τ → α → Prop) (inv : σ → Prop) (step : σ → α → σ × β)
    (spec : τ → α → τ × β) (abs : σ → τ) : Prop where
  inv_step : ∀ {state} input, inv state → allowed (abs state) input → inv (step state input).1
  abs_step : ∀ {state} input, inv state → allowed (abs state) input →
    Prod.map abs id (step state input) = spec (abs state) input

namespace SimulatesOn

variable {allowed : τ → α → Prop} {inv : σ → Prop} {step : σ → α → σ × β}
  {spec : τ → α → τ × β} {abs : σ → τ}

/-- On every input a simulation. -/
theorem simulates (h : SimulatesOn (fun _ _ ↦ True) inv step spec abs) :
    Simulates inv step spec abs :=
  ⟨fun input hinv ↦ h.inv_step input hinv trivial, fun input hinv ↦ h.abs_step input hinv trivial⟩

/-- A run none of whose inputs is fed to the specification where it is not allowed is the
specification's run from the image of its start. -/
theorem abs_run (h : SimulatesOn allowed inv step spec abs) {state : σ} (hinv : inv state)
    (inputs : List α)
    (hallowed : ¬Eventually spec (fun state input ↦ ¬allowed state input) (abs state) inputs) :
    Prod.map abs id (run step state inputs) = run spec (abs state) inputs := by
  induction inputs generalizing state with
  | nil => rfl
  | cons input inputs ih =>
    rw [eventually_cons, not_or, not_not] at hallowed
    have hstep := h.abs_step input hinv hallowed.1
    have hstate : abs (step state input).1 = (spec (abs state) input).1 := congrArg Prod.fst hstep
    have hrest := ih (h.inv_step input hinv hallowed.1) (by rw [hstate]; exact hallowed.2)
    rw [Prod.ext_iff] at hstep hrest
    simp only [Prod.map_fst, Prod.map_snd, id] at hstep hrest
    rw [run_cons, run_cons, ← hstep.1, ← hstep.2, ← hrest.1, ← hrest.2]
    rfl

/-- Calls that, where allowed, abort together and otherwise answer alike through `abs`, from
states that satisfy `inv` and keep it, make the atomic systems a simulation on the allowed
calls. -/
theorem of_atomic {apply : σ → α → Option (σ × β)} {spec : τ → α → Option (τ × β)}
    (hspec : ∀ state input, inv state → allowed (abs state) input →
      (apply state input).map (Prod.map abs id) = spec (abs state) input)
    (hinv : ∀ state input result, inv state → apply state input = some result → inv result.1) :
    SimulatesOn allowed inv (atomic apply) (atomic spec) abs := by
  constructor
  · intro state input hstate _
    cases happly : apply state input with
    | none => rwa [atomic_of_eq_none happly]
    | some result =>
      rw [atomic_of_eq_some happly]
      exact hinv state input result hstate happly
  · intro state input hstate hallowed
    have hmap := hspec state input hstate hallowed
    cases happly : apply state input with
    | none =>
      rw [happly, Option.map_none] at hmap
      rw [atomic_of_eq_none happly, atomic_of_eq_none hmap.symm]
      rfl
    | some result =>
      rw [happly, Option.map_some] at hmap
      rw [atomic_of_eq_some happly, atomic_of_eq_some hmap.symm]
      rfl

end SimulatesOn

/-- Calls that abort together and otherwise answer alike through `abs`, from states that
satisfy `inv` and keep it, make the atomic systems a simulation. -/
theorem Simulates.of_atomic {inv : σ → Prop} {apply : σ → α → Option (σ × β)}
    {spec : τ → α → Option (τ × β)} {abs : σ → τ}
    (hspec : ∀ state input, inv state →
      (apply state input).map (Prod.map abs id) = spec (abs state) input)
    (hinv : ∀ state input result, inv state → apply state input = some result → inv result.1) :
    Simulates inv (atomic apply) (atomic spec) abs :=
  (SimulatesOn.of_atomic (fun state input hstate _ ↦ hspec state input hstate) hinv :
    SimulatesOn (fun _ _ ↦ True) inv (atomic apply) (atomic spec) abs).simulates

end AptosCore.Transition
