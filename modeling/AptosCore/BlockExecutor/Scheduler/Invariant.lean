import Mathlib
import AptosCore.BlockExecutor.Scheduler
import AptosCore.Transition.Measure

/-!
# What every interleaving of the scheduler keeps

The workers interleave the scheduler's atomic steps in any order, each with any arguments: a run
is a list of `Action`s, each applied by `atomic perform`, so a step that returns an error or
panics changes nothing. Three things hold of every such run.

* The execution status of each transaction moves only along the documented diagram
  (`StatusEdge`): every step takes it along one edge or leaves it (`atomic_perform_moves`), so its
  history over a run is a path of the diagram (`run_status_path`).
* Along the diagram a status never goes back in `phase`, four phases to an incarnation with
  `ExecutionHalted` above all. Incarnating a version for execution and aborting it each cross a
  phase, so each happens at most once per version in a run (`run_incarnate_abort_at_most_once`).
* Exactly the transactions below the commit index are committed, but for those already halted,
  and the done marker is set once all are (`CommitInvariant`, kept by every step through the
  inversion lemma `perform_commitStep`).
-/

namespace AptosCore.BlockExecutor

open Transition

variable {C : Type}

/-- The status transition diagram of `scheduler.rs`, an edge for each write of a status. -/
inductive StatusEdge : ExecutionStatus C → ExecutionStatus C → Prop
  /-- `try_incarnate`. -/
  | incarnate (incarnation : Nat) (kind : ExecutionTaskType C) :
      StatusEdge (.ready incarnation kind) (.executing incarnation kind)
  /-- `suspend`, waiting on a dependency. -/
  | suspend (incarnation : Nat) (kind : ExecutionTaskType C) (condvar : C) :
      StatusEdge (.executing incarnation kind) (.suspended incarnation condvar)
  /-- `resume`, once the dependency is resolved. -/
  | resume (incarnation : Nat) (condvar : C) :
      StatusEdge (.suspended incarnation condvar) (.ready incarnation (.wakeup condvar))
  /-- `set_executed_status`, in `finish_execution`. -/
  | finishExecution (incarnation : Nat) (kind : ExecutionTaskType C) :
      StatusEdge (.executing incarnation kind) (.executed incarnation)
  /-- `try_abort`, after a failed validation. -/
  | abort (incarnation : Nat) : StatusEdge (.executed incarnation) (.aborting incarnation)
  /-- `try_commit`. -/
  | commit (incarnation : Nat) : StatusEdge (.executed incarnation) (.committed incarnation)
  /-- `set_aborted_status`, in `finish_abort`. -/
  | finishAbort (incarnation : Nat) :
      StatusEdge (.aborting incarnation) (.ready (incarnation + 1) .execution)
  /-- `halt_transaction_execution`, from any status. -/
  | halt (status : ExecutionStatus C) : StatusEdge status .executionHalted

namespace StatusEdge

theorem eq_halted_of_committed {incarnation : Nat} {status : ExecutionStatus C}
    (hedge : StatusEdge (.committed incarnation) status) : status = .executionHalted := by
  cases hedge
  rfl

theorem eq_halted_of_halted {status : ExecutionStatus C}
    (hedge : StatusEdge .executionHalted status) : status = .executionHalted := by
  cases hedge
  rfl

end StatusEdge

/-- The phase of a status: four to an incarnation (ready, running, executed, done with), with
`ExecutionHalted` above every other. A wake-up is ready to resume a running execution, so it
is in the running phase. -/
def ExecutionStatus.phase : ExecutionStatus C → ℕ∞
  | .ready incarnation .execution => (4 * incarnation : ℕ)
  | .ready incarnation (.wakeup _) => (4 * incarnation + 1 : ℕ)
  | .executing incarnation _ => (4 * incarnation + 1 : ℕ)
  | .suspended incarnation _ => (4 * incarnation + 1 : ℕ)
  | .executed incarnation => (4 * incarnation + 2 : ℕ)
  | .committed incarnation => (4 * incarnation + 3 : ℕ)
  | .aborting incarnation => (4 * incarnation + 3 : ℕ)
  | .executionHalted => ⊤

namespace ExecutionStatus

@[simp] theorem phase_ready_execution (incarnation : Nat) :
    (ready incarnation .execution : ExecutionStatus C).phase = (4 * incarnation : ℕ) := rfl
@[simp] theorem phase_ready_wakeup (incarnation : Nat) (condvar : C) :
    (ready incarnation (.wakeup condvar)).phase = (4 * incarnation + 1 : ℕ) := rfl
@[simp] theorem phase_executing (incarnation : Nat) (kind : ExecutionTaskType C) :
    (executing incarnation kind).phase = (4 * incarnation + 1 : ℕ) := rfl
@[simp] theorem phase_suspended (incarnation : Nat) (condvar : C) :
    (suspended incarnation condvar).phase = (4 * incarnation + 1 : ℕ) := rfl
@[simp] theorem phase_executed (incarnation : Nat) :
    (executed incarnation : ExecutionStatus C).phase = (4 * incarnation + 2 : ℕ) := rfl
@[simp] theorem phase_committed (incarnation : Nat) :
    (committed incarnation : ExecutionStatus C).phase = (4 * incarnation + 3 : ℕ) := rfl
@[simp] theorem phase_aborting (incarnation : Nat) :
    (aborting incarnation : ExecutionStatus C).phase = (4 * incarnation + 3 : ℕ) := rfl
@[simp] theorem phase_executionHalted : (executionHalted : ExecutionStatus C).phase = ⊤ := rfl

/-- The incarnation a status records; none once halted. -/
def incarnation : ExecutionStatus C → Option Nat
  | ready incarnation _ => some incarnation
  | executing incarnation _ => some incarnation
  | suspended incarnation _ => some incarnation
  | executed incarnation => some incarnation
  | committed incarnation => some incarnation
  | aborting incarnation => some incarnation
  | executionHalted => none

end ExecutionStatus

/-- No edge of the diagram goes back in phase. -/
theorem StatusEdge.phase_le {status status' : ExecutionStatus C}
    (hedge : StatusEdge status status') : status.phase ≤ status'.phase := by
  cases hedge with
  | incarnate incarnation kind =>
    cases kind with
    | execution => simp only [ExecutionStatus.phase_ready_execution,
        ExecutionStatus.phase_executing, Nat.cast_le]; omega
    | wakeup condvar => simp
  | suspend | resume => simp
  | finishExecution | abort | commit => simp only [ExecutionStatus.phase_executing,
      ExecutionStatus.phase_executed, ExecutionStatus.phase_aborting,
      ExecutionStatus.phase_committed, Nat.cast_le]; omega
  | finishAbort incarnation =>
    simp only [ExecutionStatus.phase_aborting, ExecutionStatus.phase_ready_execution, Nat.cast_le]
    omega
  | halt => exact le_top

namespace Scheduler

/-! ## The steps on statuses -/

/-- Each status of `s'` is the one of `s`, or one edge of the diagram past it. -/
def Moves (s s' : Scheduler C) : Prop :=
  ∀ txnIdx, s'.executionStatus txnIdx = s.executionStatus txnIdx ∨
    StatusEdge (s.executionStatus txnIdx) (s'.executionStatus txnIdx)

theorem Moves.of_eq {s s' : Scheduler C} (h : s'.executionStatus = s.executionStatus) :
    Moves s s' :=
  fun txnIdx ↦ .inl (congrFun h txnIdx)

theorem Moves.setStatus {s s' : Scheduler C} {txnIdx : Nat} {status : ExecutionStatus C}
    (hedge : StatusEdge (s.executionStatus txnIdx) status)
    (hs' : s'.executionStatus = (s.setStatus txnIdx status).executionStatus) : Moves s s' := by
  intro other
  rw [hs', setStatus_executionStatus]
  by_cases hother : other = txnIdx
  · subst hother
    rw [if_pos rfl]
    exact .inr hedge
  · exact .inl (if_neg hother)

/-- What the commit invariant reads of a state. -/
structure CommitView (C : Type) where
  numTxns : Nat
  executionStatus : Nat → ExecutionStatus C
  commitIdx : Nat
  doneMarker : Bool

/-- The part of the state the commit invariant reads. -/
def commitView (s : Scheduler C) : CommitView C :=
  ⟨s.numTxns, s.executionStatus, s.commitState.1, s.doneMarker⟩

/-- What one step can do to the part of the state the commit invariant reads: nothing, write a
status other than `Committed` along an edge, set the done marker, or commit the next
transaction. -/
inductive CommitStep (s s' : Scheduler C) : Prop
  | same (hview : s'.commitView = s.commitView)
  | status (txnIdx : Nat) (status : ExecutionStatus C)
      (hedge : StatusEdge (s.executionStatus txnIdx) status)
      (hnot : ∀ incarnation, status ≠ .committed incarnation)
      (hview : s'.commitView = (s.setStatus txnIdx status).commitView)
  | markDone (hview : s'.commitView = { s.commitView with doneMarker := true })
  | commit (incarnation : Nat) (hidx : s.commitState.1 ≠ s.numTxns)
      (hexecuted : s.executionStatus s.commitState.1 = .executed incarnation)
      (hview : s'.commitView =
        ⟨s.numTxns, (s.setStatus s.commitState.1 (.committed incarnation)).executionStatus,
          s.commitState.1 + 1, if s.commitState.1 + 1 = s.numTxns then true else s.doneMarker⟩)

theorem CommitStep.moves {s s' : Scheduler C} (h : CommitStep s s') : Moves s s' := by
  cases h with
  | same hview => exact Moves.of_eq (congrArg CommitView.executionStatus hview)
  | status txnIdx status hedge _ hview =>
    exact Moves.setStatus hedge (congrArg CommitView.executionStatus hview)
  | markDone hview => exact Moves.of_eq (congrArg CommitView.executionStatus hview)
  | commit incarnation _ hexecuted hview =>
    exact Moves.setStatus (hexecuted ▸ .commit incarnation)
      (congrArg CommitView.executionStatus hview)

/-- The commit invariant: exactly the transactions below the commit index are committed, but
for those halted since; the commit index stays within the block, and the done marker is set
once it reaches the end. -/
structure CommitView.Invariant (view : CommitView C) : Prop where
  commitIdx_le : view.commitIdx ≤ view.numTxns
  lt_of_committed : ∀ txnIdx incarnation,
    view.executionStatus txnIdx = .committed incarnation → txnIdx < view.commitIdx
  committed_of_lt : ∀ txnIdx < view.commitIdx,
    (∃ incarnation, view.executionStatus txnIdx = .committed incarnation) ∨
      view.executionStatus txnIdx = .executionHalted
  done_of_eq : view.commitIdx = view.numTxns → view.doneMarker = true

/-- A status below the commit index stays committed or halted along any edge. -/
theorem committed_or_halted_of_edge {status status' : ExecutionStatus C}
    (hstatus : (∃ incarnation, status = .committed incarnation) ∨ status = .executionHalted)
    (hedge : StatusEdge status status') : status' = .executionHalted := by
  rcases hstatus with ⟨incarnation, rfl⟩ | rfl
  · exact hedge.eq_halted_of_committed
  · exact hedge.eq_halted_of_halted

/-- Every kind of step keeps the commit invariant. -/
theorem CommitStep.invariant {s s' : Scheduler C} (hstep : CommitStep s s')
    (hinv : s.commitView.Invariant) : s'.commitView.Invariant := by
  cases hstep with
  | same hview => rwa [hview]
  | status txnIdx status hedge hnot hview =>
    rw [hview]
    refine ⟨hinv.commitIdx_le, fun other incarnation hcommitted ↦ ?_, fun other hother ↦ ?_,
      hinv.done_of_eq⟩
    · simp only [commitView, setStatus_executionStatus] at hcommitted
      split_ifs at hcommitted with hsame
      · exact absurd hcommitted (hnot incarnation)
      · exact hinv.lt_of_committed other incarnation hcommitted
    · simp only [commitView, setStatus_executionStatus]
      split_ifs with hsame
      · subst hsame
        exact .inr (committed_or_halted_of_edge (hinv.committed_of_lt other hother) hedge)
      · exact hinv.committed_of_lt other hother
  | markDone hview =>
    rw [hview]
    exact ⟨hinv.commitIdx_le, hinv.lt_of_committed, hinv.committed_of_lt, fun _ ↦ rfl⟩
  | commit incarnation hidx _ hview =>
    rw [hview]
    have hle : s.commitState.1 + 1 ≤ s.numTxns := by
      have := hinv.commitIdx_le
      simp only [commitView] at this
      omega
    refine ⟨hle, fun other stored hcommitted ↦ ?_, fun other hother ↦ ?_, fun hend ↦ ?_⟩
    · simp only [setStatus_executionStatus] at hcommitted
      split_ifs at hcommitted with hsame
      · show other < s.commitState.1 + 1
        omega
      · exact Nat.lt_succ_of_lt (hinv.lt_of_committed other stored hcommitted)
    · have hother : other < s.commitState.1 + 1 := hother
      simp only [setStatus_executionStatus]
      split_ifs with hsame
      · exact .inl ⟨incarnation, rfl⟩
      · exact hinv.committed_of_lt other (show other < s.commitState.1 by omega)
    · exact if_pos hend

/-! ## One inversion lemma per step -/

theorem tryCommit_commitStep (s : Scheduler C) (upgradable : Bool) :
    CommitStep s (s.tryCommit upgradable).1 := by
  unfold tryCommit
  dsimp only
  split
  · exact .same rfl
  · next hidx =>
    split
    · split
      · next incarnation hexecuted =>
        split
        · split
          · exact .commit incarnation hidx hexecuted rfl
          · exact .same rfl
        · exact .same rfl
      · exact .same rfl
    · exact .same rfl

theorem tryAbort_commitStep (s : Scheduler C) (txnIdx incarnation : Nat) :
    CommitStep s (s.tryAbort txnIdx incarnation).1 := by
  unfold tryAbort
  split
  · next stored hexecuted =>
    split_ifs with hstored
    · subst hstored
      exact .status txnIdx (.aborting stored) (hexecuted ▸ .abort stored) (fun _ ↦ nofun) rfl
    · exact .same rfl
  · exact .same rfl

theorem tryIncarnate_commitStep (s : Scheduler C) (txnIdx : Nat) :
    CommitStep s (s.tryIncarnate txnIdx).1 := by
  unfold tryIncarnate
  split_ifs
  · exact .same rfl
  · split
    · next incarnation kind hready =>
      exact .status txnIdx (.executing incarnation kind) (hready ▸ .incarnate incarnation kind)
        (fun _ ↦ nofun) rfl
    · exact .same rfl

theorem resume_commitStep {s s' : Scheduler C} {txnIdx : Nat} (h : s.resume txnIdx = .ok s') :
    CommitStep s s' := by
  unfold resume at h
  split at h
  · next incarnation condvar hsuspended =>
    cases h
    exact .status txnIdx (.ready incarnation (.wakeup condvar))
      (hsuspended ▸ .resume incarnation condvar) (fun _ ↦ nofun) rfl
  · cases h
    exact .same rfl
  · cases h

theorem setExecutedStatus_commitStep {s s' : Scheduler C} {txnIdx incarnation : Nat}
    (h : s.setExecutedStatus txnIdx incarnation = .ok s') : CommitStep s s' := by
  unfold setExecutedStatus at h
  split at h
  · next stored kind hexecuting =>
    split_ifs at h with hstored
    · cases h
      subst hstored
      exact .status txnIdx (.executed stored)
        (hexecuting ▸ .finishExecution stored kind) (fun _ ↦ nofun) rfl
  · cases h
    exact .same rfl
  · cases h

theorem setAbortedStatus_commitStep {s s' : Scheduler C} {txnIdx incarnation : Nat}
    (h : s.setAbortedStatus txnIdx incarnation = .ok s') : CommitStep s s' := by
  unfold setAbortedStatus at h
  split at h
  · next stored haborting =>
    split_ifs at h with hstored
    · cases h
      subst hstored
      exact .status txnIdx (.ready (stored + 1) .execution)
        (haborting ▸ .finishAbort stored) (fun _ ↦ nofun) rfl
  · cases h
    exact .same rfl
  · cases h

theorem suspend_commitStep {s s' : Scheduler C} {txnIdx : Nat} {condvar : C} {suspended : Bool}
    (h : s.suspend txnIdx condvar = .ok (s', suspended)) : CommitStep s s' := by
  unfold suspend at h
  split at h
  · next incarnation kind hexecuting =>
    cases h
    exact .status txnIdx (.suspended incarnation condvar)
      (hexecuting ▸ .suspend incarnation kind condvar) (fun _ ↦ nofun) rfl
  · cases h
    exact .same rfl
  · cases h

theorem popFromCommitQueue_commitStep (s : Scheduler C) :
    CommitStep s s.popFromCommitQueue.1 := by
  unfold popFromCommitQueue
  split <;> exact .same rfl

theorem decreaseValidationIdx_commitStep (s : Scheduler C) (targetIdx : Nat) :
    CommitStep s (s.decreaseValidationIdx targetIdx).1 := by
  unfold decreaseValidationIdx
  split
  · exact .same rfl
  · split
    split <;> exact .same rfl

theorem claimValidation_commitStep (s : Scheduler C) (idx wave : Nat) :
    CommitStep s (s.claimValidation idx wave).1 := by
  unfold claimValidation
  split_ifs <;> exact .same rfl

theorem Except.eq_ok_of_toOption {ε α : Type} {result : Except ε α} {a : α}
    (h : result.toOption = some a) : result = .ok a := by
  cases result with
  | error _ => cases h
  | ok _ => cases h; rfl

section Condvars

variable [DecidableEq C]

theorem haltTransactionExecution_commitStep (s : Scheduler C) (txnIdx : Nat) :
    CommitStep s (s.haltTransactionExecution txnIdx) := by
  unfold haltTransactionExecution
  split <;>
    exact .status txnIdx .executionHalted (.halt _) (fun _ ↦ nofun) rfl

/-- Every step is one of the four kinds of `CommitStep`. -/
theorem perform_commitStep {s s' : Scheduler C} {action : Action C} {output : Output C}
    (h : s.perform action = some (s', output)) : CommitStep s s' := by
  cases action with
  | tryCommit upgradable =>
    cases h
    exact tryCommit_commitStep s upgradable
  | tryAbort txnIdx incarnation =>
    cases h
    exact tryAbort_commitStep s txnIdx incarnation
  | tryIncarnate txnIdx =>
    cases h
    exact tryIncarnate_commitStep s txnIdx
  | resume txnIdx =>
    obtain ⟨s'', hresume, hs⟩ := Option.map_eq_some_iff.mp h
    cases hs
    exact resume_commitStep (Except.eq_ok_of_toOption hresume)
  | setExecutedStatus txnIdx incarnation =>
    obtain ⟨s'', hset, hs⟩ := Option.map_eq_some_iff.mp h
    cases hs
    exact setExecutedStatus_commitStep (Except.eq_ok_of_toOption hset)
  | setAbortedStatus txnIdx incarnation =>
    obtain ⟨s'', hset, hs⟩ := Option.map_eq_some_iff.mp h
    cases hs
    exact setAbortedStatus_commitStep (Except.eq_ok_of_toOption hset)
  | suspend txnIdx condvar =>
    obtain ⟨⟨s'', suspended⟩, hsuspend, hs⟩ := Option.map_eq_some_iff.mp h
    cases hs
    exact suspend_commitStep (Except.eq_ok_of_toOption hsuspend)
  | haltTransactionExecution txnIdx =>
    cases h
    exact haltTransactionExecution_commitStep s txnIdx
  | swapDoneMarker =>
    cases h
    exact .markDone rfl
  | addToCommitQueue txnIdx =>
    obtain ⟨s'', hadd, hs⟩ := Option.map_eq_some_iff.mp h
    cases hs
    unfold addToCommitQueue at hadd
    split_ifs at hadd
    cases hadd
    exact .same rfl
  | popFromCommitQueue =>
    cases h
    exact popFromCommitQueue_commitStep s
  | decreaseValidationIdx targetIdx =>
    cases h
    exact decreaseValidationIdx_commitStep s targetIdx
  | claimValidation idx wave =>
    cases h
    exact claimValidation_commitStep s idx wave
  | finishValidation | fetchAddExecutionIdx | takeDependencies | fetchMinExecutionIdx
  | setRequiredWave | newCondvar | pushDependency | swapHasHalted | queueingCommitsMarkDone
  | queueingCommitsArm | shouldCoordinateCommits =>
    cases h
    exact .same rfl

/-- Every step of a run, aborted or not, moves each status along the diagram or leaves it. -/
theorem atomic_perform_moves (s : Scheduler C) (action : Action C) :
    Moves s (atomic perform s action).1 := by
  cases hperform : s.perform action with
  | none => exact Moves.of_eq (by rw [atomic_of_eq_none hperform])
  | some result =>
    rw [atomic_of_eq_some hperform]
    exact (perform_commitStep hperform).moves

/-! ## The status diagram over a run -/

/-- The history of the execution status of every transaction over any interleaving of the
scheduler's steps is a path of the documented diagram. -/
theorem run_status_path (s : Scheduler C) (actions : List (Action C)) (txnIdx : Nat) :
    Relation.ReflTransGen StatusEdge (s.executionStatus txnIdx)
      ((run (atomic perform) s actions).1.executionStatus txnIdx) := by
  apply run_reflTransGen fun state : Scheduler C ↦ state.executionStatus txnIdx
  intro state action
  rcases atomic_perform_moves state action txnIdx with hsame | hedge
  · exact hsame ▸ .refl
  · exact .single hedge

/-! ## At most once per version -/

theorem phase_le_atomic_perform (s : Scheduler C) (action : Action C) (txnIdx : Nat) :
    (s.executionStatus txnIdx).phase ≤
      ((atomic perform s action).1.executionStatus txnIdx).phase := by
  rcases atomic_perform_moves s action txnIdx with hsame | hedge
  · rw [hsame]
  · exact hedge.phase_le

omit [DecidableEq C] in
/-- An incarnation hands out the version the transaction was ready with. -/
theorem tryIncarnate_of_eq_some {s : Scheduler C} {txnIdx incarnation : Nat}
    {kind : ExecutionTaskType C} (h : (s.tryIncarnate txnIdx).2 = some (incarnation, kind)) :
    s.executionStatus txnIdx = .ready incarnation kind ∧
      (s.tryIncarnate txnIdx).1.executionStatus txnIdx = .executing incarnation kind := by
  unfold tryIncarnate at h ⊢
  split_ifs at h ⊢
  split at h
  · next stored storedKind hready =>
    cases h
    simp [hready]
  · cases h

omit [DecidableEq C] in
/-- A successful abort finds the version executed and leaves it aborting. -/
theorem tryAbort_of_eq_true {s : Scheduler C} {txnIdx incarnation : Nat}
    (h : (s.tryAbort txnIdx incarnation).2 = true) :
    s.executionStatus txnIdx = .executed incarnation ∧
      (s.tryAbort txnIdx incarnation).1.executionStatus txnIdx = .aborting incarnation := by
  unfold tryAbort at h ⊢
  split at h
  · next stored hexecuted =>
    split_ifs at h ⊢ with hstored
    subst hstored
    simp [hexecuted]
  · cases h

/-- In any interleaving of the scheduler's steps, from any state, each version of a transaction
is incarnated for execution at most once and aborted at most once. A wake-up incarnates the
same version again, to resume the execution it suspended. -/
theorem run_incarnate_abort_at_most_once (s : Scheduler C) (actions : List (Action C))
    (txnIdx incarnation : Nat) :
    eventCount (fun action output ↦ action = .tryIncarnate txnIdx ∧
        output = some (.incarnated (some (incarnation, .execution)))) (atomic perform) s actions ≤ 1 ∧
      eventCount (fun action output ↦ action = .tryAbort txnIdx incarnation ∧
        output = some (.flag true)) (atomic perform) s actions ≤ 1 := by
  have hmono := fun state action ↦ phase_le_atomic_perform (C := C) state action txnIdx
  constructor
  · refine eventCount_le_one hmono (v := ((4 * incarnation : ℕ) : ℕ∞)) ?_ s actions
    rintro state _ ⟨rfl, hout⟩
    rw [atomic_of_eq_some rfl, Option.some.injEq, Prod.map_snd, Output.incarnated.injEq] at hout
    obtain ⟨hbefore, hafter⟩ := tryIncarnate_of_eq_some hout
    rw [atomic_of_eq_some rfl]
    simp only [Prod.map_fst, id_eq, hbefore, hafter, ExecutionStatus.phase_ready_execution,
      ExecutionStatus.phase_executing, Nat.cast_le]
    omega
  · refine eventCount_le_one hmono (v := ((4 * incarnation + 2 : ℕ) : ℕ∞)) ?_ s actions
    rintro state _ ⟨rfl, hout⟩
    rw [atomic_of_eq_some rfl, Option.some.injEq, Prod.map_snd, Output.flag.injEq] at hout
    obtain ⟨hbefore, hafter⟩ := tryAbort_of_eq_true hout
    rw [atomic_of_eq_some rfl]
    simp only [Prod.map_fst, id_eq, hbefore, hafter, ExecutionStatus.phase_executed,
      ExecutionStatus.phase_aborting, Nat.cast_le]
    omega

/-! ## The commit invariant over a run -/

omit [DecidableEq C] in
/-- A new scheduler has committed nothing. -/
theorem new_invariant {numTxns : Nat} {s : Scheduler C} (hnew : Scheduler.new numTxns = some s) :
    s.commitView.Invariant := by
  unfold Scheduler.new at hnew
  split_ifs at hnew with hpos
  cases hnew
  exact ⟨Nat.zero_le _, fun _ _ ↦ nofun, fun _ h ↦ absurd h (Nat.not_lt_zero _),
    fun h ↦ absurd h (Nat.pos_iff_ne_zero.mp hpos).symm⟩

theorem atomic_perform_invariant {s : Scheduler C} (hinv : s.commitView.Invariant)
    (action : Action C) : (atomic perform s action).1.commitView.Invariant := by
  cases hperform : s.perform action with
  | none => rwa [atomic_of_eq_none hperform]
  | some result =>
    rw [atomic_of_eq_some hperform]
    exact (perform_commitStep hperform).invariant hinv

/-- In every interleaving of the scheduler's steps from a new scheduler, exactly the
transactions below the commit index are committed, but for those halted since, the commit
index stays within the block, and the done marker is set once every transaction is committed. -/
theorem run_commitInvariant {numTxns : Nat} {s : Scheduler C}
    (hnew : Scheduler.new numTxns = some s) (actions : List (Action C)) :
    (run (atomic perform) s actions).1.commitView.Invariant :=
  run_invariant (P := fun state : Scheduler C ↦ state.commitView.Invariant)
    (fun _ action hinv ↦ atomic_perform_invariant hinv action) (new_invariant hnew) actions

/-- Two transactions, the first incarnated, executed, validated and committed. -/
theorem run_commitInvariant_commit_first :
    (Scheduler.new 2 : Option (Scheduler Nat)) =
        some ⟨2, fun _ ↦ [], fun _ ↦ .ready 0 .execution, fun _ ↦ ValidationStatus.new, (0, 0), 0, 0,
          false, false, ArmedLock.new, [], fun _ ↦ .unresolved⟩ ∧
      (run (atomic perform)
          (⟨2, fun _ ↦ [], fun _ ↦ .ready 0 .execution, fun _ ↦ ValidationStatus.new, (0, 0), 0, 0,
            false, false, ArmedLock.new, [], fun _ ↦ .unresolved⟩ : Scheduler Nat)
          [.tryIncarnate 0, .setExecutedStatus 0 0, .finishValidation 0 0,
            .tryCommit true]).1.commitView.Invariant :=
  ⟨rfl, @run_commitInvariant Nat _ 2 _ rfl _⟩

end Condvars

end Scheduler

end AptosCore.BlockExecutor
