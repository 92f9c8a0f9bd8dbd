import Mathlib

/-!
# The Block-STM scheduler

`block-executor/src/scheduler.rs`. The scheduler hands out execution and validation tasks for
the transactions `0 .. num_txns` of a block and decides when each may be committed. Per
transaction it keeps an `ExecutionStatus` and a `ValidationStatus` behind read-write locks and a
list of the transactions waiting on it behind a mutex; shared by all workers are the commit
state, the atomics `execution_idx` and `validation_idx` (a transaction index packed with a
validation wave), the `done_marker` and `has_halted` flags, the `ArmedLock` that elects the
thread coordinating commits, and the commit queue.

The workers run the scheduler's functions concurrently. What one worker does atomically is one
critical section (a status lock, a dependency mutex, the commit state) or one read-modify-write
of an atomic; between two such steps any other worker may take any step. Each of these steps is
an `Action` here, applied by `perform`; the public functions of the scheduler are written as the
sequences of actions they take (`finishExecution`, `finishAbort`, `waitForDependency`, `halt`,
one round of `next_task`), so every way the workers can interleave them is a sequence of actions.

The per-transaction tables are total functions on indices: the source panics on an index past
`num_txns` before it touches anything, and no caller passes one. The `code_invariant_error`s
are kept as `SchedulerError`, each with the values its message prints.
-/

namespace AptosCore.BlockExecutor

/-- `DependencyStatus`: the state behind the mutex of a dependency's condition variable. -/
inductive DependencyStatus
  | unresolved
  | resolved
  | executionHalted
  deriving DecidableEq, Repr

/-- `ExecutionTaskType`. A wake-up carries the condition variable on which the suspended
execution of the transaction waits. -/
inductive ExecutionTaskType (C : Type)
  | execution
  | wakeup (condvar : C)
  deriving DecidableEq, Repr

/-- `SchedulerTask`. -/
inductive SchedulerTask (C : Type)
  | executionTask (txnIdx incarnation : Nat) (kind : ExecutionTaskType C)
  | validationTask (txnIdx incarnation wave : Nat)
  | retry
  | done
  deriving DecidableEq, Repr

/-- `ExecutionStatus`, with the latest incarnation of the transaction. -/
inductive ExecutionStatus (C : Type)
  | ready (incarnation : Nat) (kind : ExecutionTaskType C)
  | executing (incarnation : Nat) (kind : ExecutionTaskType C)
  | suspended (incarnation : Nat) (condvar : C)
  | executed (incarnation : Nat)
  | committed (incarnation : Nat)
  | aborting (incarnation : Nat)
  | executionHalted
  deriving DecidableEq, Repr

/-- `ValidationStatus`. -/
structure ValidationStatus where
  maxTriggeredWave : Nat
  requiredWave : Nat
  maybeMaxValidatedWave : Option Nat
  deriving DecidableEq, Repr

def ValidationStatus.new : ValidationStatus := ⟨0, 0, none⟩

/-- `DependencyResult`, the answer of `wait_for_dependency`. -/
inductive DependencyResult (C : Type)
  | dependency (condvar : C)
  | resolved
  | executionHalted
  deriving DecidableEq, Repr

/-- The `code_invariant_error`s of the scheduler, each with the values its message prints. The
one of `wait_for_dependency` prints none: its message is a plain string whose braces are not
formatted. -/
inductive SchedulerError (C : Type)
  | waitForDependency
  | unexpectedStatusInSuspend (status : ExecutionStatus C)
  | unexpectedStatusInResume (status : ExecutionStatus C)
  | expectedExecuting (incarnation : Nat) (status : ExecutionStatus C)
  | expectedAborting (incarnation : Nat) (status : ExecutionStatus C)
  deriving DecidableEq, Repr

/-! ## The packed validation index -/

def txnIdxMask : Nat := 2 ^ 32 - 1

/-- `unpack_validation_idx`: the transaction index in the low 32 bits, the wave above. -/
def unpackValidationIdx (validationIdx : Nat) : Nat × Nat :=
  (validationIdx &&& txnIdxMask, validationIdx >>> 32)

def packIntoValidationIndex (idx wave : Nat) : Nat :=
  idx ||| (wave <<< 32)

def nextValidationIndex (idx : Nat) : Nat := idx + 1

theorem packIntoValidationIndex_eq {idx : Nat} (hidx : idx < 2 ^ 32) (wave : Nat) :
    packIntoValidationIndex idx wave = 2 ^ 32 * wave + idx := by
  rw [packIntoValidationIndex, Nat.shiftLeft_eq, Nat.mul_comm, Nat.lor_comm,
    ← Nat.two_pow_add_eq_or_of_lt hidx]

@[simp]
theorem unpackValidationIdx_pack {idx : Nat} (hidx : idx < 2 ^ 32) (wave : Nat) :
    unpackValidationIdx (packIntoValidationIndex idx wave) = (idx, wave) := by
  have hpos : 0 < 2 ^ 32 := Nat.two_pow_pos 32
  rw [packIntoValidationIndex_eq hidx, unpackValidationIdx, txnIdxMask, Nat.and_two_pow_sub_one_eq_mod,
    Nat.shiftRight_eq_div_pow, Nat.mul_add_mod, Nat.mod_eq_of_lt hidx, Nat.mul_add_div hpos,
    Nat.div_eq_of_lt hidx, Nat.add_zero]

/-- The next validation index moves the transaction index on and keeps the wave. -/
theorem unpackValidationIdx_next {idx : Nat} (hidx : idx + 1 < 2 ^ 32) (wave : Nat) :
    unpackValidationIdx (nextValidationIndex (packIntoValidationIndex idx wave)) =
      (idx + 1, wave) := by
  rw [nextValidationIndex, packIntoValidationIndex_eq (by omega), Nat.add_assoc,
    ← packIntoValidationIndex_eq hidx, unpackValidationIdx_pack hidx]

/-! ## The armed lock -/

/-- `ArmedLock`: bit 0 of `locked` is set while it is unlocked, bit 1 while there is work. -/
structure ArmedLock where
  locked : Nat
  deriving DecidableEq, Repr

namespace ArmedLock

/-- `ArmedLock::new`: unlocked, with work. -/
def new : ArmedLock := ⟨3⟩

/-- `ArmedLock::try_lock`: a weak compare-exchange from unlocked-with-work to locked-without-work,
which may fail spuriously. -/
def tryLock (lock : ArmedLock) (spurious : Bool) : ArmedLock × Bool :=
  if lock.locked = 3 ∧ spurious = false then (⟨0⟩, true) else (lock, false)

def unlock (lock : ArmedLock) : ArmedLock := ⟨lock.locked ||| 1⟩

def arm (lock : ArmedLock) : ArmedLock := ⟨lock.locked ||| 2⟩

end ArmedLock

/-! ## The shared state -/

/-- `Scheduler`. The condition variables of dependencies are values of `C`, with the status
behind their mutexes in `dependencyStatus`. -/
structure Scheduler (C : Type) where
  numTxns : Nat
  txnDependency : Nat → List Nat
  executionStatus : Nat → ExecutionStatus C
  validationStatus : Nat → ValidationStatus
  commitState : Nat × Nat
  executionIdx : Nat
  validationIdx : Nat
  doneMarker : Bool
  hasHalted : Bool
  queueingCommitsLock : ArmedLock
  commitQueue : List Nat
  dependencyStatus : C → DependencyStatus

namespace Scheduler

variable {C : Type}

/-- `Scheduler::new`; `none` is the panic on an empty block. -/
def new (numTxns : Nat) : Option (Scheduler C) :=
  if 0 < numTxns then
    some ⟨numTxns, fun _ ↦ [], fun _ ↦ .ready 0 .execution, fun _ ↦ ValidationStatus.new,
      (0, 0), 0, 0, false, false, ArmedLock.new, [], fun _ ↦ .unresolved⟩
  else none

/-- Write the execution status of one transaction, under its lock. -/
def setStatus (s : Scheduler C) (txnIdx : Nat) (status : ExecutionStatus C) : Scheduler C :=
  { s with executionStatus := Function.update s.executionStatus txnIdx status }

/-- Change the validation status of one transaction, under its lock. -/
def updateValidationStatus (s : Scheduler C) (txnIdx : Nat)
    (change : ValidationStatus → ValidationStatus) : Scheduler C :=
  { s with validationStatus :=
      Function.update s.validationStatus txnIdx (change (s.validationStatus txnIdx)) }

@[simp]
theorem setStatus_executionStatus (s : Scheduler C) (txnIdx : Nat) (status : ExecutionStatus C)
    (other : Nat) :
    (s.setStatus txnIdx status).executionStatus other =
      if other = txnIdx then status else s.executionStatus other := by
  simp only [setStatus, Function.update_apply]

/-! ## The atomic steps -/

/-- `try_commit`, which holds the commit state, the validation status of the next transaction
to commit and an upgradable read of its execution status throughout. `upgradable` says whether
`try_upgradable_read` got the status lock; when it did not, the commit coordinator is re-armed.
The wave of the commit state follows `max_triggered_wave` even when nothing commits. -/
def tryCommit (s : Scheduler C) (upgradable : Bool) : Scheduler C × Option (Nat × Nat) :=
  let commitIdx := s.commitState.1
  if commitIdx = s.numTxns then (s, none)
  else if upgradable then
    match s.executionStatus commitIdx with
    | .executed incarnation =>
      let validationStatus := s.validationStatus commitIdx
      let commitWave := max s.commitState.2 validationStatus.maxTriggeredWave
      match validationStatus.maybeMaxValidatedWave with
      | some validatedWave =>
        if max commitWave validationStatus.requiredWave ≤ validatedWave then
          ({ s.setStatus commitIdx (.committed incarnation) with
              commitState := (commitIdx + 1, commitWave)
              doneMarker := if commitIdx + 1 = s.numTxns then true else s.doneMarker },
            some (commitIdx, incarnation))
        else ({ s with commitState := (commitIdx, commitWave) }, none)
      | none => ({ s with commitState := (commitIdx, commitWave) }, none)
    | _ => (s, none)
  else ({ s with queueingCommitsLock := s.queueingCommitsLock.arm }, none)

/-- `try_abort`: `Executed(incarnation)` becomes `Aborting(incarnation)`. -/
def tryAbort (s : Scheduler C) (txnIdx incarnation : Nat) : Scheduler C × Bool :=
  match s.executionStatus txnIdx with
  | .executed stored =>
    if stored = incarnation then (s.setStatus txnIdx (.aborting incarnation), true) else (s, false)
  | _ => (s, false)

def finishValidation (s : Scheduler C) (txnIdx wave : Nat) : Scheduler C :=
  s.updateValidationStatus txnIdx fun status ↦
    { status with
      maybeMaxValidatedWave := some (status.maybeMaxValidatedWave.elim wave (max · wave)) }

/-- The compare-exchange of `try_validate_next_version`, which claims `idxToValidate` in `wave`. -/
def claimValidation (s : Scheduler C) (idxToValidate wave : Nat) : Scheduler C × Bool :=
  if s.validationIdx = packIntoValidationIndex idxToValidate wave then
    ({ s with validationIdx := nextValidationIndex s.validationIdx }, true)
  else (s, false)

/-- The `fetch_add` of `try_execute_next_version`. -/
def fetchAddExecutionIdx (s : Scheduler C) : Scheduler C × Nat :=
  ({ s with executionIdx := s.executionIdx + 1 }, s.executionIdx)

/-- `try_incarnate`: `Ready(incarnation)` becomes `Executing(incarnation)`. -/
def tryIncarnate (s : Scheduler C) (txnIdx : Nat) :
    Scheduler C × Option (Nat × ExecutionTaskType C) :=
  if s.numTxns ≤ txnIdx then (s, none)
  else
    match s.executionStatus txnIdx with
    | .ready incarnation kind =>
      (s.setStatus txnIdx (.executing incarnation kind), some (incarnation, kind))
    | _ => (s, none)

/-- The critical section of `wake_dependencies_after_execution` that takes the dependencies. -/
def takeDependencies (s : Scheduler C) (txnIdx : Nat) : Scheduler C × List Nat :=
  ({ s with txnDependency := Function.update s.txnDependency txnIdx [] }, s.txnDependency txnIdx)

/-- `resume`: `Suspended(incarnation)` becomes a wake-up `Ready(incarnation)`. -/
def resume (s : Scheduler C) (txnIdx : Nat) : Except (SchedulerError C) (Scheduler C) :=
  match s.executionStatus txnIdx with
  | .suspended incarnation condvar => .ok (s.setStatus txnIdx (.ready incarnation (.wakeup condvar)))
  | .executionHalted => .ok s
  | status => .error (.unexpectedStatusInResume status)

/-- The `fetch_min` of `wake_dependencies_after_execution`. -/
def fetchMinExecutionIdx (s : Scheduler C) (target : Nat) : Scheduler C :=
  { s with executionIdx := min s.executionIdx target }

/-- `set_executed_status`: `Executing(incarnation)` becomes `Executed(incarnation)`. -/
def setExecutedStatus (s : Scheduler C) (txnIdx incarnation : Nat) :
    Except (SchedulerError C) (Scheduler C) :=
  match s.executionStatus txnIdx with
  | .executing stored kind =>
    if stored = incarnation then .ok (s.setStatus txnIdx (.executed incarnation))
    else .error (.expectedExecuting incarnation (.executing stored kind))
  | .executionHalted => .ok s
  | status => .error (.expectedExecuting incarnation status)

/-- The last write of `finish_execution`, under the validation lock it holds throughout. -/
def setRequiredWave (s : Scheduler C) (txnIdx wave : Nat) : Scheduler C :=
  s.updateValidationStatus txnIdx fun status ↦ { status with requiredWave := wave }

/-- `decrease_validation_idx`, with its `fetch_update` taken as one step. The `assert` panics
past `num_txns`, and at `num_txns` there is nothing to validate. -/
def decreaseValidationIdx (s : Scheduler C) (targetIdx : Nat) : Scheduler C × Option Nat :=
  if s.numTxns ≤ targetIdx then (s, none)
  else
    let (txnIdx, wave) := unpackValidationIdx s.validationIdx
    if targetIdx < txnIdx then
      ({ s.updateValidationStatus targetIdx (fun status ↦
            { status with maxTriggeredWave := max status.maxTriggeredWave (wave + 1) }) with
          validationIdx := packIntoValidationIndex targetIdx (wave + 1) },
        some (wave + 1))
    else (s, none)

/-- `set_aborted_status`: `Aborting(incarnation)` becomes `Ready(incarnation + 1)`. -/
def setAbortedStatus (s : Scheduler C) (txnIdx incarnation : Nat) :
    Except (SchedulerError C) (Scheduler C) :=
  match s.executionStatus txnIdx with
  | .aborting stored =>
    if stored = incarnation then .ok (s.setStatus txnIdx (.ready (incarnation + 1) .execution))
    else .error (.expectedAborting incarnation (.aborting stored))
  | .executionHalted => .ok s
  | status => .error (.expectedAborting incarnation status)

/-- The condition variable `wait_for_dependency` creates, with an unresolved status. -/
def newCondvar [DecidableEq C] (s : Scheduler C) (condvar : C) : Scheduler C :=
  { s with dependencyStatus := Function.update s.dependencyStatus condvar .unresolved }

/-- `suspend`: `Executing(incarnation)` becomes `Suspended(incarnation)`; `false` when halted. -/
def suspend (s : Scheduler C) (txnIdx : Nat) (condvar : C) :
    Except (SchedulerError C) (Scheduler C × Bool) :=
  match s.executionStatus txnIdx with
  | .executing incarnation _ => .ok (s.setStatus txnIdx (.suspended incarnation condvar), true)
  | .executionHalted => .ok (s, false)
  | status => .error (.unexpectedStatusInSuspend status)

/-- The push of `wait_for_dependency` onto the dependencies of `depTxnIdx`. -/
def pushDependency (s : Scheduler C) (depTxnIdx txnIdx : Nat) : Scheduler C :=
  { s with txnDependency :=
      Function.update s.txnDependency depTxnIdx (s.txnDependency depTxnIdx ++ [txnIdx]) }

/-- The `swap` of `done_marker` in `halt`, answering the old value. -/
def swapDoneMarker (s : Scheduler C) : Scheduler C × Bool :=
  ({ s with doneMarker := true }, s.doneMarker)

/-- `halt_transaction_execution`: the status becomes `ExecutionHalted`, and the condition
variable a suspended or woken execution waits on is told so. -/
def haltTransactionExecution [DecidableEq C] (s : Scheduler C) (txnIdx : Nat) : Scheduler C :=
  let halted := s.setStatus txnIdx .executionHalted
  let haltCondvar (condvar : C) : Scheduler C :=
    { halted with dependencyStatus :=
        Function.update halted.dependencyStatus condvar .executionHalted }
  match s.executionStatus txnIdx with
  | .suspended _ condvar => haltCondvar condvar
  | .ready _ (.wakeup condvar) => haltCondvar condvar
  | .executing _ (.wakeup condvar) => haltCondvar condvar
  | _ => halted

/-- The `swap` of `has_halted` in `halt`, answering the old value. -/
def swapHasHalted (s : Scheduler C) : Scheduler C × Bool :=
  ({ s with hasHalted := true }, s.hasHalted)

/-- `add_to_commit_queue`; `none` is the panic of a push to the full queue. -/
def addToCommitQueue (s : Scheduler C) (txnIdx : Nat) : Option (Scheduler C) :=
  if s.commitQueue.length < s.numTxns then some { s with commitQueue := s.commitQueue ++ [txnIdx] }
  else none

/-- `pop_from_commit_queue`; `none` is `PopError::Empty`. -/
def popFromCommitQueue (s : Scheduler C) : Scheduler C × Option Nat :=
  match s.commitQueue with
  | [] => (s, none)
  | txnIdx :: rest => ({ s with commitQueue := rest }, some txnIdx)

def queueingCommitsMarkDone (s : Scheduler C) : Scheduler C :=
  { s with queueingCommitsLock := s.queueingCommitsLock.unlock }

def queueingCommitsArm (s : Scheduler C) : Scheduler C :=
  { s with queueingCommitsLock := s.queueingCommitsLock.arm }

def shouldCoordinateCommits (s : Scheduler C) (spurious : Bool) : Scheduler C × Bool :=
  let (lock, locked) := s.queueingCommitsLock.tryLock spurious
  ({ s with queueingCommitsLock := lock }, locked)

/-! ## Reads -/

def isExecuted (s : Scheduler C) (txnIdx : Nat) (includeCommitted : Bool) : Option Nat :=
  match s.executionStatus txnIdx with
  | .executed incarnation => some incarnation
  | .committed incarnation => if includeCommitted then some incarnation else none
  | _ => none

def neverExecuted (s : Scheduler C) (txnIdx : Nat) : Bool :=
  match s.executionStatus txnIdx with
  | .ready 0 _ => true
  | .executing 0 _ => true
  | .suspended 0 _ => true
  | _ => false

def done (s : Scheduler C) : Bool := s.doneMarker

/-! ## Steps as actions -/

/-- The atomic steps a worker takes in the scheduler. -/
inductive Action (C : Type)
  | tryCommit (upgradable : Bool)
  | tryAbort (txnIdx incarnation : Nat)
  | finishValidation (txnIdx wave : Nat)
  | claimValidation (idxToValidate wave : Nat)
  | fetchAddExecutionIdx
  | tryIncarnate (txnIdx : Nat)
  | takeDependencies (txnIdx : Nat)
  | resume (txnIdx : Nat)
  | fetchMinExecutionIdx (target : Nat)
  | setExecutedStatus (txnIdx incarnation : Nat)
  | setRequiredWave (txnIdx wave : Nat)
  | decreaseValidationIdx (targetIdx : Nat)
  | setAbortedStatus (txnIdx incarnation : Nat)
  | newCondvar (condvar : C)
  | suspend (txnIdx : Nat) (condvar : C)
  | pushDependency (depTxnIdx txnIdx : Nat)
  | swapDoneMarker
  | haltTransactionExecution (txnIdx : Nat)
  | swapHasHalted
  | addToCommitQueue (txnIdx : Nat)
  | popFromCommitQueue
  | queueingCommitsMarkDone
  | queueingCommitsArm
  | shouldCoordinateCommits (spurious : Bool)
  deriving DecidableEq, Repr

/-- What an action answers. -/
inductive Output (C : Type)
  | unit
  | flag (value : Bool)
  | index (value : Nat)
  | wave (value : Option Nat)
  | committed (version : Option (Nat × Nat))
  | incarnated (version : Option (Nat × ExecutionTaskType C))
  | dependencies (txns : List Nat)
  | popped (txnIdx : Option Nat)
  deriving DecidableEq, Repr

/-- One action; `none` when it returns a `code_invariant_error` or panics, which leaves the
state as it was. -/
def perform [DecidableEq C] (s : Scheduler C) : Action C → Option (Scheduler C × Output C)
  | .tryCommit upgradable => some (Prod.map id .committed (s.tryCommit upgradable))
  | .tryAbort txnIdx incarnation => some (Prod.map id .flag (s.tryAbort txnIdx incarnation))
  | .finishValidation txnIdx wave => some (s.finishValidation txnIdx wave, .unit)
  | .claimValidation idx wave => some (Prod.map id .flag (s.claimValidation idx wave))
  | .fetchAddExecutionIdx => some (Prod.map id .index s.fetchAddExecutionIdx)
  | .tryIncarnate txnIdx => some (Prod.map id .incarnated (s.tryIncarnate txnIdx))
  | .takeDependencies txnIdx => some (Prod.map id .dependencies (s.takeDependencies txnIdx))
  | .resume txnIdx => (s.resume txnIdx).toOption.map (·, .unit)
  | .fetchMinExecutionIdx target => some (s.fetchMinExecutionIdx target, .unit)
  | .setExecutedStatus txnIdx incarnation =>
    (s.setExecutedStatus txnIdx incarnation).toOption.map (·, .unit)
  | .setRequiredWave txnIdx wave => some (s.setRequiredWave txnIdx wave, .unit)
  | .decreaseValidationIdx targetIdx => some (Prod.map id .wave (s.decreaseValidationIdx targetIdx))
  | .setAbortedStatus txnIdx incarnation =>
    (s.setAbortedStatus txnIdx incarnation).toOption.map (·, .unit)
  | .newCondvar condvar => some (s.newCondvar condvar, .unit)
  | .suspend txnIdx condvar => (s.suspend txnIdx condvar).toOption.map (Prod.map id .flag)
  | .pushDependency depTxnIdx txnIdx => some (s.pushDependency depTxnIdx txnIdx, .unit)
  | .swapDoneMarker => some (Prod.map id .flag s.swapDoneMarker)
  | .haltTransactionExecution txnIdx => some (s.haltTransactionExecution txnIdx, .unit)
  | .swapHasHalted => some (Prod.map id .flag s.swapHasHalted)
  | .addToCommitQueue txnIdx => (s.addToCommitQueue txnIdx).map (·, .unit)
  | .popFromCommitQueue => some (Prod.map id .popped s.popFromCommitQueue)
  | .queueingCommitsMarkDone => some (s.queueingCommitsMarkDone, .unit)
  | .queueingCommitsArm => some (s.queueingCommitsArm, .unit)
  | .shouldCoordinateCommits spurious => some (Prod.map id .flag (s.shouldCoordinateCommits spurious))

/-! ## The scheduler's functions, as the actions they take -/

/-- `try_validate_next_version`: claim the index, then read whether it is executed. -/
def tryValidateNextVersion (s : Scheduler C) (idxToValidate wave : Nat) :
    Scheduler C × Option (Nat × Nat × Nat) :=
  match s.claimValidation idxToValidate wave with
  | (s, true) => (s, (s.isExecuted idxToValidate false).map (idxToValidate, ·, wave))
  | (s, false) => (s, none)

/-- `try_execute_next_version`: take an index, then try to incarnate it. -/
def tryExecuteNextVersion (s : Scheduler C) :
    Scheduler C × Option (Nat × Nat × ExecutionTaskType C) :=
  let (s, idxToExecute) := s.fetchAddExecutionIdx
  if s.numTxns ≤ idxToExecute then (s, none)
  else
    let (s, incarnated) := s.tryIncarnate idxToExecute
    (s, incarnated.map fun (incarnation, kind) ↦ (idxToExecute, incarnation, kind))

/-- One round of the loop of `next_task`; `none` goes round again. -/
def nextTaskRound (s : Scheduler C) : Scheduler C × Option (SchedulerTask C) :=
  if s.done then (s, some .done)
  else
    let (idxToValidate, wave) := unpackValidationIdx s.validationIdx
    let idxToExecute := s.executionIdx
    let preferValidate :=
      decide (idxToValidate < min idxToExecute s.numTxns) && !s.neverExecuted idxToValidate
    if !preferValidate && s.numTxns ≤ idxToExecute then (s, some .retry)
    else
      let (s, validation) :=
        if preferValidate then s.tryValidateNextVersion idxToValidate wave else (s, none)
      match validation with
      | some (txnIdx, incarnation, wave) => (s, some (.validationTask txnIdx incarnation wave))
      | none =>
        if idxToExecute < s.numTxns then
          match s.tryExecuteNextVersion with
          | (s, some (txnIdx, incarnation, kind)) =>
            (s, some (.executionTask txnIdx incarnation kind))
          | (s, none) => (s, none)
        else (s, none)

/-- `next_task`, going round at most `fuel` times. -/
def nextTask (s : Scheduler C) : Nat → Scheduler C × Option (SchedulerTask C)
  | 0 => (s, none)
  | fuel + 1 =>
    match s.nextTaskRound with
    | (s, some task) => (s, some task)
    | (s, none) => nextTask s fuel

@[simp] theorem nextTask_zero (s : Scheduler C) : s.nextTask 0 = (s, none) := rfl

theorem nextTask_succ (s : Scheduler C) (fuel : Nat) :
    s.nextTask (fuel + 1) =
      match s.nextTaskRound with
      | (s, some task) => (s, some task)
      | (s, none) => nextTask s fuel := rfl

/-- The minimum dependency of `wake_dependencies_after_execution`, one dependency at a time. -/
def updateMinDep (minDep : Option Nat) (dep : Nat) : Option Nat :=
  if minDep.isNone || minDep.any (dep < ·) then some dep else minDep

/-- The loop of `wake_dependencies_after_execution`: resume each dependency. -/
def resumeAll (s : Scheduler C) : List Nat → Option Nat →
    Except (SchedulerError C) (Scheduler C × Option Nat)
  | [], minDep => .ok (s, minDep)
  | dep :: deps, minDep => do
    let s ← s.resume dep
    resumeAll s deps (updateMinDep minDep dep)

@[simp] theorem resumeAll_nil (s : Scheduler C) (minDep : Option Nat) :
    s.resumeAll [] minDep = .ok (s, minDep) := rfl

theorem resumeAll_cons (s : Scheduler C) (dep : Nat) (deps : List Nat) (minDep : Option Nat) :
    s.resumeAll (dep :: deps) minDep =
      (s.resume dep >>= fun s ↦ s.resumeAll deps (updateMinDep minDep dep)) := rfl

def wakeDependenciesAfterExecution (s : Scheduler C) (txnIdx : Nat) :
    Except (SchedulerError C) (Scheduler C) := do
  let (s, txnDeps) := s.takeDependencies txnIdx
  let (s, minDep) ← s.resumeAll txnDeps none
  match minDep with
  | some executionTargetIdx => pure (s.fetchMinExecutionIdx executionTargetIdx)
  | none => pure s

def finishExecution (s : Scheduler C) (txnIdx incarnation : Nat) (revalidateSuffix : Bool) :
    Except (SchedulerError C) (Scheduler C × SchedulerTask C) := do
  let s ← s.setExecutedStatus txnIdx incarnation
  let s ← s.wakeDependenciesAfterExecution txnIdx
  let (curValIdx, curWave) := unpackValidationIdx s.validationIdx
  if txnIdx < curValIdx then
    let (s, curWave) :=
      if revalidateSuffix then
        match s.decreaseValidationIdx (txnIdx + 1) with
        | (s, some wave) => (s, wave)
        | (s, none) => (s, curWave)
      else (s, curWave)
    pure (s.setRequiredWave txnIdx curWave, .validationTask txnIdx incarnation curWave)
  else pure (s, .retry)

def finishExecutionDuringCommit (s : Scheduler C) (txnIdx : Nat) :
    Except (SchedulerError C) (Scheduler C) := do
  let s ← s.wakeDependenciesAfterExecution txnIdx
  pure (s.decreaseValidationIdx (txnIdx + 1)).1

def finishAbort (s : Scheduler C) (txnIdx incarnation : Nat) :
    Except (SchedulerError C) (Scheduler C × SchedulerTask C) := do
  let s ← s.setAbortedStatus txnIdx incarnation
  let s := (s.decreaseValidationIdx (txnIdx + 1)).1
  if txnIdx < s.executionIdx then
    match s.tryIncarnate txnIdx with
    | (s, some (newIncarnation, kind)) => pure (s, .executionTask txnIdx newIncarnation kind)
    | (s, none) => pure (s, .retry)
  else pure (s, .retry)

/-- `halt`: the first caller to set the done marker halts every transaction; the answer is
whether this call was the first to set `has_halted`. -/
def halt [DecidableEq C] (s : Scheduler C) : Scheduler C × Bool :=
  let (s, wasDone) := s.swapDoneMarker
  let s := if wasDone then s else (List.range s.numTxns).foldl haltTransactionExecution s
  let (s, hadHalted) := s.swapHasHalted
  (s, !hadHalted)

/-- `wait_for_dependency`, given the condition variable it creates. -/
def waitForDependency [DecidableEq C] (s : Scheduler C) (txnIdx depTxnIdx : Nat) (condvar : C) :
    Except (SchedulerError C) (Scheduler C × DependencyResult C) :=
  if txnIdx ≤ depTxnIdx ∨ s.numTxns ≤ depTxnIdx then .error .waitForDependency
  else
    let s := s.newCondvar condvar
    if (s.isExecuted depTxnIdx true).isSome then .ok (s, .resolved)
    else do
      let (s, suspended) ← s.suspend txnIdx condvar
      if suspended then pure (s.pushDependency depTxnIdx txnIdx, .dependency condvar)
      else pure (s, .executionHalted)

end Scheduler

end AptosCore.BlockExecutor
