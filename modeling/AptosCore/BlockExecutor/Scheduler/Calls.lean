import Mathlib
import AptosCore.BlockExecutor.Scheduler.Invariant
import AptosCore.Rust.Result

/-!
# The scheduler's functions as runs of steps

Each public function of the scheduler takes its atomic steps one after the other, so the state
it leaves is where a run of `Action`s ends (`finishExecution_reaches` and the others). Whatever
every step keeps, the invariants of `Scheduler.Invariant` among them, therefore holds after any
interleaving of the functions' steps: every schedule of the workers is a run.

Two facts about single functions complete the picture.

* `next_task` loops until it finds a task. Run without other workers, every round that finds
  none claims a validation index or takes an execution index, so it returns within
  `2 * num_txns + 1` rounds (`nextTask_returns`).
* `halt` leaves every transaction halted and tells every condition variable a suspended or
  woken execution waits on that execution is halted (`halt_halts`): no execution stays
  suspended on a dependency.
-/

namespace AptosCore.BlockExecutor

open Transition

namespace ExecutionStatus

variable {C : Type}

/-- The condition variable an execution waits on, as `halt_transaction_execution` finds it. -/
def waitsOn : ExecutionStatus C → Option C
  | .suspended _ condvar => some condvar
  | .ready _ (.wakeup condvar) => some condvar
  | .executing _ (.wakeup condvar) => some condvar
  | _ => none

end ExecutionStatus

namespace Scheduler

variable {C : Type}

/-! ## Each function ends where a run ends -/

section Steps

variable [DecidableEq C]

theorem reaches_of_perform (action : Action C) {s s' : Scheduler C} {output : Output C}
    (h : s.perform action = some (s', output)) : Reaches (atomic perform) s s' :=
  Reaches.single action (by rw [atomic_of_eq_some h])

/-- A function that ends by handing back the state a run reached ends there too. -/
theorem reaches_of_pure_eq_ok {α : Type} {s s₁ s' : Scheduler C} {a b : α}
    (hreach : Reaches (atomic perform) s s₁)
    (h : (pure (s₁, a) : Except (SchedulerError C) (Scheduler C × α)) = .ok (s', b)) :
    Reaches (atomic perform) s s' := by
  rw [Rust.pure_eq_ok_iff, Prod.mk.injEq] at h
  exact h.1 ▸ hreach

theorem resume_reaches {s s' : Scheduler C} {txnIdx : Nat} (h : s.resume txnIdx = .ok s') :
    Reaches (atomic perform) s s' :=
  reaches_of_perform (.resume txnIdx)
    (by dsimp only [perform]; rw [h]; rfl)

theorem setExecutedStatus_reaches {s s' : Scheduler C} {txnIdx incarnation : Nat}
    (h : s.setExecutedStatus txnIdx incarnation = .ok s') : Reaches (atomic perform) s s' :=
  reaches_of_perform (.setExecutedStatus txnIdx incarnation)
    (by dsimp only [perform]; rw [h]; rfl)

theorem setAbortedStatus_reaches {s s' : Scheduler C} {txnIdx incarnation : Nat}
    (h : s.setAbortedStatus txnIdx incarnation = .ok s') : Reaches (atomic perform) s s' :=
  reaches_of_perform (.setAbortedStatus txnIdx incarnation)
    (by dsimp only [perform]; rw [h]; rfl)

theorem suspend_reaches {s s' : Scheduler C} {txnIdx : Nat} {condvar : C} {suspended : Bool}
    (h : s.suspend txnIdx condvar = .ok (s', suspended)) : Reaches (atomic perform) s s' :=
  reaches_of_perform (.suspend txnIdx condvar)
    (by dsimp only [perform]; rw [h]; rfl)

theorem tryValidateNextVersion_reaches (s : Scheduler C) (idx wave : Nat) :
    Reaches (atomic perform) s (s.tryValidateNextVersion idx wave).1 := by
  unfold tryValidateNextVersion
  split <;>
    next s' hclaim =>
      exact Reaches.single (.claimValidation idx wave)
        (show (s.claimValidation idx wave).1 = s' by rw [hclaim])

theorem tryExecuteNextVersion_reaches (s : Scheduler C) :
    Reaches (atomic perform) s s.tryExecuteNextVersion.1 := by
  have hfetch : Reaches (atomic perform) s s.fetchAddExecutionIdx.1 :=
    Reaches.single .fetchAddExecutionIdx rfl
  unfold tryExecuteNextVersion
  dsimp only
  split_ifs
  · exact hfetch
  · exact hfetch.trans (Reaches.single (.tryIncarnate _) rfl)

/-- Where an execution attempt ends, whatever it answers. -/
theorem tryExecuteNextVersion_reaches_of_eq {s s' : Scheduler C}
    {found : Option (Nat × Nat × ExecutionTaskType C)}
    (h : s.tryExecuteNextVersion = (s', found)) : Reaches (atomic perform) s s' := by
  have hreach := tryExecuteNextVersion_reaches s
  rwa [h] at hreach

theorem nextTaskRound_reaches (s : Scheduler C) :
    Reaches (atomic perform) s s.nextTaskRound.1 := by
  have hvalidate := tryValidateNextVersion_reaches s (unpackValidationIdx s.validationIdx).1
    (unpackValidationIdx s.validationIdx).2
  unfold nextTaskRound
  dsimp only
  split_ifs
  · exact .refl s
  · exact .refl s
  · split
    · exact hvalidate
    · split <;>
        next _ _ hexecute => exact hvalidate.trans (tryExecuteNextVersion_reaches_of_eq hexecute)
  · split <;> exact hvalidate
  · dsimp only
    split <;> next _ _ hexecute => exact tryExecuteNextVersion_reaches_of_eq hexecute
  · exact .refl s

theorem nextTask_reaches (s : Scheduler C) (fuel : Nat) :
    Reaches (atomic perform) s (s.nextTask fuel).1 := by
  induction fuel generalizing s with
  | zero => exact .refl s
  | succ fuel ih =>
    rw [nextTask_succ]
    have hround := nextTaskRound_reaches s
    split
    · next s' _ hnext => rwa [hnext] at hround
    · next s' hnext =>
      rw [hnext] at hround
      exact hround.trans (ih s')

theorem resumeAll_reaches {s s' : Scheduler C} {deps : List Nat} {minDep minDep' : Option Nat}
    (h : s.resumeAll deps minDep = .ok (s', minDep')) : Reaches (atomic perform) s s' := by
  induction deps generalizing s minDep with
  | nil =>
    cases h
    exact .refl _
  | cons dep deps ih =>
    rw [resumeAll_cons, Rust.bind_eq_ok_iff] at h
    obtain ⟨s₁, hresume, hrest⟩ := h
    exact (resume_reaches hresume).trans (ih hrest)

theorem wakeDependenciesAfterExecution_reaches {s s' : Scheduler C} {txnIdx : Nat}
    (h : s.wakeDependenciesAfterExecution txnIdx = .ok s') : Reaches (atomic perform) s s' := by
  have htake : Reaches (atomic perform) s (s.takeDependencies txnIdx).1 :=
    Reaches.single (.takeDependencies txnIdx) rfl
  unfold wakeDependenciesAfterExecution at h
  rw [Rust.bind_eq_ok_iff] at h
  obtain ⟨⟨s₁, minDep⟩, hresume, hmin⟩ := h
  have hreach := htake.trans (resumeAll_reaches hresume)
  cases minDep with
  | none =>
    cases hmin
    exact hreach
  | some target =>
    cases hmin
    exact hreach.trans (Reaches.single (.fetchMinExecutionIdx target) rfl)

theorem decreaseValidationIdx_reaches (s : Scheduler C) (targetIdx : Nat) :
    Reaches (atomic perform) s (s.decreaseValidationIdx targetIdx).1 :=
  Reaches.single (.decreaseValidationIdx targetIdx) rfl

theorem finishExecution_reaches {s s' : Scheduler C} {txnIdx incarnation : Nat}
    {revalidateSuffix : Bool} {task : SchedulerTask C}
    (h : s.finishExecution txnIdx incarnation revalidateSuffix = .ok (s', task)) :
    Reaches (atomic perform) s s' := by
  unfold finishExecution at h
  rw [Rust.bind_eq_ok_iff] at h
  obtain ⟨s₁, hexecuted, h⟩ := h
  rw [Rust.bind_eq_ok_iff] at h
  obtain ⟨s₂, hwake, h⟩ := h
  have hreach :=
    (setExecutedStatus_reaches hexecuted).trans (wakeDependenciesAfterExecution_reaches hwake)
  have hrequired (s₃ : Scheduler C) (wave : Nat) (hs₃ : Reaches (atomic perform) s₂ s₃) :
      Reaches (atomic perform) s (s₃.setRequiredWave txnIdx wave) :=
    (hreach.trans hs₃).trans (Reaches.single (.setRequiredWave txnIdx wave) rfl)
  dsimp only at h
  split at h
  · cases revalidateSuffix with
    | false =>
      simp only [Bool.false_eq_true, ↓reduceIte] at h
      exact reaches_of_pure_eq_ok (hrequired s₂ _ (.refl s₂)) h
    | true =>
      have hdecrease := decreaseValidationIdx_reaches s₂ (txnIdx + 1)
      rcases hpair : s₂.decreaseValidationIdx (txnIdx + 1) with ⟨s₃, _ | wave⟩ <;>
        rw [hpair] at h hdecrease <;>
        dsimp only [↓reduceIte] at h <;>
        exact reaches_of_pure_eq_ok (hrequired s₃ _ hdecrease) h
  · exact reaches_of_pure_eq_ok hreach h

theorem finishExecutionDuringCommit_reaches {s s' : Scheduler C} {txnIdx : Nat}
    (h : s.finishExecutionDuringCommit txnIdx = .ok s') : Reaches (atomic perform) s s' := by
  unfold finishExecutionDuringCommit at h
  rw [Rust.bind_eq_ok_iff] at h
  obtain ⟨s₁, hwake, h⟩ := h
  rw [Rust.pure_eq_ok_iff] at h
  exact h ▸ (wakeDependenciesAfterExecution_reaches hwake).trans
    (decreaseValidationIdx_reaches s₁ (txnIdx + 1))

theorem finishAbort_reaches {s s' : Scheduler C} {txnIdx incarnation : Nat}
    {task : SchedulerTask C} (h : s.finishAbort txnIdx incarnation = .ok (s', task)) :
    Reaches (atomic perform) s s' := by
  unfold finishAbort at h
  rw [Rust.bind_eq_ok_iff] at h
  obtain ⟨s₁, haborted, h⟩ := h
  have hreach := (setAbortedStatus_reaches haborted).trans
    (decreaseValidationIdx_reaches s₁ (txnIdx + 1))
  dsimp only at h
  split_ifs at h
  · have hincarnate : Reaches (atomic perform) s
        ((s₁.decreaseValidationIdx (txnIdx + 1)).1.tryIncarnate txnIdx).1 :=
      hreach.trans (Reaches.single (.tryIncarnate txnIdx) rfl)
    rcases hpair : (s₁.decreaseValidationIdx (txnIdx + 1)).1.tryIncarnate txnIdx with
      ⟨s₂, _ | ⟨newIncarnation, kind⟩⟩ <;>
      rw [hpair] at h hincarnate <;>
      exact reaches_of_pure_eq_ok hincarnate h
  · exact reaches_of_pure_eq_ok hreach h

/-- The halting loop of `halt` over any list of transactions. -/
theorem foldl_haltTransactionExecution_reaches (s : Scheduler C) (txns : List Nat) :
    Reaches (atomic perform) s (txns.foldl haltTransactionExecution s) := by
  induction txns generalizing s with
  | nil => exact .refl s
  | cons txnIdx txns ih =>
    exact (Reaches.single (.haltTransactionExecution txnIdx) rfl).trans (ih _)

theorem halt_reaches (s : Scheduler C) : Reaches (atomic perform) s s.halt.1 := by
  have hswap : Reaches (atomic perform) s s.swapDoneMarker.1 := Reaches.single .swapDoneMarker rfl
  unfold halt
  dsimp only
  split_ifs
  · exact hswap.trans (Reaches.single .swapHasHalted rfl)
  · exact (hswap.trans (foldl_haltTransactionExecution_reaches _ _)).trans
      (Reaches.single .swapHasHalted rfl)

theorem waitForDependency_reaches {s s' : Scheduler C} {txnIdx depTxnIdx : Nat} {condvar : C}
    {result : DependencyResult C}
    (h : s.waitForDependency txnIdx depTxnIdx condvar = .ok (s', result)) :
    Reaches (atomic perform) s s' := by
  have hnew : Reaches (atomic perform) s (s.newCondvar condvar) :=
    Reaches.single (.newCondvar condvar) rfl
  unfold waitForDependency at h
  split at h
  · cases h
  dsimp only at h
  split at h
  · simp only [Except.ok.injEq, Prod.mk.injEq] at h
    exact h.1 ▸ hnew
  · rw [Rust.bind_eq_ok_iff] at h
    obtain ⟨⟨s₁, suspended⟩, hsuspend, h⟩ := h
    have hreach := hnew.trans (suspend_reaches hsuspend)
    dsimp only at h
    split_ifs at h
    · exact reaches_of_pure_eq_ok
        (hreach.trans (Reaches.single (.pushDependency depTxnIdx txnIdx) rfl)) h
    · exact reaches_of_pure_eq_ok hreach h

end Steps

/-! ## `next_task` returns -/

/-- The indices `next_task` may still claim for validation or take for execution. -/
def pending (s : Scheduler C) : Nat :=
  (s.numTxns - (unpackValidationIdx s.validationIdx).1) + (s.numTxns - s.executionIdx)

theorem pack_unpackValidationIdx (validationIdx : Nat) :
    packIntoValidationIndex (unpackValidationIdx validationIdx).1
      (unpackValidationIdx validationIdx).2 = validationIdx := by
  have hlt : validationIdx % 2 ^ 32 < 2 ^ 32 := Nat.mod_lt _ (Nat.two_pow_pos 32)
  simp only [unpackValidationIdx, txnIdxMask, Nat.and_two_pow_sub_one_eq_mod,
    Nat.shiftRight_eq_div_pow]
  rw [packIntoValidationIndex_eq hlt, Nat.div_add_mod]

theorem tryValidateNextVersion_fst (s : Scheduler C) (idx wave : Nat) :
    (s.tryValidateNextVersion idx wave).1 = (s.claimValidation idx wave).1 := by
  unfold tryValidateNextVersion
  split <;> next s' hclaim => rw [hclaim]

theorem claimValidation_current (s : Scheduler C) :
    (s.claimValidation (unpackValidationIdx s.validationIdx).1
      (unpackValidationIdx s.validationIdx).2).1 =
      { s with validationIdx := s.validationIdx + 1 } := by
  unfold claimValidation
  rw [if_pos (pack_unpackValidationIdx s.validationIdx).symm]
  rfl

theorem tryExecuteNextVersion_fields (s : Scheduler C) :
    s.tryExecuteNextVersion.1.numTxns = s.numTxns ∧
      s.tryExecuteNextVersion.1.validationIdx = s.validationIdx ∧
      s.tryExecuteNextVersion.1.executionIdx = s.executionIdx + 1 := by
  unfold tryExecuteNextVersion tryIncarnate fetchAddExecutionIdx
  dsimp only
  split_ifs
  · exact ⟨rfl, rfl, rfl⟩
  · split <;> exact ⟨rfl, rfl, rfl⟩

theorem unpackValidationIdx_succ (validationIdx : Nat)
    (hidx : (unpackValidationIdx validationIdx).1 + 1 < 2 ^ 32) :
    unpackValidationIdx (validationIdx + 1) =
      ((unpackValidationIdx validationIdx).1 + 1, (unpackValidationIdx validationIdx).2) := by
  conv_lhs => rw [← pack_unpackValidationIdx validationIdx]
  exact unpackValidationIdx_next hidx _

theorem pending_claim {s : Scheduler C} (hnum : s.numTxns < 2 ^ 32)
    (hidx : (unpackValidationIdx s.validationIdx).1 < s.numTxns) :
    pending { s with validationIdx := s.validationIdx + 1 } + 1 = pending s := by
  have hsucc := unpackValidationIdx_succ s.validationIdx (by omega)
  simp only [pending, hsucc]
  omega

theorem pending_tryExecute {s : Scheduler C} (hidx : s.executionIdx < s.numTxns) :
    pending s.tryExecuteNextVersion.1 + 1 = pending s := by
  obtain ⟨hnum, hval, hexec⟩ := tryExecuteNextVersion_fields s
  simp only [pending, hnum, hval, hexec]
  omega

/-- An execution attempt below the block's end takes one execution index, whatever it answers. -/
theorem pending_of_tryExecuteNextVersion_eq {s s' : Scheduler C}
    {found : Option (Nat × Nat × ExecutionTaskType C)}
    (h : s.tryExecuteNextVersion = (s', found)) (hidx : s.executionIdx < s.numTxns) :
    pending s' + 1 = pending s ∧ s'.numTxns = s.numTxns := by
  have hs' : s.tryExecuteNextVersion.1 = s' := by rw [h]
  rw [← hs']
  exact ⟨pending_tryExecute hidx, (tryExecuteNextVersion_fields s).1⟩

theorem nextTaskRound_pending {s : Scheduler C} (hnum : s.numTxns < 2 ^ 32)
    (hnone : s.nextTaskRound.2 = none) :
    pending s.nextTaskRound.1 < pending s ∧ s.nextTaskRound.1.numTxns = s.numTxns := by
  have hclaimed := (tryValidateNextVersion_fst s (unpackValidationIdx s.validationIdx).1
    (unpackValidationIdx s.validationIdx).2).trans (claimValidation_current s)
  unfold nextTaskRound at hnone ⊢
  dsimp only at hnone ⊢
  split_ifs at hnone ⊢ with hdone hretry hprefer hexec hexec'
  · have hidx : (unpackValidationIdx s.validationIdx).1 < s.numTxns := by
      simp only [Bool.and_eq_true, decide_eq_true_eq] at hprefer
      omega
    split at hnone
    · cases hnone
    · split at hnone
      · cases hnone
      · next s₂ hexecute =>
        rw [hclaimed] at hexecute hexec
        obtain ⟨hexecuted, hsame⟩ := pending_of_tryExecuteNextVersion_eq hexecute hexec
        have hclaim := pending_claim hnum hidx
        dsimp only
        exact ⟨by omega, hsame⟩
  · have hidx : (unpackValidationIdx s.validationIdx).1 < s.numTxns := by
      simp only [Bool.and_eq_true, decide_eq_true_eq] at hprefer
      omega
    split at hnone
    · cases hnone
    · dsimp only
      rw [hclaimed]
      exact ⟨by have := pending_claim hnum hidx; omega, rfl⟩
  · dsimp only at hnone hexec' ⊢
    split at hnone
    · cases hnone
    · next s₂ hexecute =>
      obtain ⟨hexecuted, hsame⟩ := pending_of_tryExecuteNextVersion_eq hexecute hexec'
      dsimp only
      exact ⟨by omega, hsame⟩
  · exfalso
    have hend : s.numTxns ≤ s.executionIdx := Nat.le_of_not_lt hexec'
    rw [Bool.not_eq_true] at hprefer
    simp only [hprefer, Bool.not_false, Bool.true_and, decide_eq_true_eq] at hretry
    exact hretry hend

theorem nextTask_returns_of_pending_lt {s : Scheduler C} {fuel : Nat} (hnum : s.numTxns < 2 ^ 32)
    (henough : pending s < fuel) : ∃ task, (s.nextTask fuel).2 = some task := by
  induction fuel generalizing s with
  | zero => omega
  | succ fuel ih =>
    rw [nextTask_succ]
    rcases hround : s.nextTaskRound with ⟨s', _ | task⟩
    · obtain ⟨hlt, hsame⟩ := nextTaskRound_pending hnum (by rw [hround])
      rw [hround] at hlt hsame
      dsimp only at hlt hsame ⊢
      exact ih (hsame ▸ hnum) (by omega)
    · exact ⟨task, rfl⟩

theorem nextTask_returns (s : Scheduler C) (hnum : s.numTxns < 2 ^ 32) :
    ∃ task, (s.nextTask (2 * s.numTxns + 1)).2 = some task :=
  nextTask_returns_of_pending_lt hnum (by unfold pending; omega)

/-- Three transactions: the first is executing a re-incarnation, the second its first
incarnation, so the first round validates nothing and finds nothing to execute; the second round
hands out the third transaction. -/
theorem nextTask_returns_busy :
    let s : Scheduler Nat := ⟨3, fun _ ↦ [],
      fun i ↦ if i = 0 then .executing 1 .execution
        else if i = 1 then .executing 0 .execution else .ready 0 .execution,
      fun _ ↦ ValidationStatus.new, (0, 0), 1, 0, false, false, ArmedLock.new, [],
      fun _ ↦ .unresolved⟩
    s.nextTaskRound.2 = none ∧ s.numTxns < 2 ^ 32 ∧
      ∃ task, (s.nextTask (2 * s.numTxns + 1)).2 = some task := by
  intro s
  exact ⟨by decide, by norm_num, nextTask_returns s (by norm_num)⟩

/-! ## `halt` releases every waiting execution -/

section Halt

variable [DecidableEq C]

/-- `halt_transaction_execution` through the condition variable the status waits on. -/
theorem haltTransactionExecution_eq (s : Scheduler C) (txnIdx : Nat) :
    s.haltTransactionExecution txnIdx =
      match (s.executionStatus txnIdx).waitsOn with
      | some condvar =>
        { s.setStatus txnIdx .executionHalted with
          dependencyStatus := Function.update s.dependencyStatus condvar .executionHalted }
      | none => s.setStatus txnIdx .executionHalted := by
  unfold haltTransactionExecution
  cases hstatus : s.executionStatus txnIdx with
  | ready incarnation kind => cases kind <;> rfl
  | executing incarnation kind => cases kind <;> rfl
  | suspended | executed | committed | aborting | executionHalted => rfl

theorem haltTransactionExecution_executionStatus (s : Scheduler C) (txnIdx : Nat) :
    (s.haltTransactionExecution txnIdx).executionStatus =
      (s.setStatus txnIdx .executionHalted).executionStatus := by
  rw [haltTransactionExecution_eq]
  split <;> rfl

theorem haltTransactionExecution_dependencyStatus (s : Scheduler C) (txnIdx : Nat) (condvar : C)
    (h : (s.executionStatus txnIdx).waitsOn = some condvar ∨
      s.dependencyStatus condvar = .executionHalted) :
    (s.haltTransactionExecution txnIdx).dependencyStatus condvar = .executionHalted := by
  rw [haltTransactionExecution_eq]
  split
  · next waited hwaits =>
    rw [hwaits, Option.some.injEq] at h
    dsimp only
    by_cases hsame : condvar = waited
    · subst hsame
      exact Function.update_self _ _ _
    · rw [Function.update_of_ne hsame]
      exact h.resolve_left (Ne.symm hsame)
  · next hwaits =>
    rw [hwaits] at h
    exact h.resolve_left nofun

theorem haltTransactionExecution_flags (s : Scheduler C) (txnIdx : Nat) :
    (s.haltTransactionExecution txnIdx).doneMarker = s.doneMarker ∧
      (s.haltTransactionExecution txnIdx).hasHalted = s.hasHalted := by
  rw [haltTransactionExecution_eq]
  split <;> exact ⟨rfl, rfl⟩

/-- The halting loop over `txns` halts each of them and tells each condition variable that one
of them waits on; what is halted or told already stays so. -/
theorem foldl_haltTransactionExecution (s : Scheduler C) (txns : List Nat) :
    (∀ txnIdx, s.executionStatus txnIdx = .executionHalted ∨ txnIdx ∈ txns →
      (txns.foldl haltTransactionExecution s).executionStatus txnIdx = .executionHalted) ∧
    (∀ condvar, s.dependencyStatus condvar = .executionHalted ∨
        (∃ txnIdx ∈ txns, (s.executionStatus txnIdx).waitsOn = some condvar) →
      (txns.foldl haltTransactionExecution s).dependencyStatus condvar = .executionHalted) ∧
    (txns.foldl haltTransactionExecution s).doneMarker = s.doneMarker ∧
    (txns.foldl haltTransactionExecution s).hasHalted = s.hasHalted := by
  induction txns generalizing s with
  | nil =>
    refine ⟨fun _ h ↦ ?_, fun _ h ↦ ?_, rfl, rfl⟩
    · simpa using h
    · simpa using h
  | cons txnIdx txns ih =>
    obtain ⟨hstatus, hcondvar, hdone, hhalted⟩ := ih (s.haltTransactionExecution txnIdx)
    have hstep := haltTransactionExecution_executionStatus s txnIdx
    obtain ⟨hdone₁, hhalted₁⟩ := haltTransactionExecution_flags s txnIdx
    refine ⟨fun other hother ↦ hstatus other ?_, fun condvar hcond ↦ hcondvar condvar ?_,
      hdone.trans hdone₁, hhalted.trans hhalted₁⟩
    · rw [hstep, setStatus_executionStatus]
      by_cases hfirst : other = txnIdx
      · exact .inl (if_pos hfirst)
      · rw [if_neg hfirst]
        rcases hother with hhalted | hmem
        · exact .inl hhalted
        · exact .inr ((List.mem_cons.mp hmem).resolve_left hfirst)
    · rcases hcond with hhalted | ⟨other, hmem, hwaits⟩
      · exact .inl (haltTransactionExecution_dependencyStatus s txnIdx condvar (.inr hhalted))
      · by_cases hfirst : other = txnIdx
        · subst hfirst
          exact .inl (haltTransactionExecution_dependencyStatus s other condvar (.inl hwaits))
        · refine .inr ⟨other, (List.mem_cons.mp hmem).resolve_left hfirst, ?_⟩
          rw [hstep, setStatus_executionStatus, if_neg hfirst]
          exact hwaits

/-- The first `halt` halts every transaction of the block and tells every condition variable a
suspended or woken execution waits on, so that no execution stays suspended on a dependency; it
sets the done marker and answers whether it was the first to set `has_halted`. -/
theorem halt_halts (s : Scheduler C) (hfirst : s.doneMarker = false) :
    (∀ txnIdx < s.numTxns, s.halt.1.executionStatus txnIdx = .executionHalted) ∧
    (∀ txnIdx < s.numTxns, ∀ condvar, (s.executionStatus txnIdx).waitsOn = some condvar →
      s.halt.1.dependencyStatus condvar = .executionHalted) ∧
    s.halt.1.doneMarker = true ∧ s.halt.2 = !s.hasHalted := by
  obtain ⟨hstatus, hcondvar, hdone, hhalted⟩ :=
    foldl_haltTransactionExecution s.swapDoneMarker.1 (List.range s.numTxns)
  have hhalt : s.halt =
      ({ (List.range s.numTxns).foldl haltTransactionExecution s.swapDoneMarker.1 with
          hasHalted := true },
        !((List.range s.numTxns).foldl haltTransactionExecution s.swapDoneMarker.1).hasHalted) := by
    unfold halt
    simp only [swapDoneMarker, hfirst, Bool.false_eq_true, ↓reduceIte]
    rfl
  rw [hhalt]
  refine ⟨fun txnIdx hlt ↦ hstatus txnIdx (.inr (List.mem_range.mpr hlt)),
    fun txnIdx hlt condvar hwaits ↦ hcondvar condvar (.inr ⟨txnIdx, List.mem_range.mpr hlt, hwaits⟩),
    hdone, ?_⟩
  rw [hhalted]
  rfl

/-- Two transactions, the first suspended on condition variable 5 and the second woken from
condition variable 7: halting tells both. -/
theorem halt_halts_waiting :
    let s : Scheduler Nat := ⟨2, fun _ ↦ [],
      fun i ↦ if i = 0 then .suspended 0 5 else .ready 1 (.wakeup 7),
      fun _ ↦ ValidationStatus.new, (0, 0), 2, 0, false, false, ArmedLock.new, [],
      fun _ ↦ .unresolved⟩
    (s.executionStatus 0).waitsOn = some 5 ∧ (s.executionStatus 1).waitsOn = some 7 ∧
      s.doneMarker = false ∧
      (∀ txnIdx < s.numTxns, s.halt.1.executionStatus txnIdx = .executionHalted) ∧
      (∀ txnIdx < s.numTxns, ∀ condvar, (s.executionStatus txnIdx).waitsOn = some condvar →
        s.halt.1.dependencyStatus condvar = .executionHalted) ∧
      s.halt.1.doneMarker = true ∧ s.halt.2 = !s.hasHalted := by
  intro s
  exact ⟨rfl, rfl, rfl, halt_halts s rfl⟩

end Halt

/-! ## Runs of whole calls -/

section Calls

variable [DecidableEq C]

/-- A call of one of the scheduler's functions with its arguments: a function that is one atomic
step, or one of those that take several. -/
inductive Call (C : Type)
  | step (action : Action C)
  | nextTask (fuel : Nat)
  | finishExecution (txnIdx incarnation : Nat) (revalidateSuffix : Bool)
  | finishExecutionDuringCommit (txnIdx : Nat)
  | finishAbort (txnIdx incarnation : Nat)
  | halt
  | waitForDependency (txnIdx depTxnIdx : Nat) (condvar : C)

/-- The state a call returns in; `none` when it returns an error. -/
def Call.run? (s : Scheduler C) : Call C → Option (Scheduler C)
  | .step action => some (atomic perform s action).1
  | .nextTask fuel => some (s.nextTask fuel).1
  | .finishExecution txnIdx incarnation revalidateSuffix =>
    (s.finishExecution txnIdx incarnation revalidateSuffix).toOption.map (·.1)
  | .finishExecutionDuringCommit txnIdx => (s.finishExecutionDuringCommit txnIdx).toOption
  | .finishAbort txnIdx incarnation => (s.finishAbort txnIdx incarnation).toOption.map (·.1)
  | .halt => some s.halt.1
  | .waitForDependency txnIdx depTxnIdx condvar =>
    (s.waitForDependency txnIdx depTxnIdx condvar).toOption.map (·.1)

/-- Every call that returns ends where a run of atomic steps ends. -/
theorem Call.reaches_of_run? {s s' : Scheduler C} {call : Call C} (h : call.run? s = some s') :
    Reaches (atomic perform) s s' := by
  cases call with
  | step action => exact Reaches.single action (Option.some.inj h)
  | nextTask fuel => exact Option.some.inj h ▸ nextTask_reaches s fuel
  | finishExecution txnIdx incarnation revalidateSuffix =>
    obtain ⟨⟨s'', task⟩, hok, rfl⟩ := Option.map_eq_some_iff.mp h
    exact finishExecution_reaches (Except.eq_ok_of_toOption hok)
  | finishExecutionDuringCommit txnIdx =>
    exact finishExecutionDuringCommit_reaches (Except.eq_ok_of_toOption h)
  | finishAbort txnIdx incarnation =>
    obtain ⟨⟨s'', task⟩, hok, rfl⟩ := Option.map_eq_some_iff.mp h
    exact finishAbort_reaches (Except.eq_ok_of_toOption hok)
  | halt => exact Option.some.inj h ▸ halt_reaches s
  | waitForDependency txnIdx depTxnIdx condvar =>
    obtain ⟨⟨s'', result⟩, hok, rfl⟩ := Option.map_eq_some_iff.mp h
    exact waitForDependency_reaches (Except.eq_ok_of_toOption hok)

theorem reaches_of_foldlM_run? {s s' : Scheduler C} {calls : List (Call C)}
    (h : calls.foldlM Call.run? s = some s') : Reaches (atomic perform) s s' := by
  induction calls generalizing s with
  | nil => exact Option.some.inj h ▸ .refl s
  | cons call calls ih =>
    rw [List.foldlM_cons] at h
    cases hcall : call.run? s with
    | none => rw [hcall] at h; cases h
    | some s₁ =>
      rw [hcall] at h
      exact (Call.reaches_of_run? hcall).trans (ih h)

/-- After any sequence of calls of the scheduler's functions from a new scheduler, each
returning, exactly the transactions below the commit index are committed but for those halted
since, the commit index stays within the block, the done marker is set once it reaches the end,
and the status of every transaction has moved along the documented diagram. -/
theorem calls_commitInvariant {numTxns : Nat} {s : Scheduler C}
    (hnew : Scheduler.new numTxns = some s) (calls : List (Call C)) :
    ∀ s' ∈ calls.foldlM Call.run? s, s'.commitView.Invariant ∧
      ∀ txnIdx, Relation.ReflTransGen StatusEdge (s.executionStatus txnIdx)
        (s'.executionStatus txnIdx) := by
  intro s' hs'
  have hreach := reaches_of_foldlM_run? (Option.mem_def.mp hs')
  refine ⟨hreach.invariant (P := fun state : Scheduler C ↦ state.commitView.Invariant)
    (fun _ action hinv ↦ atomic_perform_invariant hinv action) (new_invariant hnew),
    fun txnIdx ↦ hreach.reflTransGen (·.executionStatus txnIdx) ?_⟩
  intro state action
  rcases atomic_perform_moves state action txnIdx with hsame | hedge
  · exact hsame ▸ .refl
  · exact .single hedge

/-- Two transactions: the first is executed, validated and committed through whole calls. -/
theorem calls_commitInvariant_commit_first :
    let s : Scheduler Nat := ⟨2, fun _ ↦ [], fun _ ↦ .ready 0 .execution,
      fun _ ↦ ValidationStatus.new, (0, 0), 0, 0, false, false, ArmedLock.new, [],
      fun _ ↦ .unresolved⟩
    let calls : List (Call Nat) := [.nextTask 5, .finishExecution 0 0 false, .nextTask 5,
      .step (.finishValidation 0 0), .step (.tryCommit true)]
    Scheduler.new 2 = some s ∧
      (calls.foldlM Call.run? s).map (·.commitState.1) = some 1 ∧
      ∀ s' ∈ calls.foldlM Call.run? s, s'.commitView.Invariant ∧
        ∀ txnIdx, Relation.ReflTransGen StatusEdge (s.executionStatus txnIdx)
          (s'.executionStatus txnIdx) := by
  intro s calls
  have hnew : Scheduler.new 2 = some s := rfl
  exact ⟨hnew, by decide, calls_commitInvariant hnew calls⟩

end Calls

end Scheduler

end AptosCore.BlockExecutor
