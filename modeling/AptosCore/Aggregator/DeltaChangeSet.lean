import AptosCore.Aggregator.DeltaMath

/-!
# Delta operations

`aptos-aggregator/src/delta_change_set.rs`: a `DeltaOp` is an update of an aggregator together
with the history that decides on which starting values it is valid. `apply_to` checks the
history and adds the update; `create_merged_delta` squashes two consecutive operations into one,
and `merge_with_previous_delta` / `merge_with_next_delta` do so in place.
-/

namespace AptosCore.Aggregator

/-- `DeltaOp`. -/
structure DeltaOp where
  history : DeltaHistory
  maxValue : Nat
  update : SignedU128
  deriving DecidableEq, Repr

/-- A result that is a value or a speculative error, not a broken code invariant. -/
def NoCodeInvariant {α β : Type} : Except (PanicOr β) α → Prop
  | .error (.codeInvariantError _) => False
  | _ => True

@[simp] theorem noCodeInvariant_ok {α β : Type} (value : α) :
    NoCodeInvariant (.ok value : Except (PanicOr β) α) ↔ True := Iff.rfl

@[simp] theorem noCodeInvariant_or {α β : Type} (error : β) :
    NoCodeInvariant (.error (.or error) : Except (PanicOr β) α) ↔ True := Iff.rfl

@[simp] theorem noCodeInvariant_codeInvariantError {α β : Type} (message : String) :
    NoCodeInvariant (.error (.codeInvariantError message) : Except (PanicOr β) α) ↔ False :=
  Iff.rfl

namespace DeltaOp

/-- `DeltaOp::apply_to`; `none` is a panic. -/
def applyTo (op : DeltaOp) (base : Nat) :
    Option (Except (PanicOr DelayedFieldsSpeculativeError) Nat) :=
  mergeDataAndDelta base op.update op.history op.maxValue

def createMergedDelta (prevDelta nextDelta : DeltaOp) :
    Except (PanicOr DelayedFieldsSpeculativeError) DeltaOp := do
  if prevDelta.maxValue ≠ nextDelta.maxValue then
    throw (codeInvariantError "Cannot merge deltas with different limits")
  let (newUpdate, newHistory) ← mergeTwoDeltas prevDelta.update prevDelta.history
    nextDelta.update nextDelta.history nextDelta.maxValue
  pure ⟨newHistory, nextDelta.maxValue, newUpdate⟩

/-- `merge_with_previous_delta` on `self`: the outcome and the new `self`, which a failed merge
leaves as it was. -/
def mergeWithPreviousDelta (self previousDelta : DeltaOp) :
    Except (PanicOr DelayedFieldsSpeculativeError) Unit × DeltaOp :=
  match createMergedDelta previousDelta self with
  | .ok merged => (.ok (), merged)
  | .error error => (.error error, self)

/-- `merge_with_next_delta` on `self`. -/
def mergeWithNextDelta (self nextDelta : DeltaOp) :
    Except (PanicOr DelayedFieldsSpeculativeError) Unit × DeltaOp :=
  match createMergedDelta self nextDelta with
  | .ok merged => (.ok (), merged)
  | .error error => (.error error, self)

/-- `delta_add`: `+v` with a history that has seen exactly `+v`. -/
def deltaAdd (v maxValue : Nat) : DeltaOp :=
  ⟨⟨v, 0, none, none⟩, maxValue, .positive v⟩

/-- `delta_sub`: `-v` with a history that has seen exactly `-v`. -/
def deltaSub (v maxValue : Nat) : DeltaOp :=
  ⟨⟨0, v, none, none⟩, maxValue, .negative v⟩

/-! ## Specifications -/

variable {prev next merged : DeltaOp}

/-- A merge succeeds exactly when the limits agree, the history of `next` offsets onto that of
`prev`, and the two updates add up within the limit. -/
theorem createMergedDelta_eq_ok_iff :
    createMergedDelta prev next = .ok merged ↔
      prev.maxValue = next.maxValue ∧
        next.history.offsetAndMergeHistory prev.update prev.history next.maxValue =
          .ok merged.history ∧
        (BoundedMath.mk next.maxValue).signedAdd prev.update next.update = .ok merged.update ∧
        merged.maxValue = next.maxValue := by
  by_cases hmax : prev.maxValue = next.maxValue
  · simp only [createMergedDelta, mergeTwoDeltas, hmax, ne_eq, not_true_eq_false, if_false]
    simp only [Rust.bind_eq_ok_iff, Rust.pure_eq_ok_iff, Rust.mapError_eq_ok_iff,
      expectOk_eq_ok_iff, true_and]
    constructor
    · rintro ⟨_, ⟨history, hhistory, update, hupdate, rfl⟩, rfl⟩
      exact ⟨hhistory, hupdate, rfl⟩
    · rintro ⟨hhistory, hupdate, hmaxValue⟩
      refine ⟨_, ⟨_, hhistory, _, hupdate, rfl⟩, ?_⟩
      cases merged
      subst hmaxValue
      rfl
  · simp [createMergedDelta, hmax]

/-- `+24` then `-23` merge into `+1`, as in `test_delta_merge_plus`. -/
example : (createMergedDelta (deltaAdd 24 100) (deltaSub 23 100)).map update =
    .ok (.positive 1) := by
  decide

/-- With equal limits, a failed history merge is the merge's speculative error. -/
theorem createMergedDelta_eq_error_of_history (hmax : prev.maxValue = next.maxValue)
    {error : DelayedFieldsSpeculativeError}
    (hhistory : next.history.offsetAndMergeHistory prev.update prev.history next.maxValue =
      .error error) :
    createMergedDelta prev next = .error (.or error) := by
  simp [createMergedDelta, mergeTwoDeltas, hmax, hhistory, Except.mapError, bind, Except.bind]

end DeltaOp

end AptosCore.Aggregator
