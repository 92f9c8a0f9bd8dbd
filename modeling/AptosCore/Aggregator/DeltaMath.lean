import AptosCore.Aggregator.Types

/-!
# Delta histories

`aptos-aggregator/src/delta_math.rs`. A `DeltaHistory` records what one transaction observed of
an aggregator whose starting value it did not know: the largest positive and negative deltas it
applied successfully, and the smallest positive and negative deltas that overflowed or
underflowed. A starting value is consistent with the history when it would have produced the
same outcomes (`DeltaHistory.ValidOn`, the four conditions listed in
`validate_against_base_value`).

`offset_and_merge_history` merges the history of a later delta into that of an earlier one by
shifting each recorded delta of the later one by the earlier update. Each of its four fields is
computed by one of two helpers, called once per direction.

A `u128` subtraction that goes below zero panics in the release build (`overflow-checks`); the
one such subtraction here is `max_value - min_overflow_positive_delta`, and the model returns
`none` there.
-/

namespace AptosCore.Aggregator

/-- `DeltaHistory`. -/
structure DeltaHistory where
  maxAchievedPositiveDelta : Nat
  minAchievedNegativeDelta : Nat
  minOverflowPositiveDelta : Option Nat
  maxUnderflowNegativeDelta : Option Nat
  deriving DecidableEq, Repr

namespace DeltaHistory

/-- The starting values `validate_against_base_value` accepts, as its comment lists them. -/
def ValidOn (history : DeltaHistory) (baseValue maxValue : Nat) : Prop :=
  baseValue + history.maxAchievedPositiveDelta ≤ maxValue ∧
    history.minAchievedNegativeDelta ≤ baseValue ∧
    (∀ delta ∈ history.minOverflowPositiveDelta, maxValue < baseValue + delta) ∧
    ∀ delta ∈ history.maxUnderflowNegativeDelta, baseValue < delta

instance (history : DeltaHistory) (baseValue maxValue : Nat) :
    Decidable (history.ValidOn baseValue maxValue) :=
  inferInstanceAs (Decidable (_ ∧ _ ∧ _ ∧ _))

/-- `validate_against_base_value`; `none` is the panic of `max_value - min_overflow_positive_delta`
when the recorded overflow exceeds `max_value`. -/
def validateAgainstBaseValue (history : DeltaHistory) (baseValue maxValue : Nat) :
    Option (Except DelayedFieldsSpeculativeError Unit) :=
  let math : BoundedMath := ⟨maxValue⟩
  let failure (delta : SignedU128) (reason : DeltaApplicationFailureReason) :
      Option (Except DelayedFieldsSpeculativeError Unit) :=
    some (.error (.deltaApplication baseValue maxValue delta reason))
  let checkUnderflow : Option (Except DelayedFieldsSpeculativeError Unit) :=
    match history.maxUnderflowNegativeDelta with
    | some delta =>
      if baseValue ≥ delta then failure (.negative delta) .expectedUnderflow else some (.ok ())
    | none => some (.ok ())
  match math.unsignedAdd baseValue history.maxAchievedPositiveDelta with
  | .error _ => failure (.positive history.maxAchievedPositiveDelta) .overflow
  | .ok _ =>
    match math.unsignedSubtract baseValue history.minAchievedNegativeDelta with
    | .error _ => failure (.negative history.minAchievedNegativeDelta) .underflow
    | .ok _ =>
      match history.minOverflowPositiveDelta with
      | some delta =>
        if maxValue < delta then none
        else if baseValue ≤ maxValue - delta then failure (.positive delta) .expectedOverflow
        else checkUnderflow
      | none => checkUnderflow

/-- `offset_and_merge_min_overflow`: shift a recorded failure by `prev_delta` and keep the
smaller of it and the earlier one. A shifted overflow beyond `max_value` can no longer be
reached and is dropped; one that crossed zero fails the merge. -/
def offsetAndMergeMinOverflow (minOverflow : Option Nat) (prevDelta : SignedU128)
    (prevMinOverflow : Option Nat) (math : BoundedMath) :
    Except DelayedFieldsSpeculativeError (Option Nat) := do
  let adjustedMinOverflow ← match minOverflow with
    | none => pure none
    | some minOverflow =>
      (okOverflow (math.unsignedAddDelta minOverflow prevDelta)).mapError fun _ ↦
        .deltaHistoryMergeOffset minOverflow prevDelta math.maxValue
          .failureNotExceedingBoundsAnyMore
  pure <| match adjustedMinOverflow, prevMinOverflow with
    | some a, some b => some (min a b)
    | a, b => a.or b

/-- `offset_and_merge_max_achieved`: shift a recorded success by `prev_delta` and keep the larger
of it and the earlier one. A shifted success below zero is dominated by the earlier one; one
beyond `max_value` fails the merge. -/
def offsetAndMergeMaxAchieved (maxAchieved : Nat) (prevDelta : SignedU128)
    (prevMaxAchieved : Nat) (math : BoundedMath) : Except DelayedFieldsSpeculativeError Nat := do
  let adjusted ← (okUnderflow (math.unsignedAddDelta maxAchieved prevDelta)).mapError fun _ ↦
    .deltaHistoryMergeOffset maxAchieved prevDelta math.maxValue .achievedExceedsBounds
  pure <| match adjusted with
    | some value => max prevMaxAchieved value
    | none => prevMaxAchieved

/-- The two overlap checks that end `offset_and_merge_history`: a failure at or below an
achieved delta, with `sign` the side they are on. -/
def checkOverlap (achieved : Nat) (failure : Option Nat) (sign : Nat → SignedU128) :
    Except DelayedFieldsSpeculativeError Unit :=
  match failure with
  | some failure =>
    if failure ≤ achieved then
      throw (.deltaHistoryMergeAchievedAndFailureOverlap (sign achieved) (sign failure))
    else pure ()
  | none => pure ()

@[simp] theorem checkOverlap_none (achieved : Nat) (sign : Nat → SignedU128) :
    checkOverlap achieved none sign = pure () := rfl

theorem checkOverlap_some (achieved failure : Nat) (sign : Nat → SignedU128) :
    checkOverlap achieved (some failure) sign =
      if failure ≤ achieved then
        throw (.deltaHistoryMergeAchievedAndFailureOverlap (sign achieved) (sign failure))
      else pure () := rfl

/-- `offset_and_merge_history`: the history of `self` applied after `prev_delta` with history
`prev_history`. `max_underflow` is offset like `min_overflow`, in the opposite direction. -/
def offsetAndMergeHistory (history : DeltaHistory) (prevDelta : SignedU128)
    (prevHistory : DeltaHistory) (maxValue : Nat) :
    Except DelayedFieldsSpeculativeError DeltaHistory := do
  let math : BoundedMath := ⟨maxValue⟩
  let newMinOverflow ← offsetAndMergeMinOverflow history.minOverflowPositiveDelta prevDelta
    prevHistory.minOverflowPositiveDelta math
  let newMaxUnderflow ← offsetAndMergeMinOverflow history.maxUnderflowNegativeDelta
    prevDelta.minus prevHistory.maxUnderflowNegativeDelta math
  let newMaxAchieved ← offsetAndMergeMaxAchieved history.maxAchievedPositiveDelta prevDelta
    prevHistory.maxAchievedPositiveDelta math
  let newMinAchieved ← offsetAndMergeMaxAchieved history.minAchievedNegativeDelta
    prevDelta.minus prevHistory.minAchievedNegativeDelta math
  checkOverlap newMaxAchieved newMinOverflow .positive
  checkOverlap newMinAchieved newMaxUnderflow .negative
  pure ⟨newMaxAchieved, newMinAchieved, newMinOverflow, newMaxUnderflow⟩

/-! ## Specifications -/

variable {history : DeltaHistory} {baseValue maxValue : Nat}

/-- Where no recorded overflow exceeds `max_value`, validation does not panic, and it accepts
exactly the starting values its comment lists. -/
theorem validateAgainstBaseValue_spec
    (hbound : ∀ delta ∈ history.minOverflowPositiveDelta, delta ≤ maxValue) :
    ∃ result, history.validateAgainstBaseValue baseValue maxValue = some result ∧
      (result = .ok () ↔ history.ValidOn baseValue maxValue) := by
  unfold validateAgainstBaseValue ValidOn
  simp only [BoundedMath.unsignedAdd_spec, BoundedMath.unsignedSubtract_spec]
  by_cases hachieved : baseValue + history.maxAchievedPositiveDelta ≤ maxValue
  · by_cases hneg : history.minAchievedNegativeDelta ≤ baseValue
    · simp only [hachieved, hneg, if_true, true_and]
      cases hO : history.minOverflowPositiveDelta with
      | none =>
        cases hU : history.maxUnderflowNegativeDelta with
        | none => simp
        | some underflow =>
          by_cases hunder : baseValue ≥ underflow
          · simp [hunder]
          · simp [hunder]
            omega
      | some overflow =>
        have hpanic : ¬ maxValue < overflow := Nat.not_lt.mpr (hbound overflow hO)
        by_cases hover : baseValue ≤ maxValue - overflow
        · simp [hpanic, hover]
          omega
        · cases hU : history.maxUnderflowNegativeDelta with
          | none =>
            simp [hpanic, hover]
            omega
          | some underflow =>
            by_cases hunder : baseValue ≥ underflow
            · simp [hpanic, hover, hunder]
            · simp [hpanic, hover, hunder]
              omega
    · simp [hachieved, hneg]
  · simp [hachieved]

variable {math : BoundedMath}

/-- `offset_and_merge_min_overflow` on a recorded failure within `[0, max_value]`. -/
theorem offsetAndMergeMinOverflow_spec {minOverflow : Option Nat}
    (hbound : ∀ delta ∈ minOverflow, delta ≤ math.maxValue) (prevDelta : SignedU128)
    (prevMinOverflow : Option Nat) :
    offsetAndMergeMinOverflow minOverflow prevDelta prevMinOverflow math =
      match minOverflow with
      | none => .ok prevMinOverflow
      | some delta =>
        if (delta : Int) + prevDelta.toInt < 0 then
          .error (.deltaHistoryMergeOffset delta prevDelta math.maxValue
            .failureNotExceedingBoundsAnyMore)
        else if (delta : Int) + prevDelta.toInt ≤ math.maxValue then
          .ok (Option.merge min (some (delta + prevDelta.toInt).toNat) prevMinOverflow)
        else .ok prevMinOverflow := by
  cases minOverflow with
  | none => cases prevMinOverflow <;> rfl
  | some delta =>
    unfold offsetAndMergeMinOverflow
    simp only [math.unsignedAddDelta_spec (hbound delta rfl)]
    by_cases hneg : (delta : Int) + prevDelta.toInt < 0
    · simp [hneg, Except.mapError, bind, Except.bind]
    · by_cases hmax : (delta : Int) + prevDelta.toInt ≤ math.maxValue
      · cases prevMinOverflow <;>
          simp [hneg, hmax, Except.mapError, bind, Except.bind, Option.merge, pure, Except.pure]
      · cases prevMinOverflow <;>
          simp [hneg, hmax, Except.mapError, bind, Except.bind, pure, Except.pure]

/-- `offset_and_merge_max_achieved` on a recorded success within `[0, max_value]`: a shifted
success below zero contributes `0` to the maximum. -/
theorem offsetAndMergeMaxAchieved_spec {maxAchieved : Nat} (hbound : maxAchieved ≤ math.maxValue)
    (prevDelta : SignedU128) (prevMaxAchieved : Nat) :
    offsetAndMergeMaxAchieved maxAchieved prevDelta prevMaxAchieved math =
      if (maxAchieved : Int) + prevDelta.toInt ≤ math.maxValue then
        .ok (max prevMaxAchieved (maxAchieved + prevDelta.toInt).toNat)
      else .error (.deltaHistoryMergeOffset maxAchieved prevDelta math.maxValue
        .achievedExceedsBounds) := by
  unfold offsetAndMergeMaxAchieved
  simp only [math.unsignedAddDelta_spec hbound]
  by_cases hneg : (maxAchieved : Int) + prevDelta.toInt < 0
  · have hmax : (maxAchieved : Int) + prevDelta.toInt ≤ math.maxValue := by omega
    have hzero : ((maxAchieved : Int) + prevDelta.toInt).toNat = 0 := by omega
    simp [hneg, hmax, hzero, Except.mapError, bind, Except.bind, pure, Except.pure]
  · by_cases hmax : (maxAchieved : Int) + prevDelta.toInt ≤ math.maxValue
    · simp [hneg, hmax, Except.mapError, bind, Except.bind, pure, Except.pure]
    · simp [hneg, hmax, Except.mapError, bind, Except.bind]

theorem checkOverlap_eq_ok_iff {achieved : Nat} {failure : Option Nat}
    {sign : Nat → SignedU128} {u : Unit} :
    checkOverlap achieved failure sign = .ok u ↔ ∀ delta ∈ failure, achieved < delta := by
  cases failure with
  | none => simp [pure, Except.pure]
  | some delta =>
    by_cases hle : delta ≤ achieved
    · simp [checkOverlap_some, hle]
    · simp [checkOverlap_some, hle, pure, Except.pure]
      omega

/-- `offset_and_merge_history` succeeds exactly when its four offset steps do and neither
merged failure falls at or below the merged achieved delta on its side. -/
theorem offsetAndMergeHistory_eq_ok_iff {prevDelta : SignedU128}
    {prevHistory merged : DeltaHistory} :
    history.offsetAndMergeHistory prevDelta prevHistory maxValue = .ok merged ↔
      offsetAndMergeMinOverflow history.minOverflowPositiveDelta prevDelta
          prevHistory.minOverflowPositiveDelta ⟨maxValue⟩ = .ok merged.minOverflowPositiveDelta ∧
        offsetAndMergeMinOverflow history.maxUnderflowNegativeDelta prevDelta.minus
          prevHistory.maxUnderflowNegativeDelta ⟨maxValue⟩ = .ok merged.maxUnderflowNegativeDelta ∧
        offsetAndMergeMaxAchieved history.maxAchievedPositiveDelta prevDelta
          prevHistory.maxAchievedPositiveDelta ⟨maxValue⟩ = .ok merged.maxAchievedPositiveDelta ∧
        offsetAndMergeMaxAchieved history.minAchievedNegativeDelta prevDelta.minus
          prevHistory.minAchievedNegativeDelta ⟨maxValue⟩ = .ok merged.minAchievedNegativeDelta ∧
        (∀ delta ∈ merged.minOverflowPositiveDelta, merged.maxAchievedPositiveDelta < delta) ∧
        ∀ delta ∈ merged.maxUnderflowNegativeDelta, merged.minAchievedNegativeDelta < delta := by
  simp only [offsetAndMergeHistory, Rust.bind_eq_ok_iff, Rust.pure_eq_ok_iff]
  constructor
  · rintro ⟨overflow, hoverflow, underflow, hunderflow, achieved, hachieved, negative, hnegative,
      _, hcheckOverflow, _, hcheckUnderflow, rfl⟩
    exact ⟨hoverflow, hunderflow, hachieved, hnegative, checkOverlap_eq_ok_iff.mp hcheckOverflow,
      checkOverlap_eq_ok_iff.mp hcheckUnderflow⟩
  · rintro ⟨hoverflow, hunderflow, hachieved, hnegative, hcheckOverflow, hcheckUnderflow⟩
    exact ⟨_, hoverflow, _, hunderflow, _, hachieved, _, hnegative, (),
      checkOverlap_eq_ok_iff.mpr hcheckOverflow, (), checkOverlap_eq_ok_iff.mpr hcheckUnderflow,
      rfl⟩

end DeltaHistory

/-- `merge_data_and_delta`: validate the history against the value, then apply the delta. -/
def mergeDataAndDelta (prevValue : Nat) (delta : SignedU128) (history : DeltaHistory)
    (maxValue : Nat) : Option (Except (PanicOr DelayedFieldsSpeculativeError) Nat) :=
  (history.validateAgainstBaseValue prevValue maxValue).map fun
    | .error error => .error (.or error)
    | .ok () => expectOk ((BoundedMath.mk maxValue).unsignedAddDelta prevValue delta)

/-- `merge_two_deltas`: the merged history, then the sum of the two updates. -/
def mergeTwoDeltas (prevDelta : SignedU128) (prevHistory : DeltaHistory)
    (nextDelta : SignedU128) (nextHistory : DeltaHistory) (maxValue : Nat) :
    Except (PanicOr DelayedFieldsSpeculativeError) (SignedU128 × DeltaHistory) := do
  let newHistory ← (nextHistory.offsetAndMergeHistory prevDelta prevHistory maxValue).mapError .or
  let newDelta ← expectOk ((BoundedMath.mk maxValue).signedAdd prevDelta nextDelta)
  pure (newDelta, newHistory)

end AptosCore.Aggregator
