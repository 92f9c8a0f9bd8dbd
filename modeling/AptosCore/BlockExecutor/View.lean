import AptosCore.Aggregator.AggregatorV1
import AptosCore.Aggregator.DeltaMerge

/-!
# Outcomes of `try_add` read through a history

`block-executor/src/view.rs`. A transaction that calls `try_add` or `try_sub` on a delayed
aggregator is not told the aggregator's value, only whether each call succeeded. The first call
reads the last committed value and records in a `DeltaHistory` which way it went
(`compute_delayed_field_try_add_delta_outcome_first_time`); each later call applies the
transaction's delta so far, `base_delta`, on top of that value and records its own outcome
(`compute_delayed_field_try_add_delta_outcome_from_history`). When the transaction is validated,
the captured history is checked against the value committed by then.

That is sound when a history admits exactly the starting values on which every call went the
way it did. One call keeps this (`fromHistory_spec`): the new history admits a starting
value exactly when the old one did and the call returns the same result on it. A failed call
records its delta shifted by `base_delta`; where the shifted delta lies beyond `max_value`, every
starting value fails and nothing is recorded. The first call is the later one at `+0` with an
empty history (`firstTime_eq_fromHistory`).
-/

namespace AptosCore.Aggregator

namespace SignedU128

def abs : SignedU128 → Nat
  | positive value => value
  | negative value => value

@[simp] theorem abs_positive (value : Nat) : (positive value).abs = value := rfl
@[simp] theorem abs_negative (value : Nat) : (negative value).abs = value := rfl

end SignedU128

namespace DeltaHistory

/-- `record_failure`: keep the smaller of the recorded failure and `delta`. -/
def recordFailure (field : Option Nat) (delta : Nat) : Option Nat :=
  field.elim (some delta) fun current ↦ some (min current delta)

def recordOverflow (history : DeltaHistory) (delta : Nat) : DeltaHistory :=
  { history with
    minOverflowPositiveDelta := recordFailure history.minOverflowPositiveDelta delta }

def recordUnderflow (history : DeltaHistory) (delta : Nat) : DeltaHistory :=
  { history with
    maxUnderflowNegativeDelta := recordFailure history.maxUnderflowNegativeDelta delta }

theorem recordFailure_eq_merge (field : Option Nat) (delta : Nat) :
    recordFailure field delta = Option.merge min field (some delta) := by
  cases field <;> rfl

theorem forall_mem_recordFailure_le {field : Option Nat} {delta maxValue : Nat}
    (hfield : ∀ x ∈ field, x ≤ maxValue) (hdelta : delta ≤ maxValue) :
    ∀ x ∈ recordFailure field delta, x ≤ maxValue := by
  cases field with
  | none => simpa [recordFailure] using hdelta
  | some current =>
    have hcurrent : current ≤ maxValue := hfield current rfl
    simp only [recordFailure, Option.elim_some, Option.mem_def, Option.some.injEq, forall_eq']
    omega

variable {history : DeltaHistory} {baseValue maxValue delta : Nat}

/-- Recording an overflow keeps the starting values on which the shifted delta overflows. -/
theorem validOn_recordOverflow :
    (history.recordOverflow delta).ValidOn baseValue maxValue ↔
      history.ValidOn baseValue maxValue ∧ maxValue < baseValue + delta := by
  unfold ValidOn recordOverflow
  rw [recordFailure_eq_merge, Rust.forall_mem_merge_min_iff (fun _ _ _ _ ↦ by omega)]
  simp only [Option.mem_def, Option.some.injEq, forall_eq']
  tauto

/-- Recording an underflow keeps the starting values below the shifted delta. -/
theorem validOn_recordUnderflow :
    (history.recordUnderflow delta).ValidOn baseValue maxValue ↔
      history.ValidOn baseValue maxValue ∧ baseValue < delta := by
  unfold ValidOn recordUnderflow
  rw [recordFailure_eq_merge, Rust.forall_mem_merge_min_iff (fun _ _ _ _ ↦ by omega)]
  simp only [Option.mem_def, Option.some.injEq, forall_eq']
  tauto

/-- A history that admits some starting value has its failures beyond its successes; with its
failures within `max_value` it is well formed. -/
theorem wellFormed_of_validOn (hvalid : history.ValidOn baseValue maxValue)
    (hoverflow : ∀ x ∈ history.minOverflowPositiveDelta, x ≤ maxValue)
    (hunderflow : ∀ x ∈ history.maxUnderflowNegativeDelta, x ≤ maxValue) :
    history.WellFormed maxValue := by
  obtain ⟨hmax, hmin, hover, hunder⟩ := hvalid
  exact
    { maxAchieved_le := by omega
      minAchieved_le := by omega
      minOverflow_le := hoverflow
      maxUnderflow_le := hunderflow
      maxAchieved_lt := fun x hx ↦ by have := hover x hx; omega
      minAchieved_lt := fun x hx ↦ by have := hunder x hx; omega }

@[simp] theorem minOverflowPositiveDelta_recordSuccess (delta : SignedU128) :
    (history.recordSuccess delta).minOverflowPositiveDelta =
      history.minOverflowPositiveDelta := by
  cases delta <;> rfl

@[simp] theorem maxUnderflowNegativeDelta_recordSuccess (delta : SignedU128) :
    (history.recordSuccess delta).maxUnderflowNegativeDelta =
      history.maxUnderflowNegativeDelta := by
  cases delta <;> rfl

@[simp] theorem minOverflowPositiveDelta_recordOverflow :
    (history.recordOverflow delta).minOverflowPositiveDelta =
      recordFailure history.minOverflowPositiveDelta delta := rfl

@[simp] theorem maxUnderflowNegativeDelta_recordOverflow :
    (history.recordOverflow delta).maxUnderflowNegativeDelta =
      history.maxUnderflowNegativeDelta := rfl

@[simp] theorem minOverflowPositiveDelta_recordUnderflow :
    (history.recordUnderflow delta).minOverflowPositiveDelta =
      history.minOverflowPositiveDelta := rfl

@[simp] theorem maxUnderflowNegativeDelta_recordUnderflow :
    (history.recordUnderflow delta).maxUnderflowNegativeDelta =
      recordFailure history.maxUnderflowNegativeDelta delta := rfl

/-- `delta` lies between the extreme deltas the history achieved, as the delta of a transaction
does in the history it recorded. -/
def Achieves (history : DeltaHistory) (delta : SignedU128) : Prop :=
  delta.toInt ≤ history.maxAchievedPositiveDelta ∧
    -delta.toInt ≤ history.minAchievedNegativeDelta

instance (history : DeltaHistory) (delta : SignedU128) : Decidable (history.Achieves delta) :=
  inferInstanceAs (Decidable (_ ∧ _))

/-- A starting value the history admits stays in bounds under a delta the history achieved. -/
theorem inBounds_of_validOn {delta : SignedU128} (hvalid : history.ValidOn baseValue maxValue)
    (hachieves : history.Achieves delta) :
    AggregatorV1.InBounds maxValue (baseValue + delta.toInt) := by
  obtain ⟨hmax, hmin, -, -⟩ := hvalid
  obtain ⟨hpos, hneg⟩ := hachieves
  constructor <;> omega

/-- On a well-formed history, validation accepts exactly the starting values its comment lists. -/
theorem validateAgainstBaseValue_eq_ok_iff (hwf : history.WellFormed maxValue) :
    history.validateAgainstBaseValue baseValue maxValue = some (.ok ()) ↔
      history.ValidOn baseValue maxValue := by
  obtain ⟨result, hresult, hiff⟩ :=
    @validateAgainstBaseValue_spec history baseValue maxValue hwf.minOverflow_le
  rw [hresult, Option.some.injEq]
  exact hiff

end DeltaHistory

end AptosCore.Aggregator

namespace AptosCore.BlockExecutor

open Aggregator AggregatorV1

/-- `DelayedFieldRead`; the functions here build its `HistoryBounded` variant only. -/
inductive DelayedFieldRead where
  | historyBounded (restriction : DeltaHistory) (maxValue innerAggregatorValue : Nat)
  deriving DecidableEq, Repr

@[simp] theorem expectOk_ok {α β : Type} (a : α) :
    (expectOk (.ok a : Except BoundedMathError α) : Except (PanicOr β) α) = .ok a := rfl

/-- `compute_delayed_field_try_add_delta_outcome_from_history`. An overflow beyond `max_value` is
not recorded. -/
def computeDelayedFieldTryAddDeltaOutcomeFromHistory (baseDelta delta : SignedU128)
    (maxValue : Nat) (history : DeltaHistory) (baseAggregatorValue : Nat) :
    Except (PanicOr DelayedFieldsSpeculativeError) (Bool × DelayedFieldRead) := do
  let math : BoundedMath := ⟨maxValue⟩
  let beforeValue ← expectOk (math.unsignedAddDelta baseAggregatorValue baseDelta)
  let (result, history) ← match math.unsignedAddDelta beforeValue delta with
    | .error _ =>
      match delta with
      | .positive deltaValue => do
        let overflowDelta ← expectOk (okOverflow (math.unsignedAddDelta deltaValue baseDelta))
        pure (false, overflowDelta.elim history history.recordOverflow)
      | .negative deltaValue => do
        let underflowDelta ←
          expectOk (okOverflow (math.unsignedAddDelta deltaValue baseDelta.minus))
        pure (false, underflowDelta.elim history history.recordUnderflow)
    | .ok _ => do
      let newDelta ← expectOk (math.signedAdd baseDelta delta)
      pure (true, history.recordSuccess newDelta)
  pure (result, .historyBounded history maxValue baseAggregatorValue)

def computeDelayedFieldTryAddDeltaOutcomeFirstTime (delta : SignedU128) (maxValue : Nat)
    (baseAggregatorValue : Nat) :
    Except (PanicOr DelayedFieldsSpeculativeError) (Bool × DelayedFieldRead) :=
  let math : BoundedMath := ⟨maxValue⟩
  let history := DeltaHistory.new
  let (result, history) := match math.unsignedAddDelta baseAggregatorValue delta with
    | .error _ =>
      match delta with
      | .positive deltaValue => (false, history.recordOverflow deltaValue)
      | .negative deltaValue => (false, history.recordUnderflow deltaValue)
    | .ok _ => (true, history.recordSuccess delta)
  .ok (result, .historyBounded history maxValue baseAggregatorValue)

/-! ## One call -/

/-- Applying `baseDelta` and then `delta` to `baseValue` stays inside `[0, max_value]`. -/
def StaysInBounds (maxValue baseValue : Nat) (baseDelta delta : SignedU128) : Prop :=
  InBounds maxValue (baseValue + baseDelta.toInt) ∧
    InBounds maxValue (baseValue + baseDelta.toInt + delta.toInt)

instance (maxValue baseValue : Nat) (baseDelta delta : SignedU128) :
    Decidable (StaysInBounds maxValue baseValue baseDelta delta) :=
  inferInstanceAs (Decidable ((0 ≤ _ ∧ _ ≤ _) ∧ (0 ≤ _ ∧ _ ≤ _)))

section Outcome

variable {maxValue baseValue : Nat} {history : DeltaHistory} {baseDelta delta : SignedU128}

theorem unsignedAddDelta_of_inBounds {value : Nat} (hvalue : value ≤ maxValue)
    (hin : InBounds maxValue (value + delta.toInt)) :
    (BoundedMath.mk maxValue).unsignedAddDelta value delta = .ok (value + delta.toInt).toNat := by
  have hnonneg : ¬ (value : Int) + delta.toInt < 0 := Int.not_lt.mpr hin.1
  have hle : (value : Int) + delta.toInt ≤ maxValue := hin.2
  rw [BoundedMath.unsignedAddDelta_spec _ hvalue]
  simp only [hnonneg, hle, if_true, if_false]

/-- A call whose delta stays in bounds succeeds and records the transaction's new delta. -/
theorem fromHistory_of_staysInBounds (hbase : baseValue ≤ maxValue)
    (hstays : StaysInBounds maxValue baseValue baseDelta delta) :
    ∃ newDelta : SignedU128, newDelta.toInt = baseDelta.toInt + delta.toInt ∧
      computeDelayedFieldTryAddDeltaOutcomeFromHistory baseDelta delta maxValue history baseValue =
        .ok (true, .historyBounded (history.recordSuccess newDelta) maxValue baseValue) := by
  obtain ⟨hbefore, hafter⟩ := hstays
  unfold InBounds at hbefore hafter
  have hbeforeLe : (baseValue + baseDelta.toInt).toNat ≤ maxValue := by omega
  have hafter' : InBounds maxValue ((baseValue + baseDelta.toInt).toNat + delta.toInt) := by
    unfold InBounds
    omega
  obtain ⟨newDelta, hadd⟩ := (BoundedMath.mk maxValue).signedAdd_isOk baseDelta delta
    (by dsimp only; omega) (by dsimp only; omega)
  refine ⟨newDelta, (BoundedMath.mk maxValue).signedAdd_toInt hadd, ?_⟩
  simp only [computeDelayedFieldTryAddDeltaOutcomeFromHistory,
    unsignedAddDelta_of_inBounds hbase ⟨hbefore.1, hbefore.2⟩,
    unsignedAddDelta_of_inBounds hbeforeLe hafter', hadd, expectOk_ok, bind, Except.bind, pure,
    Except.pure]

/-- A positive call that leaves `[0, max_value]` fails, and records its delta shifted by
`baseDelta` unless that is beyond `max_value`. -/
theorem fromHistory_of_overflow (hbase : baseValue ≤ maxValue) {deltaValue : Nat}
    (hdelta : deltaValue ≤ maxValue) (hbefore : InBounds maxValue (baseValue + baseDelta.toInt))
    (hover : (maxValue : Int) < baseValue + baseDelta.toInt + deltaValue) :
    computeDelayedFieldTryAddDeltaOutcomeFromHistory baseDelta (.positive deltaValue) maxValue
        history baseValue =
      .ok (false, .historyBounded
        (if (deltaValue : Int) + baseDelta.toInt ≤ maxValue then
          history.recordOverflow ((deltaValue : Int) + baseDelta.toInt).toNat
        else history) maxValue baseValue) := by
  unfold InBounds at hbefore
  have hbeforeLe : (baseValue + baseDelta.toInt).toNat ≤ maxValue := by omega
  have hcall : (BoundedMath.mk maxValue).unsignedAddDelta (baseValue + baseDelta.toInt).toNat
      (.positive deltaValue) = .error .overflow := by
    rw [BoundedMath.unsignedAddDelta_positive, BoundedMath.unsignedAdd_spec,
      if_neg (by dsimp only; omega)]
  have hshiftNonneg : ¬ (deltaValue : Int) + baseDelta.toInt < 0 := by omega
  have hshift := BoundedMath.unsignedAddDelta_spec (BoundedMath.mk maxValue) hdelta baseDelta
  simp only [hshiftNonneg, if_false] at hshift
  by_cases hrecord : (deltaValue : Int) + baseDelta.toInt ≤ maxValue
  · simp only [hrecord, if_true] at hshift ⊢
    simp only [computeDelayedFieldTryAddDeltaOutcomeFromHistory,
      unsignedAddDelta_of_inBounds hbase ⟨hbefore.1, hbefore.2⟩, hcall, hshift, okOverflow_ok,
      expectOk_ok, Option.elim_some, bind, Except.bind, pure, Except.pure]
  · simp only [hrecord, if_false] at hshift ⊢
    simp only [computeDelayedFieldTryAddDeltaOutcomeFromHistory,
      unsignedAddDelta_of_inBounds hbase ⟨hbefore.1, hbefore.2⟩, hcall, hshift,
      okOverflow_overflow, expectOk_ok, Option.elim_none, bind, Except.bind, pure, Except.pure]

/-- A negative call that leaves `[0, max_value]` fails, and records its delta shifted by
`baseDelta` unless that is beyond `max_value`. -/
theorem fromHistory_of_underflow (hbase : baseValue ≤ maxValue) {deltaValue : Nat}
    (hdelta : deltaValue ≤ maxValue) (hbefore : InBounds maxValue (baseValue + baseDelta.toInt))
    (hunder : (baseValue : Int) + baseDelta.toInt - deltaValue < 0) :
    computeDelayedFieldTryAddDeltaOutcomeFromHistory baseDelta (.negative deltaValue) maxValue
        history baseValue =
      .ok (false, .historyBounded
        (if (deltaValue : Int) - baseDelta.toInt ≤ maxValue then
          history.recordUnderflow ((deltaValue : Int) - baseDelta.toInt).toNat
        else history) maxValue baseValue) := by
  unfold InBounds at hbefore
  have hbeforeLe : (baseValue + baseDelta.toInt).toNat ≤ maxValue := by omega
  have hcall : (BoundedMath.mk maxValue).unsignedAddDelta (baseValue + baseDelta.toInt).toNat
      (.negative deltaValue) = .error .underflow := by
    rw [BoundedMath.unsignedAddDelta_negative, BoundedMath.unsignedSubtract_spec,
      if_neg (by omega)]
  have hshiftNonneg : ¬ (deltaValue : Int) - baseDelta.toInt < 0 := by omega
  have hshift := BoundedMath.unsignedAddDelta_spec (BoundedMath.mk maxValue) hdelta baseDelta.minus
  simp only [SignedU128.toInt_minus, ← Int.sub_eq_add_neg] at hshift
  simp only [hshiftNonneg, if_false] at hshift
  by_cases hrecord : (deltaValue : Int) - baseDelta.toInt ≤ maxValue
  · simp only [hrecord, if_true] at hshift ⊢
    simp only [computeDelayedFieldTryAddDeltaOutcomeFromHistory,
      unsignedAddDelta_of_inBounds hbase ⟨hbefore.1, hbefore.2⟩, hcall, hshift, okOverflow_ok,
      expectOk_ok, Option.elim_some, bind, Except.bind, pure, Except.pure]
  · simp only [hrecord, if_false] at hshift ⊢
    simp only [computeDelayedFieldTryAddDeltaOutcomeFromHistory,
      unsignedAddDelta_of_inBounds hbase ⟨hbefore.1, hbefore.2⟩, hcall, hshift,
      okOverflow_overflow, expectOk_ok, Option.elim_none, bind, Except.bind, pure, Except.pure]

/-- What one call leaves for validation to be exact: the result on `baseValue`, and a
well-formed history that admits a starting value exactly when the old history did and the call
returns the same result on it. -/
structure ExactOutcome (maxValue baseValue : Nat) (history : DeltaHistory)
    (baseDelta delta : SignedU128) (result : Bool) (restriction : DeltaHistory) : Prop where
  result_iff : result = true ↔ StaysInBounds maxValue baseValue baseDelta delta
  wellFormed : restriction.WellFormed maxValue
  validOn_iff : ∀ base ≤ maxValue, restriction.ValidOn base maxValue ↔
    history.ValidOn base maxValue ∧
      (StaysInBounds maxValue base baseDelta delta ↔ result = true)

/-- On a starting value the history admits, only the call's own step can leave the bounds. -/
theorem staysInBounds_iff {base : Nat} (hvalid : history.ValidOn base maxValue)
    (hachieves : history.Achieves baseDelta) :
    StaysInBounds maxValue base baseDelta delta ↔
      InBounds maxValue (base + baseDelta.toInt + delta.toInt) :=
  ⟨And.right, fun hafter ↦ ⟨DeltaHistory.inBounds_of_validOn hvalid hachieves, hafter⟩⟩

section Exact

variable (hbase : baseValue ≤ maxValue) (hwf : history.WellFormed maxValue)
  (hvalid : history.ValidOn baseValue maxValue) (hachieves : history.Achieves baseDelta)
include hbase hwf hvalid hachieves

theorem exactOutcome_recordSuccess (hafter : InBounds maxValue
      (baseValue + baseDelta.toInt + delta.toInt)) {newDelta : SignedU128}
    (hnew : newDelta.toInt = baseDelta.toInt + delta.toInt) :
    ExactOutcome maxValue baseValue history baseDelta delta true
      (history.recordSuccess newDelta) := by
  have hiff : ∀ base ≤ maxValue, (history.recordSuccess newDelta).ValidOn base maxValue ↔
      history.ValidOn base maxValue ∧
        (StaysInBounds maxValue base baseDelta delta ↔ true = true) := by
    intro base _
    rw [DeltaHistory.validOn_recordSuccess, hnew]
    constructor
    · rintro ⟨hv, hlow, hhigh⟩
      have hstays : StaysInBounds maxValue base baseDelta delta :=
        (staysInBounds_iff hv hachieves).mpr ⟨by omega, by omega⟩
      exact ⟨hv, iff_of_true hstays rfl⟩
    · rintro ⟨hv, hstays⟩
      obtain ⟨hlow, hhigh⟩ := (staysInBounds_iff hv hachieves).mp (hstays.mpr rfl)
      exact ⟨hv, by omega, by omega⟩
  have hresult : true = true ↔ StaysInBounds maxValue baseValue baseDelta delta :=
    iff_of_true rfl ((staysInBounds_iff hvalid hachieves).mpr hafter)
  exact
    { result_iff := hresult
      wellFormed := DeltaHistory.wellFormed_of_validOn
        ((hiff baseValue hbase).mpr ⟨hvalid, hresult.symm⟩)
        (by simpa using hwf.minOverflow_le) (by simpa using hwf.maxUnderflow_le)
      validOn_iff := hiff }

theorem exactOutcome_overflow {deltaValue : Nat}
    (hover : (maxValue : Int) < baseValue + baseDelta.toInt + deltaValue) :
    ExactOutcome maxValue baseValue history baseDelta (.positive deltaValue) false
      (if (deltaValue : Int) + baseDelta.toInt ≤ maxValue then
        history.recordOverflow ((deltaValue : Int) + baseDelta.toInt).toNat
      else history) := by
  have hiff : ∀ base ≤ maxValue,
      (if (deltaValue : Int) + baseDelta.toInt ≤ maxValue then
        history.recordOverflow ((deltaValue : Int) + baseDelta.toInt).toNat
      else history).ValidOn base maxValue ↔
        history.ValidOn base maxValue ∧
          (StaysInBounds maxValue base baseDelta (.positive deltaValue) ↔ false = true) := by
    intro base _
    simp only [Bool.false_eq_true, iff_false]
    split_ifs with hrecord
    · rw [DeltaHistory.validOn_recordOverflow]
      refine and_congr_right fun hv ↦ ?_
      have hbefore := DeltaHistory.inBounds_of_validOn hv hachieves
      rw [staysInBounds_iff hv hachieves]
      unfold InBounds at hbefore ⊢
      simp only [SignedU128.toInt_positive]
      omega
    · refine (and_iff_left_of_imp fun hv ↦ ?_).symm
      have hbefore := DeltaHistory.inBounds_of_validOn hv hachieves
      rw [staysInBounds_iff hv hachieves]
      unfold InBounds at hbefore ⊢
      simp only [SignedU128.toInt_positive]
      omega
  have hresult :
      false = true ↔ StaysInBounds maxValue baseValue baseDelta (.positive deltaValue) :=
    iff_of_false Bool.false_ne_true fun hstays ↦ by
      have hhigh := hstays.2.2
      simp only [SignedU128.toInt_positive] at hhigh
      omega
  have hbounds : ∀ x ∈ (if (deltaValue : Int) + baseDelta.toInt ≤ maxValue then
      history.recordOverflow ((deltaValue : Int) + baseDelta.toInt).toNat
    else history).minOverflowPositiveDelta, x ≤ maxValue := by
    split_ifs with hrecord
    · exact DeltaHistory.forall_mem_recordFailure_le hwf.minOverflow_le (by omega)
    · exact hwf.minOverflow_le
  exact
    { result_iff := hresult
      wellFormed := DeltaHistory.wellFormed_of_validOn
        ((hiff baseValue hbase).mpr ⟨hvalid, hresult.symm⟩) hbounds
        (by split_ifs <;> simpa using hwf.maxUnderflow_le)
      validOn_iff := hiff }

theorem exactOutcome_underflow {deltaValue : Nat}
    (hunder : (baseValue : Int) + baseDelta.toInt - deltaValue < 0) :
    ExactOutcome maxValue baseValue history baseDelta (.negative deltaValue) false
      (if (deltaValue : Int) - baseDelta.toInt ≤ maxValue then
        history.recordUnderflow ((deltaValue : Int) - baseDelta.toInt).toNat
      else history) := by
  have hiff : ∀ base ≤ maxValue,
      (if (deltaValue : Int) - baseDelta.toInt ≤ maxValue then
        history.recordUnderflow ((deltaValue : Int) - baseDelta.toInt).toNat
      else history).ValidOn base maxValue ↔
        history.ValidOn base maxValue ∧
          (StaysInBounds maxValue base baseDelta (.negative deltaValue) ↔ false = true) := by
    intro base hbase'
    simp only [Bool.false_eq_true, iff_false]
    split_ifs with hrecord
    · rw [DeltaHistory.validOn_recordUnderflow]
      refine and_congr_right fun hv ↦ ?_
      have hbefore := DeltaHistory.inBounds_of_validOn hv hachieves
      rw [staysInBounds_iff hv hachieves]
      unfold InBounds at hbefore ⊢
      simp only [SignedU128.toInt_negative]
      omega
    · refine (and_iff_left_of_imp fun hv ↦ ?_).symm
      have hbefore := DeltaHistory.inBounds_of_validOn hv hachieves
      rw [staysInBounds_iff hv hachieves]
      unfold InBounds at hbefore ⊢
      simp only [SignedU128.toInt_negative]
      omega
  have hresult :
      false = true ↔ StaysInBounds maxValue baseValue baseDelta (.negative deltaValue) :=
    iff_of_false Bool.false_ne_true fun hstays ↦ by
      have hlow := hstays.2.1
      simp only [SignedU128.toInt_negative] at hlow
      omega
  have hbounds : ∀ x ∈ (if (deltaValue : Int) - baseDelta.toInt ≤ maxValue then
      history.recordUnderflow ((deltaValue : Int) - baseDelta.toInt).toNat
    else history).maxUnderflowNegativeDelta, x ≤ maxValue := by
    split_ifs with hrecord
    · exact DeltaHistory.forall_mem_recordFailure_le hwf.maxUnderflow_le (by omega)
    · exact hwf.maxUnderflow_le
  exact
    { result_iff := hresult
      wellFormed := DeltaHistory.wellFormed_of_validOn
        ((hiff baseValue hbase).mpr ⟨hvalid, hresult.symm⟩)
        (by split_ifs <;> simpa using hwf.minOverflow_le) hbounds
      validOn_iff := hiff }

/-- One call on a well-formed history that admits the starting value, with the transaction's
delta among those the history achieved and a delta within `max_value`, as the caller checks. -/
theorem fromHistory_spec (habs : delta.abs ≤ maxValue) :
    ∃ result restriction,
      computeDelayedFieldTryAddDeltaOutcomeFromHistory baseDelta delta maxValue history
          baseValue = .ok (result, .historyBounded restriction maxValue baseValue) ∧
        ExactOutcome maxValue baseValue history baseDelta delta result restriction := by
  have hbefore := DeltaHistory.inBounds_of_validOn hvalid hachieves
  by_cases hafter : InBounds maxValue (baseValue + baseDelta.toInt + delta.toInt)
  · obtain ⟨newDelta, hnew, hcall⟩ :=
      @fromHistory_of_staysInBounds maxValue baseValue history baseDelta delta hbase
        ⟨hbefore, hafter⟩
    exact ⟨true, _, hcall,
      exactOutcome_recordSuccess hbase hwf hvalid hachieves hafter hnew⟩
  · unfold InBounds at hbefore hafter
    cases delta with
    | positive deltaValue =>
      have hover : (maxValue : Int) < baseValue + baseDelta.toInt + deltaValue := by
        simp only [SignedU128.toInt_positive] at hafter
        omega
      exact ⟨false, _, fromHistory_of_overflow hbase habs hbefore hover,
        exactOutcome_overflow hbase hwf hvalid hachieves hover⟩
    | negative deltaValue =>
      have hunder : (baseValue : Int) + baseDelta.toInt - deltaValue < 0 := by
        simp only [SignedU128.toInt_negative] at hafter
        omega
      exact ⟨false, _, fromHistory_of_underflow hbase habs hbefore hunder,
        exactOutcome_underflow hbase hwf hvalid hachieves hunder⟩

end Exact

/-- The first call is a later call at `+0` on an empty history, for a starting value and a delta
within `max_value`. -/
theorem firstTime_eq_fromHistory (hbase : baseValue ≤ maxValue) (habs : delta.abs ≤ maxValue) :
    computeDelayedFieldTryAddDeltaOutcomeFirstTime delta maxValue baseValue =
      computeDelayedFieldTryAddDeltaOutcomeFromHistory (.positive 0) delta maxValue
        DeltaHistory.new baseValue := by
  have hzero : (BoundedMath.mk maxValue).unsignedAddDelta baseValue (.positive 0) =
      .ok baseValue := by
    rw [BoundedMath.unsignedAddDelta_positive, BoundedMath.unsignedAdd_spec,
      if_pos (by dsimp only; omega), Nat.add_zero]
  cases delta with
  | positive deltaValue =>
    simp only [SignedU128.abs_positive] at habs
    have hshift : (BoundedMath.mk maxValue).unsignedAddDelta deltaValue (.positive 0) =
        .ok deltaValue := by
      rw [BoundedMath.unsignedAddDelta_positive, BoundedMath.unsignedAdd_spec,
        if_pos (by dsimp only; omega), Nat.add_zero]
    have hsum : (BoundedMath.mk maxValue).signedAdd (.positive 0) (.positive deltaValue) =
        .ok (.positive deltaValue) := by
      rw [BoundedMath.signedAdd, BoundedMath.unsignedAdd_spec, if_pos (by dsimp only; omega),
        Nat.zero_add]
      rfl
    simp only [computeDelayedFieldTryAddDeltaOutcomeFirstTime,
      computeDelayedFieldTryAddDeltaOutcomeFromHistory, hzero, hshift, hsum, expectOk_ok,
      okOverflow_ok, Option.elim_some, bind, Except.bind, pure, Except.pure]
    split <;> rfl
  | negative deltaValue =>
    have hshift : (BoundedMath.mk maxValue).unsignedAddDelta deltaValue
        (SignedU128.positive 0).minus = .ok deltaValue := by
      rw [SignedU128.minus_positive, BoundedMath.unsignedAddDelta_negative,
        BoundedMath.unsignedSubtract_spec, if_pos (Nat.zero_le _)]
      rfl
    have hsum : DeltaHistory.new.recordSuccess
        (if 0 ≥ deltaValue then .positive (0 - deltaValue) else .negative (deltaValue - 0)) =
        DeltaHistory.new.recordSuccess (.negative deltaValue) := by
      split_ifs with hzeroDelta
      · obtain rfl : deltaValue = 0 := by omega
        rfl
      · rw [Nat.sub_zero]
    simp only [computeDelayedFieldTryAddDeltaOutcomeFirstTime,
      computeDelayedFieldTryAddDeltaOutcomeFromHistory, hzero, hshift,
      BoundedMath.signedAdd_positive_negative, BoundedMath.updateDifferentSign_eq, hsum,
      expectOk_ok, okOverflow_ok, Option.elim_some, bind, Except.bind, pure, Except.pure]
    split <;> rfl

end Outcome

/-! ## Validation observes the same results -/

/-- What validation needs of a `try_add` outcome on `baseValue`: it succeeds with a well-formed
history that validates against `baseValue`, and every starting value the history validates
against gives the transaction's deltas the same result. -/
def SoundOutcome (maxValue baseValue : Nat) (baseDelta delta : SignedU128)
    (outcome : Except (PanicOr DelayedFieldsSpeculativeError) (Bool × DelayedFieldRead)) :
    Prop :=
  ∃ result restriction, outcome = .ok (result, .historyBounded restriction maxValue baseValue) ∧
    restriction.WellFormed maxValue ∧
    restriction.validateAgainstBaseValue baseValue maxValue = some (.ok ()) ∧
    ∀ base ≤ maxValue, restriction.validateAgainstBaseValue base maxValue = some (.ok ()) →
      (StaysInBounds maxValue base baseDelta delta ↔ result = true)

theorem soundOutcome_of_exactOutcome {maxValue baseValue : Nat} {history : DeltaHistory}
    {baseDelta delta : SignedU128} {result : Bool} {restriction : DeltaHistory}
    {outcome : Except (PanicOr DelayedFieldsSpeculativeError) (Bool × DelayedFieldRead)}
    (hbase : baseValue ≤ maxValue) (hvalid : history.ValidOn baseValue maxValue)
    (hcall : outcome = .ok (result, .historyBounded restriction maxValue baseValue))
    (hexact : ExactOutcome maxValue baseValue history baseDelta delta result restriction) :
    SoundOutcome maxValue baseValue baseDelta delta outcome := by
  have hvalidate : ∀ base, restriction.validateAgainstBaseValue base maxValue = some (.ok ()) ↔
      restriction.ValidOn base maxValue := fun _ ↦
    DeltaHistory.validateAgainstBaseValue_eq_ok_iff hexact.wellFormed
  refine ⟨result, restriction, hcall, hexact.wellFormed, ?_, ?_⟩
  · exact (hvalidate baseValue).mpr ((hexact.validOn_iff baseValue hbase).mpr
      ⟨hvalid, hexact.result_iff.symm⟩)
  · intro base hbase' hbaseValid
    exact ((hexact.validOn_iff base hbase').mp ((hvalidate base).mp hbaseValid)).2

theorem tryAddDeltaOutcome_base_independent {maxValue baseValue : Nat} {delta : SignedU128}
    (hbase : baseValue ≤ maxValue) (habs : delta.abs ≤ maxValue) :
    (∀ (history : DeltaHistory) (baseDelta : SignedU128), history.WellFormed maxValue →
      history.validateAgainstBaseValue baseValue maxValue = some (.ok ()) →
      history.Achieves baseDelta →
      SoundOutcome maxValue baseValue baseDelta delta
        (computeDelayedFieldTryAddDeltaOutcomeFromHistory baseDelta delta maxValue history
          baseValue)) ∧
    SoundOutcome maxValue baseValue (.positive 0) delta
      (computeDelayedFieldTryAddDeltaOutcomeFirstTime delta maxValue baseValue) := by
  constructor
  · intro history baseDelta hwf hvalidate hachieves
    have hvalid := (DeltaHistory.validateAgainstBaseValue_eq_ok_iff hwf).mp hvalidate
    obtain ⟨result, restriction, hcall, hexact⟩ :=
      fromHistory_spec hbase hwf hvalid hachieves habs
    exact soundOutcome_of_exactOutcome hbase hvalid hcall hexact
  · have hwf : DeltaHistory.new.WellFormed maxValue := by
      constructor <;> simp [DeltaHistory.new]
    have hvalid : DeltaHistory.new.ValidOn baseValue maxValue :=
      DeltaHistory.validOn_new.mpr hbase
    have hachieves : DeltaHistory.new.Achieves (.positive 0) := by
      simp [DeltaHistory.Achieves, DeltaHistory.new]
    obtain ⟨result, restriction, hcall, hexact⟩ :=
      fromHistory_spec hbase hwf hvalid hachieves habs
    rw [firstTime_eq_fromHistory hbase habs]
    exact soundOutcome_of_exactOutcome hbase hvalid hcall hexact

theorem tryAddDeltaOutcome_base_independent_sample :
    3 ≤ 10 ∧ (SignedU128.negative 4).abs ≤ 10 ∧
      DeltaHistory.WellFormed ⟨2, 1, some 9, none⟩ 10 ∧
      DeltaHistory.validateAgainstBaseValue ⟨2, 1, some 9, none⟩ 3 10 = some (.ok ()) ∧
      DeltaHistory.Achieves ⟨2, 1, some 9, none⟩ (.positive 1) ∧
      SoundOutcome 10 3 (.positive 1) (.negative 4)
        (computeDelayedFieldTryAddDeltaOutcomeFromHistory (.positive 1) (.negative 4) 10
          ⟨2, 1, some 9, none⟩ 3) ∧
      SoundOutcome 10 3 (.positive 0) (.negative 4)
        (computeDelayedFieldTryAddDeltaOutcomeFirstTime (.negative 4) 10 3) := by
  have hsound :=
    @tryAddDeltaOutcome_base_independent 10 3 (.negative 4) (by decide) (by decide)
  have hwf : DeltaHistory.WellFormed ⟨2, 1, some 9, none⟩ 10 := by decide
  have hvalidate :
      DeltaHistory.validateAgainstBaseValue ⟨2, 1, some 9, none⟩ 3 10 = some (.ok ()) := by
    decide
  have hachieves : DeltaHistory.Achieves ⟨2, 1, some 9, none⟩ (.positive 1) := by decide
  exact ⟨by decide, by decide, hwf, hvalidate, hachieves,
    hsound.1 _ _ hwf hvalidate hachieves, hsound.2⟩

/-- A history that validates but records an underflow beyond `max_value` passes it on to the
history a call returns. -/
theorem fromHistory_keeps_underflow_beyond_max :
    DeltaHistory.validateAgainstBaseValue ⟨0, 0, none, some 2⟩ 0 1 = some (.ok ()) ∧
      DeltaHistory.Achieves ⟨0, 0, none, some 2⟩ (.positive 0) ∧
      (SignedU128.positive 0).abs ≤ 1 ∧
      computeDelayedFieldTryAddDeltaOutcomeFromHistory (.positive 0) (.positive 0) 1
          ⟨0, 0, none, some 2⟩ 0 = .ok (true, .historyBounded ⟨0, 0, none, some 2⟩ 1 0) ∧
      ¬ DeltaHistory.WellFormed ⟨0, 0, none, some 2⟩ 1 := by
  decide

end AptosCore.BlockExecutor
