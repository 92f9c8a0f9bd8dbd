import AptosCore.Aggregator.DeltaMath
import AptosCore.Collections.ModifyFirst

/-!
# Aggregators of version 1

`aptos-aggregator/src/aggregator_v1_extension.rs`. An aggregator that a transaction has not read
starts as a delta: `get_aggregator` inserts `+0` with an empty history, `add` and `sub` change the
delta in place, refusing only what `max_value` alone decides, and record every delta they reach
in the history; `read_and_materialize` reads the stored value, validates the history against it
and applies the delta. An aggregator that knows its value (the `Data` state) applies each call to
the value directly.

The delta mode refines the direct one. A call that fails on the delta fails on every stored value
the history admits (`run_fresh_error_refines`); a run that succeeds on the delta validates against
exactly the stored values on which the direct run succeeds, and then materializes to the direct
run's aggregator (`run_fresh_ok_refines`). Both rest on what the history says after a run: it
admits a stored value exactly when the value stays inside `[0, max_value]` along every partial
sum of the run (`run_of_deltaMode`).
-/

namespace AptosCore.Aggregator

/-! ## Histories -/

namespace DeltaHistory

def new : DeltaHistory := ⟨0, 0, none, none⟩

def recordSuccess (history : DeltaHistory) : SignedU128 → DeltaHistory
  | .positive value =>
    { history with maxAchievedPositiveDelta := max history.maxAchievedPositiveDelta value }
  | .negative value =>
    { history with minAchievedNegativeDelta := max history.minAchievedNegativeDelta value }

@[simp] theorem recordSuccess_positive (history : DeltaHistory) (value : Nat) :
    history.recordSuccess (.positive value) =
      { history with maxAchievedPositiveDelta := max history.maxAchievedPositiveDelta value } :=
  rfl

@[simp] theorem recordSuccess_negative (history : DeltaHistory) (value : Nat) :
    history.recordSuccess (.negative value) =
      { history with minAchievedNegativeDelta := max history.minAchievedNegativeDelta value } :=
  rfl

@[simp] theorem validOn_new {baseValue maxValue : Nat} :
    new.ValidOn baseValue maxValue ↔ baseValue ≤ maxValue := by
  simp [new, ValidOn]

/-- Recording a success narrows the admitted starting values to those from which the recorded
delta stays inside `[0, max_value]`. -/
theorem validOn_recordSuccess {history : DeltaHistory} {delta : SignedU128}
    {baseValue maxValue : Nat} :
    (history.recordSuccess delta).ValidOn baseValue maxValue ↔
      history.ValidOn baseValue maxValue ∧ 0 ≤ baseValue + delta.toInt ∧
        baseValue + delta.toInt ≤ maxValue := by
  cases delta with
  | positive value =>
    simp only [recordSuccess_positive, ValidOn, SignedU128.toInt_positive]
    constructor
    · rintro ⟨hmax, hneg, hover, hunder⟩
      exact ⟨⟨by omega, hneg, hover, hunder⟩, by omega, by omega⟩
    · rintro ⟨⟨hmax, hneg, hover, hunder⟩, -, hvalue⟩
      exact ⟨by omega, hneg, hover, hunder⟩
  | negative value =>
    simp only [recordSuccess_negative, ValidOn, SignedU128.toInt_negative]
    constructor
    · rintro ⟨hmax, hneg, hover, hunder⟩
      exact ⟨⟨hmax, by omega, hover, hunder⟩, by omega, by omega⟩
    · rintro ⟨⟨hmax, hneg, hover, hunder⟩, hvalue, -⟩
      exact ⟨hmax, by omega, hover, hunder⟩

end DeltaHistory

end AptosCore.Aggregator

namespace AptosCore.AggregatorV1

open AptosCore.Aggregator AptosCore.Collections

/-! ## Errors -/

def eaddOverflow : Nat := 0x020001

def esubUnderflow : Nat := 0x020002

/-- The `PartialVMError`s of the extension, by status code. -/
inductive AggregatorV1Error where
  /-- `ABORTED` with a message and a sub status. -/
  | aborted (message : String) (subStatus : Nat)
  /-- `VM_EXTENSION_ERROR`. -/
  | extension (message : String)
  /-- `DELAYED_MATERIALIZATION_CODE_INVARIANT_ERROR`, from a `PanicError`. -/
  | codeInvariant (message : String)
  /-- `SPECULATIVE_EXECUTION_ABORT_ERROR`, from a `DelayedFieldsSpeculativeError`. -/
  | speculativeAbort (error : DelayedFieldsSpeculativeError)
  deriving DecidableEq, Repr

def abortError (message : String) (code : Nat) : AggregatorV1Error := .aborted message code

/-- `addition_v1_error`, whatever the error it replaces. -/
def additionV1Error {α : Type} (_error : α) : AggregatorV1Error := abortError "overflow" eaddOverflow

def subtractionV1Error {α : Type} (_error : α) : AggregatorV1Error :=
  abortError "underflow" esubUnderflow

def extensionError (message : String) : AggregatorV1Error := .extension message

/-- `From<PanicOr<T>> for PartialVMError`. -/
def AggregatorV1Error.ofPanicOr : PanicOr DelayedFieldsSpeculativeError → AggregatorV1Error
  | .codeInvariantError message => .codeInvariant message
  | .or error => .speculativeAbort error

/-- The error `validate_history` returns for a failed validation: an abort for an overflow or
underflow of the history, and the speculative error itself otherwise. -/
def validationError : DelayedFieldsSpeculativeError → AggregatorV1Error
  | .deltaApplication _ _ _ .overflow => abortError "overflow" eaddOverflow
  | .deltaApplication _ _ _ .underflow => abortError "underflow" esubUnderflow
  | error => .speculativeAbort error

/-! ## The aggregator -/

/-- `AggregatorState`. -/
inductive AggregatorState where
  | data
  | positiveDelta
  | negativeDelta
  deriving DecidableEq, Repr

/-- `Aggregator`. -/
structure Aggregator where
  value : Nat
  state : AggregatorState
  maxValue : Nat
  history : Option DeltaHistory
  deriving DecidableEq, Repr

namespace Aggregator

/-- The aggregator `get_aggregator` inserts: a delta of `+0` with an empty history. -/
def fresh (maxValue : Nat) : Aggregator := ⟨0, .positiveDelta, maxValue, some DeltaHistory.new⟩

/-- An aggregator that knows its value, as `create_new_aggregator` and `read_and_materialize`
leave it. -/
def ofValue (value maxValue : Nat) : Aggregator := ⟨value, .data, maxValue, none⟩

/-- `record`; `none` is the `unreachable!` of a history kept in the `Data` state. -/
def record (agg : Aggregator) : Option Aggregator :=
  match agg.history with
  | none => some agg
  | some history =>
    match agg.state with
    | .positiveDelta =>
      some { agg with history := some (history.recordSuccess (.positive agg.value)) }
    | .negativeDelta =>
      some { agg with history := some (history.recordSuccess (.negative agg.value)) }
    | .data => none

/-- The tail of `add` and `sub` in a delta state: the checked update, then `record`. -/
def recordUpdate (updated : Except AggregatorV1Error Aggregator) :
    Option (Except AggregatorV1Error Aggregator) :=
  match updated with
  | .error error => some (.error error)
  | .ok updated => .ok <$> updated.record

/-- `validate_history`; `none` is a panic: the `expect` on a missing history, or the one inside
`validate_against_base_value`. -/
def validateHistory (agg : Aggregator) (baseValue : Nat) :
    Option (Except AggregatorV1Error Unit) :=
  match agg.history with
  | none => none
  | some history =>
    (history.validateAgainstBaseValue baseValue agg.maxValue).map (·.mapError validationError)

/-- `add`. On a negative delta, `-X + Y` turns positive when `X ≤ Y`. -/
def add (agg : Aggregator) (value : Nat) : Option (Except AggregatorV1Error Aggregator) :=
  let math : BoundedMath := ⟨agg.maxValue⟩
  match agg.state with
  | .data =>
    some (((math.unsignedAdd agg.value value).mapError additionV1Error).map fun sum ↦
      { agg with value := sum })
  | .positiveDelta =>
    recordUpdate (((math.unsignedAdd agg.value value).mapError additionV1Error).map fun sum ↦
      { agg with value := sum })
  | .negativeDelta =>
    recordUpdate <|
      if agg.value ≤ value then
        ((expectOk (math.unsignedSubtract value agg.value)).mapError
          AggregatorV1Error.ofPanicOr).map fun difference ↦
          { agg with value := difference, state := .positiveDelta }
      else
        ((expectOk (math.unsignedSubtract agg.value value)).mapError
          AggregatorV1Error.ofPanicOr).map fun difference ↦ { agg with value := difference }

/-- `sub`. On a positive delta, `+X - Y` turns negative when `X < Y`, and a delta below
`-max_value` is refused at once. -/
def sub (agg : Aggregator) (value : Nat) : Option (Except AggregatorV1Error Aggregator) :=
  let math : BoundedMath := ⟨agg.maxValue⟩
  match agg.state with
  | .data =>
    some (((math.unsignedSubtract agg.value value).mapError subtractionV1Error).map
      fun difference ↦ { agg with value := difference })
  | .positiveDelta =>
    recordUpdate <|
      if agg.value ≥ value then
        ((math.unsignedSubtract agg.value value).mapError subtractionV1Error).map
          fun difference ↦ { agg with value := difference }
      else do
        let _ ← (math.unsignedSubtract agg.maxValue value).mapError subtractionV1Error
        ((math.unsignedSubtract value agg.value).mapError subtractionV1Error).map
          fun difference ↦ { agg with value := difference, state := .negativeDelta }
  | .negativeDelta =>
    recordUpdate (((math.unsignedAdd agg.value value).mapError subtractionV1Error).map fun sum ↦
      { agg with value := sum })

/-- `read_and_materialize`, with the resolver's answer for the aggregator's state key as
`storage` (the error as its `Display` text) and `id` the `Debug` text of the id. `none` is a
panic: an `expect` on the validated delta, or the `unreachable!` of the `Data` state. -/
def readAndMaterialize (agg : Aggregator) (storage : Except String (Option Nat)) (id : String) :
    Option (Except AggregatorV1Error (Nat × Aggregator)) :=
  if agg.state = .data then some (.ok (agg.value, agg))
  else
    match storage with
    | .error error =>
      some (.error (extensionError ("Could not find the value of the aggregator: " ++ error)))
    | .ok none => some (.error (extensionError ("Could not read from deleted aggregator at " ++ id)))
    | .ok (some valueFromStorage) =>
      (agg.validateHistory valueFromStorage).bind fun validated ↦
        match validated with
        | .error error => some (.error error)
        | .ok () =>
          let math : BoundedMath := ⟨agg.maxValue⟩
          let value? : Option Nat :=
            match agg.state with
            | .positiveDelta => (math.unsignedAdd valueFromStorage agg.value).toOption
            | .negativeDelta => (math.unsignedSubtract valueFromStorage agg.value).toOption
            | .data => none
          value?.map fun value ↦
            .ok (value, { agg with value := value, state := .data, history := none })

/-- The delta of a delta-mode aggregator with the sign of its state, as `record` writes it. -/
def signedDelta (agg : Aggregator) : SignedU128 :=
  if agg.state = .negativeDelta then .negative agg.value else .positive agg.value

/-- The delta as an integer. -/
def delta (agg : Aggregator) : Int := agg.signedDelta.toInt

theorem signedDelta_of_ne {agg : Aggregator} (hstate : agg.state ≠ .negativeDelta) :
    agg.signedDelta = .positive agg.value := if_neg hstate

theorem signedDelta_of_negativeDelta {agg : Aggregator} (hstate : agg.state = .negativeDelta) :
    agg.signedDelta = .negative agg.value := if_pos hstate

theorem delta_of_ne {agg : Aggregator} (hstate : agg.state ≠ .negativeDelta) :
    agg.delta = agg.value := by
  rw [delta, signedDelta_of_ne hstate, SignedU128.toInt_positive]

theorem delta_of_negativeDelta {agg : Aggregator} (hstate : agg.state = .negativeDelta) :
    agg.delta = -(agg.value : Int) := by
  rw [delta, signedDelta_of_negativeDelta hstate, SignedU128.toInt_negative]

@[simp] theorem signedDelta_toInt (agg : Aggregator) : agg.signedDelta.toInt = agg.delta := rfl

@[simp] theorem delta_fresh (maxValue : Nat) : (fresh maxValue).delta = 0 := by
  rw [delta_of_ne (by simp [fresh])]
  rfl

@[simp] theorem maxValue_fresh (maxValue : Nat) : (fresh maxValue).maxValue = maxValue := rfl

/-! ### The operations state by state -/

section Spec

variable {agg : Aggregator}

@[simp] theorem recordUpdate_error (error : AggregatorV1Error) :
    recordUpdate (.error error) = some (.error error) := rfl

theorem add_of_data (hstate : agg.state = .data) (value : Nat) :
    agg.add value =
      some (if agg.value + value ≤ agg.maxValue then .ok { agg with value := agg.value + value }
        else .error (additionV1Error BoundedMathError.overflow)) := by
  unfold add
  simp only [hstate, BoundedMath.unsignedAdd_spec]
  split_ifs <;> rfl

theorem sub_of_data (hstate : agg.state = .data) (value : Nat) :
    agg.sub value =
      some (if value ≤ agg.value then .ok { agg with value := agg.value - value }
        else .error (subtractionV1Error BoundedMathError.underflow)) := by
  unfold sub
  simp only [hstate, BoundedMath.unsignedSubtract_spec]
  split_ifs <;> rfl

section Delta

variable {history : DeltaHistory} (hhistory : agg.history = some history)
include hhistory

theorem add_of_positiveDelta (hstate : agg.state = .positiveDelta) (value : Nat) :
    agg.add value =
      if agg.value + value ≤ agg.maxValue then
        some (.ok { agg with value := agg.value + value,
                             history := some (history.recordSuccess (.positive (agg.value + value))) })
      else some (.error (additionV1Error BoundedMathError.overflow)) := by
  obtain ⟨current, state, maxValue, history'⟩ := agg
  obtain rfl : state = .positiveDelta := hstate
  obtain rfl : history' = some history := hhistory
  unfold add
  simp only [BoundedMath.unsignedAdd_spec]
  split_ifs <;> rfl

theorem add_of_negativeDelta (hstate : agg.state = .negativeDelta) (value : Nat) :
    agg.add value =
      some (.ok (if agg.value ≤ value then
        { agg with value := value - agg.value, state := .positiveDelta,
                   history := some (history.recordSuccess (.positive (value - agg.value))) }
      else
        { agg with value := agg.value - value,
                   history := some (history.recordSuccess (.negative (agg.value - value))) })) := by
  obtain ⟨current, state, maxValue, history'⟩ := agg
  obtain rfl : state = .negativeDelta := hstate
  obtain rfl : history' = some history := hhistory
  unfold add
  split_ifs with hle
  · simp only [BoundedMath.unsignedSubtract_spec, if_pos hle]
    rfl
  · simp only [BoundedMath.unsignedSubtract_spec, if_pos (Nat.le_of_not_le hle)]
    rfl

theorem sub_of_positiveDelta (hstate : agg.state = .positiveDelta) (value : Nat) :
    agg.sub value =
      if value ≤ agg.value then
        some (.ok { agg with value := agg.value - value,
                             history := some (history.recordSuccess (.positive (agg.value - value))) })
      else if value ≤ agg.maxValue then
        some (.ok { agg with value := value - agg.value, state := .negativeDelta,
                             history := some (history.recordSuccess (.negative (value - agg.value))) })
      else some (.error (subtractionV1Error BoundedMathError.underflow)) := by
  obtain ⟨current, state, maxValue, history'⟩ := agg
  obtain rfl : state = .positiveDelta := hstate
  obtain rfl : history' = some history := hhistory
  unfold sub
  split_ifs with hle hmax
  · simp only [BoundedMath.unsignedSubtract_spec, if_pos hle]
    rfl
  · simp only [BoundedMath.unsignedSubtract_spec, if_pos hmax, if_pos (Nat.le_of_not_le hle)]
    rfl
  · simp only [BoundedMath.unsignedSubtract_spec, if_neg hmax]
    rfl

theorem sub_of_negativeDelta (hstate : agg.state = .negativeDelta) (value : Nat) :
    agg.sub value =
      if agg.value + value ≤ agg.maxValue then
        some (.ok { agg with value := agg.value + value,
                             history := some (history.recordSuccess (.negative (agg.value + value))) })
      else some (.error (subtractionV1Error BoundedMathError.overflow)) := by
  obtain ⟨current, state, maxValue, history'⟩ := agg
  obtain rfl : state = .negativeDelta := hstate
  obtain rfl : history' = some history := hhistory
  unfold sub
  simp only [BoundedMath.unsignedAdd_spec]
  split_ifs <;> rfl

end Delta

end Spec

/-! ### Delta mode -/

/-- A delta-mode aggregator and its history: the history has seen the current delta, and it
records no overflow that validation could panic on. Version 1 records no failures at all. -/
structure DeltaMode (agg : Aggregator) (history : DeltaHistory) : Prop where
  state_ne : agg.state ≠ .data
  history_eq : agg.history = some history
  delta_le : agg.delta ≤ history.maxAchievedPositiveDelta
  neg_delta_le : -agg.delta ≤ history.minAchievedNegativeDelta
  minOverflow_eq : history.minOverflowPositiveDelta = none

theorem deltaMode_fresh (maxValue : Nat) : DeltaMode (fresh maxValue) DeltaHistory.new where
  state_ne := by simp [fresh]
  history_eq := rfl
  delta_le := by simp [fresh, delta, signedDelta, DeltaHistory.new]
  neg_delta_le := by simp [fresh, delta, signedDelta, DeltaHistory.new]
  minOverflow_eq := rfl

/-- An aggregator whose history recorded its own delta is in delta mode. -/
theorem deltaMode_of_recorded {agg : Aggregator} {history : DeltaHistory}
    (hstate : agg.state ≠ .data)
    (hhistory : agg.history = some (history.recordSuccess agg.signedDelta))
    (hoverflow : history.minOverflowPositiveDelta = none) :
    DeltaMode agg (history.recordSuccess agg.signedDelta) := by
  refine ⟨hstate, hhistory, ?_, ?_, ?_⟩ <;>
    by_cases hneg : agg.state = .negativeDelta
  all_goals
    first
    | simp only [signedDelta_of_negativeDelta hneg, delta_of_negativeDelta hneg,
        DeltaHistory.recordSuccess_negative]
    | simp only [signedDelta_of_ne hneg, delta_of_ne hneg, DeltaHistory.recordSuccess_positive]
  all_goals first | exact hoverflow | omega

/-- In delta mode, validation does not panic, and it accepts exactly the stored values the
history admits. -/
theorem validateHistory_of_deltaMode {agg : Aggregator} {history : DeltaHistory}
    (hmode : DeltaMode agg history) (baseValue : Nat) :
    ∃ result, agg.validateHistory baseValue = some result ∧
      (result = .ok () ↔ history.ValidOn baseValue agg.maxValue) := by
  have hbound : ∀ delta ∈ history.minOverflowPositiveDelta, delta ≤ agg.maxValue := by
    simp [hmode.minOverflow_eq]
  obtain ⟨result, hvalidate, hiff⟩ :
      ∃ result, history.validateAgainstBaseValue baseValue agg.maxValue = some result ∧
        (result = .ok () ↔ history.ValidOn baseValue agg.maxValue) :=
    DeltaHistory.validateAgainstBaseValue_spec hbound
  refine ⟨result.mapError validationError, ?_, ?_⟩
  · unfold validateHistory
    rw [hmode.history_eq]
    show (history.validateAgainstBaseValue baseValue agg.maxValue).map _ = _
    rw [hvalidate]
    rfl
  · rw [Rust.mapError_eq_ok_iff, hiff]

/-- In delta mode, a stored value the history admits materializes to the value plus the delta,
and the aggregator then knows that value. -/
theorem readAndMaterialize_of_validOn {agg : Aggregator} {history : DeltaHistory}
    (hmode : DeltaMode agg history) {baseValue : Nat}
    (hvalid : history.ValidOn baseValue agg.maxValue) (id : String) :
    agg.readAndMaterialize (.ok (some baseValue)) id =
      some (.ok ((baseValue + agg.delta).toNat,
        ofValue (baseValue + agg.delta).toNat agg.maxValue)) := by
  obtain ⟨result, hvalidate, hiff⟩ := validateHistory_of_deltaMode hmode baseValue
  obtain rfl : result = .ok () := hiff.mpr hvalid
  have hmax := hvalid.1
  have hmin := hvalid.2.1
  have hdelta := hmode.delta_le
  have hneg := hmode.neg_delta_le
  unfold readAndMaterialize
  rw [if_neg hmode.state_ne]
  show (agg.validateHistory baseValue).bind _ = _
  rw [hvalidate, Option.bind_some]
  obtain ⟨current, state, maxValue, history'⟩ := agg
  cases state with
  | data => exact absurd rfl hmode.state_ne
  | positiveDelta =>
    rw [delta_of_ne (by simp)] at hdelta ⊢
    have hsum : baseValue + current ≤ maxValue := by dsimp only at hdelta hmax ⊢; omega
    simp only [BoundedMath.unsignedAdd_spec, if_pos hsum]
    have htoNat : ((baseValue : Int) + current).toNat = baseValue + current := by omega
    rw [htoNat]
    rfl
  | negativeDelta =>
    rw [delta_of_negativeDelta rfl] at hneg ⊢
    have hle : current ≤ baseValue := by dsimp only at hneg hmin ⊢; omega
    simp only [BoundedMath.unsignedSubtract_spec, if_pos hle]
    have htoNat : ((baseValue : Int) + -(current : Int)).toNat = baseValue - current := by omega
    rw [htoNat]
    rfl

end Aggregator

/-! ## Runs of calls -/

/-- A call of the aggregator's Move API. -/
inductive Call where
  | add (value : Nat)
  | sub (value : Nat)
  deriving DecidableEq, Repr

/-- The change a call asks for. -/
def Call.toInt : Call → Int
  | .add value => value
  | .sub value => -(value : Int)

@[simp] theorem Call.toInt_add (value : Nat) : (Call.add value).toInt = value := rfl
@[simp] theorem Call.toInt_sub (value : Nat) : (Call.sub value).toInt = -(value : Int) := rfl

namespace Aggregator

/-- One call. -/
def apply (agg : Aggregator) : Call → Option (Except AggregatorV1Error Aggregator)
  | .add value => agg.add value
  | .sub value => agg.sub value

@[simp] theorem apply_add (agg : Aggregator) (value : Nat) : agg.apply (.add value) = agg.add value :=
  rfl

@[simp] theorem apply_sub (agg : Aggregator) (value : Nat) : agg.apply (.sub value) = agg.sub value :=
  rfl

/-- Calls one after the other, up to the first error or panic. -/
def run (agg : Aggregator) : List Call → Option (Except AggregatorV1Error Aggregator)
  | [] => some (.ok agg)
  | call :: calls =>
    match agg.apply call with
    | some (.ok next) => next.run calls
    | stopped => stopped

@[simp] theorem run_nil (agg : Aggregator) : agg.run [] = some (.ok agg) := rfl

theorem run_cons (agg : Aggregator) (call : Call) (calls : List Call) :
    agg.run (call :: calls) =
      match agg.apply call with
      | some (.ok next) => next.run calls
      | stopped => stopped := rfl

theorem run_cons_of_ok {agg next : Aggregator} {call : Call} (calls : List Call)
    (happly : agg.apply call = some (.ok next)) : agg.run (call :: calls) = next.run calls := by
  rw [run_cons, happly]

theorem run_cons_of_error {agg : Aggregator} {call : Call} {error : AggregatorV1Error}
    (calls : List Call) (happly : agg.apply call = some (.error error)) :
    agg.run (call :: calls) = some (.error error) := by
  rw [run_cons, happly]

theorem run_cons_of_none {agg : Aggregator} {call : Call} (calls : List Call)
    (happly : agg.apply call = none) : agg.run (call :: calls) = none := by
  rw [run_cons, happly]

/-- A run of two sequences is the run of the second from where the first stops. -/
theorem run_append_of_ok {agg final : Aggregator} {calls : List Call}
    (hrun : agg.run calls = some (.ok final)) (more : List Call) :
    agg.run (calls ++ more) = final.run more := by
  induction calls generalizing agg with
  | nil =>
    obtain rfl : agg = final := by simpa using hrun
    rfl
  | cons call calls ih =>
    rcases happly : agg.apply call with _ | (error | next)
    · rw [run_cons_of_none calls happly] at hrun
      cases hrun
    · rw [run_cons_of_error calls happly] at hrun
      cases hrun
    · rw [run_cons_of_ok calls happly] at hrun
      rw [List.cons_append, run_cons_of_ok _ happly, ih hrun]

end Aggregator

/-! ## The counter the calls describe -/

/-- Inside `[0, max_value]`. -/
def InBounds (maxValue : Nat) (value : Int) : Prop := 0 ≤ value ∧ value ≤ maxValue

/-- The values a counter passes through from `start`, one after each call. -/
def partialSums (start : Int) : List Call → List Int
  | [] => []
  | call :: calls => (start + call.toInt) :: partialSums (start + call.toInt) calls

/-- The change of all the calls together. -/
def total (calls : List Call) : Int := (calls.map Call.toInt).sum

@[simp] theorem partialSums_nil (start : Int) : partialSums start [] = [] := rfl

@[simp] theorem partialSums_cons (start : Int) (call : Call) (calls : List Call) :
    partialSums start (call :: calls) =
      (start + call.toInt) :: partialSums (start + call.toInt) calls := rfl

@[simp] theorem total_nil : total [] = 0 := rfl

@[simp] theorem total_cons (call : Call) (calls : List Call) :
    total (call :: calls) = call.toInt + total calls := by
  simp [total]

/-- A counter that starts and stays in bounds ends in bounds. -/
theorem inBounds_add_total {maxValue : Nat} {start : Int} {calls : List Call}
    (hstart : InBounds maxValue start)
    (hall : ∀ value ∈ partialSums start calls, InBounds maxValue value) :
    InBounds maxValue (start + total calls) := by
  induction calls generalizing start with
  | nil => simpa using hstart
  | cons call calls ih =>
    simp only [partialSums_cons, List.mem_cons, forall_eq_or_imp] at hall
    have hend := ih hall.1 hall.2
    rw [total_cons, ← Int.add_assoc]
    exact hend

/-! ## The direct run -/

namespace Aggregator

section Direct

variable {value maxValue : Nat}

/-- On a known value, a call succeeds exactly when the new value stays in bounds. -/
theorem apply_ofValue_of_inBounds {call : Call} (hbounds : InBounds maxValue (value + call.toInt)) :
    (ofValue value maxValue).apply call =
      some (.ok (ofValue (value + call.toInt).toNat maxValue)) := by
  obtain ⟨hlow, hhigh⟩ := hbounds
  cases call with
  | add x =>
    rw [Call.toInt_add] at hhigh ⊢
    have hsum : value + x ≤ maxValue := by omega
    have htoNat : ((value : Int) + x).toNat = value + x := by omega
    rw [apply_add, add_of_data rfl]
    dsimp only [ofValue]
    simp only [hsum, if_true, htoNat]
  | sub x =>
    rw [Call.toInt_sub] at hlow ⊢
    have hle : x ≤ value := by omega
    have htoNat : ((value : Int) + -(x : Int)).toNat = value - x := by omega
    rw [apply_sub, sub_of_data rfl]
    dsimp only [ofValue]
    simp only [hle, if_true, htoNat]

/-- A value in bounds fails a call that leaves them; an overflow and an underflow are both
errors, never a panic. -/
theorem apply_ofValue_of_not_inBounds {call : Call} (hvalue : value ≤ maxValue)
    (hbounds : ¬ InBounds maxValue (value + call.toInt)) :
    ∃ error, (ofValue value maxValue).apply call = some (.error error) := by
  unfold InBounds at hbounds
  cases call with
  | add x =>
    rw [Call.toInt_add] at hbounds
    have hsum : ¬ value + x ≤ maxValue := by omega
    rw [apply_add, add_of_data rfl]
    dsimp only [ofValue]
    exact ⟨_, by simp only [hsum, if_false]; rfl⟩
  | sub x =>
    rw [Call.toInt_sub] at hbounds
    have hle : ¬ x ≤ value := by omega
    rw [apply_sub, sub_of_data rfl]
    dsimp only [ofValue]
    exact ⟨_, by simp only [hle, if_false]; rfl⟩

theorem run_ofValue_of_inBounds {calls : List Call}
    (hall : ∀ sum ∈ partialSums value calls, InBounds maxValue sum) :
    (ofValue value maxValue).run calls =
      some (.ok (ofValue (value + total calls).toNat maxValue)) := by
  induction calls generalizing value with
  | nil => simp
  | cons call calls ih =>
    simp only [partialSums_cons, List.mem_cons, forall_eq_or_imp] at hall
    obtain ⟨hfirst, hrest⟩ := hall
    have hnext : (value : Int) + call.toInt = ((value + call.toInt).toNat : Int) := by
      have := hfirst.1
      omega
    rw [hnext] at hrest
    rw [run_cons_of_ok calls (apply_ofValue_of_inBounds hfirst), ih hrest, ← hnext, total_cons,
      Int.add_assoc]

theorem run_ofValue_error_of_not_inBounds {calls : List Call} (hvalue : value ≤ maxValue)
    (hbad : ¬ ∀ sum ∈ partialSums value calls, InBounds maxValue sum) :
    ∃ error, (ofValue value maxValue).run calls = some (.error error) := by
  induction calls generalizing value with
  | nil => simp at hbad
  | cons call calls ih =>
    by_cases hfirst : InBounds maxValue (value + call.toInt)
    · have hnext : (value : Int) + call.toInt = ((value + call.toInt).toNat : Int) := by
        have := hfirst.1
        omega
      have hrest : ¬ ∀ sum ∈ partialSums ((value + call.toInt).toNat : Int) calls,
          InBounds maxValue sum := by
        rw [← hnext]
        intro hrest
        apply hbad
        simp only [partialSums_cons, List.mem_cons, forall_eq_or_imp]
        exact ⟨hfirst, hrest⟩
      have hle : (value + call.toInt).toNat ≤ maxValue := by
        have := hfirst.2
        omega
      rw [run_cons_of_ok calls (apply_ofValue_of_inBounds hfirst)]
      exact ih hle hrest
    · obtain ⟨error, happly⟩ := apply_ofValue_of_not_inBounds hvalue hfirst
      exact ⟨error, run_cons_of_error calls happly⟩

/-- From a value in bounds, the direct run succeeds exactly when every partial sum is in
bounds. -/
theorem run_ofValue_isOk_iff {calls : List Call} (hvalue : value ≤ maxValue) :
    (∃ final, (ofValue value maxValue).run calls = some (.ok final)) ↔
      ∀ sum ∈ partialSums value calls, InBounds maxValue sum := by
  constructor
  · rintro ⟨final, hrun⟩
    by_contra hbad
    obtain ⟨error, herror⟩ := run_ofValue_error_of_not_inBounds hvalue hbad
    rw [hrun] at herror
    cases herror
  · intro hall
    exact ⟨_, run_ofValue_of_inBounds hall⟩

end Direct

/-! ## The delta run against every stored value -/

section DeltaRun

/-- One call in delta mode. A success moves the delta by the call and records the new delta; a
failure happens only where the direct call fails too, from every stored value the history
admits. -/
theorem apply_of_deltaMode {agg : Aggregator} {history : DeltaHistory}
    (hmode : DeltaMode agg history) (call : Call) :
    (∃ next, agg.apply call = some (.ok next) ∧ next.state ≠ .data ∧
        next.history = some (history.recordSuccess next.signedDelta) ∧
        next.maxValue = agg.maxValue ∧ next.delta = agg.delta + call.toInt) ∨
      ∃ error, agg.apply call = some (.error error) ∧
        ∀ baseValue : Nat, history.ValidOn baseValue agg.maxValue →
          ¬ InBounds agg.maxValue (baseValue + agg.delta + call.toInt) := by
  have hhistory := hmode.history_eq
  have hbelow := hmode.delta_le
  obtain ⟨current, state, maxValue, history'⟩ := agg
  cases state with
  | data => exact absurd rfl hmode.state_ne
  | positiveDelta =>
    rw [delta_of_ne (by simp)] at hbelow ⊢
    cases call with
    | add x =>
      rw [apply_add, add_of_positiveDelta hhistory rfl, Call.toInt_add]
      split_ifs with hsum
      · left
        refine ⟨_, rfl, by simp, by rw [signedDelta_of_ne (by simp)], rfl, ?_⟩
        rw [delta_of_ne (by simp)]
        dsimp only
        omega
      · right
        refine ⟨_, rfl, ?_⟩
        rintro baseValue - ⟨-, hhigh⟩
        dsimp only at hsum hhigh
        omega
    | sub x =>
      rw [apply_sub, sub_of_positiveDelta hhistory rfl, Call.toInt_sub]
      split_ifs with hle hmax
      · left
        refine ⟨_, rfl, by simp, by rw [signedDelta_of_ne (by simp)], rfl, ?_⟩
        rw [delta_of_ne (by simp)]
        dsimp only at hle ⊢
        omega
      · left
        refine ⟨_, rfl, by simp, by rw [signedDelta_of_negativeDelta rfl], rfl, ?_⟩
        rw [delta_of_negativeDelta rfl]
        dsimp only at hle ⊢
        omega
      · right
        refine ⟨_, rfl, ?_⟩
        rintro baseValue hvalid ⟨hlow, -⟩
        have hreach := hvalid.1
        dsimp only at hle hmax hreach hbelow hlow
        omega
  | negativeDelta =>
    rw [delta_of_negativeDelta rfl]
    cases call with
    | add x =>
      rw [apply_add, add_of_negativeDelta hhistory rfl, Call.toInt_add]
      left
      split_ifs with hle
      · refine ⟨_, rfl, by simp, by rw [signedDelta_of_ne (by simp)], rfl, ?_⟩
        rw [delta_of_ne (by simp)]
        dsimp only at hle ⊢
        omega
      · refine ⟨_, rfl, by simp, by rw [signedDelta_of_negativeDelta rfl], rfl, ?_⟩
        rw [delta_of_negativeDelta rfl]
        dsimp only at hle ⊢
        omega
    | sub x =>
      rw [apply_sub, sub_of_negativeDelta hhistory rfl, Call.toInt_sub]
      split_ifs with hsum
      · left
        refine ⟨_, rfl, by simp, by rw [signedDelta_of_negativeDelta rfl], rfl, ?_⟩
        rw [delta_of_negativeDelta rfl]
        dsimp only
        omega
      · right
        refine ⟨_, rfl, ?_⟩
        rintro baseValue hvalid ⟨hlow, -⟩
        have hreach := hvalid.1
        dsimp only at hsum hreach hlow
        omega

/-- A successful run in delta mode stays in delta mode, moves the delta by the calls' total,
and its history admits a stored value exactly when the value stays in bounds along the run. -/
theorem run_of_deltaMode {agg final : Aggregator} {history : DeltaHistory}
    (hmode : DeltaMode agg history) {calls : List Call}
    (hrun : agg.run calls = some (.ok final)) :
    ∃ history', DeltaMode final history' ∧ final.maxValue = agg.maxValue ∧
      final.delta = agg.delta + total calls ∧
      ∀ baseValue : Nat, history'.ValidOn baseValue agg.maxValue ↔
        history.ValidOn baseValue agg.maxValue ∧
          ∀ sum ∈ partialSums (baseValue + agg.delta) calls, InBounds agg.maxValue sum := by
  induction calls generalizing agg history with
  | nil =>
    obtain rfl : agg = final := by simpa using hrun
    exact ⟨history, hmode, rfl, by simp, fun baseValue ↦ by simp⟩
  | cons call calls ih =>
    rcases apply_of_deltaMode hmode call with
      ⟨next, happly, hstate, hhistory, hmax, hdelta⟩ | ⟨error, happly, -⟩
    · rw [run_cons_of_ok calls happly] at hrun
      obtain ⟨history', hfinal, hmax', hdelta', hvalid⟩ :=
        ih (deltaMode_of_recorded hstate hhistory hmode.minOverflow_eq) hrun
      refine ⟨history', hfinal, hmax'.trans hmax, ?_, fun baseValue ↦ ?_⟩
      · rw [hdelta', hdelta, total_cons, Int.add_assoc]
      · rw [← hmax, hvalid, DeltaHistory.validOn_recordSuccess, signedDelta_toInt, hdelta,
          partialSums_cons]
        simp only [List.mem_cons, forall_eq_or_imp, InBounds, Int.add_assoc, and_assoc]
    · rw [run_cons_of_error calls happly] at hrun
      cases hrun

end DeltaRun

/-! ## Refinement of the direct mode -/

/-- What delta mode promises about a fresh aggregator of `max_value` against a stored
`base_value`: a failing call fails directly too, from every stored value the history before it
admits; a successful run validates exactly when the direct run succeeds, never panicking, and
then materializes to the direct run's aggregator. -/
structure RefinesDirect (maxValue baseValue : Nat) : Prop where
  error_refines : ∀ (pre : List Call) (call : Call) (agg : Aggregator) (error : AggregatorV1Error),
    (fresh maxValue).run pre = some (.ok agg) → agg.apply call = some (.error error) →
      agg.validateHistory baseValue = some (.ok ()) →
        ∃ error', (ofValue baseValue maxValue).run (pre ++ [call]) = some (.error error')
  ok_refines : ∀ (calls : List Call) (agg : Aggregator),
    (fresh maxValue).run calls = some (.ok agg) →
      agg.validateHistory baseValue ≠ none ∧
        (agg.validateHistory baseValue = some (.ok ()) ↔
          ∃ final, (ofValue baseValue maxValue).run calls = some (.ok final)) ∧
        ∀ (final : Aggregator) (id : String),
          (ofValue baseValue maxValue).run calls = some (.ok final) →
            agg.readAndMaterialize (.ok (some baseValue)) id = some (.ok (final.value, final))

section Fresh

variable {maxValue baseValue : Nat}

theorem run_fresh_error_refines {pre : List Call} {call : Call} {agg : Aggregator}
    {error : AggregatorV1Error} (hpre : (fresh maxValue).run pre = some (.ok agg))
    (hcall : agg.apply call = some (.error error))
    (hvalidate : agg.validateHistory baseValue = some (.ok ())) :
    ∃ error', (ofValue baseValue maxValue).run (pre ++ [call]) = some (.error error') := by
  obtain ⟨history, hmode, hmax, hdelta, hhistory⟩ :=
    run_of_deltaMode (deltaMode_fresh maxValue) hpre
  rw [maxValue_fresh] at hmax hhistory
  rw [delta_fresh] at hdelta hhistory
  obtain ⟨result, hresult, hiff⟩ := validateHistory_of_deltaMode hmode baseValue
  rw [hresult, Option.some.injEq] at hvalidate
  have hvalid : history.ValidOn baseValue agg.maxValue := hiff.mp hvalidate
  obtain ⟨hnew, hall⟩ := (hhistory baseValue).mp (hmax ▸ hvalid)
  rw [Int.add_zero] at hall
  rw [DeltaHistory.validOn_new] at hnew
  have hend : InBounds maxValue (baseValue + total pre) :=
    inBounds_add_total ⟨by omega, by omega⟩ hall
  have hcast : (((baseValue + total pre).toNat : Nat) : Int) = baseValue + total pre :=
    Int.toNat_of_nonneg hend.1
  have hbad : ¬ InBounds maxValue (((baseValue + total pre).toNat : Nat) + call.toInt) := by
    rcases apply_of_deltaMode hmode call with ⟨next, happly, -⟩ | ⟨error', -, hbad⟩
    · rw [hcall] at happly
      cases happly
    · rw [hcast, ← Int.zero_add (total pre), ← hdelta, ← hmax]
      exact hbad baseValue hvalid
  have hle : (baseValue + total pre).toNat ≤ maxValue := by
    have := hend.2
    omega
  obtain ⟨error', happly⟩ := apply_ofValue_of_not_inBounds hle hbad
  exact ⟨error', by
    rw [run_append_of_ok (run_ofValue_of_inBounds hall), run_cons_of_error [] happly]⟩

theorem run_fresh_ok_refines (hbase : baseValue ≤ maxValue) {calls : List Call} {agg : Aggregator}
    (hrun : (fresh maxValue).run calls = some (.ok agg)) :
    agg.validateHistory baseValue ≠ none ∧
      (agg.validateHistory baseValue = some (.ok ()) ↔
        ∃ final, (ofValue baseValue maxValue).run calls = some (.ok final)) ∧
      ∀ (final : Aggregator) (id : String),
        (ofValue baseValue maxValue).run calls = some (.ok final) →
          agg.readAndMaterialize (.ok (some baseValue)) id = some (.ok (final.value, final)) := by
  obtain ⟨history, hmode, hmax, hdelta, hhistory⟩ :=
    run_of_deltaMode (deltaMode_fresh maxValue) hrun
  rw [maxValue_fresh] at hmax hhistory
  rw [delta_fresh] at hdelta hhistory
  have hadmits : history.ValidOn baseValue agg.maxValue ↔
      ∀ sum ∈ partialSums baseValue calls, InBounds maxValue sum := by
    rw [hmax, hhistory, DeltaHistory.validOn_new, Int.add_zero]
    exact and_iff_right hbase
  obtain ⟨result, hresult, hiff⟩ := validateHistory_of_deltaMode hmode baseValue
  refine ⟨by simp [hresult], ?_, ?_⟩
  · rw [hresult, Option.some.injEq, hiff, hadmits, run_ofValue_isOk_iff hbase]
  · intro final id hfinal
    have hall := (run_ofValue_isOk_iff hbase).mp ⟨final, hfinal⟩
    rw [run_ofValue_of_inBounds hall, Option.some.injEq, Except.ok.injEq] at hfinal
    subst hfinal
    rw [readAndMaterialize_of_validOn hmode (hadmits.mpr hall) id, hdelta, Int.zero_add, hmax]
    rfl

end Fresh

/-- Delta mode refines the direct mode for every `max_value` and every stored value below it. -/
theorem aggregatorV1_delta_refines_direct (maxValue baseValue : Nat)
    (hbase : baseValue ≤ maxValue) : RefinesDirect maxValue baseValue where
  error_refines _ _ _ _ hpre hcall hvalidate := run_fresh_error_refines hpre hcall hvalidate
  ok_refines _ _ hrun := run_fresh_ok_refines hbase hrun

theorem aggregatorV1_delta_refines_direct_sample : 3 ≤ 10 ∧ RefinesDirect 10 3 :=
  ⟨by decide, aggregatorV1_delta_refines_direct 10 3 (by decide)⟩

end Aggregator

/-- `AggregatorData::get_aggregator` on the aggregators of a transaction, by id: the stored
aggregator, or a fresh one inserted for an id the transaction has not used. -/
def getAggregator {ι : Type} [DecidableEq ι] (aggregators : List (ι × Aggregator))
    (aggregatorId : ι) (maxValue : Nat) : List (ι × Aggregator) × Aggregator :=
  (modifyFirst Prod.fst aggregatorId (aggregatorId, Aggregator.fresh maxValue) (fun entry ↦ entry)
      aggregators,
    ((findKey Prod.fst aggregatorId aggregators).getD
      (aggregatorId, Aggregator.fresh maxValue)).2)

end AptosCore.AggregatorV1
