import AptosCore.Aggregator.BoundedMath

/-!
# Errors of delayed fields

`aptos-aggregator/src/types.rs`: the speculative errors after which a transaction is executed
again, and `PanicOr`, which sets a broken code invariant apart from them. Only the variants that
the delta operations produce are here; `NotFound` and `InconsistentRead` come from the
delayed-field lookups.
-/

namespace AptosCore.Aggregator

/-- `DeltaApplicationFailureReason`. -/
inductive DeltaApplicationFailureReason where
  | overflow
  | underflow
  | expectedOverflow
  | expectedUnderflow
  deriving DecidableEq, Repr

/-- `DeltaHistoryMergeOffsetFailureReason`. -/
inductive DeltaHistoryMergeOffsetFailureReason where
  | achievedExceedsBounds
  | failureNotExceedingBoundsAnyMore
  deriving DecidableEq, Repr

/-- `DelayedFieldsSpeculativeError`, without the lookup failures. -/
inductive DelayedFieldsSpeculativeError where
  | deltaApplication (baseValue maxValue : Nat) (delta : SignedU128)
      (reason : DeltaApplicationFailureReason)
  | deltaMerge (baseDelta delta : SignedU128) (maxValue : Nat)
  | deltaHistoryMergeOffset (target : Nat) (delta : SignedU128) (maxValue : Nat)
      (reason : DeltaHistoryMergeOffsetFailureReason)
  | deltaHistoryMergeAchievedAndFailureOverlap (achieved overflow : SignedU128)
  deriving DecidableEq, Repr

/-- `PanicOr`: a broken code invariant, or an error of the operation. -/
inductive PanicOr (α : Type) where
  | codeInvariantError (message : String)
  | or (error : α)
  deriving DecidableEq, Repr

/-- `{:?}` of a string with no quote, backslash or control character in it. -/
def debugQuote (text : String) : String := "\"" ++ text ++ "\""

/-- `code_invariant_error`, followed by the conversion of its `PanicError` into a `PanicOr`. -/
def codeInvariantError {α : Type} (message : String) : PanicOr α :=
  .codeInvariantError
    ("Delayed materialization code invariant broken (there is a bug in the code), " ++
      debugQuote message)

/-- The `Debug` text of a `BoundedMathError`. -/
def BoundedMathError.debug : BoundedMathError → String
  | .overflow => "Overflow"
  | .underflow => "Underflow"

/-- `expect_ok`, at the error type the delta operations call it with. -/
def expectOk {α β : Type} (value : Except BoundedMathError α) : Except (PanicOr β) α :=
  value.mapError fun error ↦ codeInvariantError ("Expected Ok, got Err(" ++ error.debug ++ ")")

@[simp] theorem expectOk_eq_ok_iff {α β : Type} {value : Except BoundedMathError α} {a : α} :
    (expectOk value : Except (PanicOr β) α) = .ok a ↔ value = .ok a :=
  Rust.mapError_eq_ok_iff

end AptosCore.Aggregator
