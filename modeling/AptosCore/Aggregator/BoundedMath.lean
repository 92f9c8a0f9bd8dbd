import AptosCore.Rust.Result

/-!
# Bounded arithmetic of the aggregator

`aptos-aggregator/src/bounded_math.rs`: unsigned operations on `[0, max_value]` and signed
deltas on `[-max_value, max_value]`, failing with `Overflow` or `Underflow` instead of wrapping.
`u128` values are natural numbers; every operation compares against `max_value` before it adds
or subtracts, so no step of the Rust code can wrap, and `Nat` arithmetic agrees with it.

The `_spec` lemmas say each operation in terms of the integer it computes; later modules use
those and the sign of a `SignedU128` as an integer, `SignedU128.toInt`.
-/

namespace AptosCore.Aggregator

/-- `BoundedMathError`. -/
inductive BoundedMathError where
  | overflow
  | underflow
  deriving DecidableEq, Repr

/-- `SignedU128`: a magnitude with a sign. Both `Positive(0)` and `Negative(0)` exist. -/
inductive SignedU128 where
  | positive (value : Nat)
  | negative (value : Nat)
  deriving DecidableEq, Repr

namespace SignedU128

/-- The integer a signed delta stands for. -/
def toInt : SignedU128 → Int
  | positive value => value
  | negative value => -(value : Int)

def minus : SignedU128 → SignedU128
  | positive value => negative value
  | negative value => positive value

@[simp] theorem toInt_positive (value : Nat) : (positive value).toInt = value := rfl
@[simp] theorem toInt_negative (value : Nat) : (negative value).toInt = -(value : Int) := rfl

@[simp] theorem minus_positive (value : Nat) : (positive value).minus = negative value := rfl
@[simp] theorem minus_negative (value : Nat) : (negative value).minus = positive value := rfl

@[simp] theorem toInt_minus (delta : SignedU128) : delta.minus.toInt = -delta.toInt := by
  cases delta <;> simp

end SignedU128

/-- `BoundedMath`. -/
structure BoundedMath where
  maxValue : Nat

namespace BoundedMath

/-- `unsigned_add`: `base + value`, unless `base` or the sum exceeds `max_value`. -/
def unsignedAdd (math : BoundedMath) (base value : Nat) : Except BoundedMathError Nat :=
  if math.maxValue < base ∨ value > math.maxValue - base then .error .overflow
  else .ok (base + value)

def unsignedSubtract (_math : BoundedMath) (base value : Nat) : Except BoundedMathError Nat :=
  if value > base then .error .underflow else .ok (base - value)

def unsignedAddDelta (math : BoundedMath) (base : Nat) : SignedU128 → Except BoundedMathError Nat
  | .positive value => math.unsignedAdd base value
  | .negative value => math.unsignedSubtract base value

@[simp] theorem unsignedAddDelta_positive (math : BoundedMath) (base value : Nat) :
    math.unsignedAddDelta base (.positive value) = math.unsignedAdd base value := rfl

@[simp] theorem unsignedAddDelta_negative (math : BoundedMath) (base value : Nat) :
    math.unsignedAddDelta base (.negative value) = math.unsignedSubtract base value := rfl

def negateError {α : Type} : Except BoundedMathError α → Except BoundedMathError α
  | .error .overflow => .error .underflow
  | .error .underflow => .error .overflow
  | .ok value => .ok value

@[simp] theorem negateError_overflow {α : Type} :
    negateError (.error .overflow : Except BoundedMathError α) = .error .underflow := rfl

@[simp] theorem negateError_underflow {α : Type} :
    negateError (.error .underflow : Except BoundedMathError α) = .error .overflow := rfl

@[simp] theorem negateError_ok {α : Type} (value : α) :
    negateError (.ok value : Except BoundedMathError α) = .ok value := rfl

/-- The `update_different_sign!` macro of `signed_add`: `a - b` with the sign of the result. -/
def updateDifferentSign (math : BoundedMath) (a b : Nat) : Except BoundedMathError SignedU128 :=
  if a ≥ b then .positive <$> math.unsignedSubtract a b
  else .negative <$> math.unsignedSubtract b a

def signedAdd (math : BoundedMath) : SignedU128 → SignedU128 → Except BoundedMathError SignedU128
  | .positive v1, .positive v2 => .positive <$> math.unsignedAdd v1 v2
  | .positive v1, .negative v2 => math.updateDifferentSign v1 v2
  | .negative v1, .positive v2 => math.updateDifferentSign v2 v1
  | .negative v1, .negative v2 => .negative <$> negateError (math.unsignedAdd v1 v2)

theorem signedAdd_positive_negative (math : BoundedMath) (v1 v2 : Nat) :
    math.signedAdd (.positive v1) (.negative v2) = math.updateDifferentSign v1 v2 := rfl

theorem signedAdd_negative_positive (math : BoundedMath) (v1 v2 : Nat) :
    math.signedAdd (.negative v1) (.positive v2) = math.updateDifferentSign v2 v1 := rfl

end BoundedMath

/-- `ok_overflow`: an overflow becomes `None`, an underflow stays an error. -/
def okOverflow {α : Type} : Except BoundedMathError α → Except BoundedMathError (Option α)
  | .ok value => .ok (some value)
  | .error .overflow => .ok none
  | .error .underflow => .error .underflow

@[simp] theorem okOverflow_ok {α : Type} (value : α) : okOverflow (.ok value) = .ok (some value) :=
  rfl

@[simp] theorem okOverflow_overflow {α : Type} :
    okOverflow (.error .overflow : Except BoundedMathError α) = .ok none := rfl

@[simp] theorem okOverflow_underflow {α : Type} :
    okOverflow (.error .underflow : Except BoundedMathError α) = .error .underflow := rfl

/-- `ok_underflow`: an underflow becomes `None`, an overflow stays an error. -/
def okUnderflow {α : Type} : Except BoundedMathError α → Except BoundedMathError (Option α)
  | .ok value => .ok (some value)
  | .error .overflow => .error .overflow
  | .error .underflow => .ok none

@[simp] theorem okUnderflow_ok {α : Type} (value : α) :
    okUnderflow (.ok value) = .ok (some value) := rfl

@[simp] theorem okUnderflow_overflow {α : Type} :
    okUnderflow (.error .overflow : Except BoundedMathError α) = .error .overflow := rfl

@[simp] theorem okUnderflow_underflow {α : Type} :
    okUnderflow (.error .underflow : Except BoundedMathError α) = .ok none := rfl

/-! ## Specifications -/

namespace BoundedMath

variable (math : BoundedMath)

theorem unsignedAdd_spec (base value : Nat) :
    math.unsignedAdd base value =
      if base + value ≤ math.maxValue then .ok (base + value) else .error .overflow := by
  unfold unsignedAdd
  by_cases hsum : base + value ≤ math.maxValue
  · rw [if_neg (by omega), if_pos hsum]
  · rw [if_neg hsum, if_pos (by omega)]

theorem unsignedSubtract_spec (base value : Nat) :
    math.unsignedSubtract base value =
      if value ≤ base then .ok (base - value) else .error .underflow := by
  unfold unsignedSubtract
  by_cases hle : value ≤ base
  · rw [if_neg (by omega), if_pos hle]
  · rw [if_pos (by omega), if_neg hle]

/-- On a base inside `[0, max_value]`, `unsigned_add_delta` computes `base + delta` and names the
side of the range it leaves by. -/
theorem unsignedAddDelta_spec {base : Nat} (hbase : base ≤ math.maxValue) (delta : SignedU128) :
    math.unsignedAddDelta base delta =
      if (base : Int) + delta.toInt < 0 then .error .underflow
      else if (base : Int) + delta.toInt ≤ math.maxValue then .ok (base + delta.toInt).toNat
      else .error .overflow := by
  cases delta with
  | positive value =>
    have hnonneg : ¬ (base : Int) + value < 0 := by omega
    simp only [unsignedAddDelta_positive, unsignedAdd_spec, SignedU128.toInt_positive, hnonneg,
      if_false]
    by_cases hsum : base + value ≤ math.maxValue
    · have hsum' : (base : Int) + value ≤ math.maxValue := by omega
      simp only [hsum, hsum', if_true, Except.ok.injEq]
      omega
    · have hsum' : ¬ (base : Int) + value ≤ math.maxValue := by omega
      simp only [hsum, hsum', if_false]
  | negative value =>
    simp only [unsignedAddDelta_negative, unsignedSubtract_spec, SignedU128.toInt_negative]
    by_cases hle : value ≤ base
    · have hnonneg : ¬ (base : Int) + -(value : Int) < 0 := by omega
      have hmax : (base : Int) + -(value : Int) ≤ math.maxValue := by omega
      simp only [hle, hnonneg, hmax, if_true, if_false, Except.ok.injEq]
      omega
    · have hneg : (base : Int) + -(value : Int) < 0 := by omega
      simp only [hle, hneg, if_true, if_false]

theorem unsignedAdd_eq_ok_iff {base value total : Nat} :
    math.unsignedAdd base value = .ok total ↔
      base + value ≤ math.maxValue ∧ base + value = total := by
  rw [unsignedAdd_spec]
  by_cases hsum : base + value ≤ math.maxValue <;> simp [hsum]

@[simp] theorem negateError_eq_ok_iff {α : Type} {x : Except BoundedMathError α} {a : α} :
    negateError x = .ok a ↔ x = .ok a := by
  rcases x with (_ | _) | _ <;> simp

/-- The different-sign case of `signed_add` never fails. -/
theorem updateDifferentSign_eq (a b : Nat) :
    math.updateDifferentSign a b =
      .ok (if a ≥ b then .positive (a - b) else .negative (b - a)) := by
  unfold updateDifferentSign
  by_cases hab : a ≥ b
  · rw [if_pos hab, if_pos hab, unsignedSubtract_spec, if_pos hab]
    rfl
  · rw [if_neg hab, if_neg hab, unsignedSubtract_spec, if_pos (by omega)]
    rfl

theorem toInt_differentSign (a b : Nat) :
    (if a ≥ b then SignedU128.positive (a - b) else .negative (b - a)).toInt = (a : Int) - b := by
  by_cases hab : a ≥ b
  · rw [if_pos hab, SignedU128.toInt_positive]
    omega
  · rw [if_neg hab, SignedU128.toInt_negative]
    omega

/-- `signed_add` adds the two deltas as integers whenever it succeeds. -/
theorem signedAdd_toInt {left right sum : SignedU128}
    (hadd : math.signedAdd left right = .ok sum) : sum.toInt = left.toInt + right.toInt := by
  cases left with
  | positive v1 =>
    cases right with
    | positive v2 =>
      obtain ⟨total, htotal, rfl⟩ := Rust.map_eq_ok_iff.mp hadd
      obtain ⟨-, rfl⟩ := math.unsignedAdd_eq_ok_iff.mp htotal
      simp
    | negative v2 =>
      rw [signedAdd_positive_negative, updateDifferentSign_eq, Except.ok.injEq] at hadd
      rw [← hadd, toInt_differentSign]
      simp only [SignedU128.toInt_negative, SignedU128.toInt_positive]
      omega
  | negative v1 =>
    cases right with
    | positive v2 =>
      rw [signedAdd_negative_positive, updateDifferentSign_eq, Except.ok.injEq] at hadd
      rw [← hadd, toInt_differentSign]
      simp only [SignedU128.toInt_negative, SignedU128.toInt_positive]
      omega
    | negative v2 =>
      obtain ⟨total, htotal, rfl⟩ := Rust.map_eq_ok_iff.mp hadd
      obtain ⟨-, rfl⟩ := math.unsignedAdd_eq_ok_iff.mp (negateError_eq_ok_iff.mp htotal)
      simp only [SignedU128.toInt_negative]
      omega

/-- `signed_add` succeeds whenever the sum lies in `[-max_value, max_value]`. -/
theorem signedAdd_isOk (left right : SignedU128)
    (hlow : -(math.maxValue : Int) ≤ left.toInt + right.toInt)
    (hhigh : left.toInt + right.toInt ≤ math.maxValue) :
    ∃ sum, math.signedAdd left right = .ok sum := by
  cases left with
  | positive v1 =>
    cases right with
    | positive v2 =>
      have hsum : v1 + v2 ≤ math.maxValue := by
        simp only [SignedU128.toInt_positive] at hhigh
        omega
      exact ⟨_, Rust.map_eq_ok_iff.mpr ⟨_, math.unsignedAdd_eq_ok_iff.mpr ⟨hsum, rfl⟩, rfl⟩⟩
    | negative v2 => exact ⟨_, math.updateDifferentSign_eq v1 v2⟩
  | negative v1 =>
    cases right with
    | positive v2 => exact ⟨_, math.updateDifferentSign_eq v2 v1⟩
    | negative v2 =>
      have hsum : v1 + v2 ≤ math.maxValue := by
        simp only [SignedU128.toInt_negative] at hlow
        omega
      exact ⟨_, Rust.map_eq_ok_iff.mpr
        ⟨_, negateError_eq_ok_iff.mpr (math.unsignedAdd_eq_ok_iff.mpr ⟨hsum, rfl⟩), rfl⟩⟩

end BoundedMath

end AptosCore.Aggregator
