import Mathlib

/-!
# Unsigned integers of the Move VM

`move-vm/types/src/values/values_impl.rs`, `IntegerValue`: the arithmetic of `u8` … `u256`, on
values below `2 ^ width`, which is also Rust's `checked_*` on its unsigned types. Addition,
subtraction and multiplication abort (`none`) when the result leaves the type and division
aborts on a zero divisor; a shift aborts when it is by `width` bits or more,
and a left shift drops the bits it moves out of the type. Only the operations the modelled
framework functions use are here.
-/

namespace AptosCore.Move.Integer

def addChecked (width a b : Nat) : Option Nat :=
  if a + b < 2 ^ width then some (a + b) else none

def subChecked (a b : Nat) : Option Nat :=
  if a < b then none else some (a - b)

def mulChecked (width a b : Nat) : Option Nat :=
  if a * b < 2 ^ width then some (a * b) else none

def divChecked (a b : Nat) : Option Nat :=
  if b = 0 then none else some (a / b)

def shlChecked (width x bits : Nat) : Option Nat :=
  if bits < width then some (x * 2 ^ bits % 2 ^ width) else none

def shrChecked (width x bits : Nat) : Option Nat :=
  if bits < width then some (x / 2 ^ bits) else none

variable {width a b x bits : Nat}

theorem addChecked_of_lt (h : a + b < 2 ^ width) : addChecked width a b = some (a + b) :=
  if_pos h

theorem subChecked_of_le (h : b ≤ a) : subChecked a b = some (a - b) :=
  if_neg (Nat.not_lt.mpr h)

theorem eq_of_addChecked_eq_some {c : Nat} (h : addChecked width a b = some c) : c = a + b := by
  unfold addChecked at h
  split_ifs at h
  exact (Option.some.inj h).symm

theorem mulChecked_of_lt (h : a * b < 2 ^ width) : mulChecked width a b = some (a * b) :=
  if_pos h

theorem mulChecked_of_le (h : 2 ^ width ≤ a * b) : mulChecked width a b = none :=
  if_neg (Nat.not_lt.mpr h)

theorem mulChecked_eq_some_iff {c : Nat} :
    mulChecked width a b = some c ↔ a * b < 2 ^ width ∧ a * b = c := by
  unfold mulChecked
  split_ifs with h <;> simp [h]

theorem divChecked_of_pos (h : 0 < b) : divChecked a b = some (a / b) :=
  if_neg (Nat.pos_iff_ne_zero.mp h)

/-- A left shift that keeps every bit is a multiplication by a power of two. -/
theorem shlChecked_of_lt (hbits : bits < width) (h : x * 2 ^ bits < 2 ^ width) :
    shlChecked width x bits = some (x * 2 ^ bits) := by
  rw [shlChecked, if_pos hbits, Nat.mod_eq_of_lt h]

theorem shrChecked_of_lt (hbits : bits < width) : shrChecked width x bits = some (x / 2 ^ bits) :=
  if_pos hbits

end AptosCore.Move.Integer
