import Mathlib

/-!
# `u64` arithmetic

A `u64` is a `Nat` below `2 ^ 64`. The workspace's release profile keeps overflow checks, so
`+` and `-` panic when the result leaves the range (`add` and `sub` are `none` then); a shift by
less than 64 drops the bits shifted out (`shl`); `overflowing_add(..).0` wraps (`wrappingAdd`);
`!` flips the 64 bits (`not`).

`trailing_zeros`, `leading_zeros` and `count_ones` count bits of the 64-bit word. A nonzero
word is `2 ^ k` times an odd number, and `trailing_zeros` is that `k`
(`trailingZeros_two_pow_mul_odd`); `leading_zeros` is `63` less the index of the highest set bit.
-/

namespace AptosCore.Rust.U64

def max : Nat := 2 ^ 64 - 1

/-- `a + b`, which panics on overflow. -/
def add (a b : Nat) : Option Nat := if a + b < 2 ^ 64 then some (a + b) else none

/-- `a - b`, which panics below zero. -/
def sub (a b : Nat) : Option Nat := if b ≤ a then some (a - b) else none

/-- `a << s` for a shift `s` below 64: the bits shifted past the word are lost. -/
def shl (a s : Nat) : Nat := (a <<< s) % 2 ^ 64

/-- `a << s`, which panics for a shift of 64 or more. -/
def shlChecked (a s : Nat) : Option Nat := if s < 64 then some (shl a s) else none

/-- `a >> s`, which panics for a shift of 64 or more. -/
def shrChecked (a s : Nat) : Option Nat := if s < 64 then some (a >>> s) else none

/-- `!a`. -/
def not (a : Nat) : Nat := 2 ^ 64 - 1 - a

/-- `a.overflowing_add(b).0`. -/
def wrappingAdd (a b : Nat) : Nat := (a + b) % 2 ^ 64

/-- The trailing zeros of the low `width` bits of `v`; `width` when they are all zero. -/
def trailingZerosOf : Nat → Nat → Nat
  | 0, _ => 0
  | width + 1, v => if v % 2 = 1 then 0 else trailingZerosOf width (v / 2) + 1

def trailingZeros (v : Nat) : Nat := trailingZerosOf 64 v

def leadingZeros (v : Nat) : Nat := if v = 0 then 64 else 63 - Nat.log2 v

def countOnes (v : Nat) : Nat := v.bitIndices.length

@[simp] theorem add_of_lt {a b : Nat} (h : a + b < 2 ^ 64) : add a b = some (a + b) := if_pos h

@[simp] theorem sub_of_le {a b : Nat} (h : b ≤ a) : sub a b = some (a - b) := if_pos h

theorem shl_of_lt {a s : Nat} (h : a * 2 ^ s < 2 ^ 64) : shl a s = a * 2 ^ s := by
  rw [shl, Nat.shiftLeft_eq, Nat.mod_eq_of_lt h]

theorem shlChecked_one {s : Nat} (hs : s < 64) : shlChecked 1 s = some (2 ^ s) := by
  have hlt : 1 * 2 ^ s < 2 ^ 64 := by
    rw [Nat.one_mul]
    exact Nat.pow_lt_pow_right (by decide) hs
  rw [shlChecked, if_pos hs, shl_of_lt hlt, Nat.one_mul]

/-! ## Trailing zeros -/

theorem trailingZerosOf_two_pow_mul_odd {width k : Nat} (hk : k < width) (m : Nat) :
    trailingZerosOf width (2 ^ k * (2 * m + 1)) = k := by
  induction k generalizing width with
  | zero =>
    obtain ⟨width, rfl⟩ := Nat.exists_eq_add_of_lt hk
    simp [trailingZerosOf]
  | succ k ih =>
    obtain ⟨width, rfl⟩ := Nat.exists_eq_add_of_lt hk
    have heven : 2 ^ (k + 1) * (2 * m + 1) % 2 = 0 := by
      rw [Nat.pow_succ, Nat.mul_assoc, Nat.mul_comm 2, ← Nat.mul_assoc]
      exact Nat.mul_mod_left _ 2
    have hhalf : 2 ^ (k + 1) * (2 * m + 1) / 2 = 2 ^ k * (2 * m + 1) := by
      rw [Nat.pow_succ, Nat.mul_assoc, Nat.mul_comm 2, ← Nat.mul_assoc]
      exact Nat.mul_div_cancel _ (by decide)
    rw [show k + 1 + width + 1 = (k + 1 + width) + 1 from rfl, trailingZerosOf, heven,
      if_neg (by decide), hhalf, ih (by omega)]

theorem trailingZeros_two_pow_mul_odd {k : Nat} (hk : k < 64) (m : Nat) :
    trailingZeros (2 ^ k * (2 * m + 1)) = k :=
  trailingZerosOf_two_pow_mul_odd hk m

/-- The trailing zeros are the lowest set bit, when it lies within the width. -/
theorem trailingZerosOf_eq_of_testBit {width k v : Nat} (hk : k < width)
    (hbit : v.testBit k = true) (hlow : ∀ j < k, v.testBit j = false) :
    trailingZerosOf width v = k := by
  induction k generalizing width v with
  | zero =>
    obtain ⟨width, rfl⟩ := Nat.exists_eq_add_of_lt hk
    rw [Nat.testBit_zero, decide_eq_true_eq] at hbit
    rw [Nat.zero_add, trailingZerosOf, if_pos hbit]
  | succ k ih =>
    obtain ⟨width, rfl⟩ := Nat.exists_eq_add_of_lt hk
    have heven : ¬v % 2 = 1 := by
      have := hlow 0 (Nat.succ_pos k)
      rwa [Nat.testBit_zero, decide_eq_false_iff_not] at this
    have hrest : trailingZerosOf (k + 1 + width) (v / 2) = k := by
      refine ih (by omega) (by rwa [Nat.testBit_div_two]) fun j hj ↦ ?_
      rw [Nat.testBit_div_two]
      exact hlow (j + 1) (by omega)
    rw [trailingZerosOf, if_neg heven, hrest]

theorem exists_eq_two_pow_mul_odd {v : Nat} (hv : v ≠ 0) : ∃ k m, v = 2 ^ k * (2 * m + 1) := by
  induction v using Nat.strong_induction_on with
  | _ v ih =>
    rcases Nat.mod_two_eq_zero_or_one v with heven | hodd
    · obtain ⟨k, m, hw⟩ := ih (v / 2) (by omega) (by omega)
      refine ⟨k + 1, m, ?_⟩
      rw [Nat.pow_succ, Nat.mul_comm (2 ^ k) 2, Nat.mul_assoc, ← hw]
      omega
    · refine ⟨0, v / 2, ?_⟩
      rw [Nat.pow_zero, Nat.one_mul]
      omega

/-- A power of two that divides `2 ^ t` times an odd number is at most `2 ^ t`. -/
theorem le_of_two_pow_dvd_two_pow_mul_odd {k t m : Nat} (hdvd : 2 ^ k ∣ 2 ^ t * (2 * m + 1)) :
    k ≤ t := by
  by_contra hlt
  have hdvd' : 2 ^ t * 2 ∣ 2 ^ t * (2 * m + 1) :=
    Nat.dvd_trans (Nat.pow_dvd_pow 2 (by omega : t + 1 ≤ k)) hdvd
  have := Nat.dvd_of_mul_dvd_mul_left (Nat.two_pow_pos t) hdvd'
  omega

theorem exists_eq_two_pow_trailingZeros_mul_odd {v : Nat} (hv : v ≠ 0) (hlt : v < 2 ^ 64) :
    ∃ m, v = 2 ^ trailingZeros v * (2 * m + 1) ∧ trailingZeros v < 64 := by
  obtain ⟨k, m, rfl⟩ := exists_eq_two_pow_mul_odd hv
  have hk : k < 64 := by
    have : 2 ^ k < 2 ^ 64 := Nat.lt_of_le_of_lt (Nat.le_mul_of_pos_right _ (by omega)) hlt
    exact (Nat.pow_lt_pow_iff_right (by decide)).mp this
  rw [trailingZeros_two_pow_mul_odd hk]
  exact ⟨m, rfl, hk⟩

/-- `!v` for `v = 2 ^ k * (2 * q + 1) - 1`, whose `k` lowest bits are set and the next clear, has
`k` trailing zeros. -/
theorem trailingZeros_not_two_pow_mul_odd_sub_one {k q : Nat} (hk : k < 64)
    (hlt : 2 ^ k * (2 * q + 1) < 2 ^ 64) :
    trailingZeros (not (2 ^ k * (2 * q + 1) - 1)) = k := by
  have h64 : 2 ^ 64 = 2 ^ k * (2 * 2 ^ (63 - k)) := by
    rw [← Nat.pow_succ', ← Nat.pow_add]
    congr 1
    omega
  have hq : q < 2 ^ (63 - k) := by
    rw [h64] at hlt
    have := Nat.lt_of_mul_lt_mul_left hlt
    omega
  have hnot : not (2 ^ k * (2 * q + 1) - 1) = 2 ^ k * (2 * (2 ^ (63 - k) - q - 1) + 1) := by
    have hinner : 2 * (2 ^ (63 - k) - q - 1) + 1 = 2 * 2 ^ (63 - k) - (2 * q + 1) := by omega
    have hpos : 0 < 2 ^ k * (2 * q + 1) := Nat.mul_pos (Nat.two_pow_pos k) (Nat.succ_pos _)
    rw [hinner, Nat.mul_sub, ← h64, not]
    omega
  rw [hnot, trailingZeros_two_pow_mul_odd hk]

/-! ## Leading zeros -/

/-! ## Bits of a word -/

/-- `v` with every set bit smeared over the `2 ^ m - 1` bits below it: `m` rounds of
`v |= v >> 2 ^ j`. -/
def smear : Nat → Nat → Nat
  | 0, v => v
  | m + 1, v => smear m v ||| smear m v >>> 2 ^ m

theorem testBit_smear (m v i : Nat) :
    (smear m v).testBit i = true ↔ ∃ d < 2 ^ m, v.testBit (i + d) = true := by
  induction m generalizing i with
  | zero =>
    constructor
    · intro h
      exact ⟨0, Nat.two_pow_pos 0, h⟩
    · rintro ⟨d, hd, h⟩
      obtain rfl : d = 0 := by simpa using hd
      exact h
  | succ m ih =>
    rw [smear, Nat.testBit_or, Bool.or_eq_true, ih, Nat.testBit_shiftRight, ih]
    have hpow : 2 ^ (m + 1) = 2 ^ m + 2 ^ m := by rw [Nat.pow_succ]; omega
    constructor
    · rintro (⟨d, hd, h⟩ | ⟨d, hd, h⟩)
      · exact ⟨d, by omega, h⟩
      · exact ⟨2 ^ m + d, by omega, by rwa [show i + (2 ^ m + d) = 2 ^ m + i + d by omega]⟩
    · rintro ⟨d, hd, h⟩
      by_cases hlt : d < 2 ^ m
      · exact .inl ⟨d, hlt, h⟩
      · exact .inr ⟨d - 2 ^ m, by omega, by rwa [show 2 ^ m + i + (d - 2 ^ m) = i + d by omega]⟩

theorem smear_six {v : Nat} (hv : v ≠ 0) (hlt : v < 2 ^ 64) :
    smear 6 v = 2 ^ (Nat.log2 v + 1) - 1 := by
  have hlog : Nat.log2 v < 64 := (Nat.log2_lt hv).mpr hlt
  apply Nat.eq_of_testBit_eq
  intro i
  rw [Nat.testBit_two_pow_sub_one, Bool.eq_iff_iff, testBit_smear, decide_eq_true_iff]
  constructor
  · rintro ⟨d, -, h⟩
    by_contra hge
    have hsmall : v < 2 ^ (i + d) :=
      Nat.lt_of_lt_of_le Nat.lt_log2_self (Nat.pow_le_pow_right (by decide) (by omega))
    rw [Nat.testBit_lt_two_pow hsmall] at h
    cases h
  · intro hi
    refine ⟨Nat.log2 v - i, ?_, ?_⟩
    · have : (2 : Nat) ^ 6 = 64 := by decide
      omega
    · rw [show i + (Nat.log2 v - i) = Nat.log2 v by omega]
      exact Nat.testBit_log2 hv

theorem not_two_pow_eq {k : Nat} (hk : k < 64) :
    not (2 ^ k) = 2 ^ (k + 1) * (2 ^ (63 - k) - 1) + (2 ^ k - 1) := by
  have h64 : 2 ^ 64 = 2 ^ (k + 1) * 2 ^ (63 - k) := by
    rw [← Nat.pow_add]
    congr 1
    omega
  have hsucc : 2 ^ (k + 1) = 2 * 2 ^ k := by rw [Nat.pow_succ]; omega
  have hle : 2 ^ (k + 1) ≤ 2 ^ (k + 1) * 2 ^ (63 - k) :=
    Nat.le_mul_of_pos_right _ Nat.one_le_two_pow
  rw [not, h64, Nat.mul_sub_one]
  have hpos : 0 < 2 ^ k := Nat.two_pow_pos k
  generalize 2 ^ (k + 1) * 2 ^ (63 - k) = whole at hle ⊢
  omega

theorem two_pow_add_and_not {k r : Nat} (hk : k < 64) (hr : r < 2 ^ k) :
    (2 ^ k + r) &&& not (2 ^ k) = r := by
  apply Nat.eq_of_testBit_eq
  intro i
  have hlow : 2 ^ k - 1 < 2 ^ (k + 1) := by
    have := Nat.pow_lt_pow_right (a := 2) (by decide) (Nat.lt_succ_self k)
    omega
  rw [Nat.testBit_and, not_two_pow_eq hk, Nat.testBit_two_pow_mul_add _ hlow,
    show 2 ^ k + r = 2 ^ k * 1 + r by rw [Nat.mul_one], Nat.testBit_two_pow_mul_add _ hr]
  by_cases hik : i < k
  · rw [if_pos hik, if_pos (by omega), Nat.testBit_two_pow_sub_one, decide_eq_true hik,
      Bool.and_true]
  · have hri : r.testBit i = false :=
      Nat.testBit_lt_two_pow (Nat.lt_of_lt_of_le hr (Nat.pow_le_pow_right (by decide) (by omega)))
    rw [if_neg hik, hri]
    by_cases hek : i = k
    · subst hek
      rw [if_pos (by omega), Nat.testBit_two_pow_sub_one, decide_eq_false (Nat.lt_irrefl i),
        Bool.and_false]
    · have hone : (1 : Nat).testBit (i - k) = false :=
        Nat.testBit_lt_two_pow (Nat.one_lt_two_pow (by omega))
      rw [hone, Bool.false_and]

theorem and_two_pow_eq_zero_iff {v j : Nat} : v &&& 2 ^ j = 0 ↔ v.testBit j = false := by
  constructor
  · intro hzero
    have := Nat.testBit_and v (2 ^ j) j
    rw [hzero, Nat.zero_testBit, Nat.testBit_two_pow_self, Bool.and_true] at this
    exact this.symm
  · intro hbit
    apply Nat.eq_of_testBit_eq
    intro i
    rw [Nat.testBit_and, Nat.zero_testBit, Nat.testBit_two_pow]
    by_cases hij : j = i
    · subst hij
      rw [hbit, Bool.false_and]
    · rw [decide_eq_false hij, Bool.and_false]

end AptosCore.Rust.U64
