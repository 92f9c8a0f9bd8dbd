import Mathlib

/-!
# Integer Newton steps towards the square root

The step `r ↦ (r + x / r) / 2` of Newton's method for `√x`, with both divisions truncated.
Write `s = ⌊√x⌋` and `excess x r = r - s - 1` for how far `r` lies beyond `s + 1`. From any
positive `r` the step lands at or above `s` (`sqrt_le_newtonStep`); from there the excess falls
quadratically, `2 s · e' ≤ e²` (`newtonStep_excess`), so a bound `c · e ≤ s` becomes
`2 c² · e' ≤ s` (`newtonStep_excess_le`). A seed within a factor two of `x / seed` on either side
starts at `12 · e ≤ s` (`newtonStep_seed`). Once `e² ≤ s`, one more step followed by the
correction `min r (x / r)` gives `s` exactly (`min_newtonStep_div`).
-/

namespace AptosCore.Numeric

/-- One Newton step for `√x` in integer arithmetic. -/
def newtonStep (x r : Nat) : Nat := (r + x / r) / 2

/-- How far `r` lies beyond `⌊√x⌋ + 1`, truncated at zero. -/
def excess (x r : Nat) : Nat := r - Nat.sqrt x - 1

variable {x r : Nat}

theorem two_mul_newtonStep_le (x r : Nat) : 2 * newtonStep x r ≤ r + x / r := by
  unfold newtonStep
  omega

/-- The step never lands below `⌊√x⌋`: by the arithmetic and geometric mean inequality, with
the truncations accounted for. -/
theorem sqrt_le_newtonStep (hr : 0 < r) : Nat.sqrt x ≤ newtonStep x r := by
  by_contra hlt
  have hsum : r + x / r + 1 ≤ 2 * Nat.sqrt x := by
    unfold newtonStep at hlt
    omega
  have hdiv : x < r * (x / r + 1) := Nat.lt_mul_div_succ x hr
  have hs : Nat.sqrt x * Nat.sqrt x ≤ x := Nat.sqrt_le x
  zify at hsum hdiv hs
  nlinarith [sq_nonneg ((Nat.sqrt x : Int) - r)]

/-- Above `⌊√x⌋` the excess over `⌊√x⌋ + 1` falls quadratically. -/
theorem newtonStep_excess (hr : Nat.sqrt x ≤ r) (hpos : 0 < r) :
    2 * Nat.sqrt x * excess x (newtonStep x r) ≤ excess x r ^ 2 := by
  unfold excess
  have hstep := two_mul_newtonStep_le x r
  have hmul : r * (x / r) ≤ x := Nat.mul_div_le x r
  have hx : x < (Nat.sqrt x + 1) * (Nat.sqrt x + 1) := Nat.lt_succ_sqrt x
  generalize newtonStep x r = D at hstep ⊢
  generalize x / r = q at hstep hmul
  generalize Nat.sqrt x = s at hr hx ⊢
  by_cases hfar : s + 2 ≤ D
  · have hr' : s + 1 ≤ r := by
      by_contra hle
      obtain rfl : r = s := by omega
      nlinarith
    obtain ⟨t, rfl⟩ : ∃ t, D = s + 1 + t := ⟨D - s - 1, by omega⟩
    obtain ⟨d, rfl⟩ : ∃ d, r = s + 1 + d := ⟨r - s - 1, by omega⟩
    rw [show s + 1 + t - s - 1 = t by omega, show s + 1 + d - s - 1 = d by omega]
    zify at hstep hmul hx ⊢
    have hquot : (0 : Int) ≤ (q - (s + 1 + 2 * t - d)) * (s + 1 + d) :=
      mul_nonneg (by omega) (by omega)
    have hcross : (0 : Int) ≤ t * (1 + d) := mul_nonneg (by omega) (by omega)
    nlinarith
  · have hzero : D - s - 1 = 0 := by omega
    rw [hzero, Nat.mul_zero]
    exact Nat.zero_le _

/-- A bound `c · e ≤ ⌊√x⌋` on the excess becomes `2 c² · e' ≤ ⌊√x⌋` after one step. -/
theorem newtonStep_excess_le (hx : 0 < x) (hr : Nat.sqrt x ≤ r) (hpos : 0 < r) {c : Nat}
    (hbound : c * excess x r ≤ Nat.sqrt x) :
    2 * c ^ 2 * excess x (newtonStep x r) ≤ Nat.sqrt x := by
  have hs : 0 < Nat.sqrt x := Nat.sqrt_pos.mpr hx
  have hstep := newtonStep_excess hr hpos
  have hsq : (c * excess x r) ^ 2 ≤ Nat.sqrt x ^ 2 := Nat.pow_le_pow_left hbound 2
  have hmain : Nat.sqrt x * (2 * c ^ 2 * excess x (newtonStep x r)) ≤ Nat.sqrt x * Nat.sqrt x :=
    calc Nat.sqrt x * (2 * c ^ 2 * excess x (newtonStep x r))
        = c ^ 2 * (2 * Nat.sqrt x * excess x (newtonStep x r)) := by ring
      _ ≤ c ^ 2 * excess x r ^ 2 := Nat.mul_le_mul_left _ hstep
      _ = (c * excess x r) ^ 2 := by ring
      _ ≤ Nat.sqrt x ^ 2 := hsq
      _ = Nat.sqrt x * Nat.sqrt x := by ring
  exact Nat.le_of_mul_le_mul_left hmain hs

/-- The bound `c_j` with `c_j · e ≤ ⌊√x⌋` after `j` more steps from `c · e ≤ ⌊√x⌋`. -/
def excessBound (c : Nat) : Nat → Nat
  | 0 => c
  | j + 1 => excessBound (2 * c ^ 2) j

@[simp] theorem excessBound_zero (c : Nat) : excessBound c 0 = c := rfl

theorem excessBound_succ (c j : Nat) : excessBound c (j + 1) = excessBound (2 * c ^ 2) j := rfl

theorem excessBound_pos {c : Nat} (hc : 0 < c) (j : Nat) : 0 < excessBound c j := by
  induction j generalizing c with
  | zero => exact hc
  | succ j ih => exact ih (by positivity)

/-- A seed within a factor two of `x / seed` on either side starts Newton's method at
`12 · e ≤ ⌊√x⌋`: then `36 (t + x / t)² ≤ 169 · t · (x / t) ≤ 169 x`. -/
theorem newtonStep_seed {t : Nat} (hlow : t ≤ 2 * (x / t))
    (hhigh : x / t ≤ 2 * t) : 12 * excess x (newtonStep x t) ≤ Nat.sqrt x := by
  have hstep := two_mul_newtonStep_le x t
  have hmul : t * (x / t) ≤ x := Nat.mul_div_le x t
  have hx : x < (Nat.sqrt x + 1) * (Nat.sqrt x + 1) := Nat.lt_succ_sqrt x
  have hsquare : (6 * (t + x / t)) ^ 2 < (13 * (Nat.sqrt x + 1)) ^ 2 := by
    zify at hlow hhigh hmul hx ⊢
    nlinarith [mul_nonneg (show (0 : Int) ≤ 2 * (x / t : Nat) - t by omega)
        (show (0 : Int) ≤ 2 * t - (x / t : Nat) by omega),
      mul_nonneg (show (0 : Int) ≤ t by omega) (show (0 : Int) ≤ (x / t : Nat) by omega)]
  have hlin : 6 * (t + x / t) < 13 * (Nat.sqrt x + 1) :=
    lt_of_pow_lt_pow_left₀ 2 (Nat.zero_le _) hsquare
  unfold excess
  omega

/-- Once the excess is at most `√⌊√x⌋`, one more step lands on `⌊√x⌋` or on `⌊√x⌋ + 1`, and
in the second case `x / (⌊√x⌋ + 1) = ⌊√x⌋`. -/
theorem min_newtonStep_div (hx : 0 < x) (hr : Nat.sqrt x ≤ r) (hpos : 0 < r)
    (hexcess : excess x r ^ 2 ≤ Nat.sqrt x) :
    min (newtonStep x r) (x / newtonStep x r) = Nat.sqrt x := by
  have hs : 0 < Nat.sqrt x := Nat.sqrt_pos.mpr hx
  have hlow := sqrt_le_newtonStep (x := x) hpos
  have hsq : Nat.sqrt x * Nat.sqrt x ≤ x := Nat.sqrt_le x
  have hx' : x < (Nat.sqrt x + 1) * (Nat.sqrt x + 1) := Nat.lt_succ_sqrt x
  have hnear : newtonStep x r ≤ Nat.sqrt x + 1 := by
    have hstep := newtonStep_excess hr hpos
    have hzero : excess x (newtonStep x r) = 0 := by
      by_contra hne
      have : 2 * Nat.sqrt x * 1 ≤ 2 * Nat.sqrt x * excess x (newtonStep x r) :=
        Nat.mul_le_mul_left _ (Nat.one_le_iff_ne_zero.mpr hne)
      omega
    unfold excess at hzero
    omega
  rcases Nat.eq_or_lt_of_le hlow with hexact | habove
  · rw [← hexact]
    exact min_eq_left ((Nat.le_div_iff_mul_le hs).mpr hsq)
  · have hone : newtonStep x r = Nat.sqrt x + 1 := by omega
    have hstep := two_mul_newtonStep_le x r
    have hmul : r * (x / r) ≤ x := Nat.mul_div_le x r
    have hbig : Nat.sqrt x * (Nat.sqrt x + 1) ≤ x := by
      rw [hone] at hstep
      unfold excess at hexcess
      generalize x / r = q at hstep hmul
      generalize Nat.sqrt x = s at hr hexcess hstep ⊢
      obtain ⟨d, rfl⟩ : ∃ d, r = s + d := ⟨r - s, by omega⟩
      have hclose : ((d : Int) - 1) ^ 2 ≤ s + 1 := by
        rcases Nat.eq_zero_or_pos d with rfl | hd
        · push_cast
          omega
        · rw [show s + d - s - 1 = d - 1 by omega] at hexcess
          zify [hd] at hexcess
          linarith
      zify at hstep hmul ⊢
      have hquot : (0 : Int) ≤ (q - (s + 2 - d)) * (s + d) := mul_nonneg (by omega) (by omega)
      nlinarith
    have hdiv : x / (Nat.sqrt x + 1) = Nat.sqrt x := by
      apply Nat.le_antisymm
      · exact Nat.lt_succ_iff.mp ((Nat.div_lt_iff_lt_mul (by omega)).mpr hx')
      · exact (Nat.le_div_iff_mul_le (by omega)).mpr hbig
    rw [hone, hdiv]
    exact min_eq_right (Nat.le_succ _)

end AptosCore.Numeric
