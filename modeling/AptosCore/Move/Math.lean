import Mathlib
import AptosCore.Move.Integer
import AptosCore.Numeric.NewtonSqrt

/-!
# `aptos_std::math64` and `aptos_std::math128`

`pow`, `floor_log2` and `sqrt` of `aptos-stdlib/sources/math64.move` and `math128.move`. The two
modules run the same code at two widths; it is written once here with the width, the first
shift of `floor_log2` and the number of Newton steps of `sqrt` as parameters, and each module's
function is that code at its own values. `none` is an abort.

The `[abstract]` specifications of the three functions, which the prover checks on `u8` only,
hold at both widths on every input (`math_abstract_specs`):

* `pow` never aborts spuriously: every value its square-and-multiply loop computes is a power
  `n ^ k` with `k ≤ e`, or a product of such powers that divides `n ^ e`, so only `n ^ e`
  itself can overflow (`pow_spec`).
* `floor_log2` is a binary search for the most significant bit: with `n = 2 ^ k` the value
  left to search is below `2 ^ (2 n)` (`floorLog2Loop_pow`).
* `sqrt` starts from `2 ^ ⌈log₂ x / 2⌉`, within a factor two of `x / seed` on either side, and
  four (`u64`) or five (`u128`) truncated Newton steps bring it close enough to `⌊√x⌋` that the
  final `min(res, x / res)` is exact (`sqrt_spec`); the error analysis is
  `AptosCore.Numeric.NewtonSqrt`. No step overflows: every iterate stays below `3 ⌊√x⌋ + 3`.
-/

namespace AptosCore.Move.math

open Integer

/-! ## The code -/

/-- The loop of `pow`: while `e > 1`, multiply `p` by `n` for an odd `e`, halve `e` and square
`n`. -/
def powLoop (width p n e : Nat) : Option (Nat × Nat) :=
  if h : 1 < e then do
    let p ← if e % 2 = 1 then mulChecked width p n else pure p
    let n ← mulChecked width n n
    powLoop width p n (e / 2)
  else some (p, n)
termination_by e
decreasing_by omega

def pow (width n e : Nat) : Option Nat :=
  if e = 0 then some 1
  else do
    let (p, n) ← powLoop width 1 n e
    mulChecked width p n

/-- The loop of `floor_log2`: for `n` halving down to `1`, shift `x` down by `n` bits and add
`n` to `res` (a `u8`) whenever `x ≥ 1 << n`. -/
def floorLog2Loop (width x res n : Nat) : Option Nat :=
  if h : 0 < n then do
    let bound ← shlChecked width 1 n
    if x ≥ bound then
      let x ← shrChecked width x n
      let res ← addChecked 8 res n
      floorLog2Loop width x res (n / 2)
    else floorLog2Loop width x res (n / 2)
  else some res
termination_by n
decreasing_by all_goals omega

/-- `floor_log2`, with the first shift `start` (`32` for `u64`, `64` for `u128`). -/
def floorLog2 (width start x : Nat) : Option Nat :=
  if x = 0 then none else floorLog2Loop width x 0 start

/-- `res = (res + x / res) >> 1`. -/
def sqrtStep (width x res : Nat) : Option Nat := do
  let quotient ← divChecked x res
  let sum ← addChecked width res quotient
  pure (sum / 2)

/-- The Newton steps of `sqrt`, written out one per line in the source. -/
def sqrtSteps (width x : Nat) : Nat → Nat → Option Nat
  | 0, res => some res
  | steps + 1, res => (sqrtStep width x res).bind (sqrtSteps width x steps)

/-- `sqrt`, with `steps` Newton steps (`4` for `u64`, `5` for `u128`). -/
def sqrt (width start steps x : Nat) : Option Nat :=
  if x = 0 then some 0
  else do
    let log ← floorLog2 width start x
    let shift ← addChecked 8 log 1
    let res ← shlChecked width 1 (shift / 2)
    let res ← sqrtSteps width x steps res
    let quotient ← divChecked x res
    pure (min res quotient)

@[simp] theorem sqrtSteps_zero (width x res : Nat) : sqrtSteps width x 0 res = some res := rfl

theorem sqrtSteps_succ (width x steps res : Nat) :
    sqrtSteps width x (steps + 1) res = (sqrtStep width x res).bind (sqrtSteps width x steps) :=
  rfl

/-! ## `pow` -/

section Pow

variable {width : Nat}

/-- A power with a positive exponent grows with the exponent, also at base zero. -/
theorem pow_le_pow_of_pos {n k e : Nat} (hk : 0 < k) (hke : k ≤ e) : n ^ k ≤ n ^ e := by
  rcases Nat.eq_zero_or_pos n with rfl | hn
  · rw [Nat.zero_pow hk]
    exact Nat.zero_le _
  · exact Nat.pow_le_pow_right hn hke

/-- The loop's odd factor and its squared base together make up the power it started from. -/
theorem pow_mod_two_mul_sq (n e : Nat) : n ^ (e % 2) * (n * n) ^ (e / 2) = n ^ e := by
  rw [← pow_two, ← pow_mul, ← pow_add, Nat.mod_add_div]

theorem powLoop_of_le (p n : Nat) {e : Nat} (he : e ≤ 1) : powLoop width p n e = some (p, n) := by
  rw [powLoop, dif_neg (by omega)]

theorem powLoop_of_lt (p n : Nat) {e : Nat} (he : 1 < e) :
    powLoop width p n e =
      ((if e % 2 = 1 then mulChecked width p n else pure p).bind fun p ↦
        (mulChecked width n n).bind fun n' ↦ powLoop width p n' (e / 2)) := by
  rw [powLoop, dif_pos he]
  split_ifs <;> rfl

/-- The odd-exponent multiplication of one round, when it succeeds, is by `n ^ (e % 2)`. -/
theorem oddStep_eq_some_iff {p n e p₁ : Nat} :
    (if e % 2 = 1 then mulChecked width p n else pure p) = some p₁ ↔
      p * n ^ (e % 2) = p₁ ∧ (e % 2 = 1 → p * n < 2 ^ width) := by
  split_ifs with hodd
  · rw [mulChecked_eq_some_iff, hodd, pow_one]
    exact ⟨fun ⟨hlt, heq⟩ ↦ ⟨heq, fun _ ↦ hlt⟩, fun ⟨heq, hlt⟩ ↦ ⟨hlt rfl, heq⟩⟩
  · rw [show e % 2 = 0 by omega, pow_zero, Nat.mul_one]
    exact ⟨fun h ↦ ⟨Option.some.inj h, fun h' ↦ absurd h' Nat.zero_ne_one⟩,
      fun ⟨h, _⟩ ↦ by rw [h]; rfl⟩

/-- Whatever the loop returns multiplies out to `p * n ^ e`: no step loses a factor. -/
theorem powLoop_exact {e : Nat} (he : 0 < e) :
    ∀ {p n p' n' : Nat}, powLoop width p n e = some (p', n') → p' * n' = p * n ^ e := by
  induction e using Nat.strong_induction_on with
  | _ e ih =>
    intro p n p' n' hloop
    by_cases hlt : 1 < e
    · rw [powLoop_of_lt p n hlt] at hloop
      obtain ⟨p₁, hp₁, hrest⟩ := Option.bind_eq_some_iff.mp hloop
      obtain ⟨n₁, hn₁, hrec⟩ := Option.bind_eq_some_iff.mp hrest
      obtain ⟨rfl, -⟩ := oddStep_eq_some_iff.mp hp₁
      obtain ⟨-, rfl⟩ := mulChecked_eq_some_iff.mp hn₁
      rw [ih (e / 2) (by omega) (by omega) hrec, Nat.mul_assoc, pow_mod_two_mul_sq]
    · rw [powLoop_of_le p n (by omega), Option.some.injEq, Prod.mk.injEq] at hloop
      obtain ⟨rfl, rfl⟩ := hloop
      rw [show e = 1 by omega, pow_one]

/-- With `n ^ e` and `p * n ^ e` inside the type, no multiplication of the loop overflows:
each is `p` times a factor of `n ^ e`, or a power `n ^ k` with `k ≤ e`. -/
theorem powLoop_isSome {e : Nat} (he : 0 < e) :
    ∀ {p n : Nat}, n ^ e < 2 ^ width → p * n ^ e < 2 ^ width →
      ∃ p' n', powLoop width p n e = some (p', n') := by
  induction e using Nat.strong_induction_on with
  | _ e ih =>
    intro p n hn hp
    by_cases hlt : 1 < e
    · have hodd : e % 2 = 1 → p * n < 2 ^ width := fun _ ↦
        calc p * n = p * n ^ 1 := by rw [pow_one]
          _ ≤ p * n ^ e := Nat.mul_le_mul_left _ (pow_le_pow_of_pos Nat.one_pos (by omega))
          _ < 2 ^ width := hp
      have hsq : n * n < 2 ^ width :=
        calc n * n = n ^ 2 := (pow_two n).symm
          _ ≤ n ^ e := pow_le_pow_of_pos (by omega) (by omega)
          _ < 2 ^ width := hn
      have hnext : (n * n) ^ (e / 2) ≤ n ^ e := by
        rw [← pow_two, ← pow_mul]
        exact pow_le_pow_of_pos (by omega) (by omega)
      have hpnext : p * n ^ (e % 2) * (n * n) ^ (e / 2) < 2 ^ width := by
        rw [Nat.mul_assoc, pow_mod_two_mul_sq]
        exact hp
      obtain ⟨p', n', hrec⟩ := ih (e / 2) (by omega) (by omega) (lt_of_le_of_lt hnext hn) hpnext
      refine ⟨p', n', ?_⟩
      rw [powLoop_of_lt p n hlt, (oddStep_eq_some_iff.mpr ⟨rfl, hodd⟩), Option.bind_some,
        mulChecked_of_lt hsq, Option.bind_some]
      exact hrec
    · exact ⟨p, n, powLoop_of_le p n (by omega)⟩

/-- `pow` returns `n ^ e` when it fits the type and aborts exactly when it does not. -/
theorem pow_spec (hwidth : 0 < width) (n e : Nat) :
    pow width n e = if n ^ e < 2 ^ width then some (n ^ e) else none := by
  unfold pow
  by_cases he : e = 0
  · subst he
    rw [if_pos rfl, pow_zero, if_pos (Nat.one_lt_two_pow (by omega))]
  · rw [if_neg he]
    by_cases hfits : n ^ e < 2 ^ width
    · have hsome : ∃ p' n', powLoop width 1 n e = some (p', n') :=
        powLoop_isSome (Nat.pos_of_ne_zero he) hfits (by rwa [Nat.one_mul])
      obtain ⟨p', n', hloop⟩ := hsome
      have hexact := powLoop_exact (Nat.pos_of_ne_zero he) hloop
      rw [Nat.one_mul] at hexact
      rw [hloop, if_pos hfits, Option.bind_eq_bind, Option.bind_some]
      simp only
      rw [← hexact] at hfits ⊢
      exact mulChecked_of_lt hfits
    · rw [if_neg hfits]
      cases hloop : powLoop width 1 n e with
      | none => rfl
      | some result =>
        obtain ⟨p', n'⟩ := result
        have hexact := powLoop_exact (Nat.pos_of_ne_zero he) hloop
        rw [Nat.one_mul] at hexact
        rw [Option.bind_eq_bind, Option.bind_some]
        exact mulChecked_of_le (by omega)

end Pow

/-! ## `floor_log2` -/

section FloorLog2

variable {width : Nat}

theorem floorLog2Loop_zero (width x res : Nat) : floorLog2Loop width x res 0 = some res := by
  rw [floorLog2Loop, dif_neg (Nat.lt_irrefl 0)]

/-- One round of the search: compare with `2 ^ n`, and shift down by `n` bits when above. -/
theorem floorLog2Loop_of_pos {x res n : Nat} (hn : 0 < n) (hw : n < width)
    (hres : res + n < 2 ^ 8) :
    floorLog2Loop width x res n =
      if 2 ^ n ≤ x then floorLog2Loop width (x / 2 ^ n) (res + n) (n / 2)
      else floorLog2Loop width x res (n / 2) := by
  have hbound : 1 * 2 ^ n < 2 ^ width := by
    rw [Nat.one_mul]
    exact Nat.pow_lt_pow_right (by norm_num) hw
  rw [floorLog2Loop, dif_pos hn, shlChecked_of_lt hw hbound, Nat.one_mul]
  simp only [Option.bind_eq_bind, Option.bind_some, ge_iff_le]
  split_ifs
  · rw [shrChecked_of_lt hw, addChecked_of_lt hres]
    rfl
  · rfl

/-- The binary search from `n = 2 ^ k`, on a value below `2 ^ (2 n)`, adds to `res` the index
of the value's most significant bit. -/
theorem floorLog2Loop_pow (k : Nat) (hk : 2 ^ k < width) :
    ∀ x res, 0 < x → x < 2 ^ 2 ^ (k + 1) → res + 2 ^ (k + 1) ≤ 2 ^ 8 →
      ∃ r, floorLog2Loop width x res (2 ^ k) = some (res + r) ∧ 2 ^ r ≤ x ∧ x < 2 ^ (r + 1) := by
  induction k with
  | zero =>
    intro x res hx hxlt hres
    rw [pow_zero] at hk ⊢
    rw [floorLog2Loop_of_pos Nat.one_pos hk (by norm_num at hres ⊢; omega)]
    norm_num at hxlt
    split_ifs with hhigh
    · refine ⟨1, by rw [floorLog2Loop_zero], by simpa using hhigh, by norm_num; omega⟩
    · refine ⟨0, by rw [floorLog2Loop_zero, Nat.add_zero], by norm_num; omega,
        by norm_num at hhigh ⊢; omega⟩
  | succ k ih =>
    intro x res hx hxlt hres
    have hk' : 2 ^ k < width := lt_trans (Nat.pow_lt_pow_right (by norm_num) (by omega)) hk
    have hhalf : 2 ^ (k + 1) / 2 = 2 ^ k := by rw [pow_succ, Nat.mul_div_cancel _ (by norm_num)]
    have hsplit : 2 ^ 2 ^ (k + 1 + 1) = 2 ^ 2 ^ (k + 1) * 2 ^ 2 ^ (k + 1) := by
      rw [← pow_add, pow_succ 2 (k + 1), Nat.mul_two]
    have hres' : res + 2 ^ (k + 1) < 2 ^ 8 := by
      have : 2 ^ (k + 1) < 2 ^ (k + 1 + 1) := Nat.pow_lt_pow_right (by norm_num) (by omega)
      omega
    rw [floorLog2Loop_of_pos (by positivity) hk hres', hhalf]
    split_ifs with hhigh
    · have hpos : 0 < x / 2 ^ 2 ^ (k + 1) := Nat.div_pos hhigh (by positivity)
      have hlt : x / 2 ^ 2 ^ (k + 1) < 2 ^ 2 ^ (k + 1) :=
        (Nat.div_lt_iff_lt_mul (by positivity)).mpr (by rw [← hsplit]; exact hxlt)
      obtain ⟨r, hloop, hlow, hhigh'⟩ := ih hk' (x / 2 ^ 2 ^ (k + 1)) (res + 2 ^ (k + 1)) hpos hlt
        (by rw [pow_succ 2 (k + 1)] at hres; omega)
      refine ⟨2 ^ (k + 1) + r, by rw [hloop, Nat.add_assoc], ?_, ?_⟩
      · calc 2 ^ (2 ^ (k + 1) + r) = 2 ^ 2 ^ (k + 1) * 2 ^ r := pow_add _ _ _
          _ ≤ 2 ^ 2 ^ (k + 1) * (x / 2 ^ 2 ^ (k + 1)) := Nat.mul_le_mul_left _ hlow
          _ ≤ x := Nat.mul_div_le x _
      · calc x < 2 ^ (r + 1) * 2 ^ 2 ^ (k + 1) :=
            (Nat.div_lt_iff_lt_mul (by positivity)).mp hhigh'
          _ = 2 ^ (2 ^ (k + 1) + r + 1) := by rw [Nat.add_assoc, pow_add _ (2 ^ (k + 1)),
            Nat.mul_comm]
    · exact ih hk' x res hx (Nat.lt_of_not_le hhigh)
        (by rw [pow_succ 2 (k + 1)] at hres; omega)

/-- `floor_log2` aborts on zero and otherwise returns the index of the most significant bit. -/
theorem floorLog2_spec (k : Nat) (hk : k < 8) (x : Nat) (hxlt : x < 2 ^ 2 ^ (k + 1)) :
    (floorLog2 (2 ^ (k + 1)) (2 ^ k) x = none ↔ x = 0) ∧
      (0 < x → ∃ r, floorLog2 (2 ^ (k + 1)) (2 ^ k) x = some r ∧ 2 ^ r ≤ x ∧ x < 2 ^ (r + 1)) := by
  have hsearch : 0 < x → ∃ r, floorLog2 (2 ^ (k + 1)) (2 ^ k) x = some r ∧
      2 ^ r ≤ x ∧ x < 2 ^ (r + 1) := by
    intro hx
    have hres : 0 + 2 ^ (k + 1) ≤ 2 ^ 8 := by
      rw [Nat.zero_add]
      exact Nat.pow_le_pow_right (by norm_num) (by omega)
    obtain ⟨r, hloop, hbits⟩ := @floorLog2Loop_pow (2 ^ (k + 1)) k
      (Nat.pow_lt_pow_right (by norm_num) (by omega)) x 0 hx hxlt hres
    rw [Nat.zero_add] at hloop
    exact ⟨r, by rw [floorLog2, if_neg (by omega), hloop], hbits⟩
  refine ⟨⟨fun hnone ↦ ?_, fun hzero ↦ by rw [floorLog2, if_pos hzero]⟩, hsearch⟩
  by_contra hne
  obtain ⟨r, hsome, -⟩ := hsearch (Nat.pos_of_ne_zero hne)
  rw [hnone] at hsome
  cases hsome

end FloorLog2

/-! ## `sqrt` -/

section Sqrt

open Numeric

variable {width x : Nat}

/-- A Newton step of `sqrt` that does not overflow is the integer Newton step. -/
theorem sqrtStep_eq {r : Nat} (hr : 0 < r) (hsum : r + x / r < 2 ^ width) :
    sqrtStep width x r = some (newtonStep x r) := by
  rw [sqrtStep, divChecked_of_pos hr]
  simp only [Option.bind_eq_bind, Option.bind_some, addChecked_of_lt hsum]
  rfl

theorem sqrtSteps_succ' (steps res : Nat) :
    sqrtSteps width x (steps + 1) res = (sqrtSteps width x steps res).bind (sqrtStep width x) := by
  induction steps generalizing res with
  | zero =>
    rw [sqrtSteps_succ, sqrtSteps_zero, Option.bind_some]
    cases sqrtStep width x res <;> rfl
  | succ steps ih =>
    rw [sqrtSteps_succ, sqrtSteps_succ _ _ steps, Option.bind_assoc]
    simp only [← ih]

/-- From above `⌊√x⌋` and within `2 ⌊√x⌋ + 1`, the sum a step computes stays below
`3 ⌊√x⌋ + 3`, since `x / ⌊√x⌋ ≤ ⌊√x⌋ + 2`. -/
theorem add_div_le_of_near (hx : 0 < x) {r : Nat} (hr : Nat.sqrt x ≤ r)
    (hnear : r ≤ 2 * Nat.sqrt x + 1) : r + x / r ≤ 3 * Nat.sqrt x + 3 := by
  have hs : 0 < Nat.sqrt x := Nat.sqrt_pos.mpr hx
  have hq : x / r ≤ x / Nat.sqrt x := Nat.div_le_div_left hr hs
  have hq' : x / Nat.sqrt x < Nat.sqrt x + 3 := by
    rw [Nat.div_lt_iff_lt_mul hs]
    have hlt := Nat.lt_succ_sqrt x
    nlinarith
  omega

/-- `j` Newton steps from above `⌊√x⌋` with `c · e ≤ ⌊√x⌋` do not abort, stay above `⌊√x⌋`,
and end with `excessBound c j · e ≤ ⌊√x⌋`. -/
theorem sqrtSteps_excess (hx : 0 < x) (hfit : 3 * Nat.sqrt x + 3 < 2 ^ width) (j : Nat) :
    ∀ r c, Nat.sqrt x ≤ r → 0 < c → c * excess x r ≤ Nat.sqrt x →
      ∃ r', sqrtSteps width x j r = some r' ∧ Nat.sqrt x ≤ r' ∧
        excessBound c j * excess x r' ≤ Nat.sqrt x := by
  induction j with
  | zero => exact fun r c hr _ hbound ↦ ⟨r, rfl, hr, hbound⟩
  | succ j ih =>
    intro r c hr hc hbound
    have hpos : 0 < r := lt_of_lt_of_le (Nat.sqrt_pos.mpr hx) hr
    have hnear : r ≤ 2 * Nat.sqrt x + 1 := by
      have hexcess : excess x r ≤ Nat.sqrt x := le_trans (Nat.le_mul_of_pos_left _ hc) hbound
      unfold excess at hexcess
      omega
    have hstep : sqrtStep width x r = some (newtonStep x r) :=
      sqrtStep_eq hpos (lt_of_le_of_lt (add_div_le_of_near hx hr hnear) hfit)
    obtain ⟨r', hrest, hr', hbound'⟩ := ih (newtonStep x r) (2 * c ^ 2)
      (sqrt_le_newtonStep hpos) (by positivity) (newtonStep_excess_le hx hr hpos hbound)
    exact ⟨r', by rw [sqrtSteps_succ, hstep, Option.bind_some, hrest], hr',
      by rwa [excessBound_succ]⟩

/-- The seed `2 ^ ⌈L / 2⌉` for `2 ^ L ≤ x < 2 ^ (L + 1)` lies within a factor two of `x`
divided by it, on either side. -/
theorem seed_bounds {L : Nat} (hlow : 2 ^ L ≤ x) (hhigh : x < 2 ^ (L + 1)) :
    2 ^ ((L + 1) / 2) ≤ 2 * (x / 2 ^ ((L + 1) / 2)) ∧
      x / 2 ^ ((L + 1) / 2) ≤ 2 * 2 ^ ((L + 1) / 2) := by
  obtain ⟨a, rfl | rfl⟩ := Nat.even_or_odd' L
  · rw [show (2 * a + 1) / 2 = a by omega]
    have hq : 2 ^ a ≤ x / 2 ^ a :=
      (Nat.le_div_iff_mul_le (by positivity)).mpr (by rw [← pow_add, ← two_mul]; exact hlow)
    have hq' : x / 2 ^ a < 2 * 2 ^ a :=
      (Nat.div_lt_iff_lt_mul (by positivity)).mpr
        (by calc x < 2 ^ (2 * a + 1) := hhigh
          _ = 2 * 2 ^ a * 2 ^ a := by ring)
    constructor <;> omega
  · rw [show (2 * a + 1 + 1) / 2 = a + 1 by omega]
    have hq : 2 ^ a ≤ x / 2 ^ (a + 1) :=
      (Nat.le_div_iff_mul_le (by positivity)).mpr
        (by calc 2 ^ a * 2 ^ (a + 1) = 2 ^ (2 * a + 1) := by ring
          _ ≤ x := hlow)
    have hq' : x / 2 ^ (a + 1) < 2 ^ (a + 1) :=
      (Nat.div_lt_iff_lt_mul (by positivity)).mpr
        (by calc x < 2 ^ (2 * a + 1 + 1) := hhigh
          _ = 2 ^ (a + 1) * 2 ^ (a + 1) := by ring)
    rw [pow_succ] at hq hq' ⊢
    constructor <;> omega

/-- `sqrt` on `2 ^ (k + 1)` bits, with first shift `2 ^ k` and `j + 2` Newton steps, returns
`⌊√x⌋` on every input of the type once `excessBound 12 j ^ 2` covers the range of `⌊√x⌋`: the
seed step starts at `12 · e ≤ ⌊√x⌋`, `j` steps reach `excessBound 12 j · e ≤ ⌊√x⌋`, so `e² ≤ ⌊√x⌋`
before the last step. -/
theorem sqrt_spec (k j : Nat) (hk : 1 ≤ k) (hk' : k < 7)
    (hbound : 2 ^ 2 ^ k ≤ excessBound 12 j ^ 2) (x : Nat) (hxlt : x < 2 ^ 2 ^ (k + 1)) :
    sqrt (2 ^ (k + 1)) (2 ^ k) (j + 2) x = some (Nat.sqrt x) := by
  unfold sqrt
  split_ifs with hzero
  · rw [hzero, Nat.sqrt_zero]
  have hx : 0 < x := Nat.pos_of_ne_zero hzero
  have hs : 0 < Nat.sqrt x := Nat.sqrt_pos.mpr hx
  have hM : 4 ≤ 2 ^ 2 ^ k := by
    calc 4 = 2 ^ 2 ^ 1 := by norm_num
      _ ≤ 2 ^ 2 ^ k := Nat.pow_le_pow_right (by norm_num) (Nat.pow_le_pow_right (by norm_num) hk)
  have hsquare : 2 ^ 2 ^ (k + 1) = 2 ^ 2 ^ k * 2 ^ 2 ^ k := by
    rw [pow_succ 2 k, pow_mul, pow_two]
  have hsM : Nat.sqrt x < 2 ^ 2 ^ k := Nat.sqrt_lt.mpr (by rw [← hsquare]; exact hxlt)
  have hthree : 3 * 2 ^ 2 ^ k < 2 ^ 2 ^ (k + 1) := by
    rw [hsquare]
    exact Nat.mul_lt_mul_of_pos_right (by omega) (by positivity)
  have hfit : 3 * Nat.sqrt x + 3 < 2 ^ 2 ^ (k + 1) := by omega
  obtain ⟨L, hlog, hlow, hhigh⟩ := (floorLog2_spec k (by omega) x hxlt).2 hx
  have hL : L < 2 ^ (k + 1) :=
    (Nat.pow_lt_pow_iff_right (by norm_num)).mp (lt_of_le_of_lt hlow hxlt)
  have hw : 2 ^ (k + 1) ≤ 2 ^ 7 := Nat.pow_le_pow_right (by norm_num) (by omega)
  have hshift : addChecked 8 L 1 = some (L + 1) := addChecked_of_lt (by norm_num at hw ⊢; omega)
  have hexp : (L + 1) / 2 ≤ 2 ^ k := by
    rw [pow_succ] at hL
    omega
  have hseedM : 2 ^ ((L + 1) / 2) ≤ 2 ^ 2 ^ k := Nat.pow_le_pow_right (by norm_num) hexp
  have hseed : shlChecked (2 ^ (k + 1)) 1 ((L + 1) / 2) = some (2 ^ ((L + 1) / 2)) := by
    rw [← Nat.one_mul (2 ^ ((L + 1) / 2))]
    exact shlChecked_of_lt (lt_of_le_of_lt hexp (Nat.pow_lt_pow_right (by norm_num) (by omega)))
      (by rw [Nat.one_mul]; omega)
  obtain ⟨hseedLow, hseedHigh⟩ := seed_bounds hlow hhigh
  have hseedPos : 0 < 2 ^ ((L + 1) / 2) := by positivity
  have hfirst : sqrtStep (2 ^ (k + 1)) x (2 ^ ((L + 1) / 2)) =
      some (newtonStep x (2 ^ ((L + 1) / 2))) :=
    sqrtStep_eq hseedPos (by omega)
  obtain ⟨r, hsteps, hr, hexcess⟩ := sqrtSteps_excess hx hfit j _ 12
    (sqrt_le_newtonStep hseedPos) (by norm_num) (newtonStep_seed hseedLow hseedHigh)
  have hc : 0 < excessBound 12 j := excessBound_pos (by norm_num) j
  have hrPos : 0 < r := lt_of_lt_of_le hs hr
  have hnear : r ≤ 2 * Nat.sqrt x + 1 := by
    have hle : excess x r ≤ Nat.sqrt x := le_trans (Nat.le_mul_of_pos_left _ hc) hexcess
    unfold excess at hle
    omega
  have hlast : sqrtStep (2 ^ (k + 1)) x r = some (newtonStep x r) :=
    sqrtStep_eq hrPos (lt_of_le_of_lt (add_div_le_of_near hx hr hnear) hfit)
  have hclose : excess x r ^ 2 ≤ Nat.sqrt x := by
    have hsq : (excessBound 12 j * excess x r) ^ 2 ≤ Nat.sqrt x * Nat.sqrt x := by
      rw [← pow_two]
      exact Nat.pow_le_pow_left hexcess 2
    have hsc : Nat.sqrt x < excessBound 12 j ^ 2 := lt_of_lt_of_le hsM hbound
    by_contra hnot
    have hfar : Nat.sqrt x + 1 ≤ excess x r ^ 2 := by omega
    have hprod : excessBound 12 j ^ 2 * (Nat.sqrt x + 1) ≤
        (excessBound 12 j * excess x r) ^ 2 := by
      rw [mul_pow]
      exact Nat.mul_le_mul_left _ hfar
    have hlt : Nat.sqrt x * Nat.sqrt x < excessBound 12 j ^ 2 * (Nat.sqrt x + 1) :=
      calc Nat.sqrt x * Nat.sqrt x < excessBound 12 j ^ 2 * Nat.sqrt x :=
            Nat.mul_lt_mul_of_pos_right hsc hs
        _ ≤ excessBound 12 j ^ 2 * (Nat.sqrt x + 1) := Nat.mul_le_mul_left _ (Nat.le_succ _)
    exact absurd (lt_of_lt_of_le hlt (hprod.trans hsq)) (lt_irrefl _)
  have hfinal := min_newtonStep_div hx hr hrPos hclose
  have hfinalPos : 0 < newtonStep x r := lt_of_lt_of_le hs (sqrt_le_newtonStep hrPos)
  have hall : sqrtSteps (2 ^ (k + 1)) x (j + 2) (2 ^ ((L + 1) / 2)) = some (newtonStep x r) := by
    rw [sqrtSteps_succ, hfirst, Option.bind_some, sqrtSteps_succ', hsteps, Option.bind_some, hlast]
  rw [hlog]
  simp only [Option.bind_eq_bind, Option.bind_some, hshift, hseed, hall,
    divChecked_of_pos hfinalPos]
  rw [← hfinal]
  rfl

end Sqrt

end AptosCore.Move.math

namespace AptosCore.Move.math64

def pow (n e : Nat) : Option Nat := math.pow 64 n e

def floorLog2 (x : Nat) : Option Nat := math.floorLog2 64 32 x

def sqrt (x : Nat) : Option Nat := math.sqrt 64 32 4 x

end AptosCore.Move.math64

namespace AptosCore.Move.math128

def pow (n e : Nat) : Option Nat := math.pow 128 n e

def floorLog2 (x : Nat) : Option Nat := math.floorLog2 128 64 x

def sqrt (x : Nat) : Option Nat := math.sqrt 128 64 5 x

end AptosCore.Move.math128

namespace AptosCore.Move.math

/-! ## The `[abstract]` specifications -/

/-- The `[abstract]` specifications of `pow`, `floor_log2` and `sqrt` (`math64.spec.move`,
`math128.spec.move`) at one width, on every input of that width. -/
structure AbstractSpecs (width : Nat) (pow : Nat → Nat → Option Nat)
    (floorLog2 sqrt : Nat → Option Nat) : Prop where
  pow_eq : ∀ n e, pow n e = if n ^ e < 2 ^ width then some (n ^ e) else none
  floorLog2_eq_none_iff : ∀ x < 2 ^ width, floorLog2 x = none ↔ x = 0
  floorLog2_eq_some : ∀ x < 2 ^ width, 0 < x →
    ∃ r, floorLog2 x = some r ∧ 2 ^ r ≤ x ∧ x < 2 ^ (r + 1)
  sqrt_zero : sqrt 0 = some 0
  sqrt_eq_some : ∀ x < 2 ^ width, 0 < x →
    ∃ r, sqrt x = some r ∧ r * r ≤ x ∧ x < (r + 1) * (r + 1)

/-- The three functions meet their specifications at width `2 ^ (k + 1)`, with first shift
`2 ^ k` and `j + 2` Newton steps, when `excessBound 12 j ^ 2` covers `2 ^ 2 ^ k`. -/
theorem abstractSpecs_of_excessBound {width start steps : Nat} (k j : Nat)
    (hwidth : width = 2 ^ (k + 1)) (hstart : start = 2 ^ k) (hsteps : steps = j + 2)
    (hk : 1 ≤ k) (hk' : k < 7) (hbound : 2 ^ 2 ^ k ≤ Numeric.excessBound 12 j ^ 2) :
    AbstractSpecs width (pow width) (floorLog2 width start) (sqrt width start steps) := by
  subst hwidth hstart hsteps
  exact
    { pow_eq := pow_spec (by positivity)
      floorLog2_eq_none_iff := fun x hx ↦ (floorLog2_spec k (by omega) x hx).1
      floorLog2_eq_some := fun x hx ↦ (floorLog2_spec k (by omega) x hx).2
      sqrt_zero := by rw [sqrt, if_pos rfl]
      sqrt_eq_some := fun x hx _ ↦
        ⟨Nat.sqrt x, sqrt_spec k j hk hk' hbound x hx, Nat.sqrt_le x, Nat.lt_succ_sqrt x⟩ }

theorem math64_math128_abstract_specs :
    AbstractSpecs 64 math64.pow math64.floorLog2 math64.sqrt ∧
      AbstractSpecs 128 math128.pow math128.floorLog2 math128.sqrt :=
  ⟨abstractSpecs_of_excessBound 5 2 rfl rfl rfl (by norm_num) (by norm_num) (by decide),
    abstractSpecs_of_excessBound 6 3 rfl rfl rfl (by norm_num) (by norm_num) (by decide)⟩

end AptosCore.Move.math
