import Mathlib

namespace Binary64

/-! # Double precision — numbers rounded to 53 binary digits

The nearest number with a significand of 53 digits, ties to even, for non-negative values and without bounds on the
exponent.  Values are rationals, so that the operations compute:

* `round` — the double nearest to a rational, `sqrt` — the double nearest to the square root of one;
* `round_error`, `sqrt_error` — both are off by at most one part in `2 ^ 53`;
* `round_natCast` — the integers of at most 53 digits are doubles. -/

/-- The integer nearest to a value, from its floor and how the value compares to the middle of the floor and the next
    integer. -/
def nearest (floor : ℤ) (middle : Ordering) : ℤ :=
  match middle with
  | .lt => floor
  | .eq => if floor % 2 = 0 then floor else floor + 1
  | .gt => floor + 1

/-- The double nearest to a rational: its significand is the integer nearest to the value in units of the last digit. -/
def round (x : ℚ) : ℚ :=
  let exponent := Int.log 2 x - 52
  let scaled := x / 2 ^ exponent
  nearest ⌊scaled⌋ (cmp scaled (⌊scaled⌋ + 1 / 2)) * 2 ^ exponent

/-- The double nearest to the square root of a rational. -/
def sqrt (x : ℚ) : ℚ :=
  let exponent := Int.log 2 x / 2 - 52
  let scaled := x / (2 ^ exponent) ^ 2
  let root : ℤ := Nat.sqrt ⌊scaled⌋₊
  nearest root (cmp scaled ((root + 1 / 2 : ℚ) ^ 2)) * 2 ^ exponent

theorem nearest_error {v : ℝ} {floor : ℤ} {middle : Ordering} (hle : floor ≤ v) (hlt : v < floor + 1)
    (hmiddle : middle.Compares v (floor + 1 / 2)) : |(nearest floor middle : ℝ) - v| ≤ 1 / 2 := by
  cases middle with
  | lt =>
    have hbelow : v < floor + 1 / 2 := hmiddle
    show |(floor : ℝ) - v| ≤ 1 / 2
    rw [abs_le]
    constructor <;> linarith
  | eq =>
    have htie : v = floor + 1 / 2 := hmiddle
    show |((if floor % 2 = 0 then floor else floor + 1 : ℤ) : ℝ) - v| ≤ 1 / 2
    split
    · rw [abs_le]
      constructor <;> linarith
    · push_cast
      rw [abs_le]
      constructor <;> linarith
  | gt =>
    have habove : v > floor + 1 / 2 := hmiddle
    show |((floor + 1 : ℤ) : ℝ) - v| ≤ 1 / 2
    push_cast
    rw [abs_le]
    constructor <;> linarith

/-- A value with 53 digits before the point is off by at most one part in `2 ^ 53` if it is rounded to an integer. -/
theorem scaled_error {v unit : ℝ} {significand : ℤ} (hunit : 0 < unit) (hdigits : 2 ^ 52 * unit ≤ v)
    (herror : |(significand : ℝ) - v / unit| ≤ 1 / 2) : |significand * unit - v| ≤ v / 2 ^ 53 := by
  have hscale : significand * unit - v = (significand - v / unit) * unit := by
    field_simp
  rw [hscale, abs_mul, abs_of_pos hunit]
  have hpower : (2 : ℝ) ^ 53 = 2 * 2 ^ 52 := by norm_num
  nlinarith

/-- The unit of the last of 53 digits. -/
theorem digits_mul_unit (l : ℤ) : (2 : ℝ) ^ 52 * 2 ^ (l - 52) = 2 ^ l := by
  rw [← zpow_natCast, ← zpow_add₀ two_ne_zero]
  ring_nf

variable {x : ℚ}

theorem two_pow_log_le (hx : 0 < x) : (2 : ℝ) ^ Int.log 2 x ≤ x := by
  have hlog : ((2 : ℕ) : ℚ) ^ Int.log 2 x ≤ x := Int.zpow_log_le_self (by norm_num) hx
  have hcast : (((2 : ℕ) : ℚ) ^ Int.log 2 x : ℚ) ≤ (x : ℝ) := Rat.cast_le.mpr hlog
  rw [Rat.cast_zpow, Rat.cast_natCast] at hcast
  exact hcast

theorem compares_cast {o : Ordering} {a b : ℚ} (h : o.Compares a b) : o.Compares (a : ℝ) (b : ℝ) := by
  cases o with
  | lt => exact Rat.cast_lt.mpr h
  | eq => exact congrArg _ h
  | gt => exact Rat.cast_lt.mpr h

theorem round_error (hx : 0 < x) : |(round x : ℝ) - x| ≤ x / 2 ^ 53 := by
  obtain ⟨unit, hunit⟩ : ∃ unit : ℚ, unit = 2 ^ (Int.log 2 x - 52) := ⟨_, rfl⟩
  have hunit' : (unit : ℝ) = 2 ^ (Int.log 2 x - 52) := by
    rw [hunit]
    push_cast
    rfl
  have hpos : (0 : ℝ) < unit := by
    rw [hunit']
    positivity
  have hdigits : 2 ^ 52 * (unit : ℝ) ≤ x := by
    rw [hunit', digits_mul_unit]
    exact two_pow_log_le hx
  have hround : (round x : ℝ) = nearest ⌊x / unit⌋ (cmp (x / unit) (⌊x / unit⌋ + 1 / 2)) * unit := by
    rw [round, ← hunit]
    push_cast
    rfl
  rw [hround]
  apply scaled_error hpos hdigits
  have hfloor := Int.floor_le (x / unit)
  have hnext := Int.lt_floor_add_one (x / unit)
  apply nearest_error (by exact_mod_cast hfloor) (by exact_mod_cast hnext)
  have hcompare := compares_cast (cmp_compares (x / unit) (⌊x / unit⌋ + 1 / 2))
  push_cast at hcompare
  exact hcompare

/-- The integer part of a square root is the integer square root of the integer part. -/
theorem natSqrt_floor {y : ℚ} (hy : 0 ≤ y) : (Nat.sqrt ⌊y⌋₊ : ℝ) ≤ Real.sqrt y ∧ Real.sqrt y < Nat.sqrt ⌊y⌋₊ + 1 := by
  constructor
  · apply Real.le_sqrt_of_sq_le
    have hsquare : Nat.sqrt ⌊y⌋₊ ^ 2 ≤ ⌊y⌋₊ := Nat.sqrt_le' _
    have hfloor := Nat.floor_le hy
    have hcast : ((Nat.sqrt ⌊y⌋₊ ^ 2 : ℕ) : ℚ) ≤ y := le_trans (by exact_mod_cast hsquare) hfloor
    exact_mod_cast hcast
  · rw [Real.sqrt_lt' (by positivity)]
    have hsquare : ⌊y⌋₊ < (Nat.sqrt ⌊y⌋₊ + 1) ^ 2 := Nat.lt_succ_sqrt' _
    have hcast : y < (((Nat.sqrt ⌊y⌋₊ + 1) ^ 2 : ℕ) : ℚ) := (Nat.floor_lt hy).mp hsquare
    exact_mod_cast hcast

/-- Squares compare as the roots do. -/
theorem compares_sqrt {o : Ordering} {y m : ℝ} (hm : 0 < m) (h : o.Compares y (m ^ 2)) :
    o.Compares (Real.sqrt y) m := by
  cases o with
  | lt => exact (Real.sqrt_lt' hm).mpr h
  | eq =>
    have hy : y = m ^ 2 := h
    show Real.sqrt y = m
    rw [hy, Real.sqrt_sq hm.le]
  | gt => exact Real.lt_sqrt_of_sq_lt h

/-- A number has twice as many binary digits as its root. -/
theorem two_pow_half_log_le_sqrt (hx : 0 < x) : (2 : ℝ) ^ (Int.log 2 x / 2) ≤ Real.sqrt x := by
  apply Real.le_sqrt_of_sq_le
  refine le_trans ?_ (two_pow_log_le hx)
  rw [← zpow_natCast, ← zpow_mul]
  apply zpow_le_zpow_right₀ one_le_two
  show Int.log 2 x / 2 * 2 ≤ Int.log 2 x
  omega

theorem sqrt_error (hx : 0 < x) : |(sqrt x : ℝ) - Real.sqrt x| ≤ Real.sqrt x / 2 ^ 53 := by
  obtain ⟨unit, hunit⟩ : ∃ unit : ℚ, unit = 2 ^ (Int.log 2 x / 2 - 52) := ⟨_, rfl⟩
  have hunit' : (unit : ℝ) = 2 ^ (Int.log 2 x / 2 - 52) := by
    rw [hunit]
    push_cast
    rfl
  have hpos : (0 : ℝ) < unit := by
    rw [hunit']
    positivity
  have hdigits : 2 ^ 52 * (unit : ℝ) ≤ Real.sqrt x := by
    rw [hunit', digits_mul_unit]
    exact two_pow_half_log_le_sqrt hx
  obtain ⟨y, hy⟩ : ∃ y : ℚ, y = x / unit ^ 2 := ⟨_, rfl⟩
  have hnonneg : 0 ≤ y := by
    rw [hy]
    positivity
  have hsqrt : (sqrt x : ℝ) =
      nearest (Nat.sqrt ⌊y⌋₊) (cmp y (((Nat.sqrt ⌊y⌋₊ : ℤ) + 1 / 2 : ℚ) ^ 2)) * unit := by
    rw [sqrt, ← hunit, ← hy]
    push_cast
    rfl
  have hscaled : Real.sqrt x / unit = Real.sqrt y := by
    rw [hy, Rat.cast_div, Rat.cast_pow, Real.sqrt_div' _ (by positivity), Real.sqrt_sq hpos.le]
  rw [hsqrt]
  apply scaled_error hpos hdigits
  rw [hscaled]
  obtain ⟨hfloor, hnext⟩ := natSqrt_floor hnonneg
  apply nearest_error (by exact_mod_cast hfloor) (by exact_mod_cast hnext)
  apply compares_sqrt (by positivity)
  have hcompare := compares_cast (cmp_compares y (((Nat.sqrt ⌊y⌋₊ : ℤ) + 1 / 2 : ℚ) ^ 2))
  push_cast at hcompare ⊢
  exact hcompare

theorem round_natCast {n : ℕ} (hn : n < 2 ^ 53) : round n = n := by
  -- the unit of the last digit divides `n`
  have hlog : Int.log 2 (n : ℚ) ≤ 52 := by
    rw [Int.log_natCast]
    have := Nat.log_lt_of_lt_pow' (b := 2) (by norm_num : (53 : ℕ) ≠ 0) hn
    omega
  obtain ⟨k, hk⟩ : ∃ k : ℕ, Int.log 2 (n : ℚ) - 52 = -k := ⟨(52 - Int.log 2 (n : ℚ)).toNat, by omega⟩
  have hscaled : (n : ℚ) / 2 ^ (Int.log 2 (n : ℚ) - 52) = ((n * 2 ^ k : ℤ) : ℚ) := by
    rw [hk, zpow_neg, zpow_natCast, div_inv_eq_mul]
    push_cast
    rfl
  have hbelow : cmp ((n * 2 ^ k : ℤ) : ℚ) ((n * 2 ^ k : ℤ) + 1 / 2) = .lt := by
    rw [cmp_eq_lt_iff]
    linarith
  simp only [round, hscaled, Int.floor_intCast, hbelow, nearest]
  rw [← hscaled, div_mul_cancel₀ _ (by positivity)]

/-! ### Coarse bounds -/

theorem bounds_of_error {v r : ℝ} (hv : 0 < v) (herror : |r - v| ≤ v / 2 ^ 53) : v / 2 < r ∧ r < 2 * v := by
  obtain ⟨hlow, hhigh⟩ := abs_le.mp herror
  constructor <;> linarith

theorem half_lt_round (hx : 0 < x) : x / 2 < round x := by
  have hbounds := bounds_of_error (Rat.cast_pos.mpr hx) (round_error hx)
  exact_mod_cast hbounds.1

theorem round_lt_double (hx : 0 < x) : round x < 2 * x := by
  have hbounds := bounds_of_error (Rat.cast_pos.mpr hx) (round_error hx)
  exact_mod_cast hbounds.2

theorem half_lt_sqrt {x r : ℚ} (hr : 0 < r) (hsquare : r ^ 2 ≤ x) : r / 2 < sqrt x := by
  have hx : 0 < x := lt_of_lt_of_le (by positivity) hsquare
  have hroot : (r : ℝ) ≤ Real.sqrt x := Real.le_sqrt_of_sq_le (by exact_mod_cast hsquare)
  have hbounds := bounds_of_error (Real.sqrt_pos.mpr (Rat.cast_pos.mpr hx)) (sqrt_error hx)
  have hcast : (r : ℝ) / 2 < sqrt x := by linarith [hbounds.1]
  exact_mod_cast hcast

end Binary64
