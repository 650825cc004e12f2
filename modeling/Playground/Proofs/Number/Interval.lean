import Mathlib
import Playground.Number.Shortest

/-! Which decimals round to a double. -/

namespace Playground

def Decimal.value (d : Decimal) : ℚ := d.digits * 10 ^ d.power

namespace Binary64

/-- Finite doubles, each in its only form. -/
structure IsProper (x : Binary64) : Prop where
  bounded : x.significand < 2 ^ 53
  least : leastExponent ≤ x.exponent
  normal : x.significand < 2 ^ 52 → x.exponent = leastExponent

def magnitude (x : Binary64) : ℚ := x.significand * 2 ^ x.exponent

def quarter (x : Binary64) : ℚ := 2 ^ (x.exponent - 2)

/-- How many quarters it is halfway to the double before; below a power of two they lie closer. -/
def quartersBelow (x : Binary64) : ℕ :=
  if x.significand = 2 ^ 52 ∧ leastExponent < x.exponent then 1 else 2

def low (x : Binary64) : ℚ := (4 * x.significand - x.quartersBelow) * x.quarter

def high (x : Binary64) : ℚ := (4 * x.significand + 2) * x.quarter

theorem quarter_pos (x : Binary64) : 0 < x.quarter := by
  unfold quarter
  positivity

theorem quartersBelow_le (x : Binary64) : x.quartersBelow ≤ 2 := by
  unfold quartersBelow
  split <;> omega

theorem magnitude_eq (x : Binary64) : x.magnitude = 4 * x.significand * x.quarter := by
  have split_ : (2 : ℚ) ^ x.exponent = 2 ^ (x.exponent - 2) * 2 ^ (2 : ℤ) := by
    rw [← zpow_add₀ (by norm_num)]
    congr 1
    omega
  rw [magnitude, quarter, split_]
  norm_num
  ring

theorem toFraction_pos (x : Binary64) : 0 < x.toFraction.2 := by
  unfold toFraction
  split
  · exact Nat.one_pos
  · exact Nat.pow_pos (by norm_num)

theorem toFraction_eq (x : Binary64) : (x.toFraction.1 : ℚ) = x.magnitude * x.toFraction.2 := by
  unfold toFraction magnitude
  split
  · next n e =>
    rw [e]
    simp
  · next n e =>
    rw [e, zpow_negSucc]
    field_simp
    simp

theorem Interval.contains_eq (i : Interval) (d : Decimal) :
    i.contains d = true ↔
      if i.closed then (i.low : ℚ) ≤ d.value * i.den ∧ d.value * i.den ≤ i.high
      else (i.low : ℚ) < d.value * i.den ∧ d.value * i.den < i.high := by
  obtain ⟨digits, power⟩ := d
  cases power with
  | ofNat k =>
    have value : Decimal.value ⟨digits, .ofNat k⟩ * i.den = ((digits * 10 ^ k * i.den : ℕ) : ℚ) := by
      simp [Decimal.value]
    rw [value]
    simp only [Nat.cast_le, Nat.cast_lt]
    simp only [Interval.contains, Nat.pow_eq, mul_one]
    split <;> simp
  | negSucc k =>
    have ten : (0 : ℚ) < ((10 ^ (k + 1) : ℕ) : ℚ) := by positivity
    have value : Decimal.value ⟨digits, .negSucc k⟩ * i.den =
        ((digits * i.den : ℕ) : ℚ) / ((10 ^ (k + 1) : ℕ) : ℚ) := by
      rw [Decimal.value, zpow_negSucc]
      push_cast
      field_simp
    rw [value, le_div_iff₀ ten, div_le_iff₀ ten, lt_div_iff₀ ten, div_lt_iff₀ ten, ← Nat.cast_mul,
      ← Nat.cast_mul]
    simp only [Nat.cast_le, Nat.cast_lt]
    simp only [Interval.contains, Nat.pow_eq]
    split <;> simp

theorem den_interval (x : Binary64) : 0 < x.interval.den :=
  toFraction_pos ⟨false, 1, x.exponent - 2⟩

theorem quarter_interval (x : Binary64) :
    ((toFraction ⟨false, 1, x.exponent - 2⟩).1 : ℚ) = x.quarter * x.interval.den := by
  rw [toFraction_eq, magnitude, Nat.cast_one, one_mul]
  rfl

/-- A decimal rounds to a positive double when it lies between its ends; the ends themselves round
to an even significand. -/
theorem contains_iff {x : Binary64} (some_ : 0 < x.significand) (d : Decimal) :
    x.interval.contains d = true ↔
      if x.significand % 2 = 0 then x.low ≤ d.value ∧ d.value ≤ x.high
      else x.low < d.value ∧ d.value < x.high := by
  have den : (0 : ℚ) < x.interval.den := Nat.cast_pos.2 x.den_interval
  have low : (x.interval.low : ℚ) = x.low * x.interval.den := by
    have below := x.quartersBelow_le
    have cut : x.interval.low = (4 * x.significand - x.quartersBelow) *
        (toFraction ⟨false, 1, x.exponent - 2⟩).1 := rfl
    rw [cut, Nat.cast_mul, quarter_interval, Nat.cast_sub (by omega), Binary64.low]
    push_cast
    ring
  have high : (x.interval.high : ℚ) = x.high * x.interval.den := by
    have cut : x.interval.high = (4 * x.significand + 2) *
        (toFraction ⟨false, 1, x.exponent - 2⟩).1 := rfl
    rw [cut, Nat.cast_mul, quarter_interval, Binary64.high]
    push_cast
    ring
  have closed : x.interval.closed = (x.significand % 2 == 0) := rfl
  rw [Interval.contains_eq, low, high, closed]
  simp only [beq_iff_eq, mul_le_mul_iff_left₀ den, mul_lt_mul_iff_left₀ den]

theorem quarter_double {x y : Binary64} (less : x.exponent < y.exponent) :
    2 * x.quarter ≤ y.quarter := by
  have double : 2 * x.quarter = 2 ^ (x.exponent - 2 + 1) := by
    rw [zpow_add_one₀ (by norm_num), quarter, mul_comm]
  rw [double]
  exact zpow_le_zpow_right₀ (by norm_num) (by omega)

/-- The interval of a double ends before that of a greater one begins. If they touch, not both
significands are even. -/
theorem IsProper.apart {x y : Binary64} (px : x.IsProper) (py : y.IsProper)
    (less : x.exponent < y.exponent ∨ x.exponent = y.exponent ∧ x.significand < y.significand) :
    x.high < y.low ∨ x.high = y.low ∧ (x.significand % 2 = 1 ∨ y.significand % 2 = 1) := by
  have pos := x.quarter_pos
  have below := y.quartersBelow_le
  rcases less with greater | ⟨same, less⟩
  · -- The ends are farthest apart in quarters of `x`: hers reach `2 ^ 55 - 2` at most.
    have double := quarter_double greater
    have normal : 2 ^ 52 ≤ y.significand := by
      by_contra small
      have least := py.normal (by omega)
      have bound := px.least
      omega
    have reach : x.high ≤ (2 ^ 55 - 2) * x.quarter := by
      have bound : ((x.significand : ℕ) : ℚ) ≤ 2 ^ 53 - 1 := by
        have := px.bounded
        rw [le_sub_iff_add_le]
        exact_mod_cast this
      rw [high]
      exact mul_le_mul_of_nonneg_right (by linarith) pos.le
    rcases Nat.eq_or_lt_of_le normal with least | more
    · have one : y.quartersBelow = 1 := if_pos ⟨least.symm, lt_of_le_of_lt px.least greater⟩
      have start : (2 ^ 55 - 2) * x.quarter ≤ y.low := by
        rw [low, one, ← least]
        push_cast
        linarith
      rcases lt_or_eq_of_le (reach.trans start) with before | touch
      · exact .inl before
      · refine .inr ⟨touch, .inl ?_⟩
        have full : (4 * x.significand + 2 : ℚ) = 2 ^ 55 - 2 := by
          have both : x.high = (2 ^ 55 - 2) * x.quarter := le_antisymm reach (touch ▸ start)
          exact mul_right_cancel₀ pos.ne' both
        have last : 4 * x.significand + 4 = 2 ^ 55 := by
          have : (4 * x.significand + 4 : ℚ) = 2 ^ 55 := by linarith
          exact_mod_cast this
        omega
    · refine .inl (lt_of_le_of_lt reach ?_)
      have two : (y.quartersBelow : ℚ) ≤ 2 := by exact_mod_cast below
      have bound : (2 ^ 52 + 1 : ℚ) ≤ y.significand := by exact_mod_cast more
      calc (2 ^ 55 - 2) * x.quarter < (2 ^ 54 + 2) * (2 * x.quarter) := by linarith
        _ ≤ (2 ^ 54 + 2) * y.quarter := by linarith
        _ ≤ y.low := mul_le_mul_of_nonneg_right (by linarith) y.quarter_pos.le
  · have quarters : y.quarter = x.quarter := by rw [quarter, quarter, same]
    have next : 4 * x.significand + 2 + y.quartersBelow ≤ 4 * y.significand := by omega
    rw [high, low, quarters]
    rcases Nat.lt_or_eq_of_le next with before | touch
    · refine .inl (mul_lt_mul_of_pos_right ?_ pos)
      have : (4 * x.significand + 2 + y.quartersBelow : ℚ) < 4 * y.significand := by
        exact_mod_cast before
      linarith
    · refine .inr ⟨congrArg (· * x.quarter) ?_, by omega⟩
      have : (4 * x.significand + 2 + y.quartersBelow : ℚ) = 4 * y.significand := by
        exact_mod_cast touch
      linarith

theorem IsProper.unique {x y : Binary64} (px : x.IsProper) (py : y.IsProper)
    (hx : 0 < x.significand) (hy : 0 < y.significand) {d e : Decimal} (same : d.value = e.value)
    (inx : x.interval.contains d = true) (iny : y.interval.contains e = true) :
    x.significand = y.significand ∧ x.exponent = y.exponent := by
  rw [contains_iff hx] at inx
  rw [contains_iff hy, ← same] at iny
  have not_less : ∀ {x y : Binary64}, x.IsProper → y.IsProper →
      (if x.significand % 2 = 0 then x.low ≤ d.value ∧ d.value ≤ x.high
        else x.low < d.value ∧ d.value < x.high) →
      (if y.significand % 2 = 0 then y.low ≤ d.value ∧ d.value ≤ y.high
        else y.low < d.value ∧ d.value < y.high) →
      ¬ (x.exponent < y.exponent ∨ x.exponent = y.exponent ∧ x.significand < y.significand) := by
    intro x y px py inx iny less
    have outer : d.value ≤ x.high ∧ y.low ≤ d.value := by
      split at inx <;> split at iny <;> exact ⟨by linarith, by linarith⟩
    rcases px.apart py less with before | ⟨touch, odd | odd⟩
    · linarith
    · rw [if_neg (by omega)] at inx
      linarith
    · rw [if_neg (by omega)] at iny
      linarith
  have first := not_less px py inx iny
  have second := not_less py px iny inx
  omega

end Binary64

end Playground
