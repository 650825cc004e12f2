import Playground.Proofs.Number.Interval

/-! The shortest digits of a double round to it. A grid of seventeen digits is fine enough. -/

namespace Playground

theorem Decimal.value_normalize (d : Decimal) (bound : ℕ) :
    (d.normalize bound).value = d.value := by
  induction bound generalizing d with
  | zero => rfl
  | succ bound ih =>
    rw [Decimal.normalize]
    split
    · next zero =>
      rw [ih, value, value, zpow_add_one₀ (by norm_num)]
      have digits : (d.digits : ℚ) = (d.digits / 10 : ℕ) * 10 := by
        exact_mod_cast (Nat.div_mul_cancel (Nat.dvd_of_mod_eq_zero zero.1)).symm
      rw [digits]
      ring
    · rfl

namespace Binary64

theorem le_leadingZeros {num den bound : ℕ} (enough : den ≤ num * 10 ^ bound) :
    den ≤ num * 10 ^ (leadingZeros num den bound + 1) := by
  induction bound generalizing num with
  | zero =>
    rw [pow_zero, mul_one] at enough
    rw [leadingZeros]
    omega
  | succ bound ih =>
    rw [leadingZeros]
    split
    · next here => simpa using here
    · rw [pow_succ, ← mul_assoc, mul_right_comm] at enough
      rw [pow_succ, ← mul_assoc, mul_right_comm]
      exact ih enough

theorem pow_decimalExponent_le {num den : ℕ} (pos : 0 < den) (enough : den ≤ num * 10 ^ 400) :
    (10 : ℚ) ^ (decimalExponent num den - 1) ≤ num / den := by
  have den_pos : (0 : ℚ) < den := Nat.cast_pos.2 pos
  rw [decimalExponent, le_div_iff₀ den_pos]
  split
  · next whole =>
    have some_ : 1 ≤ num / den := (Nat.one_le_div_iff pos).2 whole
    have length := Nat.length_toDigits_pos (b := 10) (n := num / den)
    have places : 10 ^ ((Nat.toDigits 10 (num / den)).length - 1) ≤ num / den := by
      rcases Nat.eq_or_lt_of_le length with one | more
      · rw [← one]
        exact some_
      · by_contra less
        have shorter := (Nat.length_toDigits_le_iff (by norm_num) (by omega)).2 (not_le.1 less)
        omega
    have exponent : (((Nat.toDigits 10 (num / den)).length : ℤ) - 1) =
        (((Nat.toDigits 10 (num / den)).length - 1 : ℕ) : ℤ) := by omega
    rw [exponent, zpow_natCast]
    exact_mod_cast (Nat.le_div_iff_mul_le pos).1 places
  · have zeros := le_leadingZeros enough
    have exponent : (-(leadingZeros num den 400 : ℤ) - 1) =
        -((leadingZeros num den 400 + 1 : ℕ) : ℤ) := by omega
    rw [exponent, zpow_neg, zpow_natCast, inv_mul_le_iff₀ (by positivity), mul_comm]
    exact_mod_cast zeros

theorem abs_roundHalfEven_sub_le (num : ℕ) {den : ℕ} (pos : 0 < den) :
    |(roundHalfEven num den : ℚ) - num / den| ≤ 1 / 2 := by
  have den_pos : (0 : ℚ) < den := Nat.cast_pos.2 pos
  have whole : (num : ℚ) = den * (num / den : ℕ) + (num % den : ℕ) := by
    exact_mod_cast (Nat.div_add_mod num den).symm
  have fraction : (num : ℚ) / den = (num / den : ℕ) + ((num % den : ℕ) : ℚ) / den := by
    rw [whole]
    field_simp
  rw [fraction, roundHalfEven, abs_le]
  -- The remainder tells which of the two neighbours is nearer.
  split
  · next less =>
    have small : ((num % den : ℕ) : ℚ) / den ≤ 1 / 2 := by
      rw [div_le_iff₀ den_pos]
      have : (2 * (num % den : ℕ) : ℚ) < den := by exact_mod_cast less
      linarith
    have low : (0 : ℚ) ≤ ((num % den : ℕ) : ℚ) / den := by positivity
    constructor <;> linarith
  · next not_less =>
    have large : (1 : ℚ) / 2 ≤ ((num % den : ℕ) : ℚ) / den := by
      rw [le_div_iff₀ den_pos]
      have : (den : ℚ) ≤ 2 * (num % den : ℕ) := by exact_mod_cast not_lt.1 not_less
      linarith
    have high : ((num % den : ℕ) : ℚ) / den ≤ 1 := by
      rw [div_le_one den_pos]
      exact_mod_cast (Nat.mod_lt num pos).le
    split
    · push_cast
      constructor <;> linarith
    · next not_more =>
      have half : ((num % den : ℕ) : ℚ) / den = 1 / 2 := by
        rw [div_eq_iff den_pos.ne']
        have : (2 * (num % den : ℕ) : ℚ) = den := by exact_mod_cast (by omega : 2 * (num % den) = den)
        linarith
      rw [half]
      split <;> push_cast <;> constructor <;> linarith

namespace Interval

theorem onGrid_eq (i : Interval) (pos : 0 < i.den) (count : ℕ) :
    ∃ num den : ℕ, 0 < den ∧
      (num : ℚ) / den * 10 ^ (decimalExponent i.value i.den - count) = i.value / i.den ∧
      ∃ farther, i.onGrid count =
        let nearer : Decimal := ⟨roundHalfEven num den, decimalExponent i.value i.den - count⟩
        if i.contains nearer then some nearer
        else if i.contains farther then some farther
        else none := by
  have den_pos : (i.den : ℚ) ≠ 0 := (Nat.cast_pos.2 pos).ne'
  unfold onGrid
  dsimp only
  generalize decimalExponent i.value i.den - (count : ℤ) = power
  have round : ∀ num den : ℕ, (if 2 * (num % den) < den then (⟨num / den, power⟩ : Decimal)
      else if den < 2 * (num % den) then ⟨num / den + 1, power⟩
      else if num / den % 2 = 0 then ⟨num / den, power⟩ else ⟨num / den + 1, power⟩) =
        ⟨roundHalfEven num den, power⟩ := by
    intro num den
    unfold roundHalfEven
    dsimp only
    split_ifs <;> rfl
  cases power with
  | ofNat k =>
    refine ⟨i.value, i.den * Nat.pow 10 k, Nat.mul_pos pos (Nat.pow_pos (by norm_num)), ?_, ?_⟩
    · simp
      field_simp
    · dsimp only
      rw [round]
      exact ⟨_, rfl⟩
  | negSucc k =>
    refine ⟨i.value * Nat.pow 10 (k + 1), i.den, pos, ?_, ?_⟩
    · rw [zpow_negSucc]
      simp
      field_simp
    · dsimp only
      rw [round]
      exact ⟨_, rfl⟩

theorem contains_of_onGrid {i : Interval} (pos : 0 < i.den) {count : ℕ} {d : Decimal}
    (found : i.onGrid count = some d) : i.contains d = true := by
  obtain ⟨num, den, -, -, farther, tried⟩ := i.onGrid_eq pos count
  rw [tried] at found
  dsimp only at found
  split_ifs at found with near far
  · cases found
    exact near
  · cases found
    exact far

theorem onGrid_ne_none {i : Interval} (pos : 0 < i.den) {count : ℕ}
    (wide : ∀ d : Decimal,
      |d.value - i.value / i.den| ≤ 10 ^ (decimalExponent i.value i.den - count) / 2 →
        i.contains d = true) : i.onGrid count ≠ none := by
  obtain ⟨num, den, den_pos, scaled, farther, tried⟩ := i.onGrid_eq pos count
  have grid : (0 : ℚ) < 10 ^ (decimalExponent i.value i.den - count) := by positivity
  have close := abs_roundHalfEven_sub_le num den_pos
  rw [tried]
  dsimp only
  rw [if_pos (wide _ ?_)]
  · exact Option.some_ne_none _
  · rw [Decimal.value, ← scaled, ← sub_mul, abs_mul, abs_of_pos grid]
    dsimp only
    linarith [mul_le_mul_of_nonneg_right close grid.le]

end Interval

variable {x : Binary64}

theorem value_interval (x : Binary64) :
    (x.interval.value : ℚ) / x.interval.den = x.magnitude := by
  have den : (x.interval.den : ℚ) ≠ 0 := (Nat.cast_pos.2 x.den_interval).ne'
  have cut : x.interval.value = 4 * x.significand * (toFraction ⟨false, 1, x.exponent - 2⟩).1 := rfl
  rw [div_eq_iff den, cut, Nat.cast_mul, quarter_interval, magnitude_eq]
  push_cast
  ring

theorem IsProper.enough (proper : x.IsProper) (some_ : 0 < x.significand) :
    x.interval.den ≤ x.interval.value * 10 ^ 400 := by
  have den : (0 : ℚ) < x.interval.den := Nat.cast_pos.2 x.den_interval
  have value : (x.interval.value : ℚ) = x.magnitude * x.interval.den :=
    (div_eq_iff den.ne').1 x.value_interval
  have least : (2 : ℚ) ^ (-1074 : ℤ) ≤ x.magnitude := by
    have one : (1 : ℚ) ≤ x.significand := by exact_mod_cast some_
    have power : (2 : ℚ) ^ (-1074 : ℤ) ≤ 2 ^ x.exponent :=
      zpow_le_zpow_right₀ (by norm_num) proper.least
    rw [magnitude]
    exact power.trans (le_mul_of_one_le_left (by positivity) one)
  have eight : (2 : ℚ) ^ 1074 ≤ 10 ^ 400 :=
    calc (2 : ℚ) ^ 1074 = (2 ^ 3) ^ 358 := by rw [← pow_mul]
      _ ≤ 10 ^ 358 := pow_le_pow_left₀ (by norm_num) (by norm_num) 358
      _ ≤ 10 ^ 400 := pow_le_pow_right₀ (by norm_num) (by norm_num)
  have wide : (1 : ℚ) ≤ 2 ^ (-1074 : ℤ) * 10 ^ 400 := by
    rw [zpow_neg, zpow_ofNat]
    exact (one_le_inv_mul₀ (by positivity)).2 eight
  have reach : (1 : ℚ) ≤ x.magnitude * 10 ^ 400 :=
    wide.trans (mul_le_mul_of_nonneg_right least (by positivity))
  have whole : (x.interval.den : ℚ) ≤ x.interval.value * 10 ^ 400 := by
    rw [value, mul_right_comm]
    exact le_mul_of_one_le_left den.le reach
  exact_mod_cast whole

theorem IsProper.onGrid (proper : x.IsProper) (some_ : 0 < x.significand) :
    x.interval.onGrid 17 ≠ none := by
  apply Interval.onGrid_ne_none x.den_interval
  intro d close
  have pos := x.quarter_pos
  have places := pow_decimalExponent_le x.den_interval (proper.enough some_)
  rw [x.value_interval, magnitude_eq] at places close
  have fine : (10 : ℚ) ^ (decimalExponent x.interval.value x.interval.den - (17 : ℕ)) ≤
      4 * x.significand * x.quarter / 10 ^ 16 := by
    have shifted : decimalExponent x.interval.value x.interval.den - ((17 : ℕ) : ℤ) =
        decimalExponent x.interval.value x.interval.den - 1 - ((16 : ℕ) : ℤ) := by
      push_cast
      ring
    rw [shifted, zpow_sub₀ (by norm_num), zpow_natCast]
    gcongr
  -- Half a step of the grid is less than the way to either end.
  have near : |d.value - 4 * x.significand * x.quarter| < x.quartersBelow * x.quarter := by
    have narrow : (2 * x.significand : ℚ) / 10 ^ 16 < x.quartersBelow := by
      have bound : (x.significand : ℚ) < 2 ^ 53 := by exact_mod_cast proper.bounded
      unfold quartersBelow
      split
      · next boundary =>
        rw [boundary.1]
        norm_num
      · rw [div_lt_iff₀ (by norm_num)]
        push_cast
        linarith
    calc |d.value - 4 * x.significand * x.quarter|
        ≤ 4 * x.significand * x.quarter / 10 ^ 16 / 2 := by linarith
      _ = 2 * x.significand / 10 ^ 16 * x.quarter := by ring
      _ < x.quartersBelow * x.quarter := mul_lt_mul_of_pos_right narrow pos
  have most : (x.quartersBelow : ℚ) * x.quarter ≤ 2 * x.quarter :=
    mul_le_mul_of_nonneg_right (by exact_mod_cast x.quartersBelow_le) pos.le
  obtain ⟨after, before⟩ := abs_lt.1 near
  have inside : x.low < d.value ∧ d.value < x.high := by
    rw [low, high, sub_mul, add_mul]
    constructor <;> linarith
  rw [contains_iff some_]
  split
  · exact ⟨inside.1.le, inside.2.le⟩
  · exact inside

theorem IsProper.shortest_contains (proper : x.IsProper) (some_ : 0 < x.significand) :
    ∃ d : Decimal, x.interval.contains d = true ∧ x.shortest.value = d.value := by
  rw [shortest]
  cases found : (List.range 17).findSome? fun count => x.interval.onGrid (count + 1) with
  | none =>
    rw [List.findSome?_eq_none_iff] at found
    exact absurd (found 16 (by simp)) (proper.onGrid some_)
  | some d =>
    obtain ⟨count, -, tried⟩ := List.exists_of_findSome?_eq_some found
    exact ⟨d, Interval.contains_of_onGrid x.den_interval tried, d.value_normalize 20⟩

end Binary64

end Playground
