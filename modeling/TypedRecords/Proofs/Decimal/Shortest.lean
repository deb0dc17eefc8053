import Mathlib.Algebra.Order.Field.Power
import Mathlib.Data.Rat.Cast.Order
import Mathlib.Tactic.FieldSimp
import Mathlib.Tactic.Linarith
import Mathlib.Tactic.LinearCombination
import Mathlib.Tactic.Positivity
import Mathlib.Tactic.Ring
import TypedRecords.Decimal.Shortest

/-! Shortest decimals tell magnitudes apart.
The numbers for which a magnitude is the nearest one lie between those for its neighbours, and of
two neighbours only one holds the end between them. A grid that is as fine as half of such an
interval has a point in it, and seventeen digits are that fine. So the decimal that is found lies
in the interval, and it lies in no other. -/
namespace TypedRecords

theorem zpow_eq_div (b : ℚ) (e : Int) :
    b ^ e = b ^ e.toNat / b ^ (-e).toNat := by
  cases e with
  | ofNat n => simp
  | negSucc n => simp [zpow_negSucc]

theorem cast_twoTo (k : Nat) : (twoTo k : ℚ) = 2 ^ k := by
  simp [twoTo]

theorem cast_tenTo (k : Nat) : (tenTo k : ℚ) = 10 ^ k := by
  simp [tenTo]

namespace Decimal

def value (d : Decimal) : ℚ := d.digits * 10 ^ d.exponent

theorem value_trim (tries : Nat) (d : Decimal) : (trim tries d).value = d.value := by
  induction tries generalizing d with
  | zero => rfl
  | succ tries ih =>
    rw [trim]
    split
    · rename_i zero
      simp only [Bool.and_eq_true, bne_iff_ne, ne_eq, beq_iff_eq] at zero
      have whole : d.digits = d.digits / 10 * 10 := by omega
      rw [ih]
      calc ((d.digits / 10 : Nat) : ℚ) * 10 ^ (d.exponent + 1)
        _ = ((d.digits / 10 * 10 : Nat) : ℚ) * 10 ^ d.exponent := by
          rw [zpow_add_one₀ (by norm_num)]
          push_cast
          ring
        _ = d.value := by rw [← whole, value]
    · rfl

/-! Intervals. -/

namespace Interval

def lower (i : Interval) : ℚ := i.low / i.den

def upper (i : Interval) : ℚ := i.high / i.den

def middle (i : Interval) : ℚ := i.mid / i.den

def Holds (i : Interval) (x : ℚ) : Prop :=
  if i.closed then i.lower ≤ x ∧ x ≤ i.upper else i.lower < x ∧ x < i.upper

theorem Holds.between {i : Interval} {x : ℚ} (h : i.Holds x) : i.lower ≤ x ∧ x ≤ i.upper := by
  unfold Holds at h
  split at h
  · exact h
  · exact ⟨h.1.le, h.2.le⟩

theorem holds_of_inside {i : Interval} {x : ℚ} (above : i.lower < x) (below : x < i.upper) :
    i.Holds x := by
  unfold Holds
  split
  · exact ⟨above.le, below.le⟩
  · exact ⟨above, below⟩

section

variable {den : Nat} (nonzero : 0 < den) (a d : Nat) (e : Int)
include nonzero

/-- Fractions are compared with decimals by multiplying out. -/
theorem le_scaled_iff : a * tenTo (-e).toNat ≤ d * tenTo e.toNat * den ↔
    (a / den : ℚ) ≤ (Decimal.mk d e).value := by
  have den_pos : (0 : ℚ) < den := by exact_mod_cast nonzero
  have scale_pos : (0 : ℚ) < 10 ^ (-e).toNat := by positivity
  rw [← Nat.cast_le (α := ℚ), value, zpow_eq_div, div_le_iff₀ den_pos, ← mul_div_assoc,
    div_mul_eq_mul_div, le_div_iff₀ scale_pos]
  push_cast [cast_tenTo]
  rfl

theorem scaled_le_iff : d * tenTo e.toNat * den ≤ a * tenTo (-e).toNat ↔
    (Decimal.mk d e).value ≤ a / den := by
  have den_pos : (0 : ℚ) < den := by exact_mod_cast nonzero
  have scale_pos : (0 : ℚ) < 10 ^ (-e).toNat := by positivity
  rw [← Nat.cast_le (α := ℚ), value, zpow_eq_div, le_div_iff₀ den_pos, ← mul_div_assoc,
    div_mul_eq_mul_div, div_le_iff₀ scale_pos]
  push_cast [cast_tenTo]
  rfl

theorem lt_scaled_iff : a * tenTo (-e).toNat < d * tenTo e.toNat * den ↔
    (a / den : ℚ) < (Decimal.mk d e).value := by
  rw [← not_le, scaled_le_iff nonzero, not_le]

theorem scaled_lt_iff : d * tenTo e.toNat * den < a * tenTo (-e).toNat ↔
    (Decimal.mk d e).value < a / den := by
  rw [← not_le, le_scaled_iff nonzero, not_le]

end

theorem contains_iff {i : Interval} (nonzero : 0 < i.den) (d : Nat) (e : Int) :
    i.contains d e = true ↔ i.Holds (Decimal.mk d e).value := by
  unfold contains Holds lower upper
  cases i.closed <;>
    simp [le_scaled_iff nonzero, scaled_le_iff nonzero, lt_scaled_iff nonzero, scaled_lt_iff nonzero]

theorem holds_of_onGrid? {i : Interval} (nonzero : 0 < i.den) {tie : Tie} {e : Int} {d : Nat}
    (found : i.onGrid? tie e = some d) : i.Holds (Decimal.mk d e).value := by
  rw [← contains_iff nonzero]
  unfold onGrid? at found
  simp only at found
  split at found
  · rename_i first second
    cases found
    split
    · exact second
    · exact first
  · rename_i first second
    cases found
    exact first
  · rename_i first second
    cases found
    exact second
  · cases found

theorem onGrid?_ne_none {i : Interval} (nonzero : 0 < i.den) (tie : Tie) {e : Int}
    (below : i.lower < i.middle) (wide : i.middle + 10 ^ e ≤ i.upper) :
    i.onGrid? tie e ≠ none := by
  let d := i.mid * tenTo (-e).toNat / (i.den * tenTo e.toNat)
  have step : (0 : ℚ) < 10 ^ e := by positivity
  have divisor : 0 < i.den * tenTo e.toNat := Nat.mul_pos nonzero (tenTo_pos _)
  have left : (Decimal.mk d e).value ≤ i.middle := by
    rw [middle, ← scaled_le_iff nonzero]
    calc d * tenTo e.toNat * i.den
      _ = d * (i.den * tenTo e.toNat) := by ring
      _ ≤ i.mid * tenTo (-e).toNat := Nat.div_mul_le_self _ _
  have right : i.middle < (Decimal.mk (d + 1) e).value := by
    rw [middle, ← lt_scaled_iff nonzero]
    calc i.mid * tenTo (-e).toNat
      _ < (i.den * tenTo e.toNat) * (d + 1) := Nat.lt_mul_div_succ _ divisor
      _ = (d + 1) * tenTo e.toNat * i.den := by ring
  have next : (Decimal.mk (d + 1) e).value = (Decimal.mk d e).value + 10 ^ e := by
    simp only [value]
    push_cast
    ring
  have either : i.Holds (Decimal.mk d e).value ∨ i.Holds (Decimal.mk (d + 1) e).value := by
    rcases left.eq_or_lt with exact_ | less
    · exact .inl (holds_of_inside (by linarith) (by linarith))
    · exact .inr (holds_of_inside (by linarith) (by linarith))
  rw [← contains_iff nonzero, ← contains_iff nonzero] at either
  intro missed
  unfold onGrid? at missed
  simp only at missed
  split at missed <;> simp_all [d]

theorem holds_firstGrid {i : Interval} (nonzero : 0 < i.den) (tie : Tie)
    (below : i.lower < i.middle) (tries : Nat) (e : Int)
    (wide : i.middle + 10 ^ (e - tries) ≤ i.upper) :
    i.Holds (i.firstGrid tie (tries + 1) e).value := by
  induction tries generalizing e with
  | zero =>
    rw [firstGrid]
    split
    · rename_i found
      exact holds_of_onGrid? nonzero found
    · rename_i missed
      exact absurd missed (onGrid?_ne_none nonzero tie below (by simpa using wide))
  | succ tries ih =>
    rw [firstGrid]
    split
    · rename_i found
      exact holds_of_onGrid? nonzero found
    · refine ih (e - 1) ?_
      have same : e - ((tries + 1 : Nat) : Int) = e - 1 - tries := by
        push_cast
        ring
      rwa [same] at wide

end Interval

theorem pow_digitCount_le {n : Nat} (positive : 0 < n) : 10 ^ (digitCount n - 1) ≤ n := by
  rcases Nat.eq_zero_or_pos (digitCount n - 1) with one | more
  · rw [one]
    exact positive
  · by_contra small
    have fewer := (Nat.length_toDigits_le_iff (by decide) more).2 (Nat.lt_of_not_le small)
    have counted : digitCount n = (Nat.toDigits 10 n).length := rfl
    omega

theorem lt_pow_digitCount (n : Nat) : n < 10 ^ digitCount n :=
  (Nat.length_toDigits_le_iff (by decide) Nat.length_toDigits_pos).1 (Nat.le_refl _)

theorem zpow_leadingExponent_le {num den : Nat} (positive : 0 < num) (nonzero : 0 < den) :
    (10 : ℚ) ^ leadingExponent num den ≤ num / den := by
  have den_pos : (0 : ℚ) < den := by exact_mod_cast nonzero
  unfold leadingExponent
  simp only
  split
  · rename_i reached
    have one := (Interval.scaled_le_iff nonzero num 1
      ((digitCount num : Int) - digitCount den)).1 (by linarith)
    simpa [value] using one
  · have above : ((10 : ℚ) ^ (digitCount num - 1)) ≤ num := by
      exact_mod_cast pow_digitCount_le positive
    have under : (den : ℚ) ≤ 10 ^ digitCount den := by
      exact_mod_cast (lt_pow_digitCount den).le
    have counted : 1 ≤ digitCount num := Nat.length_toDigits_pos
    rw [le_div_iff₀ den_pos]
    calc (10 : ℚ) ^ ((digitCount num : Int) - digitCount den - 1) * den
      _ ≤ 10 ^ ((digitCount num : Int) - digitCount den - 1) * 10 ^ (digitCount den : Int) := by
        gcongr
        exact_mod_cast under
      _ = 10 ^ (digitCount num - 1) := by
        rw [← zpow_add₀ (by norm_num), ← zpow_natCast]
        congr 1
        omega
      _ ≤ num := above

/-! The intervals of the magnitudes of a format. -/

section

variable {f : BinaryFormat}

def unit (f : BinaryFormat) (m : Nat) : ℚ := 2 ^ f.exponent m

theorem unit_pos (f : BinaryFormat) (m : Nat) : 0 < unit f m := by
  unfold unit
  positivity

theorem den_around_pos (f : BinaryFormat) (m : Nat) : 0 < (Interval.around f m).den := by
  simp [Interval.around, twoTo]

theorem around_div (f : BinaryFormat) (m n : Nat) :
    ((n * twoTo (f.exponent m).toNat : Nat) : ℚ) / (Interval.around f m).den =
      n / 4 * unit f m := by
  have scale : (2 : ℚ) ^ (-f.exponent m).toNat ≠ 0 := by positivity
  simp only [Interval.around, unit, zpow_eq_div]
  push_cast [cast_twoTo]
  field_simp

theorem upper_around (f : BinaryFormat) (m : Nat) :
    (Interval.around f m).upper = (f.significand m + 1 / 2) * unit f m := by
  rw [Interval.upper]
  exact (around_div f m _).trans (by push_cast; ring)

theorem middle_around (f : BinaryFormat) (m : Nat) :
    (Interval.around f m).middle = f.significand m * unit f m := by
  rw [Interval.middle]
  exact (around_div f m _).trans (by push_cast; ring)

theorem significand_pos {m : Nat} (positive : 0 < m) : 0 < f.significand m := by
  have scale : 0 < twoTo f.fractionBits := Nat.pow_pos (by decide)
  unfold BinaryFormat.significand
  split
  · rename_i least
    have whole := Nat.div_add_mod m (twoTo f.fractionBits)
    unfold BinaryFormat.biased at least
    rw [least] at whole
    unfold BinaryFormat.fraction
    omega
  · omega

theorem significand_lt (f : BinaryFormat) (m : Nat) :
    f.significand m < 2 * twoTo f.fractionBits := by
  have bound : f.fraction m < twoTo f.fractionBits := Nat.mod_lt _ (Nat.pow_pos (by decide))
  unfold BinaryFormat.significand
  split <;> omega

/-- Below a power of two the next magnitude is only half as far away. -/
def Near (f : BinaryFormat) (m : Nat) : Prop := f.fraction m = 0 ∧ 1 < f.biased m

theorem lower_around {m : Nat} (positive : 0 < m) :
    (¬ Near f m → (Interval.around f m).lower = (f.significand m - 1 / 2) * unit f m) ∧
      (Near f m → (Interval.around f m).lower = (f.significand m - 1 / 4) * unit f m) := by
  have significand := significand_pos (f := f) positive
  have low (n : Nat) (same : (Interval.around f m).low = n * twoTo (f.exponent m).toNat) :
      (Interval.around f m).lower = n / 4 * unit f m := by
    rw [Interval.lower, same]
    exact around_div f m n
  constructor
  · intro far
    rw [low (4 * f.significand m - 2) (by simp only [Near] at far; simp [Interval.around, far]),
      Nat.cast_sub (by omega)]
    push_cast
    ring
  · intro near
    obtain ⟨zero, above⟩ := near
    rw [low (4 * f.significand m - 1) (by simp [Interval.around, zero, above]),
      Nat.cast_sub (by omega)]
    push_cast
    ring

theorem succ_cases (f : BinaryFormat) (m : Nat) :
    (¬ Near f (m + 1) ∧ f.significand (m + 1) = f.significand m + 1 ∧
        unit f (m + 1) = unit f m) ∨
      (Near f (m + 1) ∧ f.significand (m + 1) = twoTo f.fractionBits ∧
        f.significand m + 1 = 2 * twoTo f.fractionBits ∧ unit f (m + 1) = 2 * unit f m) := by
  have scale : 0 < twoTo f.fractionBits := Nat.pow_pos (by decide)
  have whole : twoTo f.fractionBits * f.biased m + f.fraction m = m := Nat.div_add_mod _ _
  have bound : f.fraction m < twoTo f.fractionBits := Nat.mod_lt m scale
  -- Either the fraction goes up, or it starts again and the exponent goes up.
  by_cases more : f.fraction m + 1 < twoTo f.fractionBits
  · obtain ⟨biased, fraction⟩ : f.biased (m + 1) = f.biased m ∧
        f.fraction (m + 1) = f.fraction m + 1 :=
      (Nat.div_mod_unique scale).2 ⟨by omega, more⟩
    refine .inl ⟨?_, ?_, ?_⟩
    · simp [Near, fraction]
    · unfold BinaryFormat.significand
      rw [biased, fraction]
      split <;> omega
    · unfold unit BinaryFormat.exponent
      rw [biased]
  · obtain ⟨biased, fraction⟩ : f.biased (m + 1) = f.biased m + 1 ∧ f.fraction (m + 1) = 0 :=
      (Nat.div_mod_unique scale).2 ⟨by rw [Nat.mul_add]; omega, scale⟩
    -- The least exponent is shared by the numbers without the hidden bit, so it stays.
    rcases Nat.eq_zero_or_pos (f.biased m) with least | normal
    · refine .inl ⟨?_, ?_, ?_⟩
      · simp [Near, biased, least]
      · unfold BinaryFormat.significand
        rw [biased, fraction, if_pos least, if_neg (by omega)]
        omega
      · unfold unit BinaryFormat.exponent
        rw [biased, least]
    · refine .inr ⟨?_, ?_, ?_, ?_⟩
      · unfold Near
        omega
      · unfold BinaryFormat.significand
        rw [biased, fraction, if_neg (by omega), Nat.zero_add]
      · unfold BinaryFormat.significand
        rw [if_neg (by omega)]
        omega
      · have next : f.exponent (m + 1) = f.exponent m + 1 := by
          unfold BinaryFormat.exponent
          rw [biased]
          omega
        rw [unit, next, zpow_add_one₀ (by norm_num), unit]
        ring

/-- Between a magnitude and the next there is no gap. -/
theorem lower_around_succ (f : BinaryFormat) (m : Nat) :
    (Interval.around f (m + 1)).lower = (Interval.around f m).upper := by
  obtain ⟨far, near⟩ := lower_around (f := f) (Nat.succ_pos m)
  rw [upper_around]
  rcases succ_cases f m with ⟨here, next, same⟩ | ⟨here, next, full, double⟩
  · rw [far here, next, same]
    push_cast
    ring
  · have counted : (f.significand m : ℚ) + 1 = 2 * twoTo f.fractionBits := by exact_mod_cast full
    rw [near here, next, double]
    linear_combination (-unit f m) * counted

/-- The end between two neighbours belongs to the one of them with an even significand. -/
theorem closed_around_succ (even : 2 ∣ twoTo f.fractionBits) (m : Nat) :
    (Interval.around f (m + 1)).closed = !(Interval.around f m).closed := by
  simp only [Interval.around]
  rcases succ_cases f m with ⟨-, next, -⟩ | ⟨-, next, full, -⟩
  · rw [next]
    rcases Nat.mod_two_eq_zero_or_one (f.significand m) with h | h <;>
      simp [Nat.add_mod, h]
  · have odd : f.significand m % 2 = 1 := by omega
    rw [next, Nat.mod_eq_zero_of_dvd even, odd]
    rfl

theorem middle_lt_upper (f : BinaryFormat) (m : Nat) :
    (Interval.around f m).middle < (Interval.around f m).upper := by
  rw [middle_around, upper_around]
  linarith [unit_pos f m]

theorem lower_lt_middle {m : Nat} (positive : 0 < m) :
    (Interval.around f m).lower < (Interval.around f m).middle := by
  obtain ⟨far, near⟩ := lower_around (f := f) positive
  rw [middle_around]
  by_cases here : Near f m
  · rw [near here]
    linarith [unit_pos f m]
  · rw [far here]
    linarith [unit_pos f m]

theorem lower_pos {m : Nat} (positive : 0 < m) : 0 < (Interval.around f m).lower := by
  have significand : (1 : ℚ) ≤ f.significand m := by exact_mod_cast significand_pos positive
  obtain ⟨far, near⟩ := lower_around (f := f) positive
  by_cases here : Near f m
  · rw [near here]
    exact mul_pos (by linarith) (unit_pos f m)
  · rw [far here]
    exact mul_pos (by linarith) (unit_pos f m)

theorem lower_lt_lower {m n : Nat} (positive : 0 < m) (less : m < n) :
    (Interval.around f m).lower < (Interval.around f n).lower := by
  have step (k : Nat) (positive : 0 < k) :
      (Interval.around f k).lower < (Interval.around f (k + 1)).lower := by
    rw [lower_around_succ]
    exact (lower_lt_middle positive).trans (middle_lt_upper f k)
  induction n, less using Nat.le_induction with
  | base => exact step m positive
  | succ n reached ih => exact ih.trans (step n (by omega))

/-- No number lies in the intervals of two magnitudes. -/
theorem not_holds_of_lt (even : 2 ∣ twoTo f.fractionBits) {m n : Nat} (less : m < n) {x : ℚ}
    (first : (Interval.around f m).Holds x) : ¬ (Interval.around f n).Holds x := by
  intro second
  have below := first.between.2
  have above := second.between.1
  rw [← lower_around_succ] at below
  rcases (Nat.succ_le_of_lt less).eq_or_lt with next | further
  · -- The number is the end between two neighbours, one of which is open.
    rw [Nat.succ_eq_add_one] at next
    subst next
    have one := closed_around_succ even m
    unfold Interval.Holds at first second
    rw [← lower_around_succ] at first
    rw [one] at second
    cases closed : (Interval.around f m).closed with
    | true =>
      simp only [closed, Bool.not_true, Bool.false_eq_true, if_false] at second
      exact absurd second.1 (not_lt.2 below)
    | false =>
      simp only [closed, Bool.false_eq_true, if_false] at first
      exact absurd first.2 (not_lt.2 above)
  · linarith [lower_lt_lower (f := f) (Nat.succ_pos m) further]

theorem eq_of_holds (even : 2 ∣ twoTo f.fractionBits) {m n : Nat} {x : ℚ}
    (first : (Interval.around f m).Holds x) (second : (Interval.around f n).Holds x) : m = n := by
  rcases Nat.lt_trichotomy m n with less | same | more
  · exact absurd second (not_holds_of_lt even less first)
  · exact same
  · exact absurd first (not_holds_of_lt even more second)

/-- Seventeen digits are enough to find a decimal in the interval of a magnitude. -/
theorem holds_shortest (fits : 4 * twoTo f.fractionBits ≤ 10 ^ 17) (tie : Tie) {m : Nat}
    (positive : 0 < m) : (Interval.around f m).Holds (shortest f tie m).value := by
  have den := den_around_pos f m
  have mid : 0 < (Interval.around f m).mid := by
    have significand := significand_pos (f := f) positive
    simp [Interval.around, twoTo, significand]
  have reached := zpow_leadingExponent_le mid den
  let e := leadingExponent (Interval.around f m).mid (Interval.around f m).den
  -- A grid of seventeen digits is finer than the upper half of the interval.
  have wide : (Interval.around f m).middle + 10 ^ (e - (17 : Nat)) ≤
      (Interval.around f m).upper := by
    have small : (f.significand m : ℚ) ≤ 2 * twoTo f.fractionBits := by
      exact_mod_cast (significand_lt f m).le
    have enough : (4 : ℚ) * twoTo f.fractionBits ≤ 10 ^ 17 := by exact_mod_cast fits
    have fine : (10 : ℚ) ^ (e - (17 : Nat)) ≤ unit f m / 2 := by
      rw [zpow_sub₀ (by norm_num), zpow_natCast, div_le_iff₀ (by positivity)]
      calc (10 : ℚ) ^ e
        _ ≤ f.significand m * unit f m := middle_around f m ▸ reached
        _ ≤ 2 * twoTo f.fractionBits * unit f m := by
          gcongr
          exact (unit_pos f m).le
        _ = unit f m / 2 * (4 * twoTo f.fractionBits) := by ring
        _ ≤ unit f m / 2 * 10 ^ 17 := by
          gcongr
          linarith [unit_pos f m]
    rw [middle_around, upper_around]
    linarith
  have found := Interval.holds_firstGrid den tie (lower_lt_middle positive) 17 e wide
  unfold shortest
  rw [if_neg (by omega)]
  simp only
  rwa [value_trim]

theorem value_shortest_zero (f : BinaryFormat) (tie : Tie) : (shortest f tie 0).value = 0 := by
  simp [shortest, value]

/-- Magnitudes with one shortest decimal are the same. -/
theorem shortest_injective (even : 2 ∣ twoTo f.fractionBits)
    (fits : 4 * twoTo f.fractionBits ≤ 10 ^ 17) (tie : Tie) {m n : Nat}
    (same : (shortest f tie m).value = (shortest f tie n).value) : m = n := by
  have nonzero {k : Nat} (positive : 0 < k) : (shortest f tie k).value ≠ 0 :=
    ((lower_pos positive).trans_le (holds_shortest fits tie positive).between.1).ne'
  rcases Nat.eq_zero_or_pos m with rfl | first <;> rcases Nat.eq_zero_or_pos n with rfl | second
  · rfl
  · rw [value_shortest_zero] at same
    exact absurd same.symm (nonzero second)
  · rw [value_shortest_zero] at same
    exact absurd same (nonzero first)
  · have holds := holds_shortest fits tie first
    rw [same] at holds
    exact eq_of_holds even holds (holds_shortest fits tie second)

end

end Decimal
end TypedRecords
