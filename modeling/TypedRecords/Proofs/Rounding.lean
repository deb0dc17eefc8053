import TypedRecords.Proofs.Decimal.Text

/-! Rounding keeps the numbers of a format.
A format counts a number in units of a power of two: by less than twice as many units as there are
fractions, and by fewer than there are fractions only in the least unit. There is one such count of
a number, and rounding finds it. What the smaller format counts is counted by the larger one in a
smaller unit, so it passes through the larger format unchanged. -/
namespace TypedRecords

namespace BinaryFormat

/-- A format counts `s` units of `2 ^ q`. -/
structure Counts (f : BinaryFormat) (s : Nat) (q : Int) : Prop where
  small : s < 2 * twoTo f.fractionBits
  above : f.leastExponent ≤ q
  full : q = f.leastExponent ∨ twoTo f.fractionBits ≤ s

def counted (f : BinaryFormat) (s : Nat) (q : Int) : Nat :=
  (q - f.leastExponent).toNat * twoTo f.fractionBits + s

theorem twoTo_pos (k : Nat) : 0 < twoTo k := Nat.pow_pos (by decide)

variable {f : BinaryFormat} {s : Nat} {q : Int}

theorem counts_parts (f : BinaryFormat) (m : Nat) :
    f.Counts (f.significand m) (f.exponent m) := by
  refine ⟨Decimal.significand_lt f m, ?_, ?_⟩
  · unfold exponent
    omega
  · unfold exponent significand
    split <;> omega

theorem counted_parts (f : BinaryFormat) (m : Nat) :
    f.counted (f.significand m) (f.exponent m) = m := by
  have whole : twoTo f.fractionBits * f.biased m + f.fraction m = m := Nat.div_add_mod _ _
  have steps : (f.exponent m - f.leastExponent).toNat = f.biased m - 1 := by
    unfold exponent
    omega
  rw [counted, steps, significand]
  split
  · rename_i least
    rw [least] at whole ⊢
    omega
  · rename_i normal
    obtain ⟨k, more⟩ := Nat.exists_eq_succ_of_ne_zero normal
    rw [more, Nat.succ_sub_one]
    rw [more, Nat.mul_succ, Nat.mul_comm] at whole
    omega

theorem Counts.parts (h : f.Counts s q) :
    f.significand (f.counted s q) = s ∧ f.exponent (f.counted s q) = q := by
  obtain ⟨small, above, full⟩ := h
  have scale := twoTo_pos f.fractionBits
  by_cases few : s < twoTo f.fractionBits
  · have least : q = f.leastExponent := full.resolve_right (by omega)
    obtain ⟨biased, fraction⟩ : f.biased s = 0 ∧ f.fraction s = s :=
      (Nat.div_mod_unique scale).2 ⟨by omega, few⟩
    simp [counted, significand, exponent, least, biased, fraction]
  · have whole : f.counted s q = s - twoTo f.fractionBits +
        twoTo f.fractionBits * ((q - f.leastExponent).toNat + 1) := by
      rw [counted, Nat.mul_succ, Nat.mul_comm]
      omega
    obtain ⟨biased, fraction⟩ : f.biased (f.counted s q) = (q - f.leastExponent).toNat + 1 ∧
        f.fraction (f.counted s q) = s - twoTo f.fractionBits :=
      (Nat.div_mod_unique scale).2 ⟨whole.symm, by omega⟩
    constructor
    · rw [significand, biased, fraction, if_neg (by omega)]
      omega
    · rw [exponent, biased]
      omega

def value (f : BinaryFormat) (m : Nat) : ℚ := f.significand m * 2 ^ f.exponent m

theorem Counts.value (h : f.Counts s q) : f.value (f.counted s q) = s * 2 ^ q := by
  rw [BinaryFormat.value, h.parts.1, h.parts.2]

theorem ratio_div (f : BinaryFormat) (m : Nat) :
    ((f.ratio m).1 / (f.ratio m).2 : ℚ) = f.value m := by
  have scale : (2 : ℚ) ^ (-f.exponent m).toNat ≠ 0 := by positivity
  simp only [ratio, ratioOf, value, zpow_eq_div]
  push_cast [cast_twoTo]
  field_simp

theorem ratio_pos (f : BinaryFormat) (m : Nat) : 0 < (f.ratio m).2 := twoTo_pos _

/-! Rounding. -/

section

variable {num den : Nat} (nonzero : 0 < den)
include nonzero

theorem scaled_le_iff (e : Int) : den * twoTo e.toNat ≤ num * twoTo (-e).toNat ↔
    (2 : ℚ) ^ e ≤ num / den := by
  have den_pos : (0 : ℚ) < den := by exact_mod_cast nonzero
  have scale_pos : (0 : ℚ) < 2 ^ (-e).toNat := by positivity
  rw [← Nat.cast_le (α := ℚ), zpow_eq_div, le_div_iff₀ den_pos, div_mul_eq_mul_div,
    div_le_iff₀ scale_pos, mul_comm (2 ^ e.toNat : ℚ)]
  push_cast [cast_twoTo]
  rfl

theorem binaryExponent_spec (positive : 0 < num) :
    (2 : ℚ) ^ binaryExponent num den ≤ num / den ∧
      (num / den : ℚ) < 2 ^ (binaryExponent num den + 1) := by
  have den_pos : (0 : ℚ) < den := by exact_mod_cast nonzero
  have num_least : (2 : ℚ) ^ (num.log2 : Int) ≤ num := by
    exact_mod_cast Nat.log2_self_le positive.ne'
  have num_most : (num : ℚ) < 2 ^ ((num.log2 : Int) + 1) := by
    exact_mod_cast Nat.lt_log2_self
  have den_least : (2 : ℚ) ^ (den.log2 : Int) ≤ den := by
    exact_mod_cast Nat.log2_self_le nonzero.ne'
  have den_most : (den : ℚ) < 2 ^ ((den.log2 : Int) + 1) := by
    exact_mod_cast Nat.lt_log2_self
  -- The lengths leave two candidates for the exponent, and the test picks the right one.
  unfold binaryExponent
  simp only
  split
  · rename_i reached
    refine ⟨(scaled_le_iff nonzero _).1 reached, ?_⟩
    rw [div_lt_iff₀ den_pos]
    calc (num : ℚ)
      _ < 2 ^ ((num.log2 : Int) + 1) := num_most
      _ = 2 ^ ((num.log2 : Int) - den.log2 + 1) * 2 ^ (den.log2 : Int) := by
        rw [← zpow_add₀ (by norm_num)]
        congr 1
        ring
      _ ≤ 2 ^ ((num.log2 : Int) - den.log2 + 1) * den := by gcongr
  · rename_i missed
    rw [scaled_le_iff nonzero, not_le] at missed
    refine ⟨?_, by rwa [sub_add_cancel]⟩
    rw [le_div_iff₀ den_pos]
    calc (2 : ℚ) ^ ((num.log2 : Int) - den.log2 - 1) * den
      _ ≤ 2 ^ ((num.log2 : Int) - den.log2 - 1) * 2 ^ ((den.log2 : Int) + 1) := by gcongr
      _ = 2 ^ (num.log2 : Int) := by
        rw [← zpow_add₀ (by norm_num)]
        congr 1
        ring
      _ ≤ num := num_least

/-- The unit in which a number is rounded is that of its count. -/
theorem Counts.max_eq (h : f.Counts s q) (positive : 0 < num)
    (same : (num / den : ℚ) = s * 2 ^ q) :
    max (binaryExponent num den - f.fractionBits) f.leastExponent = q := by
  obtain ⟨small, above, full⟩ := h
  obtain ⟨lower, upper⟩ := binaryExponent_spec nonzero positive
  rw [same] at lower upper
  have unit_pos : (0 : ℚ) < 2 ^ q := by positivity
  have small' : (s : ℚ) < 2 ^ ((f.fractionBits : Int) + 1) := by
    rw [zpow_add_one₀ (by norm_num), mul_comm, zpow_natCast, ← cast_twoTo]
    exact_mod_cast small
  have most : binaryExponent num den < f.fractionBits + 1 + q := by
    refine (zpow_lt_zpow_iff_right₀ (by norm_num : (1 : ℚ) < 2)).1 (lower.trans_lt ?_)
    rw [zpow_add₀ (by norm_num)]
    gcongr
  rcases full with least | full
  · rw [max_eq_right (by omega), least]
  · have full' : (2 : ℚ) ^ (f.fractionBits : Int) ≤ s := by
      rw [zpow_natCast, ← cast_twoTo]
      exact_mod_cast full
    have fewest : f.fractionBits + q < binaryExponent num den + 1 := by
      refine (zpow_lt_zpow_iff_right₀ (by norm_num : (1 : ℚ) < 2)).1 (lt_of_le_of_lt ?_ upper)
      rw [zpow_add₀ (by norm_num)]
      gcongr
    rw [max_eq_left (by omega)]
    omega

theorem roundDiv_mul (n : Nat) : roundDiv (n * den) den = n := by
  simp [roundDiv, Nat.mul_div_cancel _ nonzero, nonzero]

/-- What a format counts is rounded to its count. -/
theorem Counts.round (h : f.Counts s q) (same : (num / den : ℚ) = s * 2 ^ q) :
    f.round num den = min (f.counted s q) f.infinity := by
  have den_pos : (0 : ℚ) < den := by exact_mod_cast nonzero
  have unit_pos : (0 : ℚ) < 2 ^ q := by positivity
  rcases Nat.eq_zero_or_pos num with zero | positive
  · have none : s = 0 := by
      subst zero
      simpa [unit_pos.ne'] using same.symm
    have least : q = f.leastExponent :=
      h.full.resolve_right (by have := twoTo_pos f.fractionBits; omega)
    simp [BinaryFormat.round, zero, counted, none, least]
  · have scale_pos : (0 : ℚ) < 2 ^ (-q).toNat := by positivity
    have whole : num * twoTo (-q).toNat = s * (den * twoTo q.toNat) := by
      rw [zpow_eq_div, ← mul_div_assoc, div_eq_div_iff den_pos.ne' scale_pos.ne'] at same
      have exact_ : (num : ℚ) * twoTo (-q).toNat = s * (den * twoTo q.toNat) := by
        rw [cast_twoTo, cast_twoTo]
        linarith
      exact_mod_cast exact_
    simp only [BinaryFormat.round, if_neg positive.ne', h.max_eq nonzero positive same, whole,
      roundDiv_mul (Nat.mul_pos nonzero (twoTo_pos _)), counted]

end

/-- A magnitude that is not infinite comes back from its number. -/
theorem round_of_value {num den m : Nat} (nonzero : 0 < den) (finite : m < f.infinity)
    (same : (num / den : ℚ) = f.value m) : f.round num den = m := by
  rw [(counts_parts f m).round nonzero same, counted_parts]
  exact Nat.min_eq_left finite.le

/-! The larger format has the numbers of the smaller one. -/

theorem exists_counts {s : Nat} {q : Int} (positive : 0 < s)
    (small : s < 2 * twoTo f.fractionBits) (room : f.leastExponent + f.fractionBits ≤ q) :
    ∃ s' q', f.Counts s' q' ∧ q' ≤ q ∧ (s' * 2 ^ q' : ℚ) = s * 2 ^ q := by
  have least := Nat.log2_self_le positive.ne'
  have most : s < 2 ^ (s.log2 + 1) := Nat.lt_log2_self
  have within : s.log2 ≤ f.fractionBits := by
    have bound : s < 2 ^ (f.fractionBits + 1) := by
      rw [Nat.pow_succ, Nat.mul_comm]
      exact small
    exact Nat.lt_succ_iff.1 ((Nat.log2_lt positive.ne').2 bound)
  -- Shifting by `k` fills the fraction; `room` keeps the exponent in range.
  let k := f.fractionBits - s.log2
  have reach : twoTo f.fractionBits = 2 ^ s.log2 * 2 ^ k := by
    rw [← Nat.pow_add, twoTo, Nat.pow_eq]
    congr 1
    omega
  refine ⟨s * 2 ^ k, q - k, ⟨?_, by omega, .inr ?_⟩, by omega, ?_⟩
  · calc s * 2 ^ k
      _ < 2 ^ (s.log2 + 1) * 2 ^ k := Nat.mul_lt_mul_of_pos_right most (Nat.two_pow_pos k)
      _ = 2 * twoTo f.fractionBits := by rw [reach, Nat.pow_succ]; ring
  · rw [reach]
    exact Nat.mul_le_mul_right _ least
  · push_cast
    rw [mul_assoc, ← zpow_natCast, ← zpow_add₀ (by norm_num)]
    congr 2
    ring

theorem exists_binary64 {m : Nat} (finite : m < binary32.infinity) :
    ∃ n, n < binary64.infinity ∧ binary64.value n = binary32.value m := by
  rcases Nat.eq_zero_or_pos m with rfl | positive
  · exact ⟨0, by decide, by simp [value, significand, biased, fraction]⟩
  · have counts := counts_parts binary32 m
    have small : binary32.significand m < 2 * twoTo binary64.fractionBits :=
      counts.small.trans (by decide)
    have least : binary64.leastExponent + binary64.fractionBits ≤ binary32.leastExponent := by
      decide
    obtain ⟨s, q, counts', lower, same⟩ := exists_counts (Decimal.significand_pos positive) small
      (least.trans counts.above)
    have few : binary32.biased m < 255 := Nat.div_lt_of_lt_mul finite
    have most : binary32.exponent m ≤ 104 := by
      have scale : binary32.leastExponent = -149 := rfl
      unfold exponent
      omega
    refine ⟨binary64.counted s q, ?_, counts'.value.trans same⟩
    have bound := counts'.small
    have scale : binary64.leastExponent = -1074 := rfl
    have fractions : twoTo binary64.fractionBits = 4503599627370496 := rfl
    have end_ : binary64.infinity = 2047 * 4503599627370496 := rfl
    rw [counted, end_, fractions, scale]
    rw [fractions] at bound
    omega

end BinaryFormat

open BinaryFormat

/-! Parts of patterns. -/

namespace Binary64

theorem parts_ofParts (negative : Bool) {m : Nat} (small : m < binary64.signBit) :
    (ofParts negative m).isNegative = negative ∧ (ofParts negative m).magnitude = m := by
  have scale : binary64.signBit = 9223372036854775808 := rfl
  have whole : (ofParts negative m).bits.toNat = binary64.pack negative m := by
    refine UInt64.toNat_ofNat_of_lt' ?_
    have size : UInt64.size = 18446744073709551616 := rfl
    unfold pack
    split <;> omega
  rw [isNegative, magnitude, whole]
  cases negative with
  | false =>
    simp only [pack, Bool.false_eq_true, if_false, decide_eq_false_iff_not, scale] at small ⊢
    omega
  | true =>
    simp only [pack, if_true, decide_eq_true_eq, scale] at small ⊢
    omega

theorem not_isNaN {x : Binary64} (finite : x.isFinite = true) : x.isNaN = false := by
  simp only [isFinite, isNaN, decide_eq_true_eq, decide_eq_false_iff_not] at finite ⊢
  omega

end Binary64

namespace Binary32

theorem ofParts_parts (x : Binary32) : ofParts x.isNegative x.magnitude = x := by
  have scale : binary32.signBit = 2147483648 := rfl
  obtain ⟨bits⟩ := x
  have bound := bits.toNat_lt
  have whole : binary32.pack (isNegative ⟨bits⟩) (magnitude ⟨bits⟩) = bits.toNat := by
    unfold pack isNegative magnitude
    split
    · simp_all
      omega
    · simp_all
  rw [ofParts, whole, UInt32.ofNat_toNat]

variable {x : Binary32} (finite : x.isFinite = true)
include finite

theorem not_isNaN : x.isNaN = false := by
  simp only [isFinite, isNaN, decide_eq_true_eq, decide_eq_false_iff_not] at finite ⊢
  omega

theorem toBinary64_parts : x.toBinary64.isFinite = true ∧
    x.toBinary64.isNegative = x.isNegative ∧
      binary64.value x.toBinary64.magnitude = binary32.value x.magnitude := by
  have within : x.magnitude < binary32.infinity := by simpa [isFinite] using finite
  obtain ⟨n, finite', same⟩ := exists_binary64 within
  have bits : x.toBinary64Bits = n := by
    rw [toBinary64Bits, if_neg (by simp [not_isNaN finite]), if_pos finite]
    exact round_of_value (ratio_pos _ _) finite' ((ratio_div _ _).trans same.symm)
  have small : n < binary64.signBit := finite'.trans (by decide)
  obtain ⟨sign, magnitude⟩ := Binary64.parts_ofParts x.isNegative small
  have whole : x.toBinary64 = .ofParts x.isNegative n := by rw [toBinary64, bits, Binary64.ofParts]
  rw [whole, Binary64.isFinite, sign, magnitude]
  exact ⟨by simpa using finite', rfl, same⟩

theorem isFinite_toBinary64 : x.toBinary64.isFinite = true := (toBinary64_parts finite).1

theorem toBinary32_toBinary64 : x.toBinary64.toBinary32 = x := by
  have within : x.magnitude < binary32.infinity := by simpa [isFinite] using finite
  obtain ⟨finite', sign, same⟩ := toBinary64_parts finite
  have bits : x.toBinary64.toBinary32Bits = x.magnitude := by
    rw [Binary64.toBinary32Bits, if_neg (by simp [Binary64.not_isNaN finite']), if_pos finite']
    exact round_of_value (ratio_pos _ _) within ((ratio_div _ _).trans same)
  rw [Binary64.toBinary32, bits, sign]
  exact ofParts_parts x

end Binary32
end TypedRecords
