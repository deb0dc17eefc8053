import Mathlib.Data.List.TakeWhile
import TypedRecords.Decimal.Text
import TypedRecords.Proofs.Decimal.Shortest
import TypedRecords.Text.Digits

/-! Written decimals can be read back.
However a decimal is laid out, its digits, its point and its power of ten say what it stands for.
So a floating point number is told by its text. -/
namespace TypedRecords

namespace Text

theorem decimalValue_eq (digits : List Char) : decimalValue digits = Nat.ofDigitChars 10 digits 0 :=
  rfl

theorem decimalValue_toDigits (n : Nat) : decimalValue (Nat.toDigits 10 n) = n := by
  rw [decimalValue_eq, Nat.ofDigitChars_ten_toDigits]

theorem decimalValue_zeros_append (k : Nat) (digits : List Char) :
    decimalValue (List.replicate k '0' ++ digits) = decimalValue digits := by
  simp [decimalValue_eq, Nat.ofDigitChars_append, Nat.ofDigitChars_replicate_zero]

theorem decimalValue_append_zeros (digits : List Char) (k : Nat) :
    decimalValue (digits ++ List.replicate k '0') = decimalValue digits * 10 ^ k := by
  simp [decimalValue_eq, Nat.ofDigitChars_append, Nat.ofDigitChars_replicate_zero, Nat.mul_comm]

theorem isDigit_of_mem_toDigits {n : Nat} {c : Char} (h : c ∈ Nat.toDigits 10 n) :
    c.isDigit = true :=
  Nat.isDigit_of_mem_toDigits (by decide) (by decide) h

end Text

open Text

namespace Decimal

def AllDigits (cs : List Char) : Prop := ∀ c ∈ cs, c.isDigit = true

theorem allDigits_append {as bs : List Char} :
    AllDigits (as ++ bs) ↔ AllDigits as ∧ AllDigits bs := by
  simp only [AllDigits, List.mem_append, or_imp, forall_and]

theorem AllDigits.ne {cs : List Char} (h : AllDigits cs) {c d : Char} (mem : c ∈ cs)
    (other : d.isDigit = false) : c ≠ d := by
  rintro rfl
  rw [h c mem] at other
  cases other

def readPower : List Char → Int
  | '-' :: digits => -decimalValue digits
  | '+' :: digits => decimalValue digits
  | digits => decimalValue digits

def reading (cs : List Char) : ℚ :=
  let mantissa := cs.takeWhile (· != 'e')
  let power := (cs.dropWhile (· != 'e')).drop 1
  let whole := mantissa.takeWhile (· != '.')
  let fraction := (mantissa.dropWhile (· != '.')).drop 1
  decimalValue (whole ++ fraction) * 10 ^ (readPower power - fraction.length)

def pointed (fraction : List Char) : List Char :=
  if fraction.isEmpty then [] else '.' :: fraction

/-- The forms in which decimals are written, and what they stand for. -/
inductive Writes : List Char → ℚ → Prop
  | positional (whole fraction : List Char) (start : whole ≠ []) (digits : AllDigits whole)
      (more : AllDigits fraction) :
      Writes (whole ++ '.' :: fraction)
        (decimalValue (whole ++ fraction) * 10 ^ (-(fraction.length : Int)))
  | scientific (first : Char) (fraction power : List Char) (start : first.isDigit = true)
      (more : AllDigits fraction)
      (signed : ∀ c ∈ power, c.isDigit = true ∨ c = '-' ∨ c = '+') :
      Writes (first :: pointed fraction ++ 'e' :: power)
        (decimalValue (first :: fraction) * 10 ^ (readPower power - fraction.length))

section

variable {whole : List Char} (digits : AllDigits whole)
include digits

theorem takeWhile_whole (rest : List Char) :
    (whole ++ '.' :: rest).takeWhile (· != '.') = whole := by
  rw [List.takeWhile_append_of_pos fun c hc => bne_iff_ne.2 (digits.ne hc (by decide)),
    List.takeWhile_cons_of_neg (by simp), List.append_nil]

theorem dropWhile_whole (rest : List Char) :
    (whole ++ '.' :: rest).dropWhile (· != '.') = '.' :: rest := by
  rw [List.dropWhile_append_of_pos fun c hc => bne_iff_ne.2 (digits.ne hc (by decide)),
    List.dropWhile_cons_of_neg (by simp)]

end

theorem reading_of_writes {cs : List Char} {x : ℚ} (h : Writes cs x) : reading cs = x := by
  cases h with
  | positional whole fraction start digits more =>
    have unmarked : ∀ c ∈ whole ++ '.' :: fraction, (c != 'e') = true := by
      simp only [List.mem_append, List.mem_cons, bne_iff_ne]
      rintro c (mem | rfl | mem)
      · exact digits.ne mem (by decide)
      · decide
      · exact more.ne mem (by decide)
    have all : (whole ++ '.' :: fraction).takeWhile (· != 'e') = whole ++ '.' :: fraction :=
      List.takeWhile_eq_self_iff.2 unmarked
    have none_ : (whole ++ '.' :: fraction).dropWhile (· != 'e') = [] :=
      List.dropWhile_eq_nil_iff.2 unmarked
    have zero : readPower [] = 0 := rfl
    simp only [reading, all, none_, takeWhile_whole digits, dropWhile_whole digits]
    simp [zero]
  | scientific first fraction power start more signed =>
    have single : AllDigits [first] := by simpa [AllDigits] using start
    have unmarked : ∀ c ∈ first :: pointed fraction, (c != 'e') = true := by
      simp only [pointed, List.mem_cons, bne_iff_ne]
      rintro c (rfl | mem)
      · exact single.ne List.mem_cons_self (by decide)
      · split at mem
        · cases mem
        · rcases List.mem_cons.1 mem with rfl | mem
          · decide
          · exact more.ne mem (by decide)
    have mantissa : (first :: pointed fraction ++ 'e' :: power).takeWhile (· != 'e') =
        first :: pointed fraction := by
      rw [List.takeWhile_append_of_pos unmarked, List.takeWhile_cons_of_neg (by simp),
        List.append_nil]
    have rest : (first :: pointed fraction ++ 'e' :: power).dropWhile (· != 'e') =
        'e' :: power := by
      rw [List.dropWhile_append_of_pos unmarked, List.dropWhile_cons_of_neg (by simp)]
    simp only [reading, mantissa, rest]
    unfold pointed
    split
    · rename_i whole
      obtain rfl := List.isEmpty_iff.1 whole
      have other : (first != '.') = true := bne_iff_ne.2 (single.ne List.mem_cons_self (by decide))
      simp [List.takeWhile, List.dropWhile, other]
    · have taken := takeWhile_whole single fraction
      have dropped := dropWhile_whole single fraction
      simp only [List.singleton_append] at taken dropped
      simp [taken, dropped]

theorem allDigits_replicate (k : Nat) : AllDigits (List.replicate k '0') := by
  intro c mem
  rw [List.eq_of_mem_replicate mem]
  rfl

theorem toList_zeros (k : Nat) : (zeros k).toList = List.replicate k '0' := by
  simp [zeros]

theorem readPower_toString (exponent : Int) (plusSign : Bool) :
    readPower ((if plusSign && 0 ≤ exponent then "+" else "") ++ toString exponent).toList =
      exponent := by
  have digits (n : Nat) : readPower (Nat.toDigits 10 n) = n := by
    have value := decimalValue_toDigits n
    have plain : ∀ c ∈ Nat.toDigits 10 n, c.isDigit = true := fun c => isDigit_of_mem_toDigits
    unfold readPower
    split
    · rename_i same
      rw [same] at plain
      exact absurd (plain '-' List.mem_cons_self) (by decide)
    · rename_i same
      rw [same] at plain
      exact absurd (plain '+' List.mem_cons_self) (by decide)
    · exact congrArg Nat.cast value
  cases exponent with
  | ofNat n =>
    cases plusSign with
    | true =>
      simp [readPower, Int.toString_eq_repr, Int.repr, decimalValue_toDigits]
    | false => simp [Int.toString_eq_repr, Int.repr, digits]
  | negSucc n =>
    have negative : ¬ (0 : Int) ≤ Int.negSucc n := by simp
    simp [negative, readPower, Int.toString_eq_repr, Int.repr, decimalValue_toDigits]
    omega

theorem isDigit_or_sign_of_mem_power (exponent : Int) (plusSign : Bool) :
    ∀ c ∈ ((if plusSign && 0 ≤ exponent then "+" else "") ++ toString exponent).toList,
      c.isDigit = true ∨ c = '-' ∨ c = '+' := by
  intro c mem
  rw [String.toList_append, List.mem_append] at mem
  rcases mem with mem | mem
  · split at mem
    · exact .inr (.inr (List.mem_singleton.1 mem))
    · cases mem
  · cases exponent with
    | ofNat n =>
      simp only [Int.toString_eq_repr, Int.repr, Nat.toList_repr] at mem
      exact .inl (isDigit_of_mem_toDigits mem)
    | negSucc n =>
      simp only [Int.toString_eq_repr, Int.repr, String.toList_append, Nat.toList_repr,
        List.mem_append] at mem
      rcases mem with mem | mem
      · exact .inr (.inl (List.mem_singleton.1 mem))
      · exact .inl (isDigit_of_mem_toDigits mem)

section

variable {digits : String} (all : AllDigits digits.toList) (some_ : digits.toList ≠ [])
include all some_

theorem writes_positional (point : Int) :
    Writes (positional digits point).toList
      (decimalValue digits.toList * 10 ^ (point - digits.length)) := by
  have count : digits.toList.length = digits.length := String.length_toList
  unfold positional
  simp only
  -- The point stands before all the digits, after all of them, or among them.
  split
  · rename_i small
    have text := Writes.positional ['0'] (List.replicate (-point).toNat '0' ++ digits.toList)
      (by simp) (by simp [AllDigits]) (allDigits_append.2 ⟨allDigits_replicate _, all⟩)
    convert text using 1
    · simp [toList_zeros]
    · have value := decimalValue_zeros_append ((-point).toNat + 1) digits.toList
      rw [List.replicate_succ] at value
      rw [List.singleton_append, ← List.cons_append, value]
      congr 2
      simp only [List.length_append, List.length_replicate]
      omega
  · split
    · rename_i positive whole
      have text := Writes.positional
        (digits.toList ++ List.replicate (point - digits.length).toNat '0') ['0']
        (by simp [some_]) (allDigits_append.2 ⟨all, allDigits_replicate _⟩) (by simp [AllDigits])
      convert text using 1
      · simp [toList_zeros]
      · have value := decimalValue_append_zeros digits.toList
          ((point - digits.length).toNat + 1)
        rw [List.replicate_succ', ← List.append_assoc] at value
        rw [value]
        push_cast
        rw [mul_assoc, ← zpow_natCast, ← zpow_add₀ (by norm_num)]
        congr 2
        simp
        omega
    · rename_i positive part
      have text := Writes.positional (digits.toList.take point.toNat)
        (digits.toList.drop point.toNat)
        (by
          rw [ne_eq, List.take_eq_nil_iff]
          simp only [some_, or_false]
          omega)
        (fun c mem => all c (List.mem_of_mem_take mem))
        (fun c mem => all c (List.mem_of_mem_drop mem))
      convert text using 1
      · simp
      · rw [List.take_append_drop, List.length_drop]
        congr 2
        omega

theorem writes_scientific (exponent : Int) (plusSign : Bool) :
    Writes (scientific digits exponent plusSign).toList
      (decimalValue digits.toList * 10 ^ (exponent + 1 - digits.length)) := by
  let power := ((if plusSign && 0 ≤ exponent then "+" else "") ++ toString exponent).toList
  have read : readPower power = exponent := readPower_toString exponent plusSign
  have signed := isDigit_or_sign_of_mem_power exponent plusSign
  have count : digits.toList.length = digits.length := String.length_toList
  unfold scientific
  cases chars : digits.toList with
  | nil => exact absurd chars some_
  | cons first fraction =>
    rw [chars] at all count
    obtain ⟨start, more⟩ := List.forall_mem_cons.1 all
    have text := Writes.scientific first fraction power start more signed
    have exponents : exponent + 1 - digits.length = readPower power - fraction.length := by
      rw [read, ← count, List.length_cons]
      push_cast
      ring
    rw [exponents]
    convert text using 1
    cases fraction with
    | nil => simp [pointed, power]
    | cons d rest => simp [pointed, power]

end

theorem writes_magnitude (layout : Layout) (d : Decimal) :
    Writes (layout.magnitude d).toList d.value := by
  have chars : (toString d.digits).toList = Nat.toDigits 10 d.digits := by
    rw [Nat.toString_eq_repr, Nat.toList_repr]
  have all : AllDigits (toString d.digits).toList := by
    rw [chars]
    exact fun c => isDigit_of_mem_toDigits
  have some_ : (toString d.digits).toList ≠ [] := by
    rw [chars]
    exact Nat.toDigits_ne_nil
  have counted : decimalValue (toString d.digits).toList = d.digits := by
    rw [chars, decimalValue_toDigits]
  unfold Layout.magnitude
  simp only
  split
  · rename_i zero
    have text := Writes.positional ['0'] ['0'] (by simp) (by simp [AllDigits])
      (by simp [AllDigits])
    have nothing : d.value = 0 := by simp [value, beq_iff_eq.1 zero]
    rw [nothing]
    convert text using 1
    · simp
    · simp [decimalValue]
  · split
    · convert writes_positional all some_ (d.exponent + (toString d.digits).length - 1 + 1) using 1
      rw [counted, value]
      congr 2
      ring
    · convert writes_scientific all some_ (d.exponent + (toString d.digits).length - 1)
        layout.plusSign using 1
      rw [counted, value]
      congr 2
      ring

/-! What the texts of decimals have in common. -/

def isNumeric (c : Char) : Bool := c.isDigit || c == '.' || c == 'e' || c == '-' || c == '+'

theorem isNumeric_of_isDigit {c : Char} (h : c.isDigit = true) : isNumeric c = true := by
  simp [isNumeric, h]

theorem Writes.isNumeric {cs : List Char} {x : ℚ} (h : Writes cs x) :
    ∀ c ∈ cs, Decimal.isNumeric c = true := by
  cases h with
  | positional whole fraction start digits more =>
    simp only [List.mem_append, List.mem_cons]
    rintro c (mem | rfl | mem)
    · exact isNumeric_of_isDigit (digits c mem)
    · decide
    · exact isNumeric_of_isDigit (more c mem)
  | scientific first fraction power start more signed =>
    simp only [List.mem_append, List.mem_cons]
    rintro c ((rfl | mem) | rfl | mem)
    · exact isNumeric_of_isDigit start
    · unfold pointed at mem
      split at mem
      · cases mem
      · rcases List.mem_cons.1 mem with rfl | mem
        · decide
        · exact isNumeric_of_isDigit (more c mem)
    · decide
    · rcases signed c mem with digit | rfl | rfl
      · exact isNumeric_of_isDigit digit
      · decide
      · decide

/-- A decimal starts with a digit, and a point or a power tells it from a whole number. -/
theorem Writes.marked {cs : List Char} {x : ℚ} (h : Writes cs x) :
    (∃ first rest, cs = first :: rest ∧ first.isDigit = true) ∧ ('.' ∈ cs ∨ 'e' ∈ cs) := by
  cases h with
  | positional whole fraction start digits more =>
    obtain ⟨first, rest, rfl⟩ := List.exists_cons_of_ne_nil start
    exact ⟨⟨first, _, rfl, digits first List.mem_cons_self⟩, .inl (by simp)⟩
  | scientific first fraction power start more signed =>
    exact ⟨⟨first, _, rfl, start⟩, .inr (by simp)⟩

end Decimal

namespace Binary64

open Decimal BinaryFormat

theorem eq_of_parts {x y : Binary64} (sign : x.isNegative = y.isNegative)
    (magnitude : x.magnitude = y.magnitude) : x = y := by
  have scale : binary64.signBit = 9223372036854775808 := rfl
  obtain ⟨bits⟩ := x
  obtain ⟨bits'⟩ := y
  have one := bits.toNat_lt
  have other := bits'.toNat_lt
  simp only [isNegative, Binary64.magnitude, decide_eq_decide, scale] at sign magnitude
  have same : bits.toNat = bits'.toNat := by omega
  rw [UInt64.toNat_inj.1 same]

theorem magnitude_injective (layout : Layout) {m n : Nat}
    (same : layout.magnitude (shortest .binary64 layout.tie m) =
      layout.magnitude (shortest .binary64 layout.tie n)) : m = n := by
  have even : 2 ∣ twoTo binary64.fractionBits := by decide
  have fits : 4 * twoTo binary64.fractionBits ≤ 10 ^ 17 := by decide
  refine shortest_injective even fits layout.tie ?_
  rw [← reading_of_writes (writes_magnitude layout _), same,
    reading_of_writes (writes_magnitude layout _)]

/-- Numbers with one text are the same. -/
theorem text_injective (layout : Layout) {x y : Binary64}
    (same : layout.binary64 x = layout.binary64 y) : x = y := by
  have unsigned (m n : Nat) : (layout.magnitude (shortest .binary64 layout.tie m)).toList ≠
      '-' :: (layout.magnitude (shortest .binary64 layout.tie n)).toList := by
    obtain ⟨⟨first, rest, chars, digit⟩, -⟩ := (writes_magnitude layout
      (shortest .binary64 layout.tie m)).marked
    rw [chars]
    intro starts
    rw [(List.cons.inj starts).1] at digit
    cases digit
  have texts := congrArg String.toList same
  unfold Layout.binary64 at texts
  cases sign : x.isNegative <;> cases sign' : y.isNegative <;> simp [sign, sign'] at texts
  · exact eq_of_parts (sign.trans sign'.symm) (magnitude_injective layout (String.toList_inj.1 texts))
  · exact absurd texts (unsigned _ _)
  · exact absurd texts.symm (unsigned _ _)
  · exact eq_of_parts (sign.trans sign'.symm) (magnitude_injective layout (String.toList_inj.1 texts))

theorem isNumeric_of_mem_text {layout : Layout} {x : Binary64} {c : Char}
    (mem : c ∈ (layout.binary64 x).toList) : isNumeric c = true := by
  rw [Layout.binary64, String.toList_append, List.mem_append] at mem
  rcases mem with mem | mem
  · split at mem
    · rw [List.mem_singleton.1 mem]
      decide
    · cases mem
  · exact (writes_magnitude layout _).isNumeric c mem

theorem marked_text (layout : Layout) (x : Binary64) :
    '.' ∈ (layout.binary64 x).toList ∨ 'e' ∈ (layout.binary64 x).toList := by
  rw [Layout.binary64, String.toList_append, List.mem_append, List.mem_append]
  exact (writes_magnitude layout _).marked.2.imp .inr .inr

theorem start_text (layout : Layout) (x : Binary64) :
    ∃ c rest, (layout.binary64 x).toList = c :: rest ∧ (c.isDigit = true ∨ c = '-') := by
  obtain ⟨first, rest, chars, digit⟩ := (writes_magnitude layout
    (shortest .binary64 layout.tie x.magnitude)).marked.1
  rw [Layout.binary64, String.toList_append, chars]
  cases x.isNegative with
  | true => exact ⟨'-', first :: rest, by simp, .inr rfl⟩
  | false => exact ⟨first, rest, by simp, .inl digit⟩

end Binary64
end TypedRecords
