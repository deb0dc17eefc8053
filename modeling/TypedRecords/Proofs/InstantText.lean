import Mathlib.Tactic.IntervalCases
import TypedRecords.Proofs.Decimal.Text
import TypedRecords.Proofs.Instant

/-! Instants and their texts.
The calendar is undone from the outside to the inside: eras of four hundred years, centuries,
spans of four years, years, and months, all counted from a March. What an instant of whole
milliseconds is written as names its date and its time of day, so it is read back. -/
namespace TypedRecords.Instant

/-! The calendar. -/

/-- Day `r` of the century `b` of an era lies in the year `u` of that century, before which there
are `p` leap days; `t` stands for them where the year is computed. -/
theorem century_spec {b r t u p : Int} (century : 0 ≤ b ∧ b ≤ 3) (day : 0 ≤ r ∧ r < 36524)
    (spans : 1460 * t ≤ 24 * b + r ∧ 24 * b + r < 1460 * t + 1460)
    (years : 365 * u ≤ r - t ∧ r - t < 365 * u + 365) (leaps : 4 * p ≤ u ∧ u < 4 * p + 4) :
    0 ≤ u ∧ u < 100 ∧ 365 * u + p ≤ r ∧ r ≤ 365 * u + p + 365 ∧
      (r = 365 * u + p + 365 → u = 4 * p + 3 ∧ u ≠ 99) := by
  refine ⟨by omega, by omega, ?_, ?_, fun last => ⟨?_, ?_⟩⟩
  all_goals omega

/-- The days of an era, as years of March to February and days within them. -/
theorem yearOfEra_spec {dayOfEra yearOfEra dayOfYear : Int}
    (inside : 0 ≤ dayOfEra ∧ dayOfEra < 146097)
    (year : yearOfEra =
      (dayOfEra - dayOfEra / 1460 + dayOfEra / 36524 - dayOfEra / 146096) / 365)
    (day : dayOfYear = dayOfEra - (365 * yearOfEra + yearOfEra / 4 - yearOfEra / 100)) :
    0 ≤ yearOfEra ∧ yearOfEra < 400 ∧ 0 ≤ dayOfYear ∧ dayOfYear ≤ 365 ∧
      (dayOfYear = 365 → (yearOfEra + 1) % 4 = 0 ∧
        ((yearOfEra + 1) % 100 ≠ 0 ∨ (yearOfEra + 1) % 400 = 0)) := by
  by_cases last : dayOfEra = 146096
  · subst last
    have one : yearOfEra = 399 := by omega
    subst one
    omega
  · let b := dayOfEra / 36524
    let r := dayOfEra % 36524
    let t := (24 * b + r) / 1460
    let u := (r - t) / 365
    have century : 0 ≤ b ∧ b ≤ 3 := by omega
    have within : 0 ≤ r ∧ r < 36524 := by omega
    have split : yearOfEra = 100 * b + u := by omega
    have spans : 1460 * t ≤ 24 * b + r ∧ 24 * b + r < 1460 * t + 1460 := by omega
    have years : 365 * u ≤ r - t ∧ r - t < 365 * u + 365 := by omega
    obtain ⟨least, most, before, after, full⟩ :=
      century_spec century within spans years (p := u / 4) (by omega)
    have quarter : yearOfEra / 4 = 25 * b + u / 4 := by omega
    have hundred : yearOfEra / 100 = b := by omega
    have rest : dayOfYear = r - (365 * u + u / 4) := by omega
    refine ⟨by omega, by omega, by omega, by omega, fun leap => ?_⟩
    obtain ⟨fourth, other⟩ := full (by omega)
    exact ⟨by omega, .inl (by omega)⟩

def Date.ofYearDay (year day : Int) : Date :=
  let monthFromMarch := (5 * day + 2) / 153
  let month := if monthFromMarch < 10 then monthFromMarch + 3 else monthFromMarch - 9
  ⟨if month ≤ 2 then year + 1 else year, month.toNat,
    (day - (153 * monthFromMarch + 2) / 5 + 1).toNat⟩

theorem Date.ofYearDay_spec {year day : Int} (inside : 0 ≤ day ∧ day ≤ 365)
    (leap : day = 365 → isLeapYear (year + 1) = true) :
    let d := ofYearDay year day
    d.days = year / 400 * 146097 +
        (year % 400 * 365 + year % 400 / 4 - year % 400 / 100 + day) - 719468 ∧
      1 ≤ d.month ∧ d.month ≤ 12 ∧ 1 ≤ d.day ∧ d.day ≤ daysInMonth d.year d.month := by
  obtain ⟨m, hm⟩ : ∃ m, m = (5 * day + 2) / 153 := ⟨_, rfl⟩
  have months : 0 ≤ m ∧ m ≤ 11 := by omega
  have start : (153 * m + 2) / 5 ≤ day := by omega
  simp only [ofYearDay, ← hm]
  refine ⟨?_, ?_, ?_, by omega, ?_⟩
  · simp only [Date.days]
    by_cases later : m < 10
    · rw [if_pos later, if_neg (show ¬ m + 3 ≤ 2 by omega), if_neg (by omega)]
      omega
    · rw [if_neg later, if_pos (show m - 9 ≤ 2 by omega), if_pos (by omega)]
      omega
  · split <;> omega
  · split <;> omega
  · -- Only the last month of the year depends on it.
    obtain ⟨first, last⟩ := months
    by_cases leapDay : day = 365
    · have february : m = 11 := by omega
      simp [daysInMonth, february, leapDay, leap leapDay]
    · interval_cases m <;> simp [daysInMonth] <;> omega

theorem Date.ofDays_spec (n : Int) :
    (ofDays n).days = n ∧ 1 ≤ (ofDays n).month ∧ (ofDays n).month ≤ 12 ∧ 1 ≤ (ofDays n).day ∧
      (ofDays n).day ≤ daysInMonth (ofDays n).year (ofDays n).month := by
  obtain ⟨dayOfEra, hd⟩ : ∃ d, d = (n + 719468) % 146097 := ⟨_, rfl⟩
  obtain ⟨yearOfEra, hy⟩ : ∃ y,
    y = (dayOfEra - dayOfEra / 1460 + dayOfEra / 36524 - dayOfEra / 146096) / 365 := ⟨_, rfl⟩
  obtain ⟨dayOfYear, hday⟩ : ∃ d,
    d = dayOfEra - (365 * yearOfEra + yearOfEra / 4 - yearOfEra / 100) := ⟨_, rfl⟩
  have whole : ofDays n = ofYearDay (yearOfEra + (n + 719468) / 146097 * 400) dayOfYear := by
    subst hday hy hd
    rfl
  obtain ⟨least, most, first, last, leap⟩ := yearOfEra_spec (by omega) hy hday
  have leapYear : dayOfYear = 365 →
      isLeapYear (yearOfEra + (n + 719468) / 146097 * 400 + 1) = true := by
    intro full
    obtain ⟨fourth, other⟩ := leap full
    simp only [isLeapYear, Bool.and_eq_true, Bool.or_eq_true, beq_iff_eq, bne_iff_ne]
    omega
  obtain ⟨same, rest⟩ := ofYearDay_spec ⟨first, last⟩ leapYear
  rw [whole]
  have era : (yearOfEra + (n + 719468) / 146097 * 400) / 400 = (n + 719468) / 146097 := by omega
  have within : (yearOfEra + (n + 719468) / 146097 * 400) % 400 = yearOfEra := by omega
  rw [era, within] at same
  exact ⟨same.trans (by omega), rest⟩

/-! Reading what was written. -/

theorem padded_spec (width : Nat) {n : Nat} (wide : 0 < width) (small : n < 10 ^ width) :
    (Text.padded width n).toList.length = width ∧
      (Text.padded width n).toList.all Char.isDigit = true ∧
      Text.decimalValue (Text.padded width n).toList = n := by
  have few : (Nat.toDigits 10 n).length ≤ width :=
    (Nat.length_toDigits_le_iff (by decide) wide).2 small
  have chars : (Text.padded width n).toList =
      List.replicate (width - (Nat.toDigits 10 n).length) '0' ++ Nat.toDigits 10 n := by
    have written : (toString n).toList = Nat.toDigits 10 n := Nat.toList_repr
    rw [Text.padded, String.toList_append, String.toList_ofList, written, ← String.length_toList,
      written]
  rw [chars]
  refine ⟨?_, ?_, ?_⟩
  · simp [few]
  · rw [List.all_append, Bool.and_eq_true, List.all_eq_true, List.all_eq_true]
    refine ⟨fun c hc => ?_, fun c hc => Text.isDigit_of_mem_toDigits hc⟩
    rw [List.eq_of_mem_replicate hc]
    rfl
  · rw [Text.decimalValue_zeros_append, Text.decimalValue_toDigits]

theorem readDigits_padded (width : Nat) {n : Nat} (wide : 0 < width) (small : n < 10 ^ width)
    (rest : List Char) :
    readDigits width ((Text.padded width n).toList ++ rest) = some (n, rest) := by
  obtain ⟨count, digits, value⟩ := padded_spec width wide small
  simp only [readDigits, List.take_left' count, List.drop_left' count]
  rw [if_pos (by simp [count, digits]), value]

theorem readFraction_padded {milli : Nat} (small : milli < 1000) :
    readFraction ('.' :: ((Text.padded 3 milli).toList ++ ['Z'])) =
      some (milli * 1000000, ['Z']) := by
  obtain ⟨count, digits, value⟩ := padded_spec 3 (by decide) small
  have taken : ((Text.padded 3 milli).toList ++ ['Z']).span Char.isDigit =
      ((Text.padded 3 milli).toList, ['Z']) := by
    have all := List.all_eq_true.1 digits
    rw [List.span_eq_takeWhile_dropWhile, List.takeWhile_append_of_pos all,
      List.dropWhile_append_of_pos all]
    simp [show Char.isDigit 'Z' = false from rfl]
  have kept : (Text.padded 3 milli).toList.take 9 = (Text.padded 3 milli).toList :=
    List.take_of_length_le (by omega)
  have some_ : (Text.padded 3 milli).toList.isEmpty = false := by
    rw [List.isEmpty_eq_false_iff, ← List.length_pos_iff, count]
    decide
  simp only [readFraction, taken, some_, kept, count, value]
  rfl

theorem expect_cons (c : Char) (rest : List Char) : expect c (c :: rest) = some rest := by
  simp [expect]

theorem daysInMonth_le (year : Int) (month : Nat) : daysInMonth year month ≤ 31 := by
  unfold daysInMonth
  split
  · split <;> omega
  · split <;> omega

def stamp (date : Date) (hour minute second milli : Nat) : List Char :=
  (Text.padded 4 date.year.toNat).toList ++ '-' ::
    ((Text.padded 2 date.month).toList ++ '-' :: ((Text.padded 2 date.day).toList ++ 'T' ::
    ((Text.padded 2 hour).toList ++ ':' :: ((Text.padded 2 minute).toList ++ ':' ::
    ((Text.padded 2 second).toList ++ '.' :: ((Text.padded 3 milli).toList ++ ['Z']))))))

theorem ofText?_of_stamp {s : String} {date : Date} {hour minute second milli : Nat}
    (year : 0 ≤ date.year ∧ date.year ≤ 9999) (month : 1 ≤ date.month ∧ date.month ≤ 12)
    (day : 1 ≤ date.day ∧ date.day ≤ daysInMonth date.year date.month)
    (clock : hour ≤ 23 ∧ minute ≤ 59 ∧ second ≤ 59) (fine : milli < 1000)
    (chars : s.toList = stamp date hour minute second milli) :
    ofText? s = some ⟨date.days * 86400 + (hour * 3600 + minute * 60 + second : Nat),
      milli * 1000000⟩ := by
  obtain ⟨y, m, d⟩ := date
  obtain ⟨first, last⟩ := year
  simp only at first last month day
  lift y to Nat using first
  obtain ⟨hours, minutes, seconds⟩ := clock
  have days := daysInMonth_le y m
  have two (n : Nat) (few : n < 100) (rest : List Char) :
      readDigits 2 ((Text.padded 2 n).toList ++ rest) = some (n, rest) :=
    readDigits_padded 2 (by decide) few rest
  simp only [stamp, Int.toNat_natCast] at chars
  unfold ofText?
  rw [chars]
  refine Option.bind_eq_some_iff.2 ⟨_, readDigits_padded 4 (by decide) (by omega) _, ?_⟩
  refine Option.bind_eq_some_iff.2 ⟨_, expect_cons '-' _, ?_⟩
  refine Option.bind_eq_some_iff.2 ⟨_, two m (by omega) _, ?_⟩
  refine Option.bind_eq_some_iff.2 ⟨_, expect_cons '-' _, ?_⟩
  refine Option.bind_eq_some_iff.2 ⟨_, two d (by omega) _, ?_⟩
  refine Option.bind_eq_some_iff.2 ⟨_, show readSeparator ('T' :: _) = some _ from rfl, ?_⟩
  refine Option.bind_eq_some_iff.2 ⟨_, two hour (by omega) _, ?_⟩
  refine Option.bind_eq_some_iff.2 ⟨_, expect_cons ':' _, ?_⟩
  refine Option.bind_eq_some_iff.2 ⟨_, two minute (by omega) _, ?_⟩
  refine Option.bind_eq_some_iff.2 ⟨_, expect_cons ':' _, ?_⟩
  refine Option.bind_eq_some_iff.2 ⟨_, two second (by omega) _, ?_⟩
  refine Option.bind_eq_some_iff.2 ⟨_, readFraction_padded fine, ?_⟩
  refine Option.bind_eq_some_iff.2 ⟨_, show readOffset ['Z'] = some (0, []) from rfl, ?_⟩
  have known : (1 ≤ m && m ≤ 12 && 1 ≤ d && d ≤ daysInMonth y m && hour ≤ 23 && minute ≤ 59 &&
      second ≤ 60) = true := by
    simp only [Bool.and_eq_true, decide_eq_true_eq]
    omega
  have leap : ¬ second = 60 := by omega
  simp only [known, leap]
  simp

def year (t : Instant) : Int := (Date.ofDays (t.seconds / 86400)).year

/-- A whole number of milliseconds, outside of leap seconds, in a year of four digits. -/
structure Whole (t : Instant) : Prop where
  nanos : t.nanos < 1000000000
  millis : 1000000 ∣ t.nanos
  year : 0 ≤ t.year ∧ t.year ≤ 9999

theorem Whole.toList_text {t : Instant} (h : t.Whole) :
    let second := (t.seconds % 86400).toNat
    t.text.toList = stamp (Date.ofDays (t.seconds / 86400)) (second / 3600) (second / 60 % 60)
      (second % 60) (t.nanos / 1000000) := by
  obtain ⟨small, -, lower, upper⟩ := h
  have leap : ¬ 1000000000 ≤ t.nanos := by omega
  simp only [Instant.year] at lower upper
  simp [Instant.text, stamp, yearText, lower, upper, leap]

theorem Whole.ofText?_text {t : Instant} (h : t.Whole) : ofText? t.text = some t := by
  obtain ⟨back, first, last, start, stop⟩ := Date.ofDays_spec (t.seconds / 86400)
  have small := h.nanos
  have chars := h.toList_text
  obtain ⟨second, counted⟩ : ∃ s, s = (t.seconds % 86400).toNat := ⟨_, rfl⟩
  simp only [← counted] at chars
  have clock : second / 3600 ≤ 23 ∧ second / 60 % 60 ≤ 59 ∧ second % 60 ≤ 59 := by omega
  have seconds : t.seconds / 86400 * 86400 +
      (second / 3600 * 3600 + second / 60 % 60 * 60 + second % 60 : Nat) = t.seconds := by omega
  rw [ofText?_of_stamp h.year ⟨first, last⟩ ⟨start, stop⟩ clock (by omega) chars, back, seconds,
    Nat.div_mul_cancel h.millis]

end TypedRecords.Instant
