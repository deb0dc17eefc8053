import TypedRecords.Instant.Basic
import TypedRecords.Powers
import TypedRecords.Text.Digits

/-! The written form of instants.
An instant is written in universal time, to the millisecond. A reader also takes other
offsets and finer fractions. Second sixty is a leap second, in whatever minute it stands. -/
namespace TypedRecords.Instant

def yearText (year : Int) : String :=
  if 0 ≤ year && year ≤ 9999 then Text.padded 4 year.toNat
  else (if year < 0 then "-" else "+") ++ Text.padded 4 year.natAbs

/-- The instant cut to milliseconds, as in `2024-05-06T07:08:09.010Z`. -/
def text (t : Instant) : String :=
  let date := Date.ofDays (t.seconds / 86400)
  let second := (t.seconds % 86400).toNat
  let leap := 1000000000 ≤ t.nanos
  let milli := (if leap then t.nanos - 1000000000 else t.nanos) / 1000000
  yearText date.year ++ "-" ++ Text.padded 2 date.month ++ "-" ++ Text.padded 2 date.day
    ++ "T" ++ Text.padded 2 (second / 3600) ++ ":" ++ Text.padded 2 (second / 60 % 60)
    ++ ":" ++ Text.padded 2 (second % 60 + if leap then 1 else 0)
    ++ "." ++ Text.padded 3 milli ++ "Z"

def readDigits (count : Nat) (cs : List Char) : Option (Nat × List Char) :=
  let digits := cs.take count
  if digits.length = count && digits.all Char.isDigit then
    some (Text.decimalValue digits, cs.drop count)
  else none

def expect (c : Char) : List Char → Option (List Char)
  | d :: rest => if d == c then some rest else none
  | [] => none

/-- Nanoseconds after the point; digits after the ninth are cut. -/
def readFraction : List Char → Option (Nat × List Char)
  | '.' :: rest =>
    let (digits, rest) := rest.span Char.isDigit
    if digits.isEmpty then none
    else
      let kept := digits.take 9
      some (Text.decimalValue kept * tenTo (9 - kept.length), rest)
  | cs => some (0, cs)

def readOffset : List Char → Option (Int × List Char)
  | [] => none
  | c :: rest =>
    if c == 'Z' || c == 'z' then some (0, rest)
    else if c == '+' || c == '-' || c == '−' then do
      let (hours, rest) ← readDigits 2 rest
      let rest ← expect ':' rest
      let (minutes, rest) ← readDigits 2 rest
      let offset : Int := (hours * 60 + minutes : Nat) * 60
      if hours ≤ 23 && minutes ≤ 59 then
        return (if c == '+' then offset else -offset, rest)
      else none
    else none

def readSeparator : List Char → Option (List Char)
  | c :: rest => if c == 'T' || c == 't' || c == ' ' then some rest else none
  | [] => none

def ofText? (s : String) : Option Instant := do
  let (year, cs) ← readDigits 4 s.toList
  let cs ← expect '-' cs
  let (month, cs) ← readDigits 2 cs
  let cs ← expect '-' cs
  let (day, cs) ← readDigits 2 cs
  let cs ← readSeparator cs
  let (hour, cs) ← readDigits 2 cs
  let cs ← expect ':' cs
  let (minute, cs) ← readDigits 2 cs
  let cs ← expect ':' cs
  let (second, cs) ← readDigits 2 cs
  let (nanos, cs) ← readFraction cs
  let (offset, cs) ← readOffset cs
  let known := 1 ≤ month && month ≤ 12 && 1 ≤ day && day ≤ daysInMonth year month
    && hour ≤ 23 && minute ≤ 59 && second ≤ 60
  if known && cs.isEmpty then
    let days := Date.days ⟨year, month, day⟩
    let leap := second = 60
    let clock : Int := (hour * 3600 + minute * 60 + if leap then 59 else second : Nat)
    return ⟨days * 86400 + clock - offset, if leap then nanos + 1000000000 else nanos⟩
  else none

end TypedRecords.Instant
