import TypedRecords.Binary

/-! Shortest decimals.
A finite magnitude is the nearest one for a whole interval of numbers, whose ends belong
to it when the significand is even. Of the decimals in that interval those with the
fewest digits are taken, and of these the nearest to the magnitude itself; of two that are
equally near a rule takes one. -/
namespace TypedRecords

structure Decimal where
  digits : Nat
  exponent : Int
  deriving DecidableEq, Repr

inductive Tie where
  | toEven | away
  deriving DecidableEq, Repr

def Tie.takesUpper (tie : Tie) (lower : Nat) : Bool :=
  match tie with
  | .toEven => lower % 2 == 1
  | .away => true

namespace Decimal

def digitCount (n : Nat) : Nat := (Nat.toDigits 10 n).length

structure Interval where
  low : Nat
  mid : Nat
  high : Nat
  den : Nat
  closed : Bool

/-- The numbers for which `magnitude` is the nearest. Below a power of two the next
magnitude is only half as far away. -/
def Interval.around (f : BinaryFormat) (magnitude : Nat) : Interval :=
  let m := f.significand magnitude
  let q := f.exponent magnitude
  let near := f.fraction magnitude == 0 && f.biased magnitude > 1
  let scale := fun n => n * twoTo q.toNat
  { low := scale (if near then 4 * m - 1 else 4 * m - 2)
    mid := scale (4 * m)
    high := scale (4 * m + 2)
    den := 4 * twoTo (-q).toNat
    closed := m % 2 == 0 }

def Interval.contains (i : Interval) (d : Nat) (e : Int) : Bool :=
  let x := d * tenTo e.toNat * i.den
  let s := tenTo (-e).toNat
  if i.closed then i.low * s ≤ x && x ≤ i.high * s else i.low * s < x && x < i.high * s

def Interval.onGrid? (i : Interval) (tie : Tie) (e : Int) : Option Nat :=
  let num := i.mid * tenTo (-e).toNat
  let den := i.den * tenTo e.toNat
  let d := num / den
  let rest := num % den
  let upNearer := den < 2 * rest || (den == 2 * rest && tie.takesUpper d)
  match i.contains d e, i.contains (d + 1) e with
  | true, true => some (if upNearer then d + 1 else d)
  | true, false => some d
  | false, true => some (d + 1)
  | false, false => none

def leadingExponent (num den : Nat) : Int :=
  let guess : Int := (digitCount num : Int) - (digitCount den : Int)
  if den * tenTo guess.toNat ≤ num * tenTo (-guess).toNat then guess else guess - 1

def Interval.firstGrid (i : Interval) (tie : Tie) : (tries : Nat) → (e : Int) → Decimal
  | 0, e => ⟨i.mid * tenTo (-e).toNat / (i.den * tenTo e.toNat), e⟩
  | tries + 1, e =>
    match i.onGrid? tie e with
    | some d => ⟨d, e⟩
    | none => i.firstGrid tie tries (e - 1)

def trim : (tries : Nat) → Decimal → Decimal
  | 0, d => d
  | tries + 1, d =>
    if d.digits != 0 && d.digits % 10 == 0 then trim tries ⟨d.digits / 10, d.exponent + 1⟩ else d

/-- Seventeen digits tell any two magnitudes of either format apart. -/
def shortest (f : BinaryFormat) (tie : Tie) (magnitude : Nat) : Decimal :=
  if magnitude = 0 then ⟨0, 0⟩
  else
    let i := Interval.around f magnitude
    trim 20 (i.firstGrid tie 18 (leadingExponent i.mid i.den))

end Decimal
end TypedRecords
