import TypedRecords.Binary

/-! Reading decimals.
The leading digits are gathered into a whole number of at most sixty-four bits, that
number is rounded to the format, and the result is multiplied or divided by the nearest
power of ten, with one rounding each time. Digits that no longer fit are skipped. -/
namespace TypedRecords.Decimal

open BinaryFormat

def gatherLimit : Nat := twoTo 64 - 1

def powerOfTen (k : Nat) : Nat := binary64.round (tenTo k) 1

def product (a b : Nat) : Nat :=
  let (an, ad) := binary64.ratio a
  let (bn, bd) := binary64.ratio b
  binary64.round (an * bn) (ad * bd)

def quotient (a b : Nat) : Nat :=
  let (an, ad) := binary64.ratio a
  let (bn, bd) := binary64.ratio b
  binary64.round (an * bd) (ad * bn)

/-- The magnitude of `significand * 10 ^ exponent`, or nothing when it is too large.
Powers beyond `10 ^ 308` do not exist; a division by one is made in two steps, and two
such steps leave nothing of any whole number. -/
def scaled (significand : Nat) (exponent : Int) : Option Nat :=
  let m := binary64.round significand 1
  if m = 0 then some 0
  else if 308 < exponent then none
  else if 0 ≤ exponent then
    let r := product m (powerOfTen exponent.toNat)
    if r < binary64.infinity then some r else none
  else if -308 ≤ exponent then some (quotient m (powerOfTen (-exponent).toNat))
  else if -616 ≤ exponent then
    some (quotient (quotient m (powerOfTen 308)) (powerOfTen (-exponent - 308).toNat))
  else some 0

end TypedRecords.Decimal
