import TypedRecords.Powers

/-! Floating point numbers of the two binary interchange formats, as bit patterns.
A magnitude is the pattern without its sign. A finite magnitude stands for the number
`m * 2 ^ q`, and rounding takes a quotient of naturals to the nearest magnitude, to the
even one of two. All of it is exact arithmetic on naturals. -/
namespace TypedRecords

structure BinaryFormat where
  fractionBits : Nat
  exponentBits : Nat

namespace BinaryFormat

def binary32 : BinaryFormat := ⟨23, 8⟩

def binary64 : BinaryFormat := ⟨52, 11⟩

variable (f : BinaryFormat)

def leastExponent : Int := 2 - (twoTo (f.exponentBits - 1) : Int) - f.fractionBits

def infinity : Nat := (twoTo f.exponentBits - 1) * twoTo f.fractionBits

def signBit : Nat := twoTo (f.exponentBits + f.fractionBits)

def biased (magnitude : Nat) : Nat := magnitude / twoTo f.fractionBits

def fraction (magnitude : Nat) : Nat := magnitude % twoTo f.fractionBits

def significand (magnitude : Nat) : Nat :=
  if f.biased magnitude = 0 then f.fraction magnitude
  else f.fraction magnitude + twoTo f.fractionBits

def exponent (magnitude : Nat) : Int := f.leastExponent + ((f.biased magnitude - 1 : Nat) : Int)

def ratioOf (m : Nat) (q : Int) : Nat × Nat := (m * twoTo q.toNat, twoTo (-q).toNat)

def ratio (magnitude : Nat) : Nat × Nat := ratioOf (f.significand magnitude) (f.exponent magnitude)

/-- The nearest natural to `num / den`, the even one when two are equally near. -/
def roundDiv (num den : Nat) : Nat :=
  let q := num / den
  let r := num % den
  if 2 * r < den then q
  else if den < 2 * r then q + 1
  else q + q % 2

/-- The greatest `e` with `2 ^ e ≤ num / den`. -/
def binaryExponent (num den : Nat) : Int :=
  let guess : Int := (num.log2 : Int) - (den.log2 : Int)
  if den * twoTo guess.toNat ≤ num * twoTo (-guess).toNat then guess else guess - 1

/-- The magnitude nearest to `num / den`; what is too large becomes infinite. -/
def round (num den : Nat) : Nat :=
  if num = 0 then 0
  else
    let q := max (binaryExponent num den - f.fractionBits) f.leastExponent
    let m := roundDiv (num * twoTo (-q).toNat) (den * twoTo q.toNat)
    min ((q - f.leastExponent).toNat * twoTo f.fractionBits + m) f.infinity

end BinaryFormat

open BinaryFormat

structure Binary64 where
  bits : UInt64
  deriving DecidableEq, Repr, Inhabited

structure Binary32 where
  bits : UInt32
  deriving DecidableEq, Repr, Inhabited

def BinaryFormat.pack (f : BinaryFormat) (negative : Bool) (magnitude : Nat) : Nat :=
  if negative then f.signBit + magnitude else magnitude

namespace Binary64

def ofParts (negative : Bool) (magnitude : Nat) : Binary64 :=
  ⟨UInt64.ofNat (binary64.pack negative magnitude)⟩

def isNegative (x : Binary64) : Bool := binary64.signBit ≤ x.bits.toNat

def magnitude (x : Binary64) : Nat := x.bits.toNat % binary64.signBit

def isFinite (x : Binary64) : Bool := x.magnitude < binary64.infinity

def isNaN (x : Binary64) : Bool := binary64.infinity < x.magnitude

/-- Equality of numbers: the two zeros are equal, and what is no number equals nothing. -/
def numEq (x y : Binary64) : Bool :=
  !x.isNaN && !y.isNaN && (x == y || x.magnitude == 0 && y.magnitude == 0)

def ofInt (n : Int) : Binary64 := ofParts (n < 0) (binary64.round n.natAbs 1)

def toBinary32Bits (x : Binary64) : Nat :=
  if x.isNaN then
    binary32.infinity + twoTo 22 + (x.magnitude % twoTo 51) / twoTo 29
  else if x.isFinite then
    let (num, den) := binary64.ratio x.magnitude
    binary32.round num den
  else binary32.infinity

def toBinary32 (x : Binary64) : Binary32 :=
  ⟨UInt32.ofNat (binary32.pack x.isNegative x.toBinary32Bits)⟩

end Binary64

namespace Binary32

def ofParts (negative : Bool) (magnitude : Nat) : Binary32 :=
  ⟨UInt32.ofNat (binary32.pack negative magnitude)⟩

def isNegative (x : Binary32) : Bool := binary32.signBit ≤ x.bits.toNat

def magnitude (x : Binary32) : Nat := x.bits.toNat % binary32.signBit

def isFinite (x : Binary32) : Bool := x.magnitude < binary32.infinity

def isNaN (x : Binary32) : Bool := binary32.infinity < x.magnitude

def numEq (x y : Binary32) : Bool :=
  !x.isNaN && !y.isNaN && (x == y || x.magnitude == 0 && y.magnitude == 0)

def ofInt (n : Int) : Binary32 := ofParts (n < 0) (binary32.round n.natAbs 1)

def toBinary64Bits (x : Binary32) : Nat :=
  if x.isNaN then
    binary64.infinity + twoTo 51 + (x.magnitude % twoTo 22) * twoTo 29
  else if x.isFinite then
    let (num, den) := binary32.ratio x.magnitude
    binary64.round num den
  else binary64.infinity

def toBinary64 (x : Binary32) : Binary64 :=
  ⟨UInt64.ofNat (binary64.pack x.isNegative x.toBinary64Bits)⟩

end Binary32
end TypedRecords
