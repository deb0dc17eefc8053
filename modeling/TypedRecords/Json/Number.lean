import TypedRecords.Json.Basic
import TypedRecords.Decimal.Reading
import TypedRecords.Text.Digits

/-! Reading JSON numbers.
The reader gathers digits one by one into a whole number as long as it fits into
sixty-four bits, and keeps the power of ten by which what it gathered has to be scaled. -/
namespace TypedRecords.Json

/-- The digits gathered so far stand for `significand * 10 ^ exponent`. -/
structure Gathered where
  significand : Nat
  exponent : Int

def digit (c : Char) : Nat := c.toNat - '0'.toNat

def fits (significand : Nat) (c : Char) : Bool :=
  10 * significand + digit c ≤ Decimal.gatherLimit

/-- Digits before the point. The first one that does not fit, and all after it, only
raise the power of ten. -/
def gatherWhole : (significand : Nat) → List Char → Gathered
  | s, [] => ⟨s, 0⟩
  | s, c :: cs =>
    if fits s c then gatherWhole (10 * s + digit c) cs else ⟨s, cs.length + 1⟩

def gatherFraction : Gathered → List Char → Gathered
  | g, [] => g
  | g, c :: cs =>
    if fits g.significand c then
      gatherFraction ⟨10 * g.significand + digit c, g.exponent - 1⟩ cs
    else g

def exponentLimit : Nat := twoTo 31 - 1

structure Numeral where
  negative : Bool
  whole : List Char
  fraction : Option (List Char)
  exponent : Option (Bool × List Char)

def Numeral.gathered (n : Numeral) : Gathered :=
  gatherFraction (gatherWhole 0 n.whole) (n.fraction.getD [])

def clampExponent (e : Int) : Int := max (-2147483648) (min 2147483647 e)

def Numeral.magnitude? (n : Numeral) : Option Nat :=
  let g := n.gathered
  match n.exponent with
  | none => Decimal.scaled g.significand g.exponent
  | some (negativeExponent, digits) =>
    let e := Text.decimalValue digits
    if exponentLimit < e then
      if g.significand = 0 || negativeExponent then some 0 else none
    else if negativeExponent then
      Decimal.scaled g.significand (clampExponent (g.exponent - e))
    else Decimal.scaled g.significand (clampExponent (g.exponent + e))

/-- A whole number stays one if it fits; minus zero is a floating point number. -/
def Numeral.value? (n : Numeral) : Option Json :=
  let value := Text.decimalValue n.whole
  if n.fraction.isNone && n.exponent.isNone && value ≤ Decimal.gatherLimit then
    if !n.negative then some (.int value)
    else if 0 < value && value ≤ twoTo 63 then some (.int (-value))
    else some (.float (.ofParts true (BinaryFormat.binary64.round value 1)))
  else n.magnitude?.map fun m => .float (.ofParts n.negative m)

def spanDigits (cs : List Char) : List Char × List Char := cs.span Char.isDigit

def readNumeral (cs : List Char) : Option (Numeral × List Char) := do
  let (negative, cs) := match cs with
    | '-' :: rest => (true, rest)
    | _ => (false, cs)
  let (whole, cs) := spanDigits cs
  match whole with
  | [] => none
  | '0' :: _ :: _ => none
  | _ => pure ()
  let (fraction, cs) ← match cs with
    | '.' :: rest =>
      match spanDigits rest with
      | ([], _) => none
      | (digits, rest) => some (some digits, rest)
    | _ => some (none, cs)
  let (exponent, cs) ← match cs with
    | 'e' :: rest | 'E' :: rest =>
      let (sign, rest) := match rest with
        | '+' :: rest => (false, rest)
        | '-' :: rest => (true, rest)
        | _ => (false, rest)
      match spanDigits rest with
      | ([], _) => none
      | (digits, rest) => some (some (sign, digits), rest)
    | _ => some (none, cs)
  return (⟨negative, whole, fraction, exponent⟩, cs)

end TypedRecords.Json
