import TypedRecords.Decimal.Shortest

/-! The written form of floating point numbers.
The digits are always the shortest ones. Which of two equally near ones are taken, where
positional notation ends and how an exponent is signed are decided by a `Layout`; a number
written in positional notation keeps a point with at least one digit after it. -/
namespace TypedRecords.Decimal

/-- Exponents of the leading digit from `least` up to `greatest` are written positionally. -/
structure Layout where
  least : Int
  greatest : Int
  plusSign : Bool
  tie : Tie

def zeros (n : Nat) : String := String.ofList (List.replicate n '0')

def positional (digits : String) (point : Int) : String :=
  let count : Int := digits.length
  if point ≤ 0 then "0." ++ zeros (-point).toNat ++ digits
  else if count ≤ point then digits ++ zeros (point - count).toNat ++ ".0"
  else String.ofList (digits.toList.take point.toNat) ++ "."
    ++ String.ofList (digits.toList.drop point.toNat)

def scientific (digits : String) (exponent : Int) (plusSign : Bool) : String :=
  let mantissa := match digits.toList with
    | c :: d :: rest => String.ofList (c :: '.' :: d :: rest)
    | cs => String.ofList cs
  mantissa ++ "e" ++ (if plusSign && 0 ≤ exponent then "+" else "") ++ toString exponent

def Layout.magnitude (layout : Layout) (d : Decimal) : String :=
  let digits := toString d.digits
  let leading := d.exponent + digits.length - 1
  if d.digits == 0 then "0.0"
  else if layout.least ≤ leading && leading ≤ layout.greatest then
    positional digits (leading + 1)
  else scientific digits leading layout.plusSign

def Layout.binary64 (layout : Layout) (x : Binary64) : String :=
  (if x.isNegative then "-" else "") ++ layout.magnitude (shortest .binary64 layout.tie x.magnitude)

def Layout.binary32 (layout : Layout) (x : Binary32) : String :=
  (if x.isNegative then "-" else "") ++ layout.magnitude (shortest .binary32 layout.tie x.magnitude)

end TypedRecords.Decimal
