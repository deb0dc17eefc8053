/-! Digits of bytes and small numbers. -/
namespace TypedRecords.Text

def hexDigit (n : Nat) : Char := (Nat.toDigits 16 (n % 16)).headD '0'

def hexByte (b : UInt8) : String :=
  String.ofList [hexDigit (b.toNat / 16), hexDigit b.toNat]

def hex (bytes : List UInt8) : String :=
  bytes.foldl (fun text b => text ++ hexByte b) ""

def hexValue? (c : Char) : Option Nat :=
  if '0' ≤ c && c ≤ '9' then some (c.toNat - '0'.toNat)
  else if 'a' ≤ c && c ≤ 'f' then some (c.toNat - 'a'.toNat + 10)
  else if 'A' ≤ c && c ≤ 'F' then some (c.toNat - 'A'.toNat + 10)
  else none

def padded (width n : Nat) : String :=
  let digits := toString n
  String.ofList (List.replicate (width - digits.length) '0') ++ digits

def decimalValue (digits : List Char) : Nat :=
  digits.foldl (fun n c => 10 * n + (c.toNat - '0'.toNat)) 0

end TypedRecords.Text
