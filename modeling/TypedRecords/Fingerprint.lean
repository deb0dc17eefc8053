import TypedRecords.Sha256
import TypedRecords.Json.Printer

/-! Content fingerprints.
The fingerprint of a JSON value is the digest of its compact text, so equal values have
equal fingerprints. A name made from one keeps the first sixteen of its digits. -/
namespace TypedRecords

structure Fingerprint where
  digits : String
  deriving DecidableEq, Repr

namespace Fingerprint

def ofBytes (bytes : List UInt8) : Fingerprint := ⟨Text.hex (Sha256.digest bytes)⟩

def ofJson (j : Json) : Fingerprint := ofBytes j.compact.toUTF8.toList

def nameDigits : Nat := 16

def recordName (f : Fingerprint) (stem : String) : String :=
  stem ++ "_" ++ String.ofList (f.digits.toList.take nameDigits)

end Fingerprint
end TypedRecords
