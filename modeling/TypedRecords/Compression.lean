import TypedRecords.Deflate

/-! The ways in which the data of a container may be compressed. -/
namespace TypedRecords

inductive Compression where
  | null | deflate
  deriving DecidableEq, Repr

namespace Compression

def all : List Compression := [.null, .deflate]

def name : Compression → String
  | .null => "null"
  | .deflate => "deflate"

def ofName? (name : String) : Option Compression := all.find? fun c => c.name == name

theorem ofName?_name (c : Compression) : ofName? c.name = some c := by cases c <;> decide

def compress : Compression → List UInt8 → List UInt8
  | .null, bytes => bytes
  | .deflate, bytes => Deflate.store bytes

def decompress? : Compression → List UInt8 → Option (List UInt8)
  | .null, bytes => some bytes
  | .deflate, bytes => Deflate.inflate bytes

end Compression
end TypedRecords
