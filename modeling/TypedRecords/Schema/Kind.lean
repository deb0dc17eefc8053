/-! Kinds of schemas. Records and arrays hold other schemas; every other kind is a scalar. -/
namespace TypedRecords

inductive ScalarKind where
  | string | int | long | float | double | boolean | bytes | datetime
  deriving DecidableEq, Repr

inductive Kind where
  | record
  | array
  | scalar (kind : ScalarKind)
  deriving DecidableEq, Repr

namespace ScalarKind

def name : ScalarKind → String
  | .string => "STRING"
  | .int => "INT"
  | .long => "LONG"
  | .float => "FLOAT"
  | .double => "DOUBLE"
  | .boolean => "BOOLEAN"
  | .bytes => "BYTES"
  | .datetime => "DATETIME"

def all : List ScalarKind :=
  [.string, .int, .long, .float, .double, .boolean, .bytes, .datetime]

end ScalarKind

namespace Kind

def name : Kind → String
  | .record => "RECORD"
  | .array => "ARRAY"
  | .scalar k => k.name

def all : List Kind := .record :: .array :: ScalarKind.all.map .scalar

def isScalar : Kind → Bool
  | .scalar _ => true
  | _ => false

def ofName? (name : String) : Option Kind := all.find? fun k => k.name == name

theorem ofName?_name (k : Kind) : ofName? k.name = some k := by
  cases k with
  | record => decide
  | array => decide
  | scalar k => cases k <;> decide

end Kind
end TypedRecords
