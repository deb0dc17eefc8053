import TypedRecords.Props
import TypedRecords.Json.Basic
import TypedRecords.Error

/-! The canonical form of a schema, as the container format knows it.
Here a type that admits null is a union with it, a record is known by its full name, and
what the format has no room for travels in properties and aliases. -/
namespace TypedRecords

inductive Primitive where
  | null | boolean | int | long | float | double | bytes | string
  deriving DecidableEq, Repr

namespace Primitive

def name : Primitive → String
  | .null => "null"
  | .boolean => "boolean"
  | .int => "int"
  | .long => "long"
  | .float => "float"
  | .double => "double"
  | .bytes => "bytes"
  | .string => "string"

def all : List Primitive := [.null, .boolean, .int, .long, .float, .double, .bytes, .string]

def ofName? (name : String) : Option Primitive := all.find? fun p => p.name == name

theorem ofName?_name (p : Primitive) : ofName? p.name = some p := by cases p <;> decide

end Primitive

mutual
inductive Canonical where
  | primitive (type : Primitive)
  | timestampMillis
  | array (items : Canonical) (props : Props)
  | record (name space : String) (fields : List Canonical.Field) (props : Props)
  | union (branches : List Canonical)

structure Canonical.Field where
  name : String
  type : Canonical
  doc : Option String
  default : Option Json
  aliases : List String
  props : Props
end

namespace Canonical

def recordSpace : String := "familiar.records"

def emptyRecordName : String := "EmptyRecord"

def recordStem : String := "Record"

/-- The record property that holds the logical order of the entries. -/
def orderKey : String := "familiar.entries.order"

def labelKey : String := "familiar.label"

def defaultKey : String := "familiar.default"

def datetimeKey : String := "familiar.datetime"

def metadataAlias : String := "familiar_metadata"

def null : Canonical := .primitive .null

mutual
def beq : Canonical → Canonical → Bool
  | .primitive a, .primitive b => a == b
  | .timestampMillis, .timestampMillis => true
  | .array a p, .array b q => beq a b && p == q
  | .record n s fs p, .record m t gs q => n == m && s == t && beqFields fs gs && p == q
  | .union as, .union bs => beqBranches as bs
  | _, _ => false

def beqBranches : List Canonical → List Canonical → Bool
  | [], [] => true
  | a :: as, b :: bs => beq a b && beqBranches as bs
  | _, _ => false

def beqFields : List Field → List Field → Bool
  | [], [] => true
  | ⟨n, a, doc, d, as, p⟩ :: fs, ⟨m, b, doc', d', bs, q⟩ :: gs =>
    n == m && beq a b && doc == doc' && d == d' && as == bs && p == q && beqFields fs gs
  | _, _ => false
end

instance : BEq Canonical := ⟨beq⟩

def isNull : Canonical → Bool
  | .primitive .null => true
  | _ => false

def isUnion : Canonical → Bool
  | .union _ => true
  | _ => false

def isNullable : Canonical → Bool
  | .union branches => branches.any isNull
  | c => c.isNull

def typeName : Canonical → String
  | .primitive p => p.name
  | .timestampMillis => "timestamp-millis"
  | .array .. => "array"
  | .record .. => "record"
  | .union _ => "union"

/-- A union is left as it is, so wrapping twice is the same as wrapping once. -/
def wrapNullable (c : Canonical) : Canonical :=
  if c.isUnion then c else .union [null, c]

/-- Takes a union of null with one other type apart. -/
def splitNullable : Canonical → Result (Canonical × Bool)
  | .union branches =>
    match branches.filter (fun b => !b.isNull) with
    | [branch] =>
      if branches.length = 2 then .ok (branch, true)
      else .error (.format (.unionBranches branches.length))
    | _ => .error (.format (.unionBranches branches.length))
  | c => .ok (c, false)

/-- The name by which a document refers to a record. -/
def fullName (space name : String) : String :=
  if space.isEmpty then name else space ++ "." ++ name

end Canonical
end TypedRecords
