import TypedRecords.Avro.Display
import TypedRecords.Record.Json

/-! Records as data of a container.
A place that may be null is written as a union of null with its type; an instant is written
by its whole milliseconds. What is read must be of the very kind that the schema asks for,
except that an instant may also be a plain number. Entries that are not among the data are
null, or get the default that they declare. -/
namespace TypedRecords

open Avro

def branchIf (nullable : Bool) (d : Datum) : Datum := if nullable then .union 1 d else d

namespace Value

mutual
def toDatum (s : Schema) (nullable : Bool) (name : String) : Value → Result Datum
  | .null => if nullable then .ok (.union 0 .null) else .error (.nullNotAllowed name)
  | .string text => .ok (branchIf nullable (.string text))
  | .int n => .ok (branchIf nullable (.int n))
  | .long n => .ok (branchIf nullable (.long n))
  | .float x => .ok (branchIf nullable (.float x))
  | .double x => .ok (branchIf nullable (.double x))
  | .boolean b => .ok (branchIf nullable (.boolean b))
  | .bytes bs => .ok (branchIf nullable (.bytes bs))
  | .datetime t =>
    .ok (branchIf nullable (.temporal .timestampMillis (Int64.ofInt t.millis)))
  | .record ⟨own, values⟩ => do
    return branchIf nullable (.record (← fieldsToDatum own.entries values))
  | .array items =>
    match s.element? with
    | none => .error .missingElementSchema
    | some element => do
      return branchIf nullable (.array (← itemsToDatum element s.elementNullable name 0 items))

def fieldsToDatum : List Entry → List Value → Result (List (String × Datum))
  | _, [] => .ok []
  | [], _ :: _ => .ok []
  | e :: entries, v :: values => do
    let d ← toDatum e.schema e.nullable e.name v
    return (e.name, d) :: (← fieldsToDatum entries values)

def itemsToDatum (element : Schema) (nullable : Bool) (name : String) (index : Nat) :
    List Value → Result (List Datum)
  | [] => .ok []
  | v :: rest => do
    let d ← toDatum element nullable (itemName name index) v
    return d :: (← itemsToDatum element nullable name (index + 1) rest)
end

def mismatch (s : Schema) (name : String) (d : Datum) : SchemaError :=
  .format (.storedMismatch name d.shown s.kind)

def scalarOfDatum? : ScalarKind → Datum → Option Value
  | .string, .string text => some (.string text)
  | .int, .int n => some (.int n)
  | .long, .long n => some (.long n)
  | .float, .float x => some (.float x)
  | .double, .double x => some (.double x)
  | .boolean, .boolean b => some (.boolean b)
  | .bytes, .bytes bs => some (.bytes bs)
  | _, _ => none

def millisOfDatum? : Datum → Option Int64
  | .temporal .timestampMillis n => some n
  | .long n => some n
  | _ => none

def scalarOfDatum (s : Schema) (name : String) (d : Datum) : Result Value :=
  match s with
  | .scalar .datetime =>
    match millisOfDatum? d with
    | none => .error (mismatch s name d)
    | some ms =>
      match Instant.ofMillis? ms.toInt with
      | some t => .ok (.datetime t)
      | none => .error (.format (.storedTimestampRange name ms.toInt))
  | .scalar k =>
    match scalarOfDatum? k d with
    | some v => .ok v
    | none => .error (mismatch s name d)
  | _ => .error (mismatch s name d)

def complete (s : Schema) (written : Written) : Result Record := do
  return ⟨s, ← written.fill s.entries (Schema.converters s.entries)⟩

mutual
/-- The value of a datum for a place of the given type. One union around a datum, but not
one inside another, is the same as the datum; `outer` says whether it has not been met. -/
def ofDatum (s : Schema) (name : String) (outer : Bool) : Datum → Result Value
  | .null => .ok .null
  | .union index d =>
    if outer then ofDatum s name false d else .error (mismatch s name (.union index d))
  | .record fields =>
    if s.kind = .record then do return .record (← complete s (← writeData s [] fields))
    else .error (mismatch s name (.record fields))
  | .array items =>
    match s.element? with
    | some element => do return .array (← itemsOfDatum element name 0 items)
    | none => .error (mismatch s name (.array items))
  | d => scalarOfDatum s name d

def itemsOfDatum (element : Schema) (name : String) (index : Nat) :
    List Datum → Result (List Value)
  | [] => .ok []
  | d :: rest => do
    let v ← ofDatum element (itemName name index) true d
    return v :: (← itemsOfDatum element name (index + 1) rest)

def writeData (s : Schema) (written : Written) : List (String × Datum) → Result Written
  | [] => .ok written
  | (key, d) :: rest =>
    match s.entry? key with
    | none => .error (.notInSchema key)
    | some e => do
      let v ← ofDatum e.schema e.name true d
      writeData s (← written.write e v) rest
end

end Value

namespace Record

def toDatum (r : Record) : Result Datum := do
  return .record (← Value.fieldsToDatum r.schema.entries r.values)

def ofDatum (s : Schema) : Datum → Result Record
  | .record fields => do Value.complete s (← Value.writeData s [] fields)
  | _ => .error (.format (.notARecord (s.recordName?.getD "")))

end Record
end TypedRecords
