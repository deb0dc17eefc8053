import TypedRecords.Schema.EntryBuilder
import TypedRecords.Instant.Text

/-! Values and records.
A record has one value for every entry of its schema, in the order of the entries. -/
namespace TypedRecords

mutual
inductive Value where
  | null
  | string (s : String)
  | int (n : Int32)
  | long (n : Int64)
  | float (x : Binary32)
  | double (x : Binary64)
  | boolean (b : Bool)
  | bytes (bytes : List UInt8)
  | datetime (t : Instant)
  | record (r : Record)
  | array (items : List Value)

structure Record where
  schema : Schema
  values : List Value
end

namespace Value

mutual
/-- Equality of values; floating point numbers are compared as numbers. -/
def beq : Value → Value → Bool
  | .null, .null => true
  | .string a, .string b => a == b
  | .int a, .int b => a == b
  | .long a, .long b => a == b
  | .float a, .float b => a.numEq b
  | .double a, .double b => a.numEq b
  | .boolean a, .boolean b => a == b
  | .bytes a, .bytes b => a == b
  | .datetime a, .datetime b => a == b
  | .record a, .record b => beqRecord a b
  | .array as, .array bs => beqItems as bs
  | _, _ => false

def beqItems : List Value → List Value → Bool
  | [], [] => true
  | a :: as, b :: bs => beq a b && beqItems as bs
  | _, _ => false

def beqRecord : Record → Record → Bool
  | ⟨s, as⟩, ⟨t, bs⟩ => s == t && beqItems as bs
end

instance : BEq Value := ⟨beq⟩

instance : BEq Record := ⟨beqRecord⟩

def kind? : Value → Option Kind
  | .null => none
  | .string _ => some (.scalar .string)
  | .int _ => some (.scalar .int)
  | .long _ => some (.scalar .long)
  | .float _ => some (.scalar .float)
  | .double _ => some (.scalar .double)
  | .boolean _ => some (.scalar .boolean)
  | .bytes _ => some (.scalar .bytes)
  | .datetime _ => some (.scalar .datetime)
  | .record _ => some .record
  | .array _ => some .array

def isNull : Value → Bool
  | .null => true
  | _ => false

def itemName (name : String) (index : Nat) : String := s!"{name}[{index}]"

def checkKind (kind : Kind) (nullable : Bool) (name : String) : Option Kind → Result Unit
  | none => if nullable then .ok () else .error (.nullNotAllowed name)
  | some actual =>
    if actual = kind then .ok () else .error (.typeMismatch name kind actual)

mutual
/-- Checks a value against a type. A record must have been made for an equal schema; the
items of an array are checked one by one. -/
def validate (schema : Schema) (nullable : Bool) (name : String) : Value → Result Unit
  | .record ⟨actual, _⟩ => do
    checkKind schema.kind nullable name (some .record)
    if actual == schema then return ()
    else
      .error (.schemaMismatch (.nested name (schema.recordName?.getD "")
        (actual.recordName?.getD "")))
  | .array items => do
    checkKind schema.kind nullable name (some .array)
    match schema.element? with
    | none => .error .missingElementSchema
    | some element => validateItems element schema.elementNullable name 0 items
  | v => checkKind schema.kind nullable name v.kind?

def validateItems (element : Schema) (nullable : Bool) (name : String) (index : Nat) :
    List Value → Result Unit
  | [] => .ok ()
  | v :: rest => do
    validate element nullable (itemName name index) v
    validateItems element nullable name (index + 1) rest
end

end Value

namespace Record

def fields (r : Record) : List (Entry × Value) := r.schema.entries.zip r.values

def get (r : Record) (name : String) : Result Value :=
  match (r.schema.entryIndex? name).bind fun i => r.values[i]? with
  | some v => .ok v
  | none => .error (.notInSchema name)

/-- Reads an entry as a value of one kind. Null is no value of any kind. -/
def typed {α : Type} (r : Record) (name : String) (kind : Kind) (extract : Value → Option α) :
    Result (Option α) := do
  let v ← r.get name
  if v.isNull then return none
  else
    match r.schema.entry? name with
    | none => .error (.notInSchema name)
    | some e =>
      match extract v with
      | some a => return some a
      | none => .error (.typeMismatch name e.kind kind)

def getString (r : Record) (name : String) : Result (Option String) :=
  r.typed name (.scalar .string) fun
    | .string s => some s
    | _ => none

def getInt (r : Record) (name : String) : Result (Option Int32) :=
  r.typed name (.scalar .int) fun
    | .int n => some n
    | _ => none

def getLong (r : Record) (name : String) : Result (Option Int64) :=
  r.typed name (.scalar .long) fun
    | .long n => some n
    | _ => none

def getFloat (r : Record) (name : String) : Result (Option Binary32) :=
  r.typed name (.scalar .float) fun
    | .float x => some x
    | _ => none

def getDouble (r : Record) (name : String) : Result (Option Binary64) :=
  r.typed name (.scalar .double) fun
    | .double x => some x
    | _ => none

def getBoolean (r : Record) (name : String) : Result (Option Bool) :=
  r.typed name (.scalar .boolean) fun
    | .boolean b => some b
    | _ => none

def getBytes (r : Record) (name : String) : Result (Option (List UInt8)) :=
  r.typed name (.scalar .bytes) fun
    | .bytes bytes => some bytes
    | _ => none

def getDatetime (r : Record) (name : String) : Result (Option Instant) :=
  r.typed name (.scalar .datetime) fun
    | .datetime t => some t
    | _ => none

def getRecord (r : Record) (name : String) : Result (Option Record) :=
  r.typed name .record fun
    | .record r => some r
    | _ => none

def getArray (r : Record) (name : String) : Result (Option (List Value)) :=
  r.typed name .array fun
    | .array items => some items
    | _ => none

end Record
end TypedRecords
