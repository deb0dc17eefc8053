import TypedRecords.Schema.Kind
import TypedRecords.Json.Printer

/-! What can go wrong, as causes, and the text that reports each of them.
Faults of the container format, of JSON text, of files and of configurations are told
apart but have no text of their own. -/
namespace TypedRecords

inductive Operation where
  | entry | remove | move | swap | elementSchema | elementNullability | describe | record | encode
  deriving DecidableEq, Repr

namespace Operation

def name : Operation → String
  | .entry => "entry"
  | .remove => "remove"
  | .move => "move"
  | .swap => "swap"
  | .elementSchema => "element schema"
  | .elementNullability => "element nullability"
  | .describe => "describe"
  | .record => "record"
  | .encode => "encode"

end Operation

inductive FormatFault where
  | nameInUse (old new : String)
  | unionBranches (count : Nat)
  | standsAlone (typeName : String)
  | definedTwice (fullName : String)
  | orderMismatch (order record : String)
  | objectWithoutType
  | unexpectedValue (value : Json)
  | unknownType (reference : String)
  | arrayWithoutItems
  | recordWithoutName
  | recordWithoutFields (record : String)
  | fieldNotObject
  | fieldWithoutName
  | fieldWithoutType (field : String)
  | timestampRange (millis : Int)
  | storedTimestampRange (entry : String) (millis : Int)
  | unreadable (entry : String) (value : Json) (kind : Kind)
  | containerKind (kind : Kind)
  | recordCount (count : Nat)
  | notARecord (record : String)
  | storedMismatch (entry shown : String) (kind : Kind)

namespace FormatFault

def message : FormatFault → String
  | nameInUse old new => s!"cannot rename {old} to {new}: name already used"
  | unionBranches count => s!"only [null, T] unions are supported, got {count} branches"
  | standsAlone typeName => s!"{typeName} cannot stand alone as a schema"
  | definedTwice fullName => s!"record '{fullName}' is defined twice with different fields"
  | orderMismatch order record =>
    s!"entry order '{order}' does not match the fields of {record}"
  | objectWithoutType => "schema object without a type"
  | unexpectedValue value => s!"unexpected schema value {value.compact}"
  | unknownType reference => s!"unknown type {reference}"
  | arrayWithoutItems => "array without items"
  | recordWithoutName => "record without a name"
  | recordWithoutFields record => s!"record {record} without fields"
  | fieldNotObject => "field is not an object"
  | fieldWithoutName => "field without a name"
  | fieldWithoutType field => s!"field {field} without a type"
  | timestampRange millis => s!"timestamp {millis} out of range"
  | storedTimestampRange entry millis => s!"{entry}: timestamp {millis} out of range"
  | unreadable entry value kind => s!"{entry}: cannot read {value.compact} as {kind.name}"
  | containerKind kind => s!"container schema is {kind.name}, expected RECORD"
  | recordCount count => s!"expected one record, found {count}"
  | notARecord record => s!"expected an Avro record for {record}"
  | storedMismatch entry shown kind =>
    s!"{entry}: Avro value {shown} does not match {kind.name}"

end FormatFault

/-- Records that meet a schema other than their own. -/
inductive RecordClash where
  | nested (entry expected actual : String)
  | written (actual expected : String)

def RecordClash.message : RecordClash → String
  | .nested entry expected actual => s!"{entry} expects record {expected}, got {actual}"
  | .written actual expected => s!"record of {actual} written with schema {expected}"

/-- Faults that are met too late to be reported. -/
inductive Abort where
  | recordName
  | branch
  | size
  | place
  deriving DecidableEq, Repr

def Abort.message : Abort → String
  | recordName => "record name is not an Avro name"
  | branch => "branch refers to an undeclared type"
  | size => "fixed bytes are too many"
  | place => "setting for a place outside of every list"

inductive SchemaError where
  | builderState (operation : Operation) (expected : Kind) (actual : Option Kind)
  | missingType
  | missingEntryName
  | missingElementSchema
  | notInSchema (name : String)
  | nullNotAllowed (entry : String)
  | typeMismatch (entry : String) (expected actual : Kind)
  | missingValue (entry : String)
  | schemaMismatch (clash : RecordClash)
  | format (fault : FormatFault)
  | avro
  | json
  | io
  | config
  | abort (cause : Abort)

instance : Inhabited SchemaError := ⟨.missingType⟩

namespace SchemaError

def message : SchemaError → String
  | builderState operation expected actual =>
    let actual := (actual.map Kind.name).getD "untyped"
    s!"{operation.name} is only valid for {expected.name} schemas, builder is {actual}"
  | missingType => "Schema type not set"
  | missingEntryName => "Entry name not set"
  | missingElementSchema => "No element schema set for this ARRAY schema"
  | notInSchema name => s!"{name} not in schema"
  | nullNotAllowed entry => s!"Entry {entry} is not nullable"
  | typeMismatch entry expected actual =>
    s!"Type mismatch on {entry}: entry is {expected.name}, got {actual.name}"
  | missingValue entry => s!"Missing value for non-nullable entry {entry}"
  | schemaMismatch clash => s!"Record schema does not match: {clash.message}"
  | format fault => s!"Invalid canonical schema: {fault.message}"
  | avro => "Avro error"
  | json => "JSON error"
  | io => "IO error"
  | config => "Config error"
  | abort cause => cause.message

end SchemaError

abbrev Result (α : Type) := Except SchemaError α

def require {α : Type} (e : SchemaError) : Option α → Result α
  | some a => .ok a
  | none => .error e

end TypedRecords
