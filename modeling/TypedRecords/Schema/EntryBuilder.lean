import TypedRecords.Schema.Builder

/-! Building entries.
The type of an entry is given as a kind with an element or as a whole schema; whichever is
set last counts. -/
namespace TypedRecords

structure EntryBuilder where
  name : Option String
  rawName : Option String
  kind : Option Kind
  element : Option Schema
  schema : Option Schema
  elementNullable : Bool
  nullable : Bool
  metadata : Bool
  comment : Option String
  default : Option Json
  props : Props

namespace EntryBuilder

def empty : EntryBuilder :=
  { name := none, rawName := none, kind := none, element := none, schema := none
    elementNullable := true, nullable := false, metadata := false, comment := none
    default := none, props := Props.empty }

/-- Names the entry by a label, which is kept where it is no identifier. -/
def withName (b : EntryBuilder) (label : String) : EntryBuilder :=
  let name := Identifier.sanitize label
  { b with name := some name, rawName := if name != label then some label else none }

def withRawName (b : EntryBuilder) (label : String) : EntryBuilder :=
  { b with rawName := some label }

def withType (b : EntryBuilder) (kind : Kind) : EntryBuilder :=
  { b with kind := some kind, schema := if b.kind != some kind then none else b.schema }

/-- Sets the record of a record entry, or the element of an array entry. -/
def withElement (b : EntryBuilder) (element : Schema) : EntryBuilder :=
  { b with element := some element, schema := none }

def withElementNullable (b : EntryBuilder) (nullable : Bool) : EntryBuilder :=
  { b with elementNullable := nullable, schema := none }

def withSchema (b : EntryBuilder) (schema : Schema) : EntryBuilder :=
  { b with kind := some schema.kind, element := none, schema := some schema }

def withNullable (b : EntryBuilder) (nullable : Bool) : EntryBuilder :=
  { b with nullable := nullable }

def withMetadata (b : EntryBuilder) (metadata : Bool) : EntryBuilder :=
  { b with metadata := metadata }

def withComment (b : EntryBuilder) (comment : String) : EntryBuilder :=
  { b with comment := some comment }

def withDefault (b : EntryBuilder) (value : Json) : EntryBuilder :=
  { b with default := some value }

def withProp (b : EntryBuilder) (key value : String) : EntryBuilder :=
  { b with props := b.props.insert key value }

def withProps (b : EntryBuilder) (pairs : List (String × String)) : EntryBuilder :=
  { b with props := b.props.insertAll pairs }

def describedSchema (b : EntryBuilder) (name : String) : Kind → Result Schema
  | .record =>
    match b.element with
    | none => .error .missingElementSchema
    | some element =>
      if element.kind = .record then .ok element
      else .error (.typeMismatch name .record element.kind)
  | .array =>
    match b.element with
    | none => .error .missingElementSchema
    | some element => .ok (.array element b.elementNullable Props.empty)
  | .scalar k =>
    if b.element.isSome then .error (.builderState .elementSchema .array (some (.scalar k)))
    else .ok (.scalar k)

def build (b : EntryBuilder) : Result Entry :=
  match b.name with
  | none => .error .missingEntryName
  | some name =>
    match b.kind with
    | none => .error .missingType
    | some kind => do
      let schema ← match b.schema with
        | some schema => pure schema
        | none => b.describedSchema name kind
      return {
        name := name, rawName := b.rawName, schema := schema, nullable := b.nullable
        metadata := b.metadata, comment := b.comment, default := b.default, props := b.props }

end EntryBuilder

namespace Entry

def toBuilder (e : Entry) : EntryBuilder :=
  { name := some e.name, rawName := e.rawName, kind := some e.kind, element := none
    schema := some e.schema, elementNullable := true, nullable := e.nullable
    metadata := e.metadata, comment := e.comment, default := e.default, props := e.props }

end Entry
end TypedRecords
