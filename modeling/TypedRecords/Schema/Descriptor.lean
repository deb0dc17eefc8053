import TypedRecords.Schema.EntryBuilder

/-! Descriptors.
A descriptor is a plain account of a schema, as a file holds it. Building one goes through
the builders, inner schemas first, so it gives names, merges and refuses as they do. -/
namespace TypedRecords

mutual
structure Descriptor where
  kind : Kind
  name : Option String
  entries : List Descriptor.Entry
  element : Option Descriptor
  elementNullable : Bool
  props : Props

structure Descriptor.Entry where
  name : String
  label : Option String
  kind : Kind
  element : Option Descriptor
  elementNullable : Bool
  nullable : Bool
  metadata : Bool
  comment : Option String
  default : Option Json
  props : Props
end

namespace Descriptor

/-- A record with the properties, name and entries of a descriptor. A logical order among
the properties is followed as far as it lists the entries. -/
def buildRecord (name : Option String) (entries : List TypedRecords.Entry) (props : Props) :
    Result Schema := do
  let b := SchemaBuilder.record.withProps (props.erase Canonical.orderKey).pairs
  let b := match name with
    | some name => b.withRecordName name
    | none => b
  let b ← entries.foldlM SchemaBuilder.withEntry b
  match props.find? Canonical.orderKey with
  | some order => b.buildListed (OrderText.split order)
  | none => b.build

def buildArray (element : Option Schema) (nullable : Bool) (props : Props) : Result Schema :=
  match element with
  | none => .error .missingElementSchema
  | some element => do
    let b ← SchemaBuilder.array.withElement element
    let b ← b.withElementNullable nullable
    (b.withProps props.pairs).build

def entryBuilder (name : String) (label : Option String) (kind : Kind)
    (element : Option Schema) (elementNullable nullable metadata : Bool)
    (comment : Option String) (default : Option Json) (props : Props) : EntryBuilder :=
  let b := EntryBuilder.empty.withName name |>.withType kind
    |>.withElementNullable elementNullable |>.withNullable nullable
    |>.withMetadata metadata |>.withProps props.pairs
  let b := label.elim b b.withRawName
  let b := element.elim b b.withElement
  let b := comment.elim b b.withComment
  default.elim b b.withDefault

mutual
def build : Descriptor → Result Schema
  | ⟨.record, name, entries, _, _, props⟩ => do
    buildRecord name (← buildEntries entries) props
  | ⟨.array, _, _, element, nullable, props⟩ => do
    buildArray (← buildElement element) nullable props
  | ⟨.scalar k, _, entries, element, _, _⟩ =>
    if element.isSome || !entries.isEmpty then
      .error (.builderState .describe .record (some (.scalar k)))
    else (SchemaBuilder.ofKind (.scalar k)).build

def buildElement : Option Descriptor → Result (Option Schema)
  | none => .ok none
  | some d => do return some (← build d)

def buildEntry : Entry → Result TypedRecords.Entry
  | ⟨name, label, kind, element, elementNullable, nullable, metadata, comment, default,
      props⟩ => do
    (entryBuilder name label kind (← buildElement element) elementNullable nullable metadata
      comment default props).build

def buildEntries : List Entry → Result (List TypedRecords.Entry)
  | [] => .ok []
  | e :: rest => do
    let e ← buildEntry e
    return e :: (← buildEntries rest)
end

/-- The properties told of a record: one without entries has no logical order to tell. -/
def toldProps (entries : List TypedRecords.Entry) (props : Props) : Props :=
  if entries.isEmpty then props.erase Canonical.orderKey else props

mutual
/-- The account of a schema. Record names are not told, nor are the properties of the
array type of an entry. -/
def ofSchema : Schema → Descriptor
  | .scalar k => ⟨.scalar k, none, [], none, true, Props.empty⟩
  | .emptyRecord => ⟨.record, none, [], none, true, toldProps [] Schema.emptyRecordProps⟩
  | .record _ entries props =>
    ⟨.record, none, ofEntries entries, none, true, toldProps entries props⟩
  | .array element nullable props => ⟨.array, none, [], some (ofSchema element), nullable, props⟩

def ofEntries : List TypedRecords.Entry → List Entry
  | [] => []
  | ⟨name, rawName, schema, nullable, metadata, comment, default, props⟩ :: rest =>
    let whole := ofSchema schema
    { name := name, label := rawName, kind := schema.kind
      element := if schema.kind = .record then some whole else whole.element
      elementNullable := whole.elementNullable, nullable := nullable, metadata := metadata
      comment := comment, default := default, props := props } :: ofEntries rest
end

end Descriptor

namespace Schema

def describe (s : Schema) : Descriptor := Descriptor.ofSchema s

end Schema
end TypedRecords
