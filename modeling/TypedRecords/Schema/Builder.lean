import TypedRecords.Schema.EntryList
import TypedRecords.Canonical.Names

/-! Building schemas.
A builder has the shape of the kind it was given: entries can be declared only for a
record, an element only for an array. What fails leaves the builder that was there. -/
namespace TypedRecords

inductive SchemaBuilder.Shape where
  | untyped
  | scalar (kind : ScalarKind)
  | record (entries : EntryList)
  | array (element : Option Schema) (nullable : Bool)

structure SchemaBuilder where
  shape : SchemaBuilder.Shape
  props : Props
  recordName : Option String

namespace SchemaBuilder

def Shape.kind? : Shape → Option Kind
  | .untyped => none
  | .scalar k => some (.scalar k)
  | .record _ => some .record
  | .array .. => some .array

def Shape.fresh : Kind → Shape
  | .record => .record EntryList.empty
  | .array => .array none true
  | .scalar k => .scalar k

def empty : SchemaBuilder := ⟨.untyped, Props.empty, none⟩

/-- Declares the kind; only another kind discards what was declared before. -/
def withType (b : SchemaBuilder) (kind : Kind) : SchemaBuilder :=
  if b.shape.kind? = some kind then b else { b with shape := .fresh kind }

def ofKind (kind : Kind) : SchemaBuilder := empty.withType kind

def record : SchemaBuilder := ofKind .record

def array : SchemaBuilder := ofKind .array

def ofEntries (entries : EntryList) : SchemaBuilder := { empty with shape := .record entries }

def shapeOf : Schema → Shape
  | .scalar k => .scalar k
  | .emptyRecord => .record EntryList.empty
  | .record _ entries _ => .record (EntryList.ofEntries entries)
  | .array element nullable _ => .array (some element) nullable

/-- A builder of the same schema, except that the record name and the logical order will
be made anew. -/
def ofSchema (s : Schema) : SchemaBuilder :=
  ⟨shapeOf s, s.props.erase Canonical.orderKey, none⟩

def entries (b : SchemaBuilder) : List Entry :=
  match b.shape with
  | .record entries => entries.entries
  | _ => []

def onEntries (b : SchemaBuilder) (operation : Operation)
    (change : EntryList → Result EntryList) : Result SchemaBuilder :=
  match b.shape with
  | .record entries => do return { b with shape := .record (← change entries) }
  | other => .error (.builderState operation .record other.kind?)

def withEntry (b : SchemaBuilder) (e : Entry) : Result SchemaBuilder :=
  b.onEntries .entry fun l => .ok (l.add e).2

def placed (e : Entry) (pivot : String) (move : EntryList → String → Result EntryList)
    (l : EntryList) : Result EntryList :=
  if l.contains pivot then
    let (stored, l) := l.add e
    move l stored.name
  else .error (.notInSchema pivot)

def withEntryBefore (b : SchemaBuilder) (pivot : String) (e : Entry) : Result SchemaBuilder :=
  b.onEntries .entry (placed e pivot fun l name => l.moveBefore pivot name)

def withEntryAfter (b : SchemaBuilder) (pivot : String) (e : Entry) : Result SchemaBuilder :=
  b.onEntries .entry (placed e pivot fun l name => l.moveAfter pivot name)

def remove (b : SchemaBuilder) (name : String) : Result SchemaBuilder :=
  b.onEntries .remove fun l => .ok (l.remove name).2

/-- Removes an entry if what is stored under its name equals it. -/
def removeEntry (b : SchemaBuilder) (e : Entry) : Result SchemaBuilder :=
  b.onEntries .remove fun l =>
    .ok (if l.get? e.name == some e then (l.remove e.name).2 else l)

def moveBefore (b : SchemaBuilder) (pivot name : String) : Result SchemaBuilder :=
  b.onEntries .move fun l => l.moveBefore pivot name

def moveAfter (b : SchemaBuilder) (pivot name : String) : Result SchemaBuilder :=
  b.onEntries .move fun l => l.moveAfter pivot name

def swap (b : SchemaBuilder) (first second : String) : Result SchemaBuilder :=
  b.onEntries .swap fun l => l.swap first second

def withElement (b : SchemaBuilder) (element : Schema) : Result SchemaBuilder :=
  match b.shape with
  | .array _ nullable => .ok { b with shape := .array (some element) nullable }
  | other => .error (.builderState .elementSchema .array other.kind?)

def withElementNullable (b : SchemaBuilder) (nullable : Bool) : Result SchemaBuilder :=
  match b.shape with
  | .array element _ => .ok { b with shape := .array element nullable }
  | other => .error (.builderState .elementNullability .array other.kind?)

def withRecordName (b : SchemaBuilder) (name : String) : SchemaBuilder :=
  { b with recordName := some name }

def withProp (b : SchemaBuilder) (key value : String) : SchemaBuilder :=
  { b with props := b.props.insert key value }

def withProps (b : SchemaBuilder) (pairs : List (String × String)) : SchemaBuilder :=
  { b with props := b.props.insertAll pairs }

/-- A record, named by its content where no name is given. No name may stand for two records
in it. -/
def checkedRecord (recordName : Option String) (entries : List Entry) (props : Props) :
    Result Schema := do
  let name := recordName.getD (Schema.contentName entries props)
  let schema := Schema.record name entries props
  let _ ← Canonical.checkNames [] schema.compiled
  return schema

def finishRecord (recordName : Option String) (entries : List Entry) (props : Props)
    (ordered : List Entry) : Result Schema :=
  checkedRecord recordName entries
    (props.insert Canonical.orderKey (OrderText.join (ordered.map Entry.name)))

/-- Builds the schema; `arrange` gives the logical order of the entries. Properties of a
scalar are dropped, and a record without entries, properties and name is the shared one. -/
def finish (b : SchemaBuilder) (arrange : List Entry → List Entry) : Result Schema :=
  match b.shape with
  | .untyped => .error .missingType
  | .scalar k => .ok (.scalar k)
  | .record entries =>
    if entries.isEmpty && b.props.isEmpty && b.recordName.isNone then .ok .emptyRecord
    else finishRecord b.recordName entries.entries b.props (arrange entries.entries)
  | .array none _ => .error .missingElementSchema
  | .array (some element) nullable => .ok (.array element nullable b.props)

def build (b : SchemaBuilder) : Result Schema := b.finish id

/-- The logical order is that of `compare`; entries that it does not tell apart keep the
order of their declarations. -/
def buildWithOrder (b : SchemaBuilder) (compare : Entry → Entry → Ordering) : Result Schema :=
  b.finish fun entries => entries.mergeSort fun x y => (compare x y).isLE

def buildListed (b : SchemaBuilder) (listed : List String) : Result Schema :=
  b.buildWithOrder fun x y =>
    compare (OrderText.place listed x.name) (OrderText.place listed y.name)

end SchemaBuilder

namespace Schema

def toBuilder (s : Schema) : SchemaBuilder := SchemaBuilder.ofSchema s

end Schema
end TypedRecords
