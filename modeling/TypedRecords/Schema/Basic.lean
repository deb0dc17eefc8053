import TypedRecords.Canonical.Document
import TypedRecords.Fingerprint
import TypedRecords.Schema.OrderText

/-! Schemas and the entries of records.
A schema is a scalar, a record of named entries or an array. Entries keep the order in
which they were declared; the logical order is a property of the record. All builders
share one record without entries, which is told apart from others like it, though it is
equal to them. -/
namespace TypedRecords

mutual
inductive Schema where
  | scalar (kind : ScalarKind)
  | emptyRecord
  | record (name : String) (entries : List Entry) (props : Props)
  | array (element : Schema) (elementNullable : Bool) (props : Props)

structure Entry where
  name : String
  rawName : Option String
  schema : Schema
  nullable : Bool
  metadata : Bool
  comment : Option String
  default : Option Json
  props : Props
end

namespace Schema

/-- The properties of the shared record without entries: an empty logical order. -/
def emptyRecordProps : Props := Props.empty.insert Canonical.orderKey ""

mutual
def beq : Schema → Schema → Bool
  | .scalar a, .scalar b => a == b
  | .emptyRecord, .emptyRecord => true
  | .emptyRecord, .record n es p | .record n es p, .emptyRecord =>
    n == Canonical.emptyRecordName && es.isEmpty && p == emptyRecordProps
  | .record n es p, .record m fs q => n == m && beqEntries es fs && p == q
  | .array a n p, .array b m q => beq a b && n == m && p == q
  | _, _ => false

def beqEntries : List Entry → List Entry → Bool
  | [], [] => true
  | ⟨n, r, a, u, t, c, d, p⟩ :: es, ⟨m, s, b, v, w, c', d', q⟩ :: fs =>
    n == m && r == s && beq a b && u == v && t == w && c == c' && d == d' && p == q
      && beqEntries es fs
  | _, _ => false
end

instance : BEq Schema := ⟨beq⟩

def kind : Schema → Kind
  | .scalar k => .scalar k
  | .emptyRecord => .record
  | .record .. => .record
  | .array .. => .array

def isEmptyRecord : Schema → Bool
  | .emptyRecord => true
  | _ => false

def recordName? : Schema → Option String
  | .emptyRecord => some Canonical.emptyRecordName
  | .record name _ _ => some name
  | _ => none

def entries : Schema → List Entry
  | .record _ entries _ => entries
  | _ => []

def props : Schema → Props
  | .scalar _ => Props.empty
  | .emptyRecord => emptyRecordProps
  | .record _ _ props => props
  | .array _ _ props => props

def element? : Schema → Option Schema
  | .array element _ _ => some element
  | _ => none

def elementNullable : Schema → Bool
  | .array _ nullable _ => nullable
  | _ => false

def entriesOrdered (s : Schema) : List Entry :=
  match s.props.find? Canonical.orderKey with
  | none => s.entries
  | some order => OrderText.arrange Entry.name (OrderText.split order) s.entries

/-- The place of an entry: by its name, then by its label, then by the name that the
label would get. -/
def entryIndex? (s : Schema) (name : String) : Option Nat :=
  let named := fun n => s.entries.findIdx? fun e => e.name == n
  (named name).or
    ((s.entries.findIdx? fun e => e.rawName == some name).or
      (named (Identifier.sanitize name)))

def entry? (s : Schema) (name : String) : Option Entry :=
  (s.entryIndex? name).bind fun i => s.entries[i]?

end Schema

namespace Entry

def beq (a b : Entry) : Bool := Schema.beqEntries [a] [b]

instance : BEq Entry := ⟨beq⟩

def shownName (e : Entry) : String := e.rawName.getD e.name

def kind (e : Entry) : Kind := e.schema.kind

/-- The record type of a record entry, the element type of an array entry. -/
def element? (e : Entry) : Option Schema :=
  match e.kind with
  | .record => some e.schema
  | .array => e.schema.element?
  | .scalar _ => none

def renamed (e : Entry) (name : String) : Entry := { e with name := name }

def sameDeclaration (a b : Entry) : Bool :=
  a.rawName == b.rawName && a.nullable == b.nullable && a.metadata == b.metadata
    && a.comment == b.comment && a.default == b.default && a.props == b.props
    && a.schema == b.schema

end Entry

namespace ScalarKind

def canonical : ScalarKind → Canonical
  | .string => .primitive .string
  | .int => .primitive .int
  | .long => .primitive .long
  | .float => .primitive .float
  | .double => .primitive .double
  | .boolean => .primitive .boolean
  | .bytes => .primitive .bytes
  | .datetime => .timestampMillis

end ScalarKind

namespace Schema

def nullableIf (nullable : Bool) (c : Canonical) : Canonical :=
  if nullable then c.wrapNullable else c

/-- The properties of a field: those of the entry and its label. -/
def fieldProps (props : Props) (rawName : Option String) : Props :=
  match rawName with
  | some label => props.insert Canonical.labelKey label
  | none => props

mutual
def compiled : Schema → Canonical
  | .scalar kind => kind.canonical
  | .emptyRecord =>
    .record Canonical.emptyRecordName Canonical.recordSpace [] emptyRecordProps
  | .record name entries props =>
    .record name Canonical.recordSpace (compiledEntries entries) props
  | .array element nullable props => .array (nullableIf nullable element.compiled) props

def compiledEntries : List Entry → List Canonical.Field
  | [] => []
  | ⟨name, rawName, schema, nullable, metadata, comment, default, props⟩ :: rest =>
    { name := name
      type := nullableIf nullable schema.compiled
      doc := comment
      default := default
      aliases := if metadata then [Canonical.metadataAlias] else []
      props := fieldProps props rawName } :: compiledEntries rest
end

def toCanonicalJson (s : Schema) : Json := s.compiled.toJson

/-- A name made from everything in a record but its name. -/
def contentName (entries : List Entry) (props : Props) : String :=
  let content := Canonical.record "" Canonical.recordSpace (compiledEntries entries) props
  (Fingerprint.ofJson content.toJson).recordName Canonical.recordStem

end Schema
end TypedRecords
