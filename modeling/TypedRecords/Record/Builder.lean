import TypedRecords.Record.Json

/-! Building records.
A bound builder checks every write against the entry it goes to. An unbound one declares
entries from what is written: a name written again with another type keeps the new value,
and the older entry moves with its value to the next free numbered name. Labels that only
meet as identifiers leave the older entry in its place. -/
namespace TypedRecords

inductive EntryKey where
  | label (label : String)
  | entry (entry : Entry)

inductive RecordBuilder.Binding where
  | bound (schema : Schema)
  | unbound (entries : EntryList)

structure RecordBuilder where
  binding : RecordBuilder.Binding
  written : Written

namespace RecordBuilder

def bound (s : Schema) : Result RecordBuilder :=
  if s.kind = .record then .ok ⟨.bound s, []⟩
  else .error (.builderState .record .record (some s.kind))

def unbound : RecordBuilder := ⟨.unbound EntryList.empty, []⟩

def keyName : EntryKey → String
  | .label label => label
  | .entry e => e.name

mutual
/-- The type that a value shows: of an array, by its first item that is not null. -/
def inferSchema : Value → Result Schema
  | .null => .error .missingType
  | .string _ => .ok (.scalar .string)
  | .int _ => .ok (.scalar .int)
  | .long _ => .ok (.scalar .long)
  | .float _ => .ok (.scalar .float)
  | .double _ => .ok (.scalar .double)
  | .boolean _ => .ok (.scalar .boolean)
  | .bytes _ => .ok (.scalar .bytes)
  | .datetime _ => .ok (.scalar .datetime)
  | .record ⟨s, _⟩ => .ok s
  | .array items => do return .array (← inferElement items) true Props.empty

def inferElement : List Value → Result Schema
  | [] => .error .missingElementSchema
  | v :: rest => if v.isNull then inferElement rest else inferSchema v
end

/-- Whether a plain redeclaration takes the name of a plain entry. -/
def displaces (new old : Entry) : Bool :=
  !old.sameDeclaration new && old.rawName.isNone && new.rawName.isNone

def displace (entries : EntryList) (written : Written) (old : Entry) :
    Result (EntryList × Written) := do
  let name := (Identifier.resolve old.name entries.names).name
  let entries ← entries.replace old.name (old.renamed name)
  match Assoc.find? old.name written with
  | some v => return (entries, Assoc.insert name v (Assoc.erase old.name written))
  | none => return (entries, written)

def declareLabel (entries : EntryList) (written : Written) (label : String) (v : Value) :
    Result (Entry × EntryList × Written) := do
  let schema ← inferSchema v
  let new ← (EntryBuilder.empty.withName label |>.withSchema schema |>.withNullable true).build
  let (entries, written) ← match entries.get? new.name with
    | some old =>
      if displaces new old then displace entries written old else pure (entries, written)
    | none => pure (entries, written)
  let (stored, entries) := entries.add new
  return (stored, entries, written)

def declare (entries : EntryList) (written : Written) (key : EntryKey) (v : Value) :
    Result (Entry × EntryList × Written) :=
  match key with
  | .entry e =>
    let (stored, entries) := entries.add e
    .ok (stored, entries, written)
  | .label label => declareLabel entries written label v

/-- Writes a value. What fails leaves the builder that was there. -/
def write (b : RecordBuilder) (key : EntryKey) (v : Value) : Result RecordBuilder :=
  match b.binding with
  | .bound s =>
    match s.entry? (keyName key) with
    | none => .error (.notInSchema (keyName key))
    | some e => do return { b with written := ← b.written.write e v }
  | .unbound entries => do
    let (e, entries, written) ← declare entries b.written key v
    return ⟨.unbound entries, ← Written.write written e v⟩

def writeTimestamp (b : RecordBuilder) (key : EntryKey) (millis : Int) : Result RecordBuilder :=
  match Instant.ofMillis? millis with
  | some t => b.write key (.datetime t)
  | none => .error (.format (.timestampRange millis))

def writeDatetime (b : RecordBuilder) (key : EntryKey) (t : Instant) : Result RecordBuilder :=
  b.writeTimestamp key t.millis

def entries (b : RecordBuilder) : List Entry :=
  match b.binding with
  | .bound s => s.entries
  | .unbound entries => entries.entries

def schema (b : RecordBuilder) : Result Schema :=
  match b.binding with
  | .bound s => .ok s
  | .unbound entries => (SchemaBuilder.ofEntries entries).build

def build (b : RecordBuilder) : Result Record := do
  let s ← b.schema
  return ⟨s, ← b.written.fill s.entries (Schema.converters s.entries)⟩

end RecordBuilder
end TypedRecords
