import TypedRecords.Record.Basic

/-! Records as JSON.
What is read is converted by the type it goes to. A key of an object may be an entry's
name or its label; keys are taken in their order, and of two that mean one entry the later
one counts. Entries that no key means are null, or get the default that they declare. -/
namespace TypedRecords

abbrev Converter := (name : String) → Json → Result Value

/-- The values written so far, by entry name. -/
abbrev Written := List (String × Value)

namespace Written

def write (written : Written) (e : Entry) (v : Value) : Result Written := do
  v.validate e.schema e.nullable e.name
  return Assoc.insert e.name v written

def fallback (e : Entry) (convert : Converter) : Result Value :=
  match e.default with
  | none => .error (.missingValue e.name)
  | some j => do
    let v ← convert "value" j
    v.validate e.schema false e.name
    return v

/-- A value for every entry: what was written, else null, else the default. -/
def fill (written : Written) : List Entry → List Converter → Result (List Value)
  | e :: entries, convert :: converters => do
    let v ← match Assoc.find? e.name written with
      | some v => pure v
      | none => if e.nullable then pure .null else fallback e convert
    return v :: (← fill written entries converters)
  | _, _ => .ok []

end Written

namespace Schema

def bytesOfJson? : Json → Option (List UInt8)
  | .str s => some s.toUTF8.toList
  | .arr items => items.mapM Json.byte?
  | _ => none

/-- Reads an instant from its text or from its milliseconds. -/
def instantOfJson? : Json → Option Instant
  | .str s => Instant.ofText? s
  | j => j.int64?.bind fun ms => Instant.ofMillis? ms.toInt

def scalarOfJson? (j : Json) : ScalarKind → Option Value
  | .string => j.str?.map .string
  | .int => j.int32?.map .int
  | .long => j.int64?.map .long
  | .float => j.binary64?.map fun x => .float x.toBinary32
  | .double => j.binary64?.map .double
  | .boolean => j.bool?.map .boolean
  | .bytes => (bytesOfJson? j).map .bytes
  | .datetime => (instantOfJson? j).map .datetime

def unlessNull (convert : Converter) : Converter := fun name j =>
  if j.isNull then .ok .null else convert name j

def unreadable (kind : Kind) (name : String) (j : Json) : SchemaError :=
  .format (.unreadable name j kind)

def writeFields (s : Schema) (converters : List Converter) (written : Written) :
    List (String × Json) → Result Written
  | [] => .ok written
  | (key, j) :: rest =>
    match s.entryIndex? key with
    | none => .error (.notInSchema key)
    | some i =>
      match s.entries[i]?, converters[i]? with
      | some e, some convert => do
        let v ← convert e.name j
        writeFields s converters (← written.write e v) rest
      | _, _ => .error (.notInSchema key)

def readRecord (s : Schema) (converters : List Converter) (j : Json) : Result Record :=
  match j.fields? with
  | none => .error (unreadable s.kind (s.recordName?.getD "record") j)
  | some fields => do
    if s.kind = .record then
      let written ← writeFields s converters [] fields
      return ⟨s, ← written.fill s.entries converters⟩
    else .error (.builderState .record .record (some s.kind))

def readItems (convert : Converter) (name : String) (index : Nat) :
    List Json → Result (List Value)
  | [] => .ok []
  | j :: rest => do
    let v ← convert (Value.itemName name index) j
    return v :: (← readItems convert name (index + 1) rest)

mutual
def converter : Schema → Converter
  | .scalar k => unlessNull fun name j =>
    match scalarOfJson? j k with
    | some v => .ok v
    | none => .error (unreadable (.scalar k) name j)
  | .emptyRecord => unlessNull fun _ j => return .record (← readRecord .emptyRecord [] j)
  | .record name entries props =>
    let converters := converters entries
    unlessNull fun _ j => return .record (← readRecord (.record name entries props) converters j)
  | .array element _ _ =>
    let convert := converter element
    unlessNull fun name j =>
      match j.items? with
      | none => .error (unreadable .array name j)
      | some items => return .array (← readItems convert name 0 items)

def converters : List Entry → List Converter
  | [] => []
  | ⟨_, _, schema, _, _, _, _, _⟩ :: rest => converter schema :: converters rest
end

end Schema

namespace Value

def ofJson (s : Schema) (j : Json) : Result Value := s.converter "value" j

def floatToJson (x : Binary64) : Json := if x.isFinite then .float x else .null

mutual
def toJson : Value → Json
  | .null => .null
  | .string s => .str s
  | .int n => .int n.toInt
  | .long n => .int n.toInt
  | .float x => floatToJson x.toBinary64
  | .double x => floatToJson x
  | .boolean b => .bool b
  | .bytes bs => .arr (bs.map fun b => .int b.toNat)
  | .datetime t => .str t.text
  | .record ⟨s, values⟩ => Json.ofFields ((s.entries.map Entry.name).zip (itemsToJson values))
  | .array items => .arr (itemsToJson items)

def itemsToJson : List Value → List Json
  | [] => []
  | v :: rest => v.toJson :: itemsToJson rest
end

end Value

namespace Record

def ofJson (s : Schema) (j : Json) : Result Record :=
  s.readRecord (Schema.converters s.entries) j

def toJson (r : Record) : Json := (Value.record r).toJson

end Record
end TypedRecords
