import TypedRecords.Avro.Container
import TypedRecords.Canonical.Decompile
import TypedRecords.Record.Datum

/-! Records in containers.
The document of the records' schema is kept twice: as the type of the data, and whole in the
metadata, where nothing of it is lost. A container without such metadata is read by the
type of its data. -/
namespace TypedRecords

open Avro

structure Codec where
  compression : Compression
  strictOrder : Bool
  deriving DecidableEq, Repr

namespace Codec

def default : Codec := ⟨.deflate, false⟩

def schemaKey : String := "familiar.schema"

def schemaMetadata (s : Schema) : Metadata :=
  [(schemaKey, Text.utf8 s.toCanonicalJson.compact)]

/-- The datum of a record, which must have been made for an equal schema and must go with
the type that a container of such records has. -/
def storedDatum (s : Schema) (type : WireType) (r : Record) : Result Datum := do
  if r.schema == s then
    let d ← r.toDatum
    let defs ← type.definitions
    if type.conforms defs "" d then return d else .error .avro
  else
    .error (.schemaMismatch (.written (r.schema.recordName?.getD "") (s.recordName?.getD "")))

def storedData (s : Schema) (records : List Record) : Result (WireType × List Datum) := do
  if s.kind = .record then
    let type ← WireType.ofJson s.toCanonicalJson
    return (type, ← records.mapM (storedDatum s type))
  else .error (.builderState .encode .record (some s.kind))

def encodeAll (c : Codec) (s : Schema) (records : List Record) : Result (List UInt8) := do
  let (type, data) ← storedData s records
  return Container.write type c.compression (schemaMetadata s) data

def encode (c : Codec) (s : Schema) (r : Record) : Result (List UInt8) := c.encodeAll s [r]

def encodeRecord (c : Codec) (r : Record) : Result (List UInt8) := c.encode r.schema r

def storedDocument (h : Container.Header) : Result Json :=
  match Assoc.find? schemaKey h.metadata with
  | none => .ok h.type.toJson
  | some bytes =>
    match (Text.ofUtf8? bytes).bind Json.parse with
    | some j => .ok j
    | none => .error .json

def storedSchema (c : Codec) (h : Container.Header) : Result Schema := do
  let s ← Schema.ofCanonical (← Canonical.ofJson (← storedDocument h)) c.strictOrder
  if s.kind = .record then return s else .error (.format (.containerKind s.kind))

def recordsOfData (s : Schema) (data : List (Result Datum)) : Result (List Record) :=
  data.mapM fun d => do Record.ofDatum s (← d)

def decodeAll (c : Codec) (bytes : List UInt8) : Result (Schema × List Record) := do
  let (h, rest) ← Container.readHeader bytes
  let s ← c.storedSchema h
  return (s, ← recordsOfData s (Container.data h rest))

def decode (c : Codec) (bytes : List UInt8) : Result Record := do
  match ← c.decodeAll bytes with
  | (_, [r]) => return r
  | (_, records) => .error (.format (.recordCount records.length))

end Codec
end TypedRecords
