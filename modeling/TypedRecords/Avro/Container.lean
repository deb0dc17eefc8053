import TypedRecords.Avro.Binary
import TypedRecords.Avro.Document
import TypedRecords.Compression
import TypedRecords.Json.Parser
import TypedRecords.Json.Printer
import TypedRecords.Sha256

/-! Containers of data.
A container opens with a header, which names the type of its data in a document and the
compression, and may hold metadata of its users. Blocks of data follow, each closed by the
marker that the header ends with. A container without data has not even a header. -/
namespace TypedRecords.Avro

abbrev Metadata := List (String × List UInt8)

namespace Container

def magic : List UInt8 := [0x4f, 0x62, 0x6a, 1]

def markerLength : Nat := 16

def reservedStem : String := "avro."

def typeKey : String := "avro.schema"

def compressionKey : String := "avro.codec"

structure Header where
  type : WireType
  compression : Compression
  metadata : Metadata
  marker : List UInt8

structure Block where
  count : Nat
  bytes : List UInt8
  deriving DecidableEq, Repr

/-! Writing. -/

/-- A block is closed by the datum with which it reaches this size. -/
def blockSize : Nat := 16000

def metadataFor (type : WireType) (compression : Compression) (metadata : Metadata) : Metadata :=
  Assoc.insertAll
    [(compressionKey, Text.utf8 compression.name), (typeKey, Text.utf8 type.toJson.compact)]
    metadata

def encodeMetadata (metadata : Metadata) : List UInt8 :=
  (Datum.map (metadata.map fun p => (p.1, .bytes p.2))).encode

def markerFor (bytes : List UInt8) : List UInt8 := (Sha256.digest bytes).take markerLength

def fill (size : Nat) : List (List UInt8) → List (List UInt8) × List (List UInt8)
  | [] => ([], [])
  | d :: rest =>
    if blockSize ≤ size + d.length then ([d], rest)
    else
      let (front, back) := fill (size + d.length) rest
      (d :: front, back)

def blocksUpTo : (count : Nat) → List (List UInt8) → List Block
  | 0, _ => []
  | _ + 1, [] => []
  | count + 1, data =>
    let (front, back) := fill 0 data
    ⟨front.length, front.flatten⟩ :: blocksUpTo count back

def blocksOf (data : List (List UInt8)) : List Block := blocksUpTo data.length data

def encodeBlock (compression : Compression) (marker : List UInt8) (b : Block) : List UInt8 :=
  let bytes := compression.compress b.bytes
  Varint.encode b.count ++ Varint.encode bytes.length ++ bytes ++ marker

def write (type : WireType) (compression : Compression) (metadata : Metadata)
    (data : List Datum) : List UInt8 :=
  if data.isEmpty then []
  else
    let opening := magic ++ encodeMetadata (metadataFor type compression metadata)
    let marker := markerFor opening
    let blocks := blocksOf (data.map Datum.encode)
    opening ++ marker ++ blocks.flatMap (encodeBlock compression marker)

/-! Reading. -/

def readType (metadata : Metadata) : Result WireType := do
  let bytes ← require .avro (Assoc.find? typeKey metadata)
  let text ← require .avro (Text.ofUtf8? bytes)
  WireType.ofJson (← require .avro (Json.parse text))

def readCompression (metadata : Metadata) : Result Compression :=
  match Assoc.find? compressionKey metadata with
  | none => .ok .null
  | some bytes => require .avro ((Text.ofUtf8? bytes).bind Compression.ofName?)

def readMetadata (bytes : List UInt8) : Result (Metadata × List UInt8) := do
  let (start, rest) ← Reader.take magic.length bytes
  if start = magic then
    let (pairs, rest) ← Reader.blocks (Reader.entry Reader.counted) rest
    return (Assoc.insertAll [] pairs, rest)
  else .error .avro

def readMarker (bytes : List UInt8) : Result (List UInt8 × List UInt8) :=
  Reader.take markerLength bytes

def readHeader (bytes : List UInt8) : Result (Header × List UInt8) := do
  let (metadata, rest) ← readMetadata bytes
  let type ← readType metadata
  let compression ← readCompression metadata
  let (marker, rest) ← readMarker rest
  let own := metadata.filter fun p => !p.1.startsWith reservedStem
  return (⟨type, compression, own, marker⟩, rest)

/-- The number of data that a whole number announces; what is negative is more than any
block holds. -/
def countOf (n : Int) : Nat := if n < 0 then twoTo 64 - n.natAbs else n.toNat

def nextBlock (compression : Compression) (marker bytes : List UInt8) :
    Result (Option (Block × List UInt8)) :=
  match Varint.decode bytes with
  | .error .ended => .ok none
  | .error .overlong => .error .avro
  | .ok (n, rest) => do
    let (content, rest) ← Reader.counted rest
    let (closing, rest) ← readMarker rest
    if closing = marker then
      let content ← require .avro (compression.decompress? content)
      return if n = 0 then none else some (⟨countOf n, content⟩, rest)
    else .error .avro

def readBlocks (compression : Compression) (marker : List UInt8) :
    (count : Nat) → List UInt8 → List (Result Block)
  | 0, _ => []
  | count + 1, bytes =>
    match nextBlock compression marker bytes with
    | .error e => [.error e]
    | .ok none => []
    | .ok (some (b, rest)) => .ok b :: readBlocks compression marker count rest

def blocks (compression : Compression) (marker bytes : List UInt8) : List (Result Block) :=
  readBlocks compression marker bytes.length bytes

/-- The data of a block before `later` data. A datum that takes no byte is a fault, and
bytes that are left over do not count. -/
def blockData (reader : Reader Datum) (later : List (Result Datum)) :
    (count : Nat) → List UInt8 → List (Result Datum)
  | 0, _ => later
  | count + 1, bytes =>
    match reader bytes with
    | .error e => [.error e]
    | .ok (d, rest) =>
      if rest.length < bytes.length then .ok d :: blockData reader later count rest
      else [.error .avro]

/-- The data of blocks up to the first fault. There cannot be more data than bytes. -/
def dataOf (reader : Reader Datum) : List (Result Block) → List (Result Datum)
  | [] => []
  | .error e :: _ => [.error e]
  | .ok b :: rest =>
    blockData reader (dataOf reader rest) (min b.count (b.bytes.length + 1)) b.bytes

def datumReader (type : WireType) : Reader Datum :=
  match type.definitions with
  | .ok defs => Reader.ofType defs type
  | .error e => fun _ => .error e

def data (h : Header) (bytes : List UInt8) : List (Result Datum) :=
  dataOf (datumReader h.type) (blocks h.compression h.marker bytes)

end Container
end TypedRecords.Avro
