import TypedRecords.Avro.Varint
import TypedRecords.Avro.Conformance

/-! Data as bytes.
The bytes of a datum follow from the datum alone, while reading needs the type. Where the
bytes end early, a text, a truth value or the index of a union is read as null, and any
other datum is a fault. -/
namespace TypedRecords.Avro

def littleEndian : (count n : Nat) → List UInt8
  | 0, _ => []
  | count + 1, n => UInt8.ofNat (n % 256) :: littleEndian count (n / 256)

def ofLittleEndian : List UInt8 → Nat
  | [] => 0
  | b :: rest => b.toNat + 256 * ofLittleEndian rest

namespace Datum

def counted (bs : List UInt8) : List UInt8 := Varint.encode bs.length ++ bs

/-- A row of items is written as one block, with an empty block for its end. -/
def block (count : Nat) (items : List UInt8) : List UInt8 :=
  if count = 0 then [0] else Varint.encode count ++ items ++ [0]

mutual
def encode : Datum → List UInt8
  | .null => []
  | .boolean b => [if b then 1 else 0]
  | .int n => Varint.encode n.toInt
  | .long n => Varint.encode n.toInt
  | .float x => littleEndian 4 x.bits.toNat
  | .double x => littleEndian 8 x.bits.toNat
  | .bytes bs => counted bs
  | .string s => counted (Text.utf8 s)
  | .temporal _ n => Varint.encode n.toInt
  | .uuid text => counted (Text.utf8 text)
  | .decimal carrier => carrier.encode
  | .duration months days millis =>
    littleEndian 4 months.toNat ++ littleEndian 4 days.toNat ++ littleEndian 4 millis.toNat
  | .fixed bs => bs
  | .enum index _ => Varint.encode index
  | .array items => block items.length (encodeItems items)
  | .map values => block values.length (encodeValues values)
  | .record fields => encodeFields fields
  | .union index d => Varint.encode index ++ d.encode

def encodeItems : List Datum → List UInt8
  | [] => []
  | d :: rest => d.encode ++ encodeItems rest

def encodeValues : List (String × Datum) → List UInt8
  | [] => []
  | (key, d) :: rest => counted (Text.utf8 key) ++ d.encode ++ encodeValues rest

def encodeFields : List (String × Datum) → List UInt8
  | [] => []
  | (_, d) :: rest => d.encode ++ encodeFields rest
end

end Datum

abbrev Reader (α : Type) := List UInt8 → Result (α × List UInt8)

namespace Reader

def maxLength : Nat := 536870912

def whole : Reader Int := fun bytes => require .avro (Varint.decode bytes).toOption

def take (count : Nat) : Reader (List UInt8) := fun bytes =>
  let front := bytes.take count
  if front.length = count then .ok (front, bytes.drop count) else .error .avro

def number (count : Nat) : Reader Nat := fun bytes => do
  let (front, rest) ← take count bytes
  return (ofLittleEndian front, rest)

def length : Reader Nat := fun bytes => do
  let (n, rest) ← whole bytes
  if 0 ≤ n && n ≤ maxLength then return (n.toNat, rest) else .error .avro

def counted : Reader (List UInt8) := fun bytes => do
  let (count, rest) ← length bytes
  take count rest

/-- A text, or null if the bytes end before it does. -/
def text : Reader Datum := fun bytes => do
  let (count, rest) ← length bytes
  match take count rest with
  | .error _ => return (.null, [])
  | .ok (front, rest) => return (.string (← require .avro (Text.ofUtf8? front)), rest)

/-- The number of items in a block; a negative count goes before the size of the block. -/
def blockLength : Reader Nat := fun bytes => do
  let (n, rest) ← whole bytes
  if n < 0 then
    let (_, rest) ← whole rest
    if n.natAbs ≤ maxLength then return (n.natAbs, rest) else .error .avro
  else if n ≤ maxLength then return (n.toNat, rest)
  else .error .avro

def times {α : Type} (item : Reader α) : Nat → Reader (List α)
  | 0 => fun bytes => .ok ([], bytes)
  | count + 1 => fun bytes => do
    let (a, rest) ← item bytes
    let (as, rest) ← times item count rest
    return (a :: as, rest)

def blocksUpTo {α : Type} (item : Reader α) : (count : Nat) → Reader (List α)
  | 0 => fun _ => .error .avro
  | count + 1 => fun bytes => do
    let (length, rest) ← blockLength bytes
    if length = 0 then return ([], rest)
    else
      let (as, rest) ← times item length rest
      let (others, rest) ← blocksUpTo item count rest
      return (as ++ others, rest)

def blocks {α : Type} (item : Reader α) : Reader (List α) := fun bytes =>
  blocksUpTo item (bytes.length + 1) bytes

def entry {α : Type} (value : Reader α) : Reader (String × α) := fun bytes => do
  match ← text bytes with
  | (.string key, rest) =>
    let (a, rest) ← value rest
    return ((key, a), rest)
  | _ => .error .avro

def short : Reader Int := fun bytes => do
  let (n, rest) ← whole bytes
  if fitsSigned 32 n then return (n, rest) else .error .avro

def boolean : Reader Datum
  | [] => .ok (.null, [])
  | 0 :: rest => .ok (.boolean false, rest)
  | 1 :: rest => .ok (.boolean true, rest)
  | _ :: _ => .error .avro

def primitive : Primitive → Reader Datum
  | .null => fun bytes => .ok (.null, bytes)
  | .boolean => boolean
  | .int => fun bytes => (short bytes).map fun (n, rest) => (.int (Int32.ofInt n), rest)
  | .long => fun bytes => (whole bytes).map fun (n, rest) => (.long (Int64.ofInt n), rest)
  | .float => fun bytes =>
    (number 4 bytes).map fun (n, rest) => (.float ⟨UInt32.ofNat n⟩, rest)
  | .double => fun bytes =>
    (number 8 bytes).map fun (n, rest) => (.double ⟨UInt64.ofNat n⟩, rest)
  | .bytes => fun bytes => (counted bytes).map fun (front, rest) => (.bytes front, rest)
  | .string => text

def temporal (t : Temporal) : Reader Datum := fun bytes => do
  let (n, rest) ← if t.base == .int then short bytes else whole bytes
  return (.temporal t (Int64.ofInt n), rest)

def uuid : Reader Datum := fun bytes => do
  match ← text bytes with
  | (.string s, rest) => return (.uuid (← require .avro (Uuid.ofText? s)), rest)
  | _ => .error .avro

def duration : Reader Datum := fun bytes => do
  let (months, rest) ← number 4 bytes
  let (days, rest) ← number 4 rest
  let (millis, rest) ← number 4 rest
  return (.duration (UInt32.ofNat months) (UInt32.ofNat days) (UInt32.ofNat millis), rest)

def maxFixed : Nat := twoTo 63 - 1

def fixed (size : Nat) : Reader Datum := fun bytes => do
  if maxFixed < size then .error (.abort .size)
  else
    let (front, rest) ← take size bytes
    return (.fixed front, rest)

def symbol (symbols : List String) : Reader Datum := fun bytes => do
  let (n, rest) ← short bytes
  if n < 0 then .error .avro
  else return (.enum n.toNat (← require .avro symbols[n.toNat]?), rest)

mutual
/-- Reads data of a type. What stands behind a name is read by `refs`. -/
def datum (refs : Name → Reader Datum) (space : String) : WireType → Reader Datum
  | .primitive p => primitive p
  | .temporal t => temporal t
  | .uuid => uuid
  | .decimal _ _ carrier => fun bytes => do
    let (d, rest) ← datum refs space carrier bytes
    return (.decimal d, rest)
  | .duration => duration
  | .array items => fun bytes => do
    let (ds, rest) ← blocks (datum refs space items) bytes
    return (.array ds, rest)
  | .map values => fun bytes => do
    let (ds, rest) ← blocks (entry (datum refs space values)) bytes
    return (.map (Assoc.insertAll [] ds), rest)
  | .union branches => fun bytes =>
    match Varint.decode bytes with
    | .error .ended => .ok (.union 0 .null, [])
    | .error .overlong => .error .avro
    | .ok (n, rest) =>
      if n < 0 then .error .avro else branch refs space n.toNat n.toNat branches rest
  | .enum _ symbols _ => symbol symbols
  | .fixed _ size => fixed size
  | .record name fields => fun bytes => do
    let (ds, rest) ← recordFields refs (name.within space).space fields bytes
    return (.record ds, rest)
  | .reference name => fun bytes => refs (name.within space) bytes

def branch (refs : Name → Reader Datum) (space : String) (index skip : Nat) :
    List WireType → Reader Datum
  | [] => fun _ => .error .avro
  | t :: rest => fun bytes =>
    match skip with
    | 0 => do
      let (d, rest) ← datum refs space t bytes
      return (.union index d, rest)
    | skip + 1 => branch refs space index skip rest bytes

def recordFields (refs : Name → Reader Datum) (space : String) :
    List WireType.Field → Reader (List (String × Datum))
  | [] => fun bytes => .ok ([], bytes)
  | ⟨name, type, _, _⟩ :: fields => fun bytes => do
    let (d, rest) ← datum refs space type bytes
    let (ds, rest) ← recordFields refs space fields rest
    return ((name, d) :: ds, rest)
end

def behind (defs : WireType.Definitions) : (depth : Nat) → Name → Reader Datum
  | 0, _ => fun _ => .error .avro
  | depth + 1, name => fun bytes =>
    match defs.lookup name with
    | none => .error .avro
    | some t => datum (behind defs depth) name.space t bytes

/-- Data that repeat a name without taking a byte would never end. -/
def nesting (defs : WireType.Definitions) (bytes : List UInt8) : Nat :=
  (defs.length + 1) * (bytes.length + 1)

def ofType (defs : WireType.Definitions) (t : WireType) : Reader Datum := fun bytes =>
  datum (behind defs (nesting defs bytes)) "" t bytes

end Reader
end TypedRecords.Avro
