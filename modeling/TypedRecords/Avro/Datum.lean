import TypedRecords.Avro.WireType
import TypedRecords.Binary

/-! Data of a container.
A datum says by itself which kind of type it is of, except that data of a union also say
which branch they are of. -/
namespace TypedRecords.Avro

inductive Datum where
  | null
  | boolean (b : Bool)
  | int (n : Int32)
  | long (n : Int64)
  | float (x : Binary32)
  | double (x : Binary64)
  | bytes (bytes : List UInt8)
  | string (s : String)
  | temporal (t : Temporal) (n : Int64)
  | uuid (text : String)
  | decimal (carrier : Datum)
  | duration (months days millis : UInt32)
  | fixed (bytes : List UInt8)
  | enum (index : Nat) (symbol : String)
  | array (items : List Datum)
  | map (values : List (String × Datum))
  | record (fields : List (String × Datum))
  | union (index : Nat) (d : Datum)
  deriving Inhabited

namespace Datum

mutual
/-- The datum that a document gives for a default. A whole number that is too large wraps
around. -/
def ofJson : Json → Datum
  | .null => .null
  | .bool b => .boolean b
  | .int n => .long (Int64.ofInt n)
  | .float x => .double x
  | .str s => .string s
  | .arr items => .array (itemsOfJson items)
  | .obj fields => .map (fieldsOfJson fields)

def itemsOfJson : List Json → List Datum
  | [] => []
  | j :: rest => ofJson j :: itemsOfJson rest

def fieldsOfJson : List (String × Json) → List (String × Datum)
  | [] => []
  | (key, j) :: rest => (key, ofJson j) :: fieldsOfJson rest
end

mutual
def size : Datum → Nat
  | .array items => 1 + sizeItems items
  | .map values => 1 + sizeFields values
  | .record fields => 1 + sizeFields fields
  | .union _ d => 1 + d.size
  | _ => 1

def sizeItems : List Datum → Nat
  | [] => 0
  | d :: rest => d.size + sizeItems rest

def sizeFields : List (String × Datum) → Nat
  | [] => 0
  | (_, d) :: rest => d.size + sizeFields rest
end

def isOf : WireType → Datum → Bool
  | .primitive .null, .null => true
  | .primitive .boolean, .boolean _ => true
  | .primitive .int, .int _ => true
  | .primitive .long, .long _ => true
  | .primitive .float, .float _ => true
  | .primitive .double, .double _ => true
  | .primitive .bytes, .bytes _ => true
  | .primitive .string, .string _ => true
  | .temporal t, .temporal u _ => t == u
  | .uuid, .uuid _ => true
  | .decimal .., .decimal _ => true
  | .duration, .duration .. => true
  | .array _, .array _ => true
  | .map _, .map _ => true
  | _, _ => false

end Datum
end TypedRecords.Avro
