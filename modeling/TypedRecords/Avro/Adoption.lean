import TypedRecords.Avro.Datum
import TypedRecords.Avro.Uuid
import TypedRecords.Text.Utf8

/-! How a reader of a type takes over data of other types.
Numbers widen and narrow, texts and bytes stand for each other, an object stands for a record
and missing fields have defaults. A datum of a union goes to the branch without a name that
is of its kind, or else to the first one that takes it over. Decimals and durations only come
from data of their own, and bytes without a type are none. -/
namespace TypedRecords.Avro

namespace Datum

def byte? (d : Datum) : Option UInt8 :=
  let narrow := fun n : Int32 =>
    if 0 ≤ n && n ≤ 255 then some (UInt8.ofNat n.toInt.toNat) else none
  match d with
  | .int n => narrow n
  | .long n => narrow n.toInt32
  | _ => none

def asPrimitive : Primitive → Datum → Option Datum
  | .null, .null => some .null
  | .boolean, .boolean b => some (.boolean b)
  | .int, .int n => some (.int n)
  | .int, .long n => some (.int n.toInt32)
  | .long, .int n => some (.long n.toInt64)
  | .long, .long n => some (.long n)
  | .float, .int n => some (.float (.ofInt n.toInt))
  | .float, .long n => some (.float (.ofInt n.toInt))
  | .float, .float x => some (.float x)
  | .float, .double x => some (.float x.toBinary32)
  | .double, .int n => some (.double (.ofInt n.toInt))
  | .double, .long n => some (.double (.ofInt n.toInt))
  | .double, .float x => some (.double x.toBinary64)
  | .double, .double x => some (.double x)
  | .bytes, .bytes bs => some (.bytes bs)
  | .bytes, .string s => some (.bytes (Text.utf8 s))
  | .bytes, .array items => (items.mapM byte?).map .bytes
  | .string, .string s => some (.string s)
  | .string, .bytes bs => (Text.ofUtf8? bs).map .string
  | .string, .fixed bs => (Text.ofUtf8? bs).map .string
  | _, _ => none

def asTemporal (t : Temporal) : Datum → Option Datum
  | .int n => some (.temporal t n.toInt64)
  | .long n => if t.base == .long then some (.temporal t n) else none
  | .temporal u n => if t == u then some (.temporal t n) else none
  | _ => none

def asUuid : Datum → Option Datum
  | .uuid text => some (.uuid text)
  | .string s => (Uuid.ofText? s).map .uuid
  | _ => none

def asEnum (symbols : List String) (default : Option String) (d : Datum) : Option Datum :=
  let symbol := fun s => (symbols.findIdx? (· == s)).map fun i => Datum.enum i s
  match d with
  | .string s | .enum _ s => (symbol s).or (default.bind symbol)
  | _ => none

def asFixed (size : Nat) : Datum → Option Datum
  | .fixed bs => if bs.length = size then some (.fixed bs) else none
  | .bytes bs => if bs.length = size then some (.fixed bs) else none
  | .string s => some (.fixed (Text.utf8 s))
  | _ => none

def bare : Datum → Datum
  | .union _ d => d
  | d => d

end Datum

namespace WireType

/-- The place of the first of the branches, counted from `place`, that takes over the datum.
A branch that is tried must only refer to types that are declared. -/
def firstBranch (adopt : Definitions → String → WireType → Datum → Result Datum)
    (space : String) (d : Datum) : (place : Nat) → Definitions → List WireType → Result Nat
  | _, _, [] => .error .avro
  | place, defs, t :: rest =>
    match collect defs space [] t with
    | .error _ => .error (.abort .branch)
    | .ok own =>
      match adopt (own ++ defs) (if t.space.isEmpty then space else t.space) t d with
      | .ok _ => .ok place
      | .error .avro => firstBranch adopt space d (place + 1) (own ++ defs) rest
      | .error e => .error e

def branchFor (adopt : Definitions → String → WireType → Datum → Result Datum)
    (defs : Definitions) (space : String) (branches : List WireType) (d : Datum) : Result Nat :=
  match branches.findIdx? fun t => Datum.isOf t d with
  | some i => .ok i
  | none => firstBranch adopt space d 0 defs branches

/-- The datum as a reader of the type takes it over. Every level of the recursion goes into a
type, into a datum or behind a name, and `depth` bounds their number. -/
def adopt : (depth : Nat) → Definitions → (space : String) → WireType → Datum → Result Datum
  | 0, _, _, _, _ => .error .avro
  | depth + 1, defs, space, t, d =>
    let d := if t.isUnion then d else d.bare
    match t with
    | .reference _ =>
      match resolve defs space t with
      | some (t, space) => adopt depth defs space t d
      | none => .error .avro
    | .primitive p => require .avro (d.asPrimitive p)
    | .temporal t => require .avro (d.asTemporal t)
    | .uuid => require .avro d.asUuid
    | .decimal .. => .error .avro
    | .duration => if d.isOf .duration then .ok d else .error .avro
    | .enum _ symbols default => require .avro (d.asEnum symbols default)
    | .fixed _ size => require .avro (d.asFixed size)
    | .array items =>
      match d with
      | .array ds => do return .array (← ds.mapM (adopt depth defs space items))
      | _ => .error .avro
    | .map values =>
      match d with
      | .map ds => do
        return .map (← ds.mapM fun (key, d) => do return (key, ← adopt depth defs space values d))
      | _ => .error .avro
    | .union branches => do
      let i ← branchFor (adopt depth) defs space branches d.bare
      return .union i (← adopt depth defs space (branches.getD i (.primitive .null)) d.bare)
    | .record _ fields =>
      match d with
      | .map ds | .record ds => do
        return .record (← fields.mapM fun f => do
          let d ← match ds.lookup f.name, f.default, f.type with
            | some d, _, _ => pure d
            | none, none, _ => .error .avro
            | none, some _, .union (.primitive .null :: _) => pure (.union 0 .null)
            | none, some j, .union (first :: _) =>
              (adopt depth defs space first (Datum.ofJson j)).map (.union 0)
            | none, some j, _ => pure (Datum.ofJson j)
          return (f.name, ← adopt depth defs space f.type d))
      | _ => .error .avro

def anyAdopts (adopt : WireType → Result Datum) : List WireType → Result Bool
  | [] => .ok false
  | t :: rest =>
    match adopt t with
    | .ok _ => .ok true
    | .error .avro => anyAdopts adopt rest
    | .error e => .error e

def admitsDefault (defs : Definitions) (depth : Nat) (t : WireType) (default : Json) :
    Result Bool :=
  let branches := match t with
    | .union branches => branches
    | t => [t]
  anyAdopts (fun t => adopt depth defs t.space t (Datum.ofJson default)) branches

end WireType
end TypedRecords.Avro
