import TypedRecords.Avro.Name
import TypedRecords.Canonical.Basic

/-! Types of the data in a container.
Containers know more types than records have; all of them can be read, so that a fault can
show the data that was met. A type that is declared once may be referred to by its name. -/
namespace TypedRecords.Avro

inductive Temporal where
  | date | timeMillis | timeMicros | timestampMillis | timestampMicros
  | localTimestampMillis | localTimestampMicros
  deriving DecidableEq, Repr

namespace Temporal

def all : List Temporal :=
  [.date, .timeMillis, .timeMicros, .timestampMillis, .timestampMicros, .localTimestampMillis,
    .localTimestampMicros]

def base : Temporal → Primitive
  | .date => .int
  | .timeMillis => .int
  | _ => .long

def name : Temporal → String
  | .date => "date"
  | .timeMillis => "time-millis"
  | .timeMicros => "time-micros"
  | .timestampMillis => "timestamp-millis"
  | .timestampMicros => "timestamp-micros"
  | .localTimestampMillis => "local-timestamp-millis"
  | .localTimestampMicros => "local-timestamp-micros"

def title : Temporal → String
  | .date => "Date"
  | .timeMillis => "TimeMillis"
  | .timeMicros => "TimeMicros"
  | .timestampMillis => "TimestampMillis"
  | .timestampMicros => "TimestampMicros"
  | .localTimestampMillis => "LocalTimestampMillis"
  | .localTimestampMicros => "LocalTimestampMicros"

def ofName? (name : String) : Option Temporal := all.find? fun t => t.name == name

end Temporal

mutual
inductive WireType where
  | primitive (p : Primitive)
  | temporal (t : Temporal)
  | uuid
  | decimal (precision scale : Nat) (carrier : WireType)
  | duration
  | array (items : WireType)
  | map (values : WireType)
  | union (branches : List WireType)
  | enum (name : Name) (symbols : List String) (default : Option String)
  | fixed (name : Name) (size : Nat)
  | record (name : Name) (fields : List WireType.Field)
  | reference (name : Name)

structure WireType.Field where
  name : String
  type : WireType
  default : Option Json
  aliases : List String
end

namespace WireType

def isUnion : WireType → Bool
  | .union _ => true
  | _ => false

def isNull : WireType → Bool
  | .primitive .null => true
  | _ => false

def isNullable : WireType → Bool
  | .union branches => branches.any isNull
  | _ => false

def space : WireType → String
  | .enum name .. => name.space
  | .fixed name _ => name.space
  | .record name _ => name.space
  | .reference name => name.space
  | _ => ""

/-- Whether data of two types without names could be confused in a union. -/
def sameKind : WireType → WireType → Bool
  | .primitive p, .primitive q => p == q
  | .temporal t, .temporal u => t == u
  | .uuid, .uuid => true
  | .decimal .., .decimal .. => true
  | .duration, .duration => true
  | .array _, .array _ => true
  | .map _, .map _ => true
  | _, _ => false

def declaration (kind : String) (name : Name) : List (String × Json) :=
  [("type", .str kind), ("name", .str name.base)]
    ++ if name.space.isEmpty then [] else [("namespace", .str name.space)]

def overlaid (carrier : Json) (meaning : String) : List (String × Json) :=
  [("type", carrier), ("logicalType", .str meaning)]

def durationSize : Nat := 12

def fixedDocument (name : Name) (size : Nat) : Json :=
  Json.ofFields (declaration "fixed" name ++ [("size", .int size)])

mutual
/-- The document of a type, which keeps only what the format itself gives a meaning to. -/
def toJson : WireType → Json
  | .primitive p => .str p.name
  | .temporal t => Json.ofFields (overlaid (.str t.base.name) t.name)
  | .uuid => Json.ofFields (overlaid (.str "string") "uuid")
  | .decimal precision scale carrier =>
    Json.ofFields (overlaid carrier.toJson "decimal"
      ++ [("precision", .int precision), ("scale", .int scale)])
  | .duration =>
    Json.ofFields (overlaid (fixedDocument ⟨"", "duration"⟩ durationSize) "duration")
  | .array items => Json.ofFields [("type", .str "array"), ("items", items.toJson)]
  | .map values => Json.ofFields [("type", .str "map"), ("values", values.toJson)]
  | .union branches => .arr (branchesToJson branches)
  | .enum name symbols _ =>
    Json.ofFields (declaration "enum" name ++ [("symbols", Json.strings symbols)])
  | .fixed name size => fixedDocument name size
  | .record name fields =>
    Json.ofFields (declaration "record" name ++ [("fields", .arr (fieldsToJson fields))])
  | .reference name => .str name.text

def branchesToJson : List WireType → List Json
  | [] => []
  | t :: rest => t.toJson :: branchesToJson rest

def fieldsToJson : List Field → List Json
  | [] => []
  | ⟨name, type, default, aliases⟩ :: rest =>
    Json.ofFields
      ([("name", .str name), ("type", type.toJson)]
        ++ (default.map fun d => ("default", d)).toList
        ++ if aliases.isEmpty then [] else [("aliases", Json.strings aliases)])
      :: fieldsToJson rest
end

abbrev Definitions := List (Name × WireType)

def declare (defs : Definitions) (name : Name) (type : WireType) : Result Definitions :=
  if (defs.lookup name).isSome then .error .avro else .ok ((name, type) :: defs)

mutual
/-- Collects the declarations of a type. A reference must come after what it refers to has
begun, so a record may refer to itself, or it must refer to a type that is known before. -/
def collect (known : Definitions) (space : String) (defs : Definitions) :
    WireType → Result Definitions
  | .array items => collect known space defs items
  | .map values => collect known space defs values
  | .union branches => collectBranches known space defs branches
  | .enum name symbols default => declare defs (name.within space) (.enum name symbols default)
  | .fixed name size => declare defs (name.within space) (.fixed name size)
  | .record name fields => do
    let defs ← declare defs (name.within space) (.record name fields)
    collectFields known (name.within space).space defs fields
  | .reference name =>
    let full := name.within space
    if (defs.lookup full).isSome || (known.lookup full).isSome then .ok defs else .error .avro
  | _ => .ok defs

def collectBranches (known : Definitions) (space : String) (defs : Definitions) :
    List WireType → Result Definitions
  | [] => .ok defs
  | t :: rest => do collectBranches known space (← collect known space defs t) rest

def collectFields (known : Definitions) (space : String) (defs : Definitions) :
    List Field → Result Definitions
  | [] => .ok defs
  | ⟨_, type, _, _⟩ :: rest => do collectFields known space (← collect known space defs type) rest
end

def definitions (t : WireType) : Result Definitions := collect [] "" [] t

def resolve (defs : Definitions) (space : String) : WireType → Option (WireType × String)
  | .reference name =>
    let full := name.within space
    (defs.lookup full).map fun t => (t, full.space)
  | t => some (t, space)

end WireType
end TypedRecords.Avro
