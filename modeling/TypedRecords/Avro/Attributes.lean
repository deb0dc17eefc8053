import TypedRecords.Avro.WireType

/-! The attributes of a declaration.
An object of a document gives a type by its attributes, one of which may lay a meaning over
the type that carries the data. -/
namespace TypedRecords.Avro

inductive Meaning where
  | temporal (t : Temporal)
  | uuid
  | decimal
  | duration
  deriving DecidableEq, Repr

namespace Meaning

def ofName? (name : String) : Option Meaning :=
  if name == "uuid" then some .uuid
  else if name == "decimal" then some .decimal
  else if name == "duration" then some .duration
  else (Temporal.ofName? name).map .temporal

def suits : Meaning → WireType → Bool
  | .temporal t, .primitive p => p == t.base
  | .uuid, .primitive .string => true
  | .decimal, .primitive .bytes => true
  | .decimal, .fixed .. => true
  | .duration, .fixed .. => true
  | _, _ => false

end Meaning

abbrev Attributes := List (String × Json)

namespace Attributes

def text? (attributes : Attributes) (key : String) : Option String :=
  (Assoc.find? key attributes).bind Json.str?

def items? (attributes : Attributes) (key : String) : Option (List Json) :=
  (Assoc.find? key attributes).bind Json.items?

def texts? (attributes : Attributes) (key : String) : Option (List String) :=
  (attributes.items? key).bind fun js => js.mapM Json.str?

def size? (attributes : Attributes) (key : String) : Option Nat :=
  ((Assoc.find? key attributes).bind (Json.intIf? (fitsUnsigned 64))).map Int.toNat

/-- The meaning that is asked for; words that are not known ask for nothing. -/
def meaning? (attributes : Attributes) : Result (Option Meaning) :=
  match Assoc.find? "logicalType" attributes with
  | none => .ok none
  | some (.str name) => .ok (Meaning.ofName? name)
  | some _ => .error .avro

def name (attributes : Attributes) (enclosing : String) : Result Name :=
  Name.ofAttributes (attributes.text? "name") (attributes.text? "namespace") enclosing

/-- Other names of a declaration; a list with anything but texts in it counts as none. -/
def aliases (attributes : Attributes) (space : String) : Result (List Name) :=
  ((attributes.texts? "aliases").getD []).mapM fun text =>
    match Name.ofText? text with
    | some n => .ok (n.within space)
    | none => .error (.abort .recordName)

def digits (attributes : Attributes) : Result (Nat × Nat) :=
  let scale := if Assoc.contains "scale" attributes then attributes.size? "scale" else some 0
  match attributes.size? "precision", scale with
  | some precision, some scale =>
    if 1 ≤ precision && scale ≤ precision then .ok (precision, scale) else .error .avro
  | _, _ => .error .avro

end Attributes

def typeWord? : Json → Option String
  | .str word => some word
  | .obj attributes =>
    match _h : Assoc.find? "type" attributes with
    | some j => typeWord? j
    | none => none
  | _ => none
termination_by j => sizeOf j
decreasing_by
  have := Json.sizeOf_find?_lt _h
  simp only [Json.obj.sizeOf_spec]
  omega

end TypedRecords.Avro
