import TypedRecords.Identifier
import TypedRecords.Error
import TypedRecords.Text.Parts

/-! Names of the types that a container declares.
A name stands in a namespace, which is a row of identifiers with dots between them. A name
without a namespace of its own takes the one of the declaration around it. -/
namespace TypedRecords.Avro

/-- An empty `space` is the absence of a namespace. -/
structure Name where
  space : String
  base : String
  deriving DecidableEq, Repr

namespace Name

def isSpace (text : String) : Bool := (Text.parts '.' text).all Identifier.isValid

def isQualifier (text : String) : Bool :=
  match text.toList with
  | [] => true
  | c :: cs => Identifier.isStart c && cs.all fun c => Identifier.isPart c || c == '.'

/-- Takes a text at its last dot. A leading dot says that there is no namespace. -/
def split? (text : String) : Option (Option String × String) :=
  match (Text.parts '.' text).reverse with
  | [] => none
  | base :: qualifiers =>
    let space := ".".intercalate qualifiers.reverse
    if !Identifier.isValid base then none
    else if qualifiers.isEmpty then some (none, base)
    else if isQualifier space then some (some space, base)
    else none

def ofText? (text : String) : Option Name :=
  (split? text).map fun (space, base) => ⟨space.getD "", base⟩

def within (n : Name) (enclosing : String) : Name :=
  if n.space.isEmpty then ⟨enclosing, n.base⟩ else n

def text (n : Name) : String := if n.space.isEmpty then n.base else n.space ++ "." ++ n.base

def ofAttributes (name space : Option String) (enclosing : String) : Result Name :=
  match name with
  | none => .error .avro
  | some text =>
    match split? text with
    | none => .error (.abort .recordName)
    | some (own, base) =>
      let space := own.getD (space.getD enclosing)
      if space.isEmpty || isSpace space then .ok ⟨space, base⟩ else .error .avro

end Name
end TypedRecords.Avro
