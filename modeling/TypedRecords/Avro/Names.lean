import TypedRecords.Avro.Attributes

/-! The names that a document has declared so far.
A name stands for a type from the end of its declaration on, and the fields of a record can
already refer to the record itself. -/
namespace TypedRecords.Avro

/-- The names of types that were read and of records whose fields are being read; the
latter with the name under which the record is declared. -/
structure Names where
  known : WireType.Definitions
  pending : List (Name × Name)

namespace Names

def empty : Names := ⟨[], []⟩

def start (names : Names) (name : Name) (aliases : List Name) : Names :=
  { names with pending := ((name :: aliases).map fun n => (n, name)) ++ names.pending }

def finish (names : Names) (name : Name) (aliases : List Name) (type : WireType) : Names :=
  { known := ((name :: aliases).map fun n => (n, type)).reverse ++ names.known
    pending := names.pending.filter fun p => !(name :: aliases).contains p.1 }

def find (names : Names) (space word : String) : Result WireType :=
  match Primitive.ofName? word with
  | some p => .ok (.primitive p)
  | none =>
    match Name.ofText? word with
    | none => .error .avro
    | some n =>
      let full := n.within space
      if (names.known.lookup full).isSome then .ok (.reference full)
      else
        match names.pending.lookup full with
        | some n => .ok (.reference n)
        | none => .error .avro

def homonym? (names : Names) (space word : String) : Option WireType :=
  let full : Name := ⟨space, word⟩
  ((names.pending.lookup full).map .reference).or (names.known.lookup full)

end Names
end TypedRecords.Avro
