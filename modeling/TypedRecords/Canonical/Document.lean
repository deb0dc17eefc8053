import TypedRecords.Canonical.Basic
import TypedRecords.Identifier
import TypedRecords.Json.Printer

/-! Schema documents.
A document writes a record in full where it first occurs and by its full name afterwards.
Properties become attributes of their own, except those that would hide an attribute of
the format; those are dropped. Reading takes records in the same order, so a name always
refers to a record that has been read before it. -/
namespace TypedRecords.Canonical

def recordKeys : List String := ["type", "name", "namespace", "fields", "doc", "aliases"]

def arrayKeys : List String := ["type", "items"]

def fieldKeys : List String :=
  ["name", "type", "doc", "aliases", "default", "order", defaultKey]

def withProps (attributes : List (String × Json)) (props : Props) (reserved : List String) :
    Json :=
  let kept := props.pairs.filter fun p => !reserved.contains p.1
  Json.ofFields (attributes ++ kept.map fun p => (p.1, .str p.2))

/-- The properties of an object; a value that is no text is kept as its compact text. -/
def propsOf (attributes : List (String × Json)) (reserved : List String) : Props :=
  let kept := attributes.filter fun p => !reserved.contains p.1
  Props.ofList (kept.map fun p => (p.1, p.2.str?.getD p.2.compact))

def timestampDocument : Json :=
  Json.ofFields [("type", .str "long"), ("logicalType", .str "timestamp-millis"),
    (datetimeKey, .str "true")]

def fieldDocument (name : String) (type : Json) (doc : Option String) (default : Option Json)
    (aliases : List String) (props : Props) : Json :=
  withProps
    ([("name", .str name), ("type", type)]
      ++ (doc.map fun d => ("doc", Json.str d)).toList
      ++ (if aliases.isEmpty then [] else [("aliases", Json.strings aliases)])
      ++ (default.map fun d => (defaultKey, d)).toList)
    props fieldKeys

def recordDocument (name space : String) (fields : List Json) (props : Props) : Json :=
  withProps
    ([("type", .str "record"), ("name", .str name)]
      ++ (if space.isEmpty then [] else [("namespace", Json.str space)])
      ++ [("fields", .arr fields)])
    props recordKeys

mutual
/-- The document of a type, after the records named in `defined` were written, and the
names written then. -/
def write (defined : List String) : Canonical → Json × List String
  | .primitive p => (.str p.name, defined)
  | .timestampMillis => (timestampDocument, defined)
  | .array items props =>
    let (items, defined) := write defined items
    (withProps [("type", .str "array"), ("items", items)] props arrayKeys, defined)
  | .record name space fields props =>
    let full := fullName space name
    if defined.contains full then (.str full, defined)
    else
      let (fields, defined) := writeFields (full :: defined) fields
      (recordDocument name space fields props, defined)
  | .union branches =>
    let (branches, defined) := writeBranches defined branches
    (.arr branches, defined)

def writeBranches (defined : List String) : List Canonical → List Json × List String
  | [] => ([], defined)
  | c :: rest =>
    let (c, defined) := write defined c
    let (rest, defined) := writeBranches defined rest
    (c :: rest, defined)

def writeFields (defined : List String) : List Field → List Json × List String
  | [] => ([], defined)
  | ⟨name, type, doc, default, aliases, props⟩ :: rest =>
    let (type, defined) := write defined type
    let (rest, defined) := writeFields defined rest
    (fieldDocument name type doc default aliases props :: rest, defined)
end

def toJson (c : Canonical) : Json := (write [] c).1

/-- The records read so far, the latest first, under their short and their full names. -/
abbrev Known := List (String × Canonical)

def find (known : Known) (reference : String) : Result Canonical :=
  match Primitive.ofName? reference with
  | some p => .ok (.primitive p)
  | none =>
    match known.lookup reference with
    | some c => .ok c
    | none =>
      match known.lookup (fullName recordSpace reference) with
      | some c => .ok c
      | none => .error (.format (.unknownType reference))

def isTimestamp (attributes : List (String × Json)) : Bool :=
  ((Assoc.find? "logicalType" attributes).bind Json.str?) == some "timestamp-millis"

mutual
def read (known : Known) (j : Json) : Result (Canonical × Known) :=
  match j with
  | .str reference => do return (← find known reference, known)
  | .arr branches => do
    let (branches, known) ← readBranches known branches
    return (.union branches, known)
  | .obj attributes =>
    match _h : Assoc.find? "type" attributes with
    | some (.str "record") => readRecord known attributes
    | some (.str "array") =>
      match _h : Assoc.find? "items" attributes with
      | none => .error (.format .arrayWithoutItems)
      | some items => do
        let (items, known) ← read known items
        return (.array items (propsOf attributes arrayKeys), known)
    | some (.str reference) =>
      if reference == "long" && isTimestamp attributes then .ok (.timestampMillis, known)
      else do return (← find known reference, known)
    | some (.obj nested) => read known (.obj nested)
    | some (.arr nested) => read known (.arr nested)
    | _ => .error (.format .objectWithoutType)
  | other => .error (.format (.unexpectedValue other))
termination_by sizeOf j
decreasing_by
  · simp only [Json.arr.sizeOf_spec]
    omega
  · simp only [Json.obj.sizeOf_spec]
    omega
  · have := Json.sizeOf_find?_lt _h
    simp only [Json.obj.sizeOf_spec]
    omega
  · have := Json.sizeOf_find?_lt _h
    simp only [Json.obj.sizeOf_spec] at this ⊢
    omega
  · have := Json.sizeOf_find?_lt _h
    simp only [Json.arr.sizeOf_spec, Json.obj.sizeOf_spec] at this ⊢
    omega

def readBranches (known : Known) (js : List Json) : Result (List Canonical × Known) :=
  match js with
  | [] => .ok ([], known)
  | j :: rest => do
    let (c, known) ← read known j
    let (rest, known) ← readBranches known rest
    return (c :: rest, known)
termination_by sizeOf js

def readRecord (known : Known) (attributes : List (String × Json)) :
    Result (Canonical × Known) :=
  match (Assoc.find? "name" attributes).bind Json.str? with
  | none => .error (.format .recordWithoutName)
  | some name =>
    match _h : Assoc.find? "fields" attributes with
    | some (.arr fields) => do
      let space := ((Assoc.find? "namespace" attributes).bind Json.str?).getD ""
      let (fields, known) ← readFields known fields
      let record := Canonical.record name space fields (propsOf attributes recordKeys)
      return (record, (fullName space name, record) :: (name, record) :: known)
    | _ => .error (.format (.recordWithoutFields name))
termination_by sizeOf attributes
decreasing_by
  have := Json.sizeOf_find?_lt _h
  simp only [Json.arr.sizeOf_spec] at this
  omega

def readFields (known : Known) (js : List Json) : Result (List Field × Known) :=
  match js with
  | [] => .ok ([], known)
  | .obj attributes :: rest =>
    match (Assoc.find? "name" attributes).bind Json.str? with
    | none => .error (.format .fieldWithoutName)
    | some name =>
      match _h : Assoc.find? "type" attributes with
      | none => .error (.format (.fieldWithoutType name))
      | some type => do
        let (type, known) ← read known type
        let aliases := ((Assoc.find? "aliases" attributes).bind Json.items?).getD []
        let default := (Assoc.find? defaultKey attributes).or (Assoc.find? "default" attributes)
        let field : Field :=
          { name := Identifier.sanitize name
            type := type
            doc := (Assoc.find? "doc" attributes).bind Json.str?
            default := default
            aliases := aliases.filterMap Json.str?
            props := propsOf attributes fieldKeys }
        let (rest, known) ← readFields known rest
        return (field :: rest, known)
  | _ :: _ => .error (.format .fieldNotObject)
termination_by sizeOf js
decreasing_by
  · have := Json.sizeOf_find?_lt _h
    simp only [List.cons.sizeOf_spec, Json.obj.sizeOf_spec]
    omega
  · simp only [List.cons.sizeOf_spec]
    omega
end

def ofJson (j : Json) : Result Canonical := do return (← read [] j).1

end TypedRecords.Canonical
