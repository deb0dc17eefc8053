import TypedRecords.Schema.Descriptor

/-! Descriptors as JSON.
A descriptor is written as an object from which what has its usual value is left out. It
is read from an object, whose unknown keys are ignored, or from a list of its attributes
in their order, of which the last ones may be missing. -/
namespace TypedRecords.Descriptor

def keys : List String := ["type", "name", "entries", "element", "element_nullable", "props"]

def Entry.keys : List String :=
  ["name", "label", "type", "element", "element_nullable", "nullable", "metadata", "comment",
    "default", "props"]

/-- The attributes under their keys, from either form. -/
def attributes? (keys : List String) : Json → Option (List (String × Json))
  | .obj fields => some fields
  | .arr items => if items.length ≤ keys.length then some (keys.zip items) else none
  | _ => none

theorem sizeFields_attributes?_lt {keys : List String} {j : Json}
    {attributes : List (String × Json)} (h : attributes? keys j = some attributes) :
    Json.sizeFields attributes < j.size := by
  cases j with
  | obj fields =>
    cases h
    simp only [Json.size]
    omega
  | arr items =>
    simp only [attributes?] at h
    split at h
    · cases h
      have := Json.sizeFields_zip_le keys items
      simp only [Json.size]
      omega
    · cases h
  | _ => cases h

/-- A kind is written as its name, or as an object with the name as its only key. -/
def readKind : Json → Option Kind
  | .str name => Kind.ofName? name
  | .obj [(name, .null)] => Kind.ofName? name
  | _ => none

def readText (attributes : List (String × Json)) (key : String) : Option (Option String) :=
  match Assoc.find? key attributes with
  | none | some .null => some none
  | some (.str s) => some (some s)
  | some _ => none

/-- An attribute that may be missing, but then has its usual value. -/
def readFlag (attributes : List (String × Json)) (key : String) (usual : Bool) : Option Bool :=
  match Assoc.find? key attributes with
  | none => some usual
  | some j => j.bool?

def readProps (attributes : List (String × Json)) : Option Props :=
  match Assoc.find? "props" attributes with
  | none => some Props.empty
  | some (.obj fields) => do
    let pairs ← fields.mapM fun (key, j) => j.str?.map fun s => (key, s)
    return Props.ofList pairs
  | some _ => none

def readDefault (attributes : List (String × Json)) : Option Json :=
  match Assoc.find? "default" attributes with
  | none | some .null => none
  | some j => some j

mutual
def read (j : Json) : Option Descriptor :=
  match _h : attributes? keys j with
  | none => none
  | some attributes => do
    let kind ← (Assoc.find? "type" attributes).bind readKind
    let name ← readText attributes "name"
    let entries ← match _h : Assoc.find? "entries" attributes with
      | none => some []
      | some (.arr items) => readEntries items
      | some _ => none
    let element ← match _h : Assoc.find? "element" attributes with
      | none | some .null => some none
      | some j => (read j).map some
    let elementNullable ← readFlag attributes "element_nullable" true
    let props ← readProps attributes
    return ⟨kind, name, entries, element, elementNullable, props⟩
termination_by j.size
decreasing_by
  · have := sizeFields_attributes?_lt ‹_›
    have := Json.size_le_of_find? _h
    omega
  · have := sizeFields_attributes?_lt ‹_›
    have := Json.size_le_of_find? _h
    simp only [Json.size] at this
    omega

def readEntry (j : Json) : Option Entry :=
  match _h : attributes? Entry.keys j with
  | none => none
  | some attributes => do
    let name ← (Assoc.find? "name" attributes).bind Json.str?
    let label ← readText attributes "label"
    let kind ← (Assoc.find? "type" attributes).bind readKind
    let element ← match _h : Assoc.find? "element" attributes with
      | none | some .null => some none
      | some j => (read j).map some
    let elementNullable ← readFlag attributes "element_nullable" true
    let nullable ← readFlag attributes "nullable" false
    let metadata ← readFlag attributes "metadata" false
    let comment ← readText attributes "comment"
    let props ← readProps attributes
    return {
      name := name, label := label, kind := kind, element := element
      elementNullable := elementNullable, nullable := nullable, metadata := metadata
      comment := comment, default := readDefault attributes, props := props }
termination_by j.size
decreasing_by
  have := sizeFields_attributes?_lt ‹_›
  have := Json.size_le_of_find? _h
  omega

def readEntries (js : List Json) : Option (List Entry) :=
  match js with
  | [] => some []
  | j :: rest => do
    let e ← readEntry j
    let rest ← readEntries rest
    return e :: rest
termination_by Json.sizeItems js
decreasing_by
  · simp only [Json.sizeItems]
    omega
  · simp only [Json.sizeItems]
    omega
end

def optional (key : String) (value : Option Json) : List (String × Json) :=
  (value.map fun j => (key, j)).toList

def flag (key : String) (usual value : Bool) : List (String × Json) :=
  if value = usual then [] else [(key, .bool value)]

def propsAttribute (props : Props) : List (String × Json) :=
  if props.isEmpty then []
  else [("props", Json.ofFields (props.pairs.map fun p => (p.1, .str p.2)))]

mutual
def toJson : Descriptor → Json
  | ⟨kind, name, entries, element, elementNullable, props⟩ =>
    Json.ofFields <|
      [("type", .str kind.name)]
      ++ optional "name" (name.map .str)
      ++ (if entries.isEmpty then [] else [("entries", .arr (entriesToJson entries))])
      ++ optional "element" (elementToJson element)
      ++ flag "element_nullable" true elementNullable
      ++ propsAttribute props

def elementToJson : Option Descriptor → Option Json
  | none => none
  | some d => some (toJson d)

def entriesToJson : List Entry → List Json
  | [] => []
  | ⟨name, label, kind, element, elementNullable, nullable, metadata, comment, default,
      props⟩ :: rest =>
    Json.ofFields (
      [("name", .str name)]
      ++ optional "label" (label.map .str)
      ++ [("type", .str kind.name)]
      ++ optional "element" (elementToJson element)
      ++ flag "element_nullable" true elementNullable
      ++ flag "nullable" false nullable
      ++ flag "metadata" false metadata
      ++ optional "comment" (comment.map .str)
      ++ optional "default" default
      ++ propsAttribute props) :: entriesToJson rest
end

def ofJson (j : Json) : Result Descriptor :=
  match read j with
  | some d => .ok d
  | none => .error .json

def Entry.ofJson (j : Json) : Result Entry :=
  match readEntry j with
  | some e => .ok e
  | none => .error .json

end TypedRecords.Descriptor
