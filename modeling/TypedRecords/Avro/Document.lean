import TypedRecords.Avro.Conformance
import TypedRecords.Avro.Names

/-! Reading the document of a type.
A document is the name of a type, a list of branches or an object of attributes. The object
of a field is at the same time the object of the field's type. A type that an object gives
may have a meaning laid over it; a temporal meaning on a type that cannot carry it gives way
to the type that the innermost word names, and any other such meaning is a fault. -/
namespace TypedRecords.Avro.WireType

inductive Fault where
  | failure (e : SchemaError)
  | misfit (word : String) (names : Names)

abbrev Attempt (α : Type) := Except Fault α

def plainly {α : Type} : Result α → Attempt α
  | .ok a => .ok a
  | .error e => .error (.failure e)

def fail {α : Type} : Attempt α := .error (.failure .avro)

/-- A declaration without its content stands for the type that has its opening word as a
name, if there is one. -/
def unlessEmpty (names : Names) (space word content : String) (attributes : Attributes)
    (declared : Attempt (WireType × Names)) : Attempt (WireType × Names) :=
  if Assoc.contains content attributes then declared
  else
    match names.homonym? space word with
    | some t => .ok (t, names)
    | none => declared

def readFixed (names : Names) (space : String) (attributes : Attributes) :
    Result (WireType × Names) :=
  match attributes.size? "size" with
  | none => .error .avro
  | some size => do
    let name ← attributes.name space
    let aliases ← attributes.aliases name.space
    let t := WireType.fixed name size
    return (t, names.finish name aliases t)

def distinct : List String → Bool
  | [] => true
  | s :: rest => !rest.contains s && distinct rest

def enumDefault (symbols : List String) (attributes : Attributes) : Result (Option String) :=
  match Assoc.find? "default" attributes with
  | none => .ok none
  | some (.str s) => if symbols.contains s then .ok (some s) else .error .avro
  | some _ => .error .avro

def readEnum (names : Names) (space : String) (attributes : Attributes) :
    Result (WireType × Names) := do
  let name ← attributes.name space
  let aliases ← attributes.aliases name.space
  match attributes.texts? "symbols" with
  | none => .error .avro
  | some symbols =>
    if symbols.all Identifier.isValid && distinct symbols then do
      let t := WireType.enum name symbols (← enumDefault symbols attributes)
      return (t, names.finish name aliases t)
    else .error .avro

/-- A union holds no other union, and at most one branch of every kind without a name. -/
def union? (branches : List WireType) : Result WireType :=
  if branches.any isUnion then .error .avro
  else if branches.any fun t => 1 < (branches.filter (sameKind t)).length then .error .avro
  else .ok (.union branches)

def distinctFields (taken : List String) : List Field → Bool
  | [] => true
  | f :: rest => !taken.contains f.name && distinctFields (f.name :: f.aliases ++ taken) rest

def record? (name : Name) (fields : List Field) : Result WireType :=
  if distinctFields [] fields then .ok (.record name fields) else .error .avro

def checkDefault (names : Names) (levels : Nat) (type : WireType) (attributes : Attributes) :
    Result Unit :=
  match Assoc.find? "default" attributes with
  | none => .ok ()
  | some default => do
    if ← admitsDefault names.known levels type default then return () else .error .avro

def field? (names : Names) (levels : Nat) (name : String) (type : WireType)
    (attributes : Attributes) : Result Field := do
  checkDefault names levels type attributes
  return ⟨name, type, Assoc.find? "default" attributes,
    ((attributes.items? "aliases").getD []).filterMap Json.str?⟩

def overlay (attributes : Attributes) (t : WireType) : Meaning → Result WireType
  | .temporal m => .ok (.temporal m)
  | .uuid => .ok .uuid
  | .duration => .ok .duration
  | .decimal => do
    let (precision, scale) ← attributes.digits
    return .decimal precision scale t

def withMeaning (attributes : Attributes) (meaning : Meaning) (t : WireType) (names : Names) :
    Attempt (WireType × Names) :=
  if meaning.suits t then do
    return (← plainly (overlay attributes t meaning), names)
  else
    match (Assoc.find? "type" attributes).bind typeWord? with
    | some word => .error (.misfit word names)
    | none => fail

/-- A temporal meaning gives way where a meaning does not go with its type. -/
def yielding (space : String) (meaning : Meaning) (r : Attempt (WireType × Names)) :
    Attempt (WireType × Names) :=
  match meaning, r with
  | .temporal _, .error (.misfit word names) => do
    return (← plainly (names.find space word), names)
  | _, r => r

mutual
def read (levels : Nat) (names : Names) (space : String) (j : Json) : Attempt (WireType × Names) :=
  match j with
  | .str word => do return (← plainly (names.find space word), names)
  | .obj attributes => readObject levels names space attributes
  | .arr branches => do
    let (branches, names) ← readBranches levels names space branches
    return (← plainly (union? branches), names)
  | _ => fail
termination_by (sizeOf j, 0)
decreasing_by
  · simp only [Json.obj.sizeOf_spec]
    decreasing_tactic
  · simp only [Json.arr.sizeOf_spec]
    decreasing_tactic

def readObject (levels : Nat) (names : Names) (space : String) (attributes : Attributes) :
    Attempt (WireType × Names) :=
  match attributes.meaning? with
  | .error e => .error (.failure e)
  | .ok none => readPlain levels names space attributes
  | .ok (some meaning) => yielding space meaning do
    let (t, names) ← readCarrier levels names space attributes
    withMeaning attributes meaning t names
termination_by (sizeOf attributes, 2)

/-- Reads the type that a meaning is laid over. Only fixed bytes can have the meaning among
their own attributes. -/
def readCarrier (levels : Nat) (names : Names) (space : String) (attributes : Attributes) :
    Attempt (WireType × Names) :=
  match _h : Assoc.find? "type" attributes with
  | none => fail
  | some j =>
    if j.str? == some "fixed" then
      unlessEmpty names space "fixed" "size" attributes
        (plainly (readFixed names space attributes))
    else read levels names space j
termination_by (sizeOf attributes, 1)
decreasing_by
  exact Prod.Lex.left _ _ (Json.sizeOf_find?_lt _h)

def readPlain (levels : Nat) (names : Names) (space : String) (attributes : Attributes) :
    Attempt (WireType × Names) :=
  match _h : Assoc.find? "type" attributes with
  | some (.str word) =>
    if word == "fixed" then
      unlessEmpty names space word "size" attributes
        (plainly (readFixed names space attributes))
    else if word == "enum" then
      unlessEmpty names space word "symbols" attributes
        (plainly (readEnum names space attributes))
    else if word == "record" then
      unlessEmpty names space word "fields" attributes
        (readRecord levels names space attributes)
    else if word == "array" then do
      let (items, names) ← readPart levels names space "items" attributes
      return (.array items, names)
    else if word == "map" then do
      let (values, names) ← readPart levels names space "values" attributes
      return (.map values, names)
    else do return (← plainly (names.find space word), names)
  | some (.obj inner) => readObject levels names space inner
  | some (.arr branches) => do
    let (branches, names) ← readBranches levels names space branches
    return (← plainly (union? branches), names)
  | _ => fail
termination_by (sizeOf attributes, 1)
decreasing_by
  · decreasing_tactic
  · decreasing_tactic
  · decreasing_tactic
  · have := Json.sizeOf_find?_lt _h
    simp only [Json.obj.sizeOf_spec] at this
    exact Prod.Lex.left _ _ (by omega)
  · have := Json.sizeOf_find?_lt _h
    simp only [Json.arr.sizeOf_spec] at this
    exact Prod.Lex.left _ _ (by omega)

def readPart (levels : Nat) (names : Names) (space key : String) (attributes : Attributes) :
    Attempt (WireType × Names) :=
  match _h : Assoc.find? key attributes with
  | none => fail
  | some j => read levels names space j
termination_by (sizeOf attributes, 0)
decreasing_by
  exact Prod.Lex.left _ _ (Json.sizeOf_find?_lt _h)

def readBranches (levels : Nat) (names : Names) (space : String) (js : List Json) :
    Attempt (List WireType × Names) :=
  match js with
  | [] => .ok ([], names)
  | j :: rest => do
    let (t, names) ← read levels names space j
    let (rest, names) ← readBranches levels names space rest
    return (t :: rest, names)
termination_by (sizeOf js, 0)

def readRecord (levels : Nat) (names : Names) (space : String) (attributes : Attributes) :
    Attempt (WireType × Names) := do
  let name ← plainly (attributes.name space)
  let aliases ← plainly (attributes.aliases name.space)
  match _h : Assoc.find? "fields" attributes with
  | some (.arr fields) =>
    let (fields, names) ← readFields levels (names.start name aliases) name.space fields
    let t ← plainly (record? name fields)
    return (t, names.finish name aliases t)
  | _ => fail
termination_by (sizeOf attributes, 0)
decreasing_by
  have := Json.sizeOf_find?_lt _h
  simp only [Json.arr.sizeOf_spec] at this
  exact Prod.Lex.left _ _ (by omega)

def readFields (levels : Nat) (names : Names) (space : String) (js : List Json) :
    Attempt (List Field × Names) :=
  match js with
  | [] => .ok ([], names)
  | .obj attributes :: rest =>
    match Attributes.text? attributes "name" with
    | none => fail
    | some name =>
      if !Identifier.isValid name then fail
      else do
        let (type, names) ← readObject levels names space attributes
        let field ← plainly (field? names levels name type attributes)
        let (rest, names) ← readFields levels names space rest
        return (field :: rest, names)
  | _ :: rest => readFields levels names space rest
termination_by (sizeOf js, 0)
end

/-- Defaults meet every declared type at most once for each of their own parts. -/
def defaultLevels (j : Json) : Nat := 4 * (j.size + 1) * (j.size + 1)

def ofJson (j : Json) : Result WireType :=
  match read (defaultLevels j) Names.empty "" j with
  | .ok (t, _) => .ok t
  | .error (.failure e) => .error e
  | .error (.misfit ..) => .error .avro

end TypedRecords.Avro.WireType
