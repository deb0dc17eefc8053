import TypedRecords.Avro.Adoption

/-! Which data go with which types.
A datum conforms to a type if a writer of the type accepts it as it is; without an index, a
datum of a union must be one that a reader could take over. Aliases of a field count as names
of it, and of two fields with one name the later one is meant. -/
namespace TypedRecords.Avro.WireType

def fieldTypes (fields : List Field) : List (String × WireType) :=
  (fields.flatMap fun f => (f.name, f.type) :: f.aliases.map fun a => (a, f.type)).reverse

/-- Enough levels for a datum: each of its parts is met at most behind a union and behind
a name. -/
def levels (defs : Definitions) (d : Datum) : Nat := 3 * (d.size + defs.length)

def admitsScalar : WireType → Datum → Bool
  | .primitive .long, .int _ => true
  | .primitive .double, .float _ => true
  | .temporal t, .int _ => t.base == .int
  | .temporal t, .long _ => t.base == .long
  | .uuid, .string _ => true
  | .fixed _ size, .fixed bs => bs.length == size
  | .fixed _ size, .bytes bs => bs.length == size
  | .enum _ symbols _, .string s => symbols.contains s
  | .enum _ symbols _, .enum i s => symbols[i]? == some s
  | t, d => d.isOf t

def admitsBare (defs : Definitions) (space : String) (branches : List WireType) (d : Datum) :
    Bool :=
  (branchFor (adopt (levels defs d)) defs space branches d).toOption.isSome

mutual
def conforms (defs : Definitions) (space : String) (t : WireType) (d : Datum) : Bool :=
  match resolve defs space t with
  | none => false
  | some (t, space) =>
    match d, t with
    | .union i d, .union branches =>
      match branches[i]? with
      | some t => conforms defs space t d
      | none => false
    | .union _ _, _ => false
    | d, .union branches => admitsBare defs space branches d
    | .array ds, .array items => conformsItems defs space items ds
    | .map ds, .map values => conformsValues defs space values ds
    | .record ds, .record name fields =>
      ds.length ≤ fields.length
        && (fields.filter fun f => !f.type.isNullable).length ≤ ds.length
        && conformsFields defs (name.within space).space (fieldTypes fields) ds
    | d, t => admitsScalar t d

def conformsItems (defs : Definitions) (space : String) (items : WireType)
    (ds : List Datum) : Bool :=
  match ds with
  | [] => true
  | d :: rest => conforms defs space items d && conformsItems defs space items rest

def conformsValues (defs : Definitions) (space : String) (values : WireType)
    (ds : List (String × Datum)) : Bool :=
  match ds with
  | [] => true
  | (_, d) :: rest => conforms defs space values d && conformsValues defs space values rest

def conformsFields (defs : Definitions) (space : String) (types : List (String × WireType))
    (ds : List (String × Datum)) : Bool :=
  match ds with
  | [] => true
  | (name, d) :: rest =>
    match types.lookup name with
    | some t => conforms defs space t d && conformsFields defs space types rest
    | none => false
end

end TypedRecords.Avro.WireType
