import TypedRecords.Proofs.Obtainable

/-! Changes of a built entry.
The builder of an entry starts with all parts of it, and holds its type as a whole schema. A setter
changes its own part and leaves the others alone. The one for the nullability of elements also gives
the schema up, and a builder that was made from an entry has no element to describe it with again:
it builds scalar entries only from then on. -/
namespace TypedRecords

inductive EntrySetter where
  | name (label : String)
  | rawName (label : String)
  | elementNullable (nullable : Bool)
  | nullable (nullable : Bool)
  | metadata (metadata : Bool)
  | comment (comment : String)
  | default (value : Json)
  | prop (key value : String)
  | props (pairs : List (String × String))

/-- What an entry consists of. The type is meant without the nullability of its elements. -/
inductive Entry.Part where
  | name
  | rawName
  | type
  | elementNullable
  | nullable
  | metadata
  | comment
  | default
  | prop (key : String)

namespace Schema

def withElementNullable (s : Schema) (nullable : Bool) : Schema :=
  match s with
  | .array element _ props => .array element nullable props
  | s => s

@[simp] theorem kind_withElementNullable (s : Schema) (nullable : Bool) :
    (s.withElementNullable nullable).kind = s.kind := by
  cases s <;> rfl

@[simp] theorem withElementNullable_twice (s : Schema) (first second : Bool) :
    (s.withElementNullable first).withElementNullable second = s.withElementNullable second := by
  cases s <;> rfl

theorem withElementNullable_of_not_array {s : Schema} (other : s.kind ≠ .array) (nullable : Bool) :
    s.withElementNullable nullable = s := by
  cases s with
  | array element old props => exact absurd rfl other
  | _ => rfl

theorem withElementNullable_self (s : Schema) : s.withElementNullable s.elementNullable = s := by
  cases s <;> rfl

end Schema

namespace Entry

def set (e : Entry) : EntrySetter → Entry
  | .name label =>
    let name := Identifier.sanitize label
    { e with name := name, rawName := if name != label then some label else none }
  | .rawName label => { e with rawName := some label }
  | .elementNullable nullable => { e with schema := e.schema.withElementNullable nullable }
  | .nullable nullable => { e with nullable := nullable }
  | .metadata metadata => { e with metadata := metadata }
  | .comment comment => { e with comment := some comment }
  | .default value => { e with default := some value }
  | .prop key value => { e with props := e.props.insert key value }
  | .props pairs => { e with props := e.props.insertAll pairs }

@[simp] theorem kind_set (e : Entry) (s : EntrySetter) : (e.set s).kind = e.kind := by
  cases s with
  | elementNullable nullable => exact e.schema.kind_withElementNullable nullable
  | _ => rfl

@[simp] theorem kind_foldl_set (e : Entry) (setters : List EntrySetter) :
    (setters.foldl set e).kind = e.kind := by
  induction setters generalizing e with
  | nil => rfl
  | cons s rest ih => exact (ih (e.set s)).trans (e.kind_set s)

def Part.Same : Part → Entry → Entry → Prop
  | .name, e, f => e.name = f.name
  | .rawName, e, f => e.rawName = f.rawName
  | .type, e, f => e.schema.withElementNullable true = f.schema.withElementNullable true
  | .elementNullable, e, f => e.schema.elementNullable = f.schema.elementNullable
  | .nullable, e, f => e.nullable = f.nullable
  | .metadata, e, f => e.metadata = f.metadata
  | .comment, e, f => e.comment = f.comment
  | .default, e, f => e.default = f.default
  | .prop key, e, f => e.props.find? key = f.props.find? key

theorem Part.Same.rfl {part : Part} {e : Entry} : part.Same e e := by
  cases part <;> exact Eq.refl _

theorem Part.Same.trans {part : Part} {e f g : Entry} (first : part.Same e f)
    (second : part.Same f g) : part.Same e g := by
  cases part <;> exact Eq.trans first second

theorem eq_of_same {e f : Entry} (same : ∀ part : Part, part.Same e f) : e = f := by
  have schemas : e.schema = f.schema := by
    have type : e.schema.withElementNullable true = f.schema.withElementNullable true := same .type
    have items : e.schema.elementNullable = f.schema.elementNullable := same .elementNullable
    calc
      e.schema = e.schema.withElementNullable e.schema.elementNullable :=
        e.schema.withElementNullable_self.symm
      _ = (e.schema.withElementNullable true).withElementNullable e.schema.elementNullable := by
        rw [Schema.withElementNullable_twice]
      _ = (f.schema.withElementNullable true).withElementNullable f.schema.elementNullable := by
        rw [type, items]
      _ = f.schema := by simp [f.schema.withElementNullable_self]
  have props : e.props = f.props := Props.ext_find? fun key => same (.prop key)
  have name : e.name = f.name := same .name
  have rawName : e.rawName = f.rawName := same .rawName
  have nullable : e.nullable = f.nullable := same .nullable
  have metadata : e.metadata = f.metadata := same .metadata
  have comment : e.comment = f.comment := same .comment
  have default : e.default = f.default := same .default
  obtain ⟨_, _, _, _, _, _, _, _⟩ := e
  obtain ⟨_, _, _, _, _, _, _, _⟩ := f
  simp_all

end Entry

namespace EntrySetter

def Names (e : Entry) : EntrySetter → Entry.Part → Prop
  | .name _, .name => True
  | .name _, .rawName => True
  | .rawName _, .rawName => True
  | .elementNullable _, .elementNullable => e.kind = .array
  | .nullable _, .nullable => True
  | .metadata _, .metadata => True
  | .comment _, .comment => True
  | .default _, .default => True
  | .prop key _, .prop other => key = other
  | .props pairs, .prop other => other ∈ pairs.map Prod.fst
  | _, _ => False

/-- Whether the schema of the type is given up. -/
def dropsSchema : EntrySetter → Bool
  | .elementNullable _ => true
  | _ => false

theorem same_set {e : Entry} {s : EntrySetter} {part : Entry.Part} (unnamed : ¬s.Names e part) :
    part.Same e (e.set s) := by
  cases s with
  | elementNullable nullable =>
    cases part with
    | type => exact (e.schema.withElementNullable_twice nullable true).symm
    | elementNullable =>
      exact congrArg Schema.elementNullable
        (Schema.withElementNullable_of_not_array unnamed nullable).symm
    | _ => exact Eq.refl _
  | prop key value =>
    cases part with
    | prop other =>
      have apart : ¬key = other := unnamed
      simp [Entry.Part.Same, Entry.set, Props.find?_insert, apart]
    | _ => exact Eq.refl _
  | props pairs =>
    cases part with
    | prop other =>
      have absent : Assoc.find? other pairs.reverse = none :=
        Assoc.find?_eq_none_iff.2 fun p mem same =>
          unnamed (List.mem_map.2 ⟨p, List.mem_reverse.1 mem, same⟩)
      simp [Entry.Part.Same, Entry.set, Props.find?, Props.insertAll, Assoc.find?_insertAll, absent]
    | _ => exact Eq.refl _
  | _ => cases part <;> first | exact absurd trivial unnamed | exact Eq.refl _

theorem names_set {e : Entry} {first s : EntrySetter} {part : Entry.Part} :
    s.Names (e.set first) part ↔ s.Names e part := by
  cases s <;> cases part <;> simp [Names]

theorem same_foldl_set {e : Entry} {setters : List EntrySetter} {part : Entry.Part}
    (unnamed : ∀ s ∈ setters, ¬s.Names e part) : part.Same e (setters.foldl Entry.set e) := by
  induction setters generalizing e with
  | nil => exact Entry.Part.Same.rfl
  | cons s rest ih =>
    obtain ⟨here, later⟩ := List.forall_mem_cons.1 unnamed
    refine (same_set here).trans (ih fun t mem => ?_)
    rw [names_set]
    exact later t mem

theorem foldl_set_eq_self {e : Entry} {setters : List EntrySetter}
    (unnamed : ∀ s ∈ setters, ∀ part, ¬s.Names e part) : setters.foldl Entry.set e = e :=
  (Entry.eq_of_same fun part => same_foldl_set fun s mem => unnamed s mem part).symm

end EntrySetter

namespace EntryBuilder

def set (b : EntryBuilder) : EntrySetter → EntryBuilder
  | .name label => b.withName label
  | .rawName label => b.withRawName label
  | .elementNullable nullable => b.withElementNullable nullable
  | .nullable nullable => b.withNullable nullable
  | .metadata metadata => b.withMetadata metadata
  | .comment comment => b.withComment comment
  | .default value => b.withDefault value
  | .prop key value => b.withProp key value
  | .props pairs => b.withProps pairs

/-- The builder with all parts of an entry, its schema kept or given up. -/
def holding (e : Entry) (kept elementNullable : Bool) : EntryBuilder :=
  { e.toBuilder with
    schema := if kept then some e.schema else none, elementNullable := elementNullable }

variable (e : Entry)

theorem set_holding (s : EntrySetter) (kept elementNullable : Bool) :
    ∃ elementNullable', (holding e kept elementNullable).set s =
      holding (e.set s) (kept && !s.dropsSchema) elementNullable' := by
  cases s with
  | elementNullable nullable =>
    -- With the schema only the kind of the type is left, which is the same before and after.
    refine ⟨nullable, ?_⟩
    have kind : (e.set (.elementNullable nullable)).kind = e.kind := e.kind_set _
    simp only [set, withElementNullable, holding, Entry.toBuilder, kind, EntrySetter.dropsSchema,
      Bool.not_true, Bool.and_false, Bool.false_eq_true, if_false]
    rfl
  | _ =>
    refine ⟨elementNullable, ?_⟩
    simp only [EntrySetter.dropsSchema, Bool.not_false, Bool.and_true]
    rfl

theorem foldl_set_holding (setters : List EntrySetter) (kept elementNullable : Bool) :
    ∃ elementNullable', setters.foldl set (holding e kept elementNullable) =
      holding (setters.foldl Entry.set e) (kept && !setters.any EntrySetter.dropsSchema)
        elementNullable' := by
  induction setters generalizing e kept elementNullable with
  | nil => exact ⟨elementNullable, by simp⟩
  | cons s rest ih =>
    obtain ⟨between, here⟩ := set_holding e s kept elementNullable
    obtain ⟨after, later⟩ := ih (e.set s) (kept && !s.dropsSchema) between
    refine ⟨after, ?_⟩
    rw [List.foldl_cons, List.foldl_cons, here, later, List.any_cons, Bool.not_or, Bool.and_assoc]

theorem build_holding (kept elementNullable : Bool) : (holding e kept elementNullable).build =
    if !e.kind.isScalar && !kept then .error .missingElementSchema else .ok e := by
  obtain ⟨name, rawName, schema, nullable, metadata, comment, default, props⟩ := e
  cases kept with
  | true => simp [holding, Entry.toBuilder, build]
  | false => cases schema <;> rfl

end EntryBuilder

namespace Entry

/-- The builder of an entry builds the entry as setters have changed it, which differs from the
entry in the parts they name only. Where the type is made of another schema, and the nullability of
elements was set, that other schema is missed instead. -/
theorem rebuilt_after_setters (e : Entry) (setters : List EntrySetter) :
    e.toBuilder.build = .ok e ∧
    (setters.foldl EntryBuilder.set e.toBuilder).build =
      (if !e.kind.isScalar && setters.any EntrySetter.dropsSchema
        then .error .missingElementSchema
        else .ok (setters.foldl set e)) ∧
    (∀ part : Part, (∀ s ∈ setters, ¬s.Names e part) → part.Same e (setters.foldl set e)) ∧
    ((∀ s ∈ setters, ∀ part, ¬s.Names e part) → setters.foldl set e = e) := by
  have start : e.toBuilder = EntryBuilder.holding e true true := rfl
  refine ⟨?_, ?_, fun part unnamed => EntrySetter.same_foldl_set unnamed,
    EntrySetter.foldl_set_eq_self⟩
  · rw [start, EntryBuilder.build_holding, Bool.not_true, Bool.and_false]
    rfl
  · obtain ⟨after, done⟩ := EntryBuilder.foldl_set_holding e setters true true
    rw [start, done, EntryBuilder.build_holding, kind_foldl_set, Bool.true_and, Bool.not_not]

def numbers : Entry :=
  ⟨"xs", none, .array (.scalar .int) true Props.empty, false, false, none, none, Props.empty⟩

theorem numbers_not_rebuilt : numbers.Obtainable ∧ numbers.toBuilder.build = .ok numbers ∧
    (numbers.toBuilder.set (.elementNullable false)).build = .error .missingElementSchema ∧
    (numbers.toBuilder.set (.elementNullable false)).build ≠
      .ok (numbers.set (.elementNullable false)) := by
  have refused : (numbers.toBuilder.set (.elementNullable false)).build =
      .error .missingElementSchema := rfl
  refine ⟨?_, rfl, refused, ?_⟩
  · exact obtainable_of_schema (by decide) (Schema.obtainable_array true Props.empty (.scalar .int))
  · rw [refused]
    exact nofun

end Entry
end TypedRecords
