import TypedRecords.Proofs.Record.Conformance
import TypedRecords.Proofs.Schema.Lookup

/-! Records are well typed.
Every place of a record has a type and says whether it may be null, and by whatever way a record
was made, what stands there is of that type. So a typed reader finds either nothing, or a value
that exactly the reader of the entry's kind gives out. -/
namespace TypedRecords

mutual
/-- A value of the given type, for a place that may be null or not. -/
inductive Value.HasType : Schema → Bool → Value → Prop
  | null (s : Schema) : Value.HasType s true .null
  | scalar {k : ScalarKind} {v : Value} (nullable : Bool) (kind : v.kind? = some (.scalar k)) :
      Value.HasType (.scalar k) nullable v
  | array {element : Schema} {elementNullable : Bool} {props : Props} {items : List Value}
      (nullable : Bool) (h : ∀ v ∈ items, Value.HasType element elementNullable v) :
      Value.HasType (.array element elementNullable props) nullable (.array items)
  | record {s : Schema} {r : Record} (nullable : Bool) (same : (r.schema == s) = true)
      (own : Record.WellTyped r) : Value.HasType s nullable (.record r)

inductive Value.HaveTypes : List Entry → List Value → Prop
  | nil : Value.HaveTypes [] []
  | cons {e : Entry} {v : Value} {entries : List Entry} {values : List Value}
      (h : Value.HasType e.schema e.nullable v) (others : Value.HaveTypes entries values) :
      Value.HaveTypes (e :: entries) (v :: values)

inductive Record.WellTyped : Record → Prop
  | intro {r : Record} (kind : r.schema.kind = .record)
      (h : Value.HaveTypes r.schema.entries r.values) : Record.WellTyped r
end

namespace Value

theorem HasType.kind? {s : Schema} {nullable : Bool} {v : Value} (h : v.HasType s nullable) :
    (v = .null ∧ nullable = true) ∨ v.kind? = some s.kind := by
  cases h with
  | null => exact .inl ⟨rfl, rfl⟩
  | scalar nullable kind => exact .inr kind
  | array nullable h => exact .inr rfl
  | record nullable same own =>
    obtain ⟨kind, -⟩ := own
    have declared := Schema.kind_of_plain (Schema.eq_iff_plain.1 same)
    exact .inr (congrArg some (kind.symm.trans declared))

theorem HaveTypes.length_eq {entries : List Entry} {values : List Value} :
    HaveTypes entries values → values.length = entries.length
  | .nil => rfl
  | .cons _ others => congrArg (· + 1) others.length_eq

theorem HaveTypes.getElem {entries : List Entry} {values : List Value} {i : Nat} {e : Entry}
    (h : HaveTypes entries values) (here : entries[i]? = some e) :
    ∃ v, values[i]? = some v ∧ v.HasType e.schema e.nullable := by
  induction i generalizing entries values with
  | zero =>
    cases h with
    | nil => simp at here
    | cons first others =>
      cases here
      exact ⟨_, rfl, first⟩
  | succ i ih =>
    cases h with
    | nil => simp at here
    | cons first others => exact ih others here

mutual
theorem hasType_of_fits {s : Schema} {nullable : Bool} (v : Value) (fits : v.Fits s nullable)
    (own : v.WellFormed) : v.HasType s nullable := by
  match v with
  | .null =>
    obtain rfl : nullable = true := fits
    exact .null s
  | .record ⟨made, values⟩ =>
    obtain ⟨-, same⟩ := fits
    obtain ⟨-, kind, fit, sound⟩ := own
    exact .record nullable same ⟨kind, haveTypes_of_fitEntries values fit sound⟩
  | .array items =>
    obtain ⟨element, inner, fit⟩ := fits
    rw [Schema.eq_array_of_element? inner]
    exact .array nullable (hasType_of_allFit items fit own)
  | .string _ | .int _ | .long _ | .float _ | .double _ | .boolean _ | .bytes _
  | .datetime _ =>
    obtain rfl := Schema.eq_scalar_of_kind fits
    exact .scalar nullable rfl

theorem haveTypes_of_fitEntries {entries : List Entry} (values : List Value)
    (fit : FitEntries entries values) (own : AllWellFormed values) :
    HaveTypes entries values := by
  match entries, values with
  | [], [] => exact .nil
  | e :: entries, v :: values =>
    exact .cons (hasType_of_fits v fit.1 own.1) (haveTypes_of_fitEntries values fit.2 own.2)

theorem hasType_of_allFit {element : Schema} {nullable : Bool} (items : List Value)
    (fit : AllFit element nullable items) (own : AllWellFormed items) :
    ∀ v ∈ items, v.HasType element nullable := by
  match items with
  | [] => simp
  | v :: rest =>
    exact List.forall_mem_cons.2
      ⟨hasType_of_fits v fit.1 own.1, hasType_of_allFit rest fit.2 own.2⟩
end

theorem isNull_eq_false {v : Value} {kind : Kind} (h : v.kind? = some kind) :
    v.isNull = false := by
  cases v <;> simp_all [Value.kind?, isNull]

end Value

namespace Record

theorem WellFormed.wellTyped {r : Record} (h : r.WellFormed) : r.WellTyped := by
  obtain ⟨-, kind, fit, sound⟩ := wellFormed_iff.1 h
  exact ⟨kind, Value.haveTypes_of_fitEntries r.values fit (Value.allWellFormed_iff.2 sound)⟩

/-! Typed readers. -/

def read (r : Record) (name : String) : Kind → Result (Option Value)
  | .record => return (← r.getRecord name).map .record
  | .array => return (← r.getArray name).map .array
  | .scalar .string => return (← r.getString name).map .string
  | .scalar .int => return (← r.getInt name).map .int
  | .scalar .long => return (← r.getLong name).map .long
  | .scalar .float => return (← r.getFloat name).map .float
  | .scalar .double => return (← r.getDouble name).map .double
  | .scalar .boolean => return (← r.getBoolean name).map .boolean
  | .scalar .bytes => return (← r.getBytes name).map .bytes
  | .scalar .datetime => return (← r.getDatetime name).map .datetime

section

variable {r : Record} {name : String} {e : Entry} {v : Value}
  (known : r.schema.entry? name = some e) (here : r.get name = .ok v)
include known here

theorem typed_eq {α : Type} (kind : Kind) (extract : Value → Option α) :
    r.typed name kind extract =
      if v.isNull then .ok none
      else match extract v with
        | some a => .ok (some a)
        | none => .error (.typeMismatch name e.kind kind) := by
  simp only [typed, here, known, Result.ok_bind]
  rfl

theorem read_eq (kind : Kind) :
    r.read name kind =
      if v.isNull then .ok none
      else if v.kind? = some kind then .ok (some v)
      else .error (.typeMismatch name e.kind kind) := by
  cases kind with
  | record =>
    simp only [read, getRecord, typed_eq known here]
    cases v <;> rfl
  | array =>
    simp only [read, getArray, typed_eq known here]
    cases v <;> rfl
  | scalar k =>
    cases k <;>
    · simp only [read, getString, getInt, getLong, getFloat, getDouble, getBoolean, getBytes,
        getDatetime, typed_eq known here]
      cases v <;> rfl

end

theorem WellTyped.get_eq_ok {r : Record} (h : r.WellTyped) {name : String} {i : Nat}
    (found : r.schema.entryIndex? name = some i) :
    ∃ e v, r.schema.entry? name = some e ∧ r.schema.entries[i]? = some e ∧
      r.values[i]? = some v ∧ r.get name = .ok v ∧ v.HasType e.schema e.nullable := by
  obtain ⟨-, types⟩ := h
  obtain ⟨e, here, -⟩ := Schema.of_entryIndex? found
  obtain ⟨v, there, type⟩ := types.getElem here
  refine ⟨e, v, Schema.entry?_of_entryIndex? found here, here, there, ?_, type⟩
  simp [get, found, there]

/-- What every reader says of a well-typed record: nothing where null stands, and otherwise
the reader of the kind of the entry finds the value and all others fail. -/
def ReadsAs (r : Record) (name : String) (e : Entry) (v : Value) : Prop :=
  (v = .null ∧ e.nullable = true ∧ ∀ kind, r.read name kind = .ok none) ∨
    (v.kind? = some e.kind ∧ ∀ kind, r.read name kind =
      if kind = e.kind then .ok (some v) else .error (.typeMismatch name e.kind kind))

theorem readsAs {r : Record} {name : String} {e : Entry} {v : Value}
    (known : r.schema.entry? name = some e) (here : r.get name = .ok v)
    (type : v.HasType e.schema e.nullable) : r.ReadsAs name e v := by
  rcases type.kind? with ⟨rfl, nullable⟩ | own
  · exact .inl ⟨rfl, nullable, fun kind => by simp [read_eq known here, Value.isNull]⟩
  · refine .inr ⟨own, fun kind => ?_⟩
    rw [read_eq known here, Value.isNull_eq_false own, own]
    by_cases same : kind = e.kind
    · simp [same, Entry.kind]
    · have other : e.schema.kind ≠ kind := fun h => same h.symm
      simp [same, other]

/-- Records are well typed whether they were obtained or read out of a datum, and their
readers tell the types. -/
theorem wellTyped_and_readsAs {r : Record}
    (made : r.Obtainable ∨ ∃ s d, s.Obtainable ∧ s.kind = .record ∧ ofDatum s d = .ok r) :
    r.WellTyped ∧ r.values.length = r.schema.entries.length ∧
      ∀ name i, r.schema.entryIndex? name = some i →
        ∃ e v, r.schema.entry? name = some e ∧ r.schema.entries[i]? = some e ∧
          r.values[i]? = some v ∧ r.get name = .ok v ∧ r.ReadsAs name e v := by
  have sound : r.WellFormed := by
    rcases made with own | ⟨s, d, own, kind, run⟩
    · exact own.wellFormed
    · exact Record.wellFormed_ofDatum own.wellFormed kind run
  have typed := sound.wellTyped
  refine ⟨typed, ?_, fun name i found => ?_⟩
  · obtain ⟨-, types⟩ := typed
    exact types.length_eq
  · obtain ⟨e, v, known, here, there, got, type⟩ := typed.get_eq_ok found
    exact ⟨e, v, known, here, there, got, readsAs known got type⟩

theorem wellTyped_and_readsAs_trip :
    trip.Obtainable ∧ trip.WellTyped ∧ trip.values.length = trip.schema.entries.length ∧
      ∀ name i, trip.schema.entryIndex? name = some i →
        ∃ e v, trip.schema.entry? name = some e ∧ trip.schema.entries[i]? = some e ∧
          trip.values[i]? = some v ∧ trip.get name = .ok v ∧ trip.ReadsAs name e v :=
  ⟨obtainable_trip, wellTyped_and_readsAs (.inl obtainable_trip)⟩

end Record
end TypedRecords
