import TypedRecords.Proofs.Record.Unbound
import TypedRecords.Proofs.Schema.Rebuilding

/-! What a value shows of its type.
An array is typed by its first item that is not null, and that item by its own first one. So a
value of a type that is there in full may still not show it: an empty array, or one of nulls, hides
what its later siblings hold. Where the way of first items ends at a scalar, the type that is found
fits all the items that were not looked at. -/
namespace TypedRecords

open Result

def Schema.nested (k : ScalarKind) : (depth : Nat) → Schema
  | 0 => .scalar k
  | depth + 1 => .array (nested k depth) true Props.empty

theorem Schema.flat_nested (k : ScalarKind) (depth : Nat) : (nested k depth).Flat := by
  induction depth with
  | zero => trivial
  | succ depth ih => exact ih

namespace Value

/-- Arrays nested to a depth, with nulls and values of one scalar kind in the innermost ones and
nulls and arrays in the others. -/
def Nested (k : ScalarKind) : (depth : Nat) → Value → Prop
  | 0, v => v.kind? = some (.scalar k)
  | depth + 1, .array items => ∀ v ∈ items, v = .null ∨ Nested k depth v
  | _ + 1, _ => False

inductive Holds (k : ScalarKind) : Value → Prop
  | here {v : Value} (kind : v.kind? = some (.scalar k)) : Holds k v
  | inside {v : Value} {items : List Value} (mem : v ∈ items) (h : Holds k v) :
      Holds k (.array items)

/-- The first item that is not null leads to a value of a scalar kind, through all levels. -/
inductive LeadsTo (k : ScalarKind) : Value → Prop
  | here {v : Value} (kind : v.kind? = some (.scalar k)) : LeadsTo k v
  | first {v : Value} {items : List Value} (found : items.find? (fun v => !v.isNull) = some v)
      (h : LeadsTo k v) : LeadsTo k (.array items)

theorem exists_array_of_nested {k : ScalarKind} {depth : Nat} {v : Value}
    (h : v.Nested k (depth + 1)) :
    ∃ items, v = .array items ∧ ∀ w ∈ items, w = .null ∨ w.Nested k depth := by
  cases v with
  | array items => exact ⟨items, rfl, h⟩
  | record r =>
    obtain ⟨s, values⟩ := r
    exact h.elim
  | _ => exact h.elim

theorem nested_of_find? {k : ScalarKind} {depth : Nat} {items : List Value} {v : Value}
    (each : ∀ w ∈ items, w = .null ∨ w.Nested k depth)
    (found : items.find? (fun v => !v.isNull) = some v) : v.Nested k depth := by
  have present := List.find?_some found
  refine (each v (List.mem_of_find?_eq_some found)).resolve_left ?_
  rintro rfl
  cases present

theorem Nested.fits {k : ScalarKind} {depth : Nat} {v : Value} (h : v.Nested k depth)
    (nullable : Bool) : v.Fits (.nested k depth) nullable := by
  induction depth generalizing v nullable with
  | zero =>
    have kind : v.kind? = some (.scalar k) := h
    cases v <;> simp_all [kind?, Fits, Schema.nested, Schema.kind]
  | succ depth ih =>
    obtain ⟨items, rfl, each⟩ := exists_array_of_nested h
    refine ⟨.nested k depth, rfl, allFit_iff.2 fun w mem => ?_⟩
    rcases each w mem with rfl | inner
    · rfl
    · exact ih inner true

end Value

namespace RecordBuilder

theorem inferElement_eq (items : List Value) :
    inferElement items = match items.find? fun v => !v.isNull with
      | some v => inferSchema v
      | none => .error .missingElementSchema := by
  induction items with
  | nil => rfl
  | cons v rest ih =>
    rw [inferElement, List.find?_cons, ih]
    cases v.isNull <;> rfl

theorem inferSchema_scalar {k : ScalarKind} {v : Value} (kind : v.kind? = some (.scalar k)) :
    inferSchema v = .ok (.scalar k) := by
  cases v with
  | null | record _ | array _ => simp [Value.kind?] at kind
  | _ =>
    cases kind
    rfl

theorem inferSchema_nested {k : ScalarKind} {depth : Nat} {v : Value} (h : v.Nested k depth) :
    (v.LeadsTo k → inferSchema v = .ok (.nested k depth)) ∧
      (¬ v.LeadsTo k → inferSchema v = .error .missingElementSchema) := by
  induction depth generalizing v with
  | zero =>
    exact ⟨fun _ => inferSchema_scalar h, fun hidden => absurd (.here h) hidden⟩
  | succ depth ih =>
    obtain ⟨items, rfl, each⟩ := Value.exists_array_of_nested h
    rw [inferSchema, inferElement_eq]
    -- The first item that is not null tells the schema; the later ones are not looked at.
    cases found : items.find? fun v => !v.isNull with
    | none =>
      refine ⟨fun leads => ?_, fun _ => rfl⟩
      cases leads with
      | here kind => simp [Value.kind?] at kind
      | first other _ => cases found.symm.trans other
    | some w =>
      obtain ⟨shown, hidden⟩ := ih (Value.nested_of_find? each found)
      constructor
      · intro leads
        cases leads with
        | here kind => simp [Value.kind?] at kind
        | first same leads =>
          cases found.symm.trans same
          simp [shown leads, Schema.nested]
      · intro astray
        simp [hidden fun leads => astray (.first found leads)]

/-! The first write to an unbound builder. -/

def single (label : String) (s : Schema) : EntryList := EntryList.empty.push (labelEntry label s)

section

variable (label : String) {v : Value} {s : Schema}

theorem write_unbound_eq_ok (inferred : inferSchema v = .ok s) (fits : v.Fits s true) :
    unbound.write (.label label) v =
      .ok ⟨.unbound (single label s), [((labelEntry label s).name, v)]⟩ := by
  have fresh : EntryList.empty.add (labelEntry label s) = (labelEntry label s, single label s) :=
    wellFormed_unbound.list.add_of_not_mem (by simp [EntryList.empty, EntryList.names])
  have unnamed (name : String) : EntryList.empty.get? name = none := by
    simp [EntryList.get?, EntryList.position?, EntryList.empty]
  have declared : declareLabel EntryList.empty [] label v =
      .ok (labelEntry label s, single label s, []) := by
    rw [declareLabel_of_stays inferred (by simp [unnamed]), fresh]
  have stored : Written.write [] (labelEntry label s) v =
      .ok [((labelEntry label s).name, v)] := Written.write_eq_ok_iff.2 ⟨fits, rfl⟩
  simp [write, unbound, declare, declared, stored]

theorem entryIndex?_single {t : Schema} (same : t.entries = [labelEntry label s]) :
    t.entryIndex? label = some 0 := by
  have here : t.entries[0]? = some (labelEntry label s) := by rw [same]; rfl
  by_cases plain : Identifier.sanitize label = label
  · have named : (labelEntry label s).name = label := plain
    rw [← named]
    exact Schema.entryIndex?_of_name (by simp [same]) here
  · have unused : label ∉ t.entries.map Entry.name := by
      simpa [same, labelEntry] using Ne.symm plain
    exact Schema.entryIndex?_of_rawName unused here (by simp [labelEntry, plain]) (by simp)

theorem build_single (v : Value) (flat : s.Flat) :
    ∃ r, build ⟨.unbound (single label s), [((labelEntry label s).name, v)]⟩ = .ok r ∧
      r.schema.entries = [labelEntry label s] ∧ r.values = [v] ∧ r.get label = .ok v := by
  have entries : (single label s).entries = [labelEntry label s] := rfl
  obtain ⟨t, built⟩ := SchemaBuilder.exists_build_of_flat (l := single label s)
    (by simpa [entries, labelEntry] using flat)
  obtain ⟨-, same⟩ := SchemaBuilder.entries_of_finish rfl built
  rw [entries] at same
  have filled : Written.fill [((labelEntry label s).name, v)] t.entries
      (Schema.converters t.entries) = .ok [v] := by
    refine Written.fill_eq_ok (by simp [same]) (Schema.length_converters _) ?_
    simp [same, Assoc.find?]
  refine ⟨⟨t, [v]⟩, ?_, same, rfl, ?_⟩
  · simp [build, schema, built, filled]
  · simp [Record.get, entryIndex?_single label same]

end

/-- What is written first to a label is declared with the type of nested arrays and read back, if
its first items lead to a scalar; else its items have no type that is found. -/
theorem write_nested {k : ScalarKind} {depth : Nat} {v : Value} (h : v.Nested k depth)
    (label : String) :
    (v.LeadsTo k → ∃ b r, unbound.write (.label label) v = .ok b ∧ b.build = .ok r ∧
      r.schema.entries = [labelEntry label (.nested k depth)] ∧ r.values = [v] ∧
      r.get label = .ok v) ∧
    (¬ v.LeadsTo k → unbound.write (.label label) v = .error .missingElementSchema) := by
  obtain ⟨shown, hidden⟩ := inferSchema_nested h
  constructor
  · intro leads
    obtain ⟨r, built, entries, values, found⟩ := build_single label v (Schema.flat_nested k depth)
    have wrote := write_unbound_eq_ok label (shown leads) (h.fits true)
    exact ⟨_, r, wrote, built, entries, values, found⟩
  · intro astray
    simp [write, unbound, declare, declareLabel, hidden astray]

/-! Rows of numbers: after a row that is null, and after one that is empty. -/

def rows : Value := .array [.null, .array [.null, .int 1], .array []]

def rowsAfterEmpty : Value := .array [.array [], .array [.int 1]]

theorem write_nested_rows : rows.Nested .int 2 ∧ rows.LeadsTo .int ∧
    ∃ b r, unbound.write (.label "the rows") rows = .ok b ∧ b.build = .ok r ∧
      r.schema.entries = [labelEntry "the rows" (.nested .int 2)] ∧ r.values = [rows] ∧
      r.get "the rows" = .ok rows := by
  have nested : rows.Nested .int 2 := by simp [rows, Value.Nested, Value.kind?]
  have leads : rows.LeadsTo .int := .first rfl (.first rfl (.here rfl))
  exact ⟨nested, leads, (write_nested nested "the rows").1 leads⟩

theorem write_rowsAfterEmpty : rowsAfterEmpty.Nested .int 2 ∧ rowsAfterEmpty.Holds .int ∧
    unbound.write (.label "rows") rowsAfterEmpty = .error .missingElementSchema := by
  refine ⟨?_, .inside (.tail _ (.head _)) (.inside (.head _) (.here rfl)), rfl⟩
  simp [rowsAfterEmpty, Value.Nested, Value.kind?]

end RecordBuilder
end TypedRecords
