import TypedRecords.Schema.Basic

/-! Equality of documents, types and schemas by plain forms.
The program's equality takes the two zeros in a document for one, and the shared record
without entries for any other that looks like it. Both choices are undone by a plain form,
in which the zero has no sign and the shared record is written out. Things are equal exactly
if their plain forms are identical, so that equality is an equivalence which everything
respects that can be read off a plain form. -/
namespace TypedRecords

namespace Binary64

def plain (x : Binary64) : Binary64 := if x.magnitude = 0 then ⟨0⟩ else x

theorem magnitude_zero : (⟨0⟩ : Binary64).magnitude = 0 := by decide

theorem sameFloat_iff {x y : Binary64} : Json.sameFloat x y = true ↔ x.plain = y.plain := by
  by_cases hx : x.magnitude = 0
  · by_cases hy : y.magnitude = 0
    · simp [Json.sameFloat, plain, hx, hy]
    · have ne : ⟨0⟩ ≠ y := fun same => hy (same ▸ magnitude_zero)
      have ne' : x ≠ y := fun same => hy (same ▸ hx)
      simp [Json.sameFloat, plain, hx, hy, ne, ne']
  · by_cases hy : y.magnitude = 0
    · have ne : x ≠ ⟨0⟩ := fun same => hx (same ▸ magnitude_zero)
      have ne' : x ≠ y := fun same => hx (same ▸ hy)
      simp [Json.sameFloat, plain, hx, hy, ne, ne']
    · simp [Json.sameFloat, plain, hx, hy]

end Binary64

namespace Json

mutual
def plain : Json → Json
  | .null => .null
  | .bool b => .bool b
  | .int n => .int n
  | .float x => .float x.plain
  | .str s => .str s
  | .arr items => .arr (plainItems items)
  | .obj fields => .obj (plainFields fields)

def plainItems : List Json → List Json
  | [] => []
  | j :: rest => plain j :: plainItems rest

def plainFields : List (String × Json) → List (String × Json)
  | [] => []
  | (key, j) :: rest => (key, plain j) :: plainFields rest
end

mutual
theorem beq_iff_plain (a b : Json) : beq a b = true ↔ a.plain = b.plain := by
  match a with
  | .null => cases b <;> simp [beq, plain]
  | .bool _ => cases b <;> simp [beq, plain]
  | .int _ => cases b <;> simp [beq, plain]
  | .float _ => cases b <;> simp [beq, plain, Binary64.sameFloat_iff]
  | .str _ => cases b <;> simp [beq, plain]
  | .arr items => cases b <;> simp [beq, plain, beqItems_iff_plain items]
  | .obj fields => cases b <;> simp [beq, plain, beqFields_iff_plain fields]

theorem beqItems_iff_plain (as bs : List Json) :
    beqItems as bs = true ↔ plainItems as = plainItems bs := by
  match as, bs with
  | [], [] => simp [beqItems]
  | [], _ :: _ => simp [beqItems, plainItems]
  | _ :: _, [] => simp [beqItems, plainItems]
  | a :: as, b :: bs =>
    simp [beqItems, plainItems, beq_iff_plain a b, beqItems_iff_plain as bs]

theorem beqFields_iff_plain (as bs : List (String × Json)) :
    beqFields as bs = true ↔ plainFields as = plainFields bs := by
  match as, bs with
  | [], [] => simp [beqFields]
  | [], _ :: _ => simp [beqFields, plainFields]
  | _ :: _, [] => simp [beqFields, plainFields]
  | (k, a) :: as, (l, b) :: bs =>
    simp [beqFields, plainFields, beq_iff_plain a b, beqFields_iff_plain as bs]
end

theorem eq_iff_plain {a b : Json} : (a == b) = true ↔ a.plain = b.plain := beq_iff_plain a b

theorem eq_option_iff_plain {a b : Option Json} :
    (a == b) = true ↔ a.map plain = b.map plain := by
  cases a <;> cases b <;> simp [eq_iff_plain]

end Json

namespace Canonical

mutual
def plain : Canonical → Canonical
  | .primitive p => .primitive p
  | .timestampMillis => .timestampMillis
  | .array items props => .array (plain items) props
  | .record name space fields props => .record name space (plainFields fields) props
  | .union branches => .union (plainBranches branches)

def plainBranches : List Canonical → List Canonical
  | [] => []
  | c :: rest => plain c :: plainBranches rest

def plainFields : List Field → List Field
  | [] => []
  | ⟨name, type, doc, default, aliases, props⟩ :: rest =>
    ⟨name, plain type, doc, default.map Json.plain, aliases, props⟩ :: plainFields rest
end

def Field.plain (f : Field) : Field :=
  { f with type := f.type.plain, default := f.default.map Json.plain }

theorem plainBranches_eq_map (branches : List Canonical) :
    plainBranches branches = branches.map plain := by
  induction branches with
  | nil => rfl
  | cons c rest ih => simp [plainBranches, ih]

theorem plainFields_eq_map (fields : List Field) : plainFields fields = fields.map Field.plain := by
  induction fields with
  | nil => rfl
  | cons f rest ih =>
    obtain ⟨⟩ := f
    simp [plainFields, ih, Field.plain]

mutual
theorem beq_iff_plain (a b : Canonical) : beq a b = true ↔ a.plain = b.plain := by
  match a with
  | .primitive _ => cases b <;> simp [beq, plain]
  | .timestampMillis => cases b <;> simp [beq, plain]
  | .array items _ =>
    cases b with
    | array items' _ => simp [beq, plain, beq_iff_plain items items']
    | _ => simp [beq, plain]
  | .record _ _ fields _ =>
    cases b with
    | record _ _ fields' _ => simp [beq, plain, beqFields_iff_plain fields fields', and_assoc]
    | _ => simp [beq, plain]
  | .union branches =>
    cases b with
    | union branches' => simp [beq, plain, beqBranches_iff_plain branches branches']
    | _ => simp [beq, plain]

theorem beqBranches_iff_plain (as bs : List Canonical) :
    beqBranches as bs = true ↔ plainBranches as = plainBranches bs := by
  match as, bs with
  | [], [] => simp [beqBranches]
  | [], _ :: _ => simp [beqBranches, plainBranches]
  | _ :: _, [] => simp [beqBranches, plainBranches]
  | a :: as, b :: bs =>
    simp [beqBranches, plainBranches, beq_iff_plain a b, beqBranches_iff_plain as bs]

theorem beqFields_iff_plain (as bs : List Field) :
    beqFields as bs = true ↔ plainFields as = plainFields bs := by
  match as, bs with
  | [], [] => simp [beqFields]
  | [], _ :: _ => simp [beqFields, plainFields_eq_map]
  | _ :: _, [] => simp [beqFields, plainFields_eq_map]
  | ⟨_, a, _, _, _, _⟩ :: as, ⟨_, b, _, _, _, _⟩ :: bs =>
    simp [beqFields, plainFields, beq_iff_plain a b, beqFields_iff_plain as bs,
      Json.eq_option_iff_plain, and_assoc]
end

theorem eq_iff_plain {a b : Canonical} : (a == b) = true ↔ a.plain = b.plain :=
  beq_iff_plain a b

@[simp] theorem eq_self (c : Canonical) : (c == c) = true := eq_iff_plain.2 rfl

end Canonical

namespace Schema

mutual
def plain : Schema → Schema
  | .scalar kind => .scalar kind
  | .emptyRecord => .record Canonical.emptyRecordName [] emptyRecordProps
  | .record name entries props => .record name (plainEntries entries) props
  | .array element nullable props => .array (plain element) nullable props

def plainEntries : List Entry → List Entry
  | [] => []
  | ⟨name, rawName, schema, nullable, metadata, comment, default, props⟩ :: rest =>
    ⟨name, rawName, plain schema, nullable, metadata, comment, default.map Json.plain, props⟩
      :: plainEntries rest
end

end Schema

def Entry.plain (e : Entry) : Entry :=
  { e with schema := e.schema.plain, default := e.default.map Json.plain }

namespace Schema

theorem plainEntries_eq_map (entries : List Entry) :
    plainEntries entries = entries.map Entry.plain := by
  induction entries with
  | nil => rfl
  | cons e rest ih =>
    obtain ⟨⟩ := e
    simp [plainEntries, ih, Entry.plain]

mutual
theorem beq_iff_plain (a b : Schema) : beq a b = true ↔ a.plain = b.plain := by
  match a with
  | .scalar _ => cases b <;> simp [beq, plain]
  | .emptyRecord =>
    cases b with
    | record name entries props =>
      simp only [beq, plain, plainEntries_eq_map, Bool.and_eq_true, beq_iff_eq,
        List.isEmpty_iff, record.injEq, List.nil_eq, List.map_eq_nil_iff, and_assoc]
      constructor
      · rintro ⟨rfl, rfl, rfl⟩
        exact ⟨rfl, rfl, rfl⟩
      · rintro ⟨rfl, rfl, rfl⟩
        exact ⟨rfl, rfl, rfl⟩
    | _ => simp [beq, plain]
  | .record _ entries _ =>
    cases b with
    | record _ entries' _ =>
      simp [beq, plain, beqEntries_iff_plain entries entries', and_assoc]
    | emptyRecord => simp [beq, plain, plainEntries_eq_map, and_assoc]
    | _ => simp [beq, plain]
  | .array element _ _ =>
    cases b with
    | array element' _ _ => simp [beq, plain, beq_iff_plain element element', and_assoc]
    | _ => simp [beq, plain]

theorem beqEntries_iff_plain (as bs : List Entry) :
    beqEntries as bs = true ↔ plainEntries as = plainEntries bs := by
  match as, bs with
  | [], [] => simp [beqEntries]
  | [], _ :: _ => simp [beqEntries, plainEntries_eq_map]
  | _ :: _, [] => simp [beqEntries, plainEntries_eq_map]
  | ⟨_, _, a, _, _, _, _, _⟩ :: as, ⟨_, _, b, _, _, _, _, _⟩ :: bs =>
    simp [beqEntries, plainEntries, beq_iff_plain a b, beqEntries_iff_plain as bs,
      Json.eq_option_iff_plain, and_assoc]
end

theorem eq_iff_plain {a b : Schema} : (a == b) = true ↔ a.plain = b.plain := beq_iff_plain a b

@[simp] theorem eq_self (s : Schema) : (s == s) = true := eq_iff_plain.2 rfl

theorem kind_plain (s : Schema) : s.plain.kind = s.kind := by
  cases s <;> rfl

theorem kind_of_plain {s t : Schema} (h : s.plain = t.plain) : s.kind = t.kind := by
  rw [← kind_plain, h, kind_plain]

theorem recordName?_plain (s : Schema) : s.plain.recordName? = s.recordName? := by
  cases s <;> rfl

theorem entries_plain (s : Schema) : s.plain.entries = plainEntries s.entries := by
  cases s <;> rfl

theorem entries_of_plain {s t : Schema} (h : s.plain = t.plain) :
    plainEntries s.entries = plainEntries t.entries := by
  rw [← entries_plain, h, entries_plain]

theorem element_of_plain {s t element : Schema} (h : s.plain = t.plain)
    (inner : t.element? = some element) :
    ∃ element', s.element? = some element' ∧ element'.plain = element.plain ∧
      s.elementNullable = t.elementNullable := by
  cases t with
  | array e n p =>
    cases inner
    cases s with
    | array e' n' p' =>
      simp only [plain, array.injEq] at h
      exact ⟨e', rfl, h.1, h.2.1⟩
    | _ => simp [plain] at h
  | _ => simp [element?] at inner

theorem plainEntries_cons {entries rest : List Entry} {e : Entry}
    (h : plainEntries entries = plainEntries (e :: rest)) :
    ∃ e' others, entries = e' :: others ∧ e'.name = e.name ∧ e'.schema.plain = e.schema.plain ∧
      e'.nullable = e.nullable ∧ plainEntries others = plainEntries rest := by
  cases entries with
  | nil => simp [plainEntries_eq_map] at h
  | cons e' others =>
    simp only [plainEntries_eq_map, List.map_cons, List.cons.injEq] at h
    obtain ⟨same, later⟩ := h
    simp only [Entry.plain, Entry.mk.injEq] at same
    exact ⟨e', others, rfl, same.1, same.2.2.1, same.2.2.2.1,
      by simpa [plainEntries_eq_map] using later⟩

theorem plain_nullableIf (nullable : Bool) (c : Canonical) :
    (nullableIf nullable c).plain = nullableIf nullable c.plain := by
  cases nullable with
  | false => rfl
  | true =>
    cases c <;> simp [nullableIf, Canonical.wrapNullable, Canonical.isUnion, Canonical.plain,
      Canonical.plainBranches, Canonical.null]

mutual
theorem compiled_plain (s : Schema) : s.plain.compiled = s.compiled.plain := by
  match s with
  | .scalar kind => cases kind <;> simp [plain, compiled, ScalarKind.canonical, Canonical.plain]
  | .emptyRecord => simp [plain, compiled, compiledEntries, Canonical.plain, Canonical.plainFields]
  | .record _ entries _ => simp [plain, compiled, Canonical.plain, compiledEntries_plain entries]
  | .array element _ _ =>
    simp [plain, compiled, Canonical.plain, plain_nullableIf, compiled_plain element]

theorem compiledEntries_plain (entries : List Entry) :
    compiledEntries (plainEntries entries) = Canonical.plainFields (compiledEntries entries) := by
  match entries with
  | [] => rfl
  | ⟨_, _, schema, _, _, _, _, _⟩ :: rest =>
    simp [plainEntries, compiledEntries, Canonical.plainFields, plain_nullableIf,
      compiled_plain schema, compiledEntries_plain rest]
end

/-- Equal schemas have canonical forms that are equal. -/
theorem plain_compiled_eq {a b : Schema} (h : a.plain = b.plain) :
    a.compiled.plain = b.compiled.plain := by
  rw [← compiled_plain, ← compiled_plain, h]

end Schema
end TypedRecords
