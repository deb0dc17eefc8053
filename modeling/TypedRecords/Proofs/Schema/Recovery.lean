import TypedRecords.Proofs.Assoc
import TypedRecords.Proofs.Canonical.Rewording
import TypedRecords.Proofs.Schema.WellFormed

/-! What a canonical form tells of its schema.
A field keeps the label of its entry among the properties, so a property of that name is taken
for a label, and a record that goes by the name of the shared one and has no entries is taken for
it. All else is told as it is, and compiling what was told gives the same form again, but for the
properties of the shared record. -/
namespace TypedRecords

namespace Schema

mutual
def recovered : Schema → Schema
  | .scalar kind => .scalar kind
  | .emptyRecord => .emptyRecord
  | .record name entries props =>
    if name == Canonical.emptyRecordName && entries.isEmpty then .emptyRecord
    else .record name (recoveredEntries entries) props
  | .array element nullable props => .array (recovered element) nullable props

def recoveredEntries : List Entry → List Entry
  | [] => []
  | ⟨name, rawName, schema, nullable, metadata, comment, default, props⟩ :: rest =>
    ⟨name, rawName.or (props.find? Canonical.labelKey), recovered schema, nullable, metadata,
      comment, default, props.erase Canonical.labelKey⟩ :: recoveredEntries rest
end

end Schema

def Entry.recovered (e : Entry) : Entry :=
  { e with
    rawName := e.rawName.or (e.props.find? Canonical.labelKey)
    schema := e.schema.recovered
    props := e.props.erase Canonical.labelKey }

namespace Schema

theorem recoveredEntries_eq_map (entries : List Entry) :
    recoveredEntries entries = entries.map Entry.recovered := by
  induction entries with
  | nil => rfl
  | cons e rest ih =>
    obtain ⟨⟩ := e
    simp [recoveredEntries, ih, Entry.recovered]

theorem map_name_recoveredEntries (entries : List Entry) :
    (recoveredEntries entries).map Entry.name = entries.map Entry.name := by
  simp [recoveredEntries_eq_map, Entry.recovered, Function.comp_def]

/-! Compiling what was told. -/

theorem fieldProps_recovered (props : Props) (rawName : Option String) :
    fieldProps (props.erase Canonical.labelKey) (rawName.or (props.find? Canonical.labelKey)) =
      fieldProps props rawName := by
  cases rawName with
  | none =>
    cases own : props.find? Canonical.labelKey with
    | none => exact Props.erase_of_find?_eq_none own
    | some label => exact Props.erase_insert own
  | some label => exact Props.insert_of_erase props Canonical.labelKey label

theorem isEmpty_compiledEntries (entries : List Entry) :
    (compiledEntries entries).isEmpty = entries.isEmpty := by
  cases entries with
  | nil => rfl
  | cons e rest =>
    obtain ⟨⟩ := e
    rfl

theorem reworded_nullableIf {w : Canonical.Rewording} (nullable : Bool) (c : Canonical) :
    (nullableIf nullable c).reworded w = nullableIf nullable (c.reworded w) := by
  cases nullable with
  | false => rfl
  | true =>
    cases c <;> simp [nullableIf, Canonical.wrapNullable, Canonical.isUnion, Canonical.reworded,
      Canonical.rewordedBranches, Canonical.null]

/-- What goes by the name of the shared record, and is without fields, has its properties. -/
def asShared : Canonical.Rewording where
  record name bare props :=
    if name == Canonical.emptyRecordName && bare then emptyRecordProps else props
  array := id
  field := id

mutual
theorem compiled_recovered (s : Schema) : s.recovered.compiled = s.compiled.reworded asShared := by
  match s with
  | .scalar kind => cases kind <;> rfl
  | .emptyRecord => rfl
  | .array element nullable props =>
    simp only [recovered, compiled, Canonical.reworded, reworded_nullableIf,
      compiled_recovered element, asShared, id]
  | .record name entries props =>
    rw [recovered, compiled, Canonical.reworded, isEmpty_compiledEntries]
    simp only [asShared]
    split
    · rename_i same
      simp only [Bool.and_eq_true, beq_iff_eq, List.isEmpty_iff] at same
      obtain ⟨rfl, rfl⟩ := same
      rfl
    · rw [compiled, compiledEntries_recovered entries]
      rfl

theorem compiledEntries_recovered (entries : List Entry) :
    compiledEntries (recoveredEntries entries) =
      Canonical.rewordedFields asShared (compiledEntries entries) := by
  match entries with
  | [] => rfl
  | ⟨_, _, schema, _, _, _, _, _⟩ :: rest =>
    simp only [recoveredEntries, compiledEntries, Canonical.rewordedFields, reworded_nullableIf,
      compiled_recovered schema, compiledEntries_recovered rest, fieldProps_recovered]
    rfl
end

/-! Schemas of which nothing is lost. -/

/-- What a schema must be like for its canonical form to tell all about it: no property takes
the place of a label, and what looks like the shared record without entries is equal to it. -/
structure Recoverable (s : Schema) : Prop where
  unlabelled : ∀ t ∈ s.nodes, ∀ e ∈ t.entries, e.props.find? Canonical.labelKey = none
  bare : ∀ t ∈ s.nodes, t.recordName? = some Canonical.emptyRecordName → t.entries = [] →
    ∀ p ∈ t.props.pairs, p.1 = Canonical.orderKey

theorem recoverable_scalar (kind : ScalarKind) : (scalar kind).Recoverable := by
  constructor <;> simp [nodes, entries, recordName?]

theorem recoverable_emptyRecord : emptyRecord.Recoverable := by
  constructor
  · simp [nodes, entries]
  · decide +kernel

theorem recoverable_array {element : Schema} {nullable : Bool} {props : Props} :
    (array element nullable props).Recoverable ↔ element.Recoverable := by
  constructor
  · rintro ⟨unlabelled, bare⟩
    exact ⟨fun t ht => unlabelled t (List.mem_cons_of_mem _ ht),
      fun t ht => bare t (List.mem_cons_of_mem _ ht)⟩
  · rintro ⟨unlabelled, bare⟩
    exact ⟨List.forall_mem_cons.2 ⟨by simp [entries], unlabelled⟩,
      List.forall_mem_cons.2 ⟨by simp [recordName?], bare⟩⟩

theorem recoverable_record {name : String} {entries : List Entry} {props : Props} :
    (record name entries props).Recoverable ↔
      (∀ e ∈ entries, e.schema.Recoverable ∧ e.props.find? Canonical.labelKey = none) ∧
        (name = Canonical.emptyRecordName → entries = [] →
          ∀ p ∈ props.pairs, p.1 = Canonical.orderKey) := by
  constructor
  · rintro ⟨unlabelled, bare⟩
    refine ⟨fun e he => ⟨⟨?_, ?_⟩, unlabelled _ (self_mem_nodes _) e he⟩, fun shared =>
      bare _ (self_mem_nodes _) (by rw [recordName?, shared])⟩
    · exact fun t ht => unlabelled t (List.mem_cons_of_mem _ (mem_nodesOfEntries.2 ⟨e, he, ht⟩))
    · exact fun t ht => bare t (List.mem_cons_of_mem _ (mem_nodesOfEntries.2 ⟨e, he, ht⟩))
  · rintro ⟨inner, own⟩
    constructor
    · refine List.forall_mem_cons.2 ⟨fun e he => (inner e he).2, fun t ht => ?_⟩
      obtain ⟨e, he, below⟩ := mem_nodesOfEntries.1 ht
      exact (inner e he).1.unlabelled t below
    · refine List.forall_mem_cons.2 ⟨fun shared => own (Option.some.inj shared), fun t ht => ?_⟩
      obtain ⟨e, he, below⟩ := mem_nodesOfEntries.1 ht
      exact (inner e he).1.bare t below

theorem Arranged.props_eq_iff {name : String} {props : Props} (own : Arranged name [] props) :
    props = emptyRecordProps ↔ ∀ p ∈ props.pairs, p.1 = Canonical.orderKey := by
  constructor
  · rintro rfl
    decide +kernel
  · intro only
    refine Props.ext_find? fun key => ?_
    rw [emptyRecordProps, Props.find?_insert]
    by_cases same : Canonical.orderKey = key
    · rw [if_pos same, ← same, own.find?_of_nil]
    · rw [if_neg same, Props.find?_empty, Props.find?_eq_none_iff]
      intro p hp here
      exact same ((only p hp).symm.trans here)

mutual
theorem plain_recovered (s : Schema) (h : s.WellFormed) (clear : s.Recoverable) :
    s.recovered.plain = s.plain := by
  match s with
  | .scalar kind => rfl
  | .emptyRecord => rfl
  | .array element nullable props =>
    have inner := plain_recovered element (wellFormed_array.1 h) (recoverable_array.1 clear)
    simp only [recovered, plain, inner]
  | .record name entries props =>
    obtain ⟨own, others⟩ := wellFormed_record.1 h
    obtain ⟨inner, bare⟩ := recoverable_record.1 clear
    rw [recovered]
    split
    · rename_i shared
      simp only [Bool.and_eq_true, beq_iff_eq, List.isEmpty_iff] at shared
      obtain ⟨rfl, rfl⟩ := shared
      rw [own.props_eq_iff.2 (bare rfl rfl)]
      rfl
    · rw [plain, plain, plainEntries_recovered entries fun e he => ⟨others e he, inner e he⟩]

theorem plainEntries_recovered (entries : List Entry)
    (each : ∀ e ∈ entries, e.schema.WellFormed ∧ e.schema.Recoverable ∧
      e.props.find? Canonical.labelKey = none) :
    plainEntries (recoveredEntries entries) = plainEntries entries := by
  match entries with
  | [] => rfl
  | ⟨name, rawName, schema, nullable, metadata, comment, default, props⟩ :: rest =>
    obtain ⟨⟨sound, clear, unlabelled⟩, others⟩ := List.forall_mem_cons.1 each
    have unlabelled : props.find? Canonical.labelKey = none := unlabelled
    simp only [recoveredEntries, plainEntries, plain_recovered schema sound clear, unlabelled,
      Option.or_none, Props.erase_of_find?_eq_none unlabelled, plainEntries_recovered rest others]
end

/-! Properties and labels that are kept. -/

mutual
/-- At every level, the properties are those of the counterpart, and the entries have the
properties and the labels of the entries in their place. -/
def KeepsProps : Schema → Schema → Prop
  | .scalar kind, t => t.props = (scalar kind).props
  | .emptyRecord, t => t.props = emptyRecordProps ∧ t.entries = []
  | .record _ entries props, t => t.props = props ∧ KeepsEntries entries t.entries
  | .array element _ props, t =>
    t.props = props ∧ ∃ inner, t.element? = some inner ∧ KeepsProps element inner

def KeepsEntries : List Entry → List Entry → Prop
  | [], [] => True
  | ⟨_, rawName, schema, _, _, _, _, props⟩ :: rest, e :: others =>
    (e.rawName = rawName ∧ e.props = props ∧ KeepsProps schema e.schema) ∧
      KeepsEntries rest others
  | _, _ => False
end

mutual
/-- The properties of a schema survive where nothing is lost of it, and nowhere else. -/
theorem keepsProps_recovered_iff (s : Schema) (h : s.WellFormed) :
    s.KeepsProps s.recovered ↔ s.Recoverable := by
  match s with
  | .scalar kind => exact iff_of_true rfl (recoverable_scalar kind)
  | .emptyRecord => exact iff_of_true ⟨rfl, rfl⟩ recoverable_emptyRecord
  | .array element nullable props =>
    rw [recoverable_array, ← keepsProps_recovered_iff element (wellFormed_array.1 h)]
    simp [KeepsProps, recovered, Schema.props, element?]
  | .record name entries props =>
    obtain ⟨own, others⟩ := wellFormed_record.1 h
    rw [recoverable_record, recovered]
    split
    · rename_i shared
      simp only [Bool.and_eq_true, beq_iff_eq, List.isEmpty_iff] at shared
      obtain ⟨rfl, rfl⟩ := shared
      have inner : KeepsEntries [] emptyRecord.entries := trivial
      simp only [KeepsProps, Schema.props, inner, and_true, List.not_mem_nil, false_implies,
        implies_true, true_and, forall_const]
      exact eq_comm.trans own.props_eq_iff
    · rename_i apart
      rw [← keepsEntries_recovered_iff entries others]
      simp only [Bool.and_eq_true, beq_iff_eq, List.isEmpty_iff, not_and] at apart
      simp only [KeepsProps, Schema.props, Schema.entries, true_and]
      exact (and_iff_left fun shared none_ => absurd none_ (apart shared)).symm

theorem keepsEntries_recovered_iff (entries : List Entry)
    (h : ∀ e ∈ entries, e.schema.WellFormed) :
    KeepsEntries entries (recoveredEntries entries) ↔
      ∀ e ∈ entries, e.schema.Recoverable ∧ e.props.find? Canonical.labelKey = none := by
  match entries with
  | [] => simp [recoveredEntries, KeepsEntries]
  | ⟨name, rawName, schema, nullable, metadata, comment, default, props⟩ :: rest =>
    obtain ⟨first, others⟩ := List.forall_mem_cons.1 h
    have kept : rawName.or (props.find? Canonical.labelKey) = rawName ∧
        props.erase Canonical.labelKey = props ↔ props.find? Canonical.labelKey = none := by
      constructor
      · rintro ⟨-, same⟩
        rw [← same, Props.find?_erase, if_pos rfl]
      · intro unlabelled
        exact ⟨by rw [unlabelled, Option.or_none], Props.erase_of_find?_eq_none unlabelled⟩
    rw [recoveredEntries, KeepsEntries, List.forall_mem_cons,
      keepsEntries_recovered_iff rest others, keepsProps_recovered_iff schema first, ← and_assoc,
      kept, and_comm (a := props.find? Canonical.labelKey = none)]
end

theorem props_of_plain {s t : Schema} (h : s.plain = t.plain) : s.props = t.props := by
  cases s <;> cases t <;> simp_all [plain, props]

mutual
theorem KeepsProps.of_plain {t u : Schema} (s : Schema) (same : t.plain = u.plain)
    (h : s.KeepsProps t) : s.KeepsProps u := by
  match s with
  | .scalar kind => exact (props_of_plain same).symm.trans h
  | .emptyRecord =>
    have sameEntries := entries_of_plain same
    rw [h.2, plainEntries_eq_map, plainEntries_eq_map, List.map_nil] at sameEntries
    exact ⟨(props_of_plain same).symm.trans h.1, List.map_eq_nil_iff.1 sameEntries.symm⟩
  | .array element nullable props =>
    obtain ⟨own, inner, found, below⟩ := h
    obtain ⟨inner', found', sameInner, -⟩ := element_of_plain same.symm found
    exact ⟨(props_of_plain same).symm.trans own, inner', found',
      KeepsProps.of_plain element sameInner.symm below⟩
  | .record name entries props =>
    exact ⟨(props_of_plain same).symm.trans h.1,
      KeepsEntries.of_plain entries (entries_of_plain same) h.2⟩

theorem KeepsEntries.of_plain {fs gs : List Entry} (es : List Entry)
    (same : plainEntries fs = plainEntries gs) (h : KeepsEntries es fs) : KeepsEntries es gs := by
  match es, fs, gs with
  | [], [], [] => exact trivial
  | ⟨_, _, schema, _, _, _, _, _⟩ :: rest, f :: fs, g :: gs =>
    simp only [plainEntries_eq_map, List.map_cons, List.cons.injEq] at same
    obtain ⟨here, later⟩ := same
    simp only [Entry.plain, Entry.mk.injEq] at here
    obtain ⟨⟨label, own, below⟩, others⟩ := h
    refine ⟨⟨here.2.1 ▸ label, here.2.2.2.2.2.2.2 ▸ own, ?_⟩, ?_⟩
    · exact KeepsProps.of_plain schema here.2.2.1 below
    · exact KeepsEntries.of_plain rest (by simpa [plainEntries_eq_map] using later) others
  | [], [], _ :: _ | _ :: _, f :: fs, [] => simp [plainEntries_eq_map] at same
  | [], _ :: _, _ | _ :: _, [], _ => simp [KeepsEntries] at h
end

end Schema
end TypedRecords
