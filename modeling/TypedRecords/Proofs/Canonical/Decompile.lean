import TypedRecords.Canonical.Decompile
import TypedRecords.Proofs.Schema.Builder
import TypedRecords.Proofs.Schema.Recovery

/-! Decompiling undoes compiling.
The canonical form of a schema keeps every attribute of an entry somewhere, and decompiling gives
all that it tells. Rebuilding a record never renames or merges an entry, since the names of a
well-formed record are distinct identifiers, and it finds the logical order again, since that
lists every entry once. -/
namespace TypedRecords

open Result

namespace Canonical

/-! Whatever comes from a canonical form is well-formed. -/

theorem wellFormed_rebuildRecord {name : String} {fieldNames : List String} {props : Props}
    {entries : List Entry} {strict : Bool} {s : Schema} (own : ∀ e ∈ entries, e.WellFormed)
    (run : rebuildRecord name fieldNames props entries strict = .ok s) : s.WellFormed := by
  obtain ⟨b, declared, run⟩ := bind_eq_ok.1 run
  have start : ((SchemaBuilder.record.withRecordName name).withProps
      (props.erase orderKey).pairs).WellFormed := SchemaBuilder.wellFormed_ofKind .record
  have h := start.withEntries own declared
  split at run
  · exact h.build run
  · obtain ⟨listed, -, run⟩ := bind_eq_ok.1 run
    exact h.buildListed run

theorem wellFormed_rebuildEntry {name : String} {schema : Schema} {nullable : Bool}
    {doc : Option String} {default : Option Json} {aliases : List String} {props : Props}
    {e : Entry} (own : schema.WellFormed)
    (run : rebuildEntry name schema nullable doc default aliases props = .ok e) :
    e.WellFormed := by
  have start := ((EntryBuilder.wellFormed_empty.withName name).withSchema own).withNullable nullable
  have marked := (start.withMetadata (aliases.contains metadataAlias)).withProps
    (props.erase labelKey).pairs
  have labelled := marked.elim (a := props.find? labelKey) fun l _ => marked.withRawName l
  have told := labelled.elim (a := doc) fun c _ => labelled.withComment c
  exact (told.elim fun d _ => told.withDefault d).build run

mutual
theorem wellFormed_decompile {strict : Bool} (c : Canonical) {s : Schema}
    (run : decompile strict c = .ok s) : s.WellFormed := by
  match c with
  | .primitive p =>
    rw [decompile] at run
    split at run
    · cases run
      exact Schema.wellFormed_scalar _
    · cases run
  | .timestampMillis =>
    rw [decompile] at run
    cases run
    exact Schema.wellFormed_scalar _
  | .union branches =>
    rw [decompile] at run
    cases run
  | .array items props =>
    rw [decompile] at run
    split at run
    · cases run
    · rename_i base nullable taken
      obtain ⟨element, inner, run⟩ := bind_eq_ok.1 run
      have smaller := sizeOf_splitNullable_le taken
      have own := wellFormed_decompile base inner
      cases run
      exact Schema.wellFormed_array.2 own
  | .record name space fields props =>
    rw [decompile] at run
    split at run
    · cases run
      exact Schema.wellFormed_emptyRecord
    · obtain ⟨entries, inner, run⟩ := bind_eq_ok.1 run
      exact wellFormed_rebuildRecord (wellFormed_decompileFields fields inner) run
termination_by sizeOf c
decreasing_by
  · simp only [Canonical.array.sizeOf_spec]
    omega
  · simp only [Canonical.record.sizeOf_spec]
    omega

theorem wellFormed_decompileFields {strict : Bool} (fields : List Field) {entries : List Entry}
    (run : decompileFields strict fields = .ok entries) : ∀ e ∈ entries, e.WellFormed := by
  match fields with
  | [] =>
    rw [decompileFields] at run
    cases run
    simp
  | ⟨name, type, doc, default, aliases, props⟩ :: rest =>
    rw [decompileFields] at run
    split at run
    · cases run
    · rename_i base nullable taken
      have smaller := sizeOf_splitNullable_le taken
      obtain ⟨schema, inner, run⟩ := bind_eq_ok.1 run
      obtain ⟨e, built, run⟩ := bind_eq_ok.1 run
      obtain ⟨others, later, same⟩ := bind_eq_ok.1 run
      cases same
      refine List.forall_mem_cons.2 ⟨?_, wellFormed_decompileFields rest later⟩
      exact wellFormed_rebuildEntry (wellFormed_decompile base inner) built
termination_by sizeOf fields
decreasing_by
  · simp only [List.cons.sizeOf_spec, Field.mk.sizeOf_spec]
    omega
  · simp only [List.cons.sizeOf_spec]
    omega
end

/-! Rebuilding records. -/

theorem listedNames_join {order fieldNames : List String} {record : String} {strict : Bool}
    (valid : ∀ name ∈ fieldNames, Identifier.isValid name) (perm : order.Perm fieldNames) :
    listedNames (OrderText.join order) record fieldNames strict = .ok order := by
  have listed := OrderText.filter_split_join fun name hn => valid name (perm.mem_iff.1 hn)
  have fits : (order.all fieldNames.contains) = true := by
    simpa using fun name hn => perm.mem_iff.1 hn
  simp [listedNames, listed, perm.length_eq, fits]

theorem rebuildRecord_eq_ok {name : String} {entries : List Entry} {props : Props}
    (h : Schema.Arranged name entries props) (own : ∀ e ∈ entries, e.WellFormed)
    (strict : Bool) :
    rebuildRecord name (entries.map Entry.name) props entries strict =
      .ok (.record name entries props) := by
  obtain ⟨order, perm, stored⟩ := h.ordered
  have valid : ∀ n ∈ entries.map Entry.name, Identifier.isValid n := by
    simpa using h.valid
  obtain ⟨b, declared, built⟩ := SchemaBuilder.exists_buildListed h own perm stored
  rw [rebuildRecord]
  simp only [declared, ok_bind, stored, listedNames_join valid perm, built]

/-! Rebuilding entries. -/

theorem fieldProps_spec (props : Props) (rawName : Option String) :
    (Schema.fieldProps props rawName).find? labelKey = rawName.or (props.find? labelKey) ∧
      (Schema.fieldProps props rawName).erase labelKey = props.erase labelKey := by
  cases rawName with
  | none => exact ⟨rfl, rfl⟩
  | some label =>
    exact ⟨by simp [Schema.fieldProps, Props.find?_insert], Props.erase_of_insert props labelKey label⟩

/-- Every attribute of an entry is found again in its field, a label among the properties. -/
theorem rebuildEntry_eq_ok {name : String} (rawName : Option String) (schema : Schema)
    (nullable metadata : Bool) (comment : Option String) (default : Option Json) (props : Props)
    (valid : Identifier.isValid name) :
    rebuildEntry name schema nullable comment default
        (if metadata then [metadataAlias] else []) (Schema.fieldProps props rawName) =
      .ok ⟨name, rawName.or (props.find? labelKey), schema, nullable, metadata, comment, default,
        props.erase labelKey⟩ := by
  obtain ⟨labelled, others⟩ := fieldProps_spec props rawName
  have marked : (if metadata then [metadataAlias] else []).contains metadataAlias = metadata := by
    cases metadata <;> simp
  rw [rebuildEntry, labelled, others, marked]
  exact EntryBuilder.build_eq_ok _ schema nullable metadata comment default _ valid

/-! Types that admit null. -/

theorem isUnion_plain (c : Canonical) : c.plain.isUnion = c.isUnion := by
  cases c <;> rfl

theorem isNull_plain (c : Canonical) : c.plain.isNull = c.isNull := by
  cases c <;> rfl

theorem isUnion_compiled (s : Schema) : s.compiled.isUnion = false := by
  cases s with
  | scalar k => cases k <;> rfl
  | _ => rfl

theorem isNull_compiled (s : Schema) : s.compiled.isNull = false := by
  cases s with
  | scalar k => cases k <;> rfl
  | _ => rfl

theorem plain_nullable {c base : Canonical}
    (h : c.plain = (union [null, base]).plain) :
    ∃ base', c = union [null, base'] ∧ base'.plain = base.plain := by
  cases c with
  | union branches =>
    simp only [plain, union.injEq, plainBranches_eq_map, List.map_cons, List.map_nil,
      List.map_eq_cons_iff, List.map_eq_nil_iff] at h
    obtain ⟨a, _, rfl, first, b, _, rfl, second, rfl⟩ := h
    have absent : a = null := by cases a <;> simp_all [plain, null]
    exact ⟨b, by rw [absent], second⟩
  | _ => simp [plain] at h

theorem splitNullable_of_not_union {c : Canonical} (h : c.isUnion = false) :
    c.splitNullable = .ok (c, false) := by
  cases c with
  | union branches => simp [isUnion] at h
  | _ => rfl

theorem splitNullable_nullableIf {c base : Canonical} {nullable : Bool}
    (single : base.isUnion = false) (present : base.isNull = false)
    (same : c.plain = (Schema.nullableIf nullable base).plain) :
    ∃ base', c.splitNullable = .ok (base', nullable) ∧ base'.plain = base.plain := by
  cases nullable with
  | false =>
    have whole : c.plain = base.plain := same
    refine ⟨c, splitNullable_of_not_union ?_, whole⟩
    rw [← isUnion_plain, whole, isUnion_plain, single]
  | true =>
    have wrapped : Schema.nullableIf true base = .union [null, base] := by
      simp [Schema.nullableIf, wrapNullable, single]
    rw [wrapped] at same
    obtain ⟨base', rfl, sameBase⟩ := plain_nullable same
    have kept : base'.isNull = false := by
      rw [← isNull_plain, sameBase, isNull_plain, present]
    have absent : null.isNull = true := rfl
    exact ⟨base', by simp [splitNullable, absent, kept], sameBase⟩

end Canonical

namespace Schema

theorem names_of_plainEntries {entries others : List Entry}
    (h : plainEntries entries = plainEntries others) :
    entries.map Entry.name = others.map Entry.name := by
  have names (es : List Entry) : es.map Entry.name = (plainEntries es).map Entry.name := by
    simp [plainEntries_eq_map, Entry.plain]
  rw [names, h, ← names]

theorem Arranged.of_plain {name : String} {entries entries' : List Entry} {props : Props}
    (h : Arranged name entries props) (same : plainEntries entries' = plainEntries entries)
    (own : ∀ e ∈ entries', e.WellFormed) : Arranged name entries' props := by
  have names := names_of_plainEntries same
  have whole : (Schema.record name entries' props).plain =
      (Schema.record name entries props).plain := by simp [Schema.plain, same]
  exact
    { valid := fun e he => (own e he).valid
      distinct := names ▸ h.distinct
      ordered := names ▸ h.ordered
      consistent := h.consistent.of_plain_eq (plain_compiled_eq whole).symm }

theorem Arranged.recovered {name : String} {entries : List Entry} {props : Props}
    (h : Arranged name entries props)
    (apart : ¬ (name == Canonical.emptyRecordName && entries.isEmpty) = true) :
    Arranged name (recoveredEntries entries) props := by
  have names := map_name_recoveredEntries entries
  have whole : (record name (recoveredEntries entries) props).compiled =
      (record name entries props).compiled.reworded asShared := by
    rw [← compiled_recovered, Schema.recovered, if_neg apart]
  exact
    { valid := fun e he => by
        have mem : e.name ∈ entries.map Entry.name := names ▸ List.mem_map_of_mem he
        obtain ⟨e', he', same⟩ := List.mem_map.1 mem
        exact same ▸ h.valid e' he'
      distinct := names ▸ h.distinct
      ordered := names ▸ h.ordered
      consistent := whole ▸ h.consistent.reworded }

end Schema

namespace Canonical

open Schema

theorem plain_record {c : Canonical} {name space : String} {fields : List Field} {props : Props}
    (h : c.plain = (record name space fields props).plain) :
    ∃ fields', c = record name space fields' props ∧ plainFields fields' = plainFields fields := by
  cases c with
  | record n s fs p =>
    simp only [plain, record.injEq] at h
    obtain ⟨rfl, rfl, same, rfl⟩ := h
    exact ⟨fs, rfl, same⟩
  | _ => simp [plain] at h

theorem plain_array {c items : Canonical} {props : Props}
    (h : c.plain = (array items props).plain) :
    ∃ items', c = array items' props ∧ items'.plain = items.plain := by
  cases c with
  | array i p =>
    simp only [plain, array.injEq] at h
    obtain ⟨same, rfl⟩ := h
    exact ⟨i, rfl, same⟩
  | _ => simp [plain] at h

theorem plainFields_cons {fields rest : List Field} {f : Field}
    (h : plainFields fields = plainFields (f :: rest)) :
    ∃ type default others, fields = ⟨f.name, type, f.doc, default, f.aliases, f.props⟩ :: others ∧
      type.plain = f.type.plain ∧ default.map Json.plain = f.default.map Json.plain ∧
      plainFields others = plainFields rest := by
  cases fields with
  | nil => simp [plainFields_eq_map] at h
  | cons g others =>
    simp only [plainFields_eq_map, List.map_cons, List.cons.injEq] at h
    obtain ⟨name, type, doc, default, aliases, props⟩ := g
    obtain ⟨⟩ := f
    simp only [Field.plain, Field.mk.injEq] at h
    obtain ⟨⟨rfl, sameType, rfl, sameDefault, rfl, rfl⟩, later⟩ := h
    exact ⟨type, default, others, rfl, sameType, sameDefault,
      by simpa [plainFields_eq_map] using later⟩

theorem names_compiledEntries (entries : List Entry) :
    (compiledEntries entries).map Field.name = entries.map Entry.name := by
  induction entries with
  | nil => rfl
  | cons e rest ih =>
    obtain ⟨⟩ := e
    simp [compiledEntries, ih]

theorem names_of_plainFields {fields others : List Field}
    (h : plainFields fields = plainFields others) :
    fields.map Field.name = others.map Field.name := by
  have names (fs : List Field) : fs.map Field.name = (plainFields fs).map Field.name := by
    simp [plainFields_eq_map, Field.plain]
  rw [names, h, ← names]

/-! One layer of decompiling. -/

theorem decompile_array {strict nullable : Bool} {items base : Canonical} {props : Props}
    (taken : items.splitNullable = .ok (base, nullable)) :
    decompile strict (.array items props) =
      (do return .array (← decompile strict base) nullable props) := by
  rw [decompile]
  split
  · simp_all
  · rename_i found
    rw [taken] at found
    cases found
    cases decompile strict base with
    | error fault => rfl
    | ok element =>
      simp [SchemaBuilder.array, SchemaBuilder.ofKind, SchemaBuilder.withType,
        SchemaBuilder.empty, SchemaBuilder.Shape.kind?, SchemaBuilder.Shape.fresh,
        SchemaBuilder.withElement, SchemaBuilder.withElementNullable, SchemaBuilder.withProps,
        SchemaBuilder.build, SchemaBuilder.finish]

theorem decompileFields_cons {strict nullable : Bool} {f : Field} {base : Canonical}
    (rest : List Field) (taken : f.type.splitNullable = .ok (base, nullable)) :
    decompileFields strict (f :: rest) = (do
      let schema ← decompile strict base
      let entry ← rebuildEntry f.name schema nullable f.doc f.default f.aliases f.props
      return entry :: (← decompileFields strict rest)) := by
  obtain ⟨⟩ := f
  rw [decompileFields]
  split
  · simp_all
  · rename_i found
    rw [taken] at found
    cases found
    rfl

mutual
/-- A canonical form gives the schema that it tells of, and so does any form that equals it. -/
theorem decompile_recovered (strict : Bool) (s : Schema) {c : Canonical}
    (same : c.plain = s.compiled.plain) (h : s.WellFormed) :
    ∃ s', decompile strict c = .ok s' ∧ s'.plain = s.recovered.plain := by
  match s with
  | .scalar kind =>
    refine ⟨.scalar kind, ?_, rfl⟩
    cases kind <;> cases c <;>
      simp_all [compiled, ScalarKind.canonical, plain, decompile, scalarKind?]
  | .emptyRecord =>
    obtain ⟨fields, rfl, none_⟩ := plain_record same
    cases fields with
    | nil => exact ⟨.emptyRecord, by simp [decompile], rfl⟩
    | cons f rest => simp [plainFields_eq_map] at none_
  | .array element nullable props =>
    obtain ⟨items, rfl, inner⟩ := plain_array same
    obtain ⟨base, split, sameBase⟩ := splitNullable_nullableIf (isUnion_compiled element)
      (isNull_compiled element) inner
    obtain ⟨element', run, equal⟩ := decompile_recovered strict element sameBase
      (wellFormed_array.1 h)
    refine ⟨.array element' nullable props, ?_, by simp [recovered, Schema.plain, equal]⟩
    rw [decompile_array split, run]
    rfl
  | .record name entries props =>
    obtain ⟨fields, rfl, inner⟩ := plain_record same
    obtain ⟨own, others⟩ := wellFormed_record.1 h
    have names : fields.map Field.name = entries.map Entry.name :=
      (names_of_plainFields inner).trans (names_compiledEntries entries)
    have bare : fields.isEmpty = entries.isEmpty := by
      rw [← isEmpty_plainFields, inner, isEmpty_plainFields, isEmpty_compiledEntries]
    -- What looks like the shared record becomes it, whatever properties it had.
    rw [decompile, recovered, bare]
    split
    · exact ⟨.emptyRecord, rfl, rfl⟩
    · rename_i apart
      obtain ⟨entries', run, equal⟩ := decompileFields_recovered strict entries inner
        (fun e he => ⟨own.valid e he, others e he⟩)
      have sound := wellFormed_decompileFields fields run
      refine ⟨.record name entries' props, ?_, by simp [Schema.plain, equal]⟩
      rw [run, ok_bind, names, ← map_name_recoveredEntries, ← names_of_plainEntries equal]
      exact rebuildRecord_eq_ok ((own.recovered apart).of_plain equal sound) sound strict

theorem decompileFields_recovered (strict : Bool) (entries : List Entry) {fields : List Field}
    (same : plainFields fields = plainFields (compiledEntries entries))
    (h : ∀ e ∈ entries, e.WellFormed) :
    ∃ entries', decompileFields strict fields = .ok entries' ∧
      plainEntries entries' = plainEntries (recoveredEntries entries) := by
  match entries with
  | [] =>
    cases fields with
    | nil => exact ⟨[], by rw [decompileFields], rfl⟩
    | cons f rest => simp [compiledEntries, plainFields_eq_map] at same
  | ⟨name, rawName, schema, nullable, metadata, comment, default, props⟩ :: rest =>
    obtain ⟨type, default', others, rfl, sameType, sameDefault, later⟩ := plainFields_cons same
    obtain ⟨base, split, sameBase⟩ := splitNullable_nullableIf (isUnion_compiled schema)
      (isNull_compiled schema) sameType
    obtain ⟨first, later_h⟩ := List.forall_mem_cons.1 h
    obtain ⟨schema', run, equal⟩ := decompile_recovered strict schema sameBase first.schema
    obtain ⟨rest', runRest, equalRest⟩ := decompileFields_recovered strict rest later later_h
    have built := rebuildEntry_eq_ok rawName schema' nullable metadata comment default' props
      first.valid
    refine ⟨⟨name, rawName.or (props.find? labelKey), schema', nullable, metadata, comment, default',
      props.erase labelKey⟩ :: rest', ?_, ?_⟩
    · rw [decompileFields_cons others split, run, ok_bind, built, ok_bind, runRest]
      rfl
    · simp [recoveredEntries, plainEntries, equal, equalRest, sameDefault]
end

theorem decompile_of_plain (strict : Bool) (s : Schema) {c : Canonical}
    (same : c.plain = s.compiled.plain) (h : s.WellFormed) (clear : s.Recoverable) :
    ∃ s', decompile strict c = .ok s' ∧ s'.plain = s.plain := by
  obtain ⟨s', run, equal⟩ := decompile_recovered strict s same h
  exact ⟨s', run, equal.trans (plain_recovered s h clear)⟩

end Canonical

end TypedRecords
