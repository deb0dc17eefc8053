import TypedRecords.Proofs.Schema.Builder
import TypedRecords.Proofs.Schema.DescriptorJson

/-! What the description of a schema tells.
A description leaves record names out, and the properties of the array type of an entry. So what
it builds is the schema with names made from the content and without those properties, all else
being kept: labels and names, defaults, the logical order, the shared record without entries.
A schema that was built without names has nothing to lose and is described as it is. -/
namespace TypedRecords

open Result

namespace Schema

def bare : Schema → Schema
  | .array element nullable _ => .array element nullable Props.empty
  | s => s

mutual
/-- What the description of a schema tells of it. -/
def retold : Schema → Schema
  | .scalar kind => .scalar kind
  | .emptyRecord => .emptyRecord
  | .record _ entries props => ofContent (retoldEntries entries) props
  | .array element nullable props => .array (retold element) nullable props

def retoldEntries : List Entry → List Entry
  | [] => []
  | ⟨name, rawName, schema, nullable, metadata, comment, default, props⟩ :: rest =>
    ⟨name, rawName, (retold schema).bare, nullable, metadata, comment, default, props⟩
      :: retoldEntries rest
end

end Schema

def Entry.retold (e : Entry) : Entry := { e with schema := e.schema.retold.bare }

namespace Schema

theorem retoldEntries_eq_map (entries : List Entry) :
    retoldEntries entries = entries.map Entry.retold := by
  induction entries with
  | nil => rfl
  | cons e rest ih =>
    obtain ⟨⟩ := e
    simp [retoldEntries, ih, Entry.retold]

theorem map_name_retoldEntries (entries : List Entry) :
    (retoldEntries entries).map Entry.name = entries.map Entry.name := by
  simp [retoldEntries_eq_map, Entry.retold, Function.comp_def]

theorem mem_retoldEntries {e : Entry} {entries : List Entry} :
    e ∈ retoldEntries entries ↔ ∃ e' ∈ entries, e'.retold = e := by
  simp [retoldEntries_eq_map]

theorem kind_ofContent (entries : List Entry) (props : Props) :
    (ofContent entries props).kind = .record := by
  unfold ofContent
  split <;> rfl

theorem entries_ofContent (entries : List Entry) (props : Props) :
    (ofContent entries props).entries = entries := by
  unfold ofContent
  split
  · rename_i shared
    rw [List.isEmpty_iff.1 (Bool.and_eq_true_iff.1 shared).1]
    rfl
  · rfl

theorem bare_of_kind {s : Schema} (h : s.kind = .record) : s.bare = s := by
  cases s <;> first | rfl | cases h

theorem wellFormed_bare {s : Schema} : s.bare.WellFormed ↔ s.WellFormed := by
  cases s with
  | array element nullable props => simp only [bare, wellFormed_array]
  | _ => rfl

theorem wellFormed_of_ofContent {entries : List Entry} {props : Props}
    (h : (ofContent entries props).WellFormed) : ∀ e ∈ entries, e.WellFormed := fun e he =>
  h.wellFormed_entry (by rwa [entries_ofContent])

theorem wellFormed_ofContent_iff {entries : List Entry} {props : Props}
    (own : ∀ e ∈ entries, e.WellFormed) (distinct : (entries.map Entry.name).Nodup)
    (ordered : ∃ order : List String, order.Perm (entries.map Entry.name) ∧
      props.find? Canonical.orderKey = some (OrderText.join order)) :
    (ofContent entries props).WellFormed ↔ (ofContent entries props).compiled.Consistent := by
  constructor
  · intro whole
    exact whole.consistent (kind_ofContent entries props)
  · unfold ofContent
    split
    · exact fun _ => wellFormed_emptyRecord
    · intro consistent
      exact wellFormed_record.2 ⟨⟨fun e he => (own e he).valid, distinct, ordered, consistent⟩,
        fun e he => (own e he).schema⟩

end Schema

namespace SchemaBuilder

theorem of_foldlM_withEntry {es : List Entry} {start : EntryList} {props : Props}
    {name : Option String} {b : SchemaBuilder} (h : start.WellFormed)
    (own : ∀ e ∈ es, e.WellFormed)
    (run : es.foldlM withEntry ⟨.record start, props, name⟩ = .ok b) :
    ∃ l : EntryList, b = ⟨.record l, props, name⟩ ∧ l.WellFormed ∧
      ∀ e ∈ l.entries, e ∈ start.entries ∨ ∃ given ∈ es, ∃ other, e = given.renamed other := by
  induction es generalizing start with
  | nil =>
    cases run
    exact ⟨start, rfl, h, fun e he => .inl he⟩
  | cons given rest ih =>
    obtain ⟨sound, others⟩ := List.forall_mem_cons.1 own
    obtain ⟨_, step, later⟩ := bind_eq_ok.1 run
    cases step
    obtain ⟨l, same, grown, known⟩ := ih (h.add sound).2 others later
    refine ⟨l, same, grown, fun e he => ?_⟩
    rcases known e he with before | ⟨other, ho, name, rfl⟩
    · rcases h.add_cases given with ⟨stored, -, -, added⟩ | ⟨-, added⟩
      · rw [added] at before
        exact .inl before
      · rw [added] at before
        rcases List.mem_append.1 before with old | new
        · exact .inl old
        · exact .inr ⟨given, List.mem_cons_self, _, List.mem_singleton.1 new⟩
    · exact .inr ⟨other, List.mem_cons_of_mem _ ho, name, rfl⟩

end SchemaBuilder

namespace Descriptor

open Schema

/-! One layer of a description. -/

def ofEntry (e : TypedRecords.Entry) : Entry :=
  { name := e.name, label := e.rawName, kind := e.schema.kind
    element := if e.schema.kind = .record then some (ofSchema e.schema)
      else (ofSchema e.schema).element
    elementNullable := (ofSchema e.schema).elementNullable, nullable := e.nullable
    metadata := e.metadata, comment := e.comment, default := e.default, props := e.props }

theorem ofEntries_eq_map (entries : List TypedRecords.Entry) :
    ofEntries entries = entries.map ofEntry := by
  induction entries with
  | nil => rfl
  | cons e rest ih =>
    obtain ⟨⟩ := e
    simp [ofEntries, ih, ofEntry]

theorem buildRecord_eq (name : Option String) (es : List TypedRecords.Entry) (props : Props) :
    buildRecord name es props = (do
      let b ← es.foldlM SchemaBuilder.withEntry
        ⟨.record EntryList.empty, props.erase Canonical.orderKey, name⟩
      match props.find? Canonical.orderKey with
      | some order => b.buildListed (OrderText.split order)
      | none => b.build) := by
  have start : SchemaBuilder.record.withProps (props.erase Canonical.orderKey).pairs =
      ⟨.record EntryList.empty, props.erase Canonical.orderKey, none⟩ := by
    simp [SchemaBuilder.record, SchemaBuilder.ofKind, SchemaBuilder.withType,
      SchemaBuilder.withProps, SchemaBuilder.empty, SchemaBuilder.Shape.kind?,
      SchemaBuilder.Shape.fresh]
  rw [buildRecord.eq_def, start]
  cases name <;> rfl

theorem buildRecord_spec {name : Option String} {es : List TypedRecords.Entry} {props : Props}
    {s : Schema} (own : ∀ e ∈ es, e.WellFormed) (run : buildRecord name es props = .ok s) :
    ∃ (l : EntryList) (arrange : List TypedRecords.Entry → List TypedRecords.Entry),
      (∀ e ∈ l.entries, ∃ given ∈ es, ∃ other, e = given.renamed other) ∧
      SchemaBuilder.finish ⟨.record l, props.erase Canonical.orderKey, name⟩ arrange = .ok s := by
  rw [buildRecord_eq] at run
  obtain ⟨b, declared, run⟩ := bind_eq_ok.1 run
  obtain ⟨l, rfl, -, given⟩ :=
    SchemaBuilder.of_foldlM_withEntry EntryList.wellFormed_empty own declared
  have given : ∀ e ∈ l.entries, ∃ given ∈ es, ∃ other, e = given.renamed other := fun e he =>
    (given e he).resolve_left (by simp [EntryList.empty])
  split at run
  · rename_i order _
    exact ⟨l, fun entries => entries.mergeSort fun x y => (compare (OrderText.place
      (OrderText.split order) x.name) (OrderText.place (OrderText.split order) y.name)).isLE,
      given, run⟩
  · exact ⟨l, id, given, run⟩

theorem kind_of_build {d : Descriptor} {s : Schema} (run : d.build = .ok s) : s.kind = d.kind := by
  obtain ⟨kind, name, entries, element, nullable, props⟩ := d
  cases kind with
  | record =>
    obtain ⟨es, inner, run⟩ := bind_eq_ok.1 run
    obtain ⟨l, arrange, -, built⟩ := buildRecord_spec (wellFormed_buildEntries entries inner) run
    exact (SchemaBuilder.entries_of_finish rfl built).1
  | array =>
    obtain ⟨t, -, run⟩ := bind_eq_ok.1 run
    cases t with
    | none => cases run
    | some t =>
      cases run
      rfl
  | scalar k =>
    simp only [build] at run
    split at run
    · cases run
    · cases run
      rfl

theorem find?_toldProps {entries : List TypedRecords.Entry} {props : Props} :
    (toldProps entries props).find? Canonical.orderKey =
      if entries.isEmpty then none else props.find? Canonical.orderKey := by
  cases bare : entries.isEmpty <;> simp [toldProps, bare, Props.find?_erase]

theorem erase_toldProps {entries : List TypedRecords.Entry} {props : Props} :
    (toldProps entries props).erase Canonical.orderKey = props.erase Canonical.orderKey := by
  cases bare : entries.isEmpty with
  | true =>
    simp only [toldProps, bare, if_true]
    exact Props.erase_of_find?_eq_none (by simp [Props.find?_erase])
  | false => simp [toldProps, bare]

theorem buildRecord_told {entries es : List TypedRecords.Entry} {props : Props}
    {order : List String} {s : Schema}
    (names : es.map TypedRecords.Entry.name = entries.map TypedRecords.Entry.name)
    (own : ∀ e ∈ es, e.WellFormed) (distinct : (es.map TypedRecords.Entry.name).Nodup)
    (perm : order.Perm (es.map TypedRecords.Entry.name))
    (stored : props.find? Canonical.orderKey = some (OrderText.join order)) :
    buildRecord none es (toldProps entries props) = .ok s ↔
      (ofContent es props).WellFormed ∧ s = ofContent es props := by
  obtain ⟨l, declared, rfl⟩ :=
    SchemaBuilder.foldlM_withEntry_empty (props.erase Canonical.orderKey) none own distinct
  rw [wellFormed_ofContent_iff own distinct ⟨order, perm, stored⟩, ← Canonical.checkNames_ok_iff]
  have ends (arrange : List TypedRecords.Entry → List TypedRecords.Entry)
      (arranged : (arrange l.entries).map TypedRecords.Entry.name = order) :
      SchemaBuilder.finish ⟨.record l, props.erase Canonical.orderKey, none⟩ arrange = .ok s ↔
        (∃ seen, Canonical.checkNames [] (ofContent l.entries props).compiled = .ok seen) ∧
          s = ofContent l.entries props := by
    rw [SchemaBuilder.finish_unnamed arrange (by simp [Props.find?_erase])
      (by rw [arranged, Props.erase_insert stored]), bind_eq_ok]
    constructor
    · rintro ⟨seen, checked, same⟩
      cases same
      exact ⟨⟨seen, checked⟩, rfl⟩
    · rintro ⟨⟨seen, checked⟩, rfl⟩
      exact ⟨seen, checked, rfl⟩
  rw [buildRecord_eq, erase_toldProps, declared, ok_bind, find?_toldProps]
  -- A record without entries has no order to tell, so the two routes differ there.
  cases bare : entries.isEmpty with
  | true =>
    have none_ : l.entries.map TypedRecords.Entry.name = [] := by
      rw [names, List.isEmpty_iff.1 bare, List.map_nil]
    have arranged : (id l.entries).map TypedRecords.Entry.name = order := by
      rw [none_] at perm
      rw [perm.eq_nil]
      exact none_
    exact ends id arranged
  | false =>
    have some_ : order ≠ [] := by
      rintro rfl
      have empty := perm.symm.eq_nil
      rw [names, List.map_eq_nil_iff] at empty
      simp [empty] at bare
    have clear : ∀ name ∈ order, ',' ∉ name.toList := by
      intro name mem
      obtain ⟨e, he, rfl⟩ := List.mem_map.1 (perm.mem_iff.1 mem)
      exact Identifier.not_mem_of_isValid (own e he).valid (by decide)
    simp only [Bool.false_eq_true, if_false, stored, OrderText.split_join some_ clear]
    let byPlace := fun es : List TypedRecords.Entry => es.mergeSort fun x y =>
      (compare (OrderText.place order x.name) (OrderText.place order y.name)).isLE
    exact ends byPlace ((SchemaBuilder.map_mergeSort_place order distinct).trans
      (OrderText.ranked_of_perm (perm.nodup_iff.2 distinct) perm))

theorem build_array (element : Schema) (nullable : Bool) (props : Props) :
    (ofSchema (.array element nullable props)).build =
      (do return .array (← (ofSchema element).build) nullable props) := by
  simp only [ofSchema, build, buildElement]
  cases (ofSchema element).build with
  | error fault => rfl
  | ok t =>
    simp [buildArray, SchemaBuilder.array, SchemaBuilder.ofKind, SchemaBuilder.withType,
      SchemaBuilder.empty, SchemaBuilder.Shape.kind?, SchemaBuilder.Shape.fresh,
      SchemaBuilder.withElement, SchemaBuilder.withElementNullable, SchemaBuilder.withProps,
      SchemaBuilder.build, SchemaBuilder.finish]

/-- The entry of a label: it is kept where it is no identifier, unless another one is given. -/
theorem build_entryBuilder (name : String) (label : Option String) (kind : Kind)
    (element : Option Schema) (elementNullable nullable metadata : Bool)
    (comment : Option String) (default : Option Json) (props : Props) :
    (entryBuilder name label kind element elementNullable nullable metadata comment default
      props).build = (do
        let schema ← { EntryBuilder.empty with
          element := element, elementNullable := elementNullable }.describedSchema
            (Identifier.sanitize name) kind
        return ⟨Identifier.sanitize name,
          label.or (if Identifier.sanitize name != name then some name else none), schema, nullable,
          metadata, comment, default, props⟩) := by
  cases label <;> cases element <;> cases comment <;> cases default <;>
    simp [entryBuilder, EntryBuilder.build, EntryBuilder.withName, EntryBuilder.withType,
      EntryBuilder.withElementNullable, EntryBuilder.withNullable, EntryBuilder.withMetadata,
      EntryBuilder.withProps, EntryBuilder.withRawName, EntryBuilder.withElement,
      EntryBuilder.withComment, EntryBuilder.withDefault, EntryBuilder.empty,
      EntryBuilder.describedSchema]

/-- An entry is built from its description with all attributes, and with the type that is built
from the description of its own, but for the properties of an array. -/
theorem buildEntry_ofEntry {e : TypedRecords.Entry} (valid : Identifier.isValid e.name) :
    buildEntry (ofEntry e) =
      (do return { e with schema := (← (ofSchema e.schema).build).bare }) := by
  obtain ⟨name, rawName, schema, nullable, metadata, comment, default, props⟩ := e
  have own : Identifier.sanitize name = name := Identifier.sanitize_eq_self valid
  have ofRecord (kind : schema.kind = .record) (told : (ofSchema schema).kind = .record) :
      buildEntry (ofEntry ⟨name, rawName, schema, nullable, metadata, comment, default, props⟩) =
        (do return ⟨name, rawName, (← (ofSchema schema).build).bare, nullable, metadata, comment,
          default, props⟩) := by
    simp only [ofEntry, buildEntry, build_entryBuilder, own, bne_self_eq_false, kind, if_true,
      buildElement, Bool.false_eq_true, if_false, Option.or_none]
    cases built : (ofSchema schema).build with
    | error fault => rfl
    | ok t =>
      have sameKind : t.kind = .record := (kind_of_build built).trans told
      simp [EntryBuilder.describedSchema, sameKind, bare_of_kind sameKind]
  cases schema with
  | scalar k =>
    have built : (ofSchema (.scalar k)).build = .ok (.scalar k) := rfl
    rw [built]
    simp [ofEntry, buildEntry, build_entryBuilder, own, ofSchema, buildElement, Schema.kind,
      EntryBuilder.describedSchema, bare]
  | emptyRecord => exact ofRecord rfl rfl
  | record recordName entries recordProps => exact ofRecord rfl rfl
  | array element elementNullable arrayProps =>
    rw [build_array]
    simp only [ofEntry, buildEntry, build_entryBuilder, own, bne_self_eq_false, ofSchema,
      buildElement, Schema.kind, EntryBuilder.describedSchema, reduceCtorEq, Bool.false_eq_true,
      if_false, Option.or_none]
    cases (ofSchema element).build with
    | error fault => rfl
    | ok t => rfl

mutual
/-- A description builds what it tells, if no name stands for two records in that. -/
theorem build_ofSchema_iff (s : Schema) (h : s.WellFormed) {t : Schema} :
    (ofSchema s).build = .ok t ↔ s.retold.WellFormed ∧ t = s.retold := by
  match s with
  | .scalar k =>
    have built : (ofSchema (.scalar k)).build = .ok (.scalar k) := rfl
    rw [built, retold]
    simp [wellFormed_scalar, eq_comm]
  | .emptyRecord =>
    have stored : emptyRecordProps.find? Canonical.orderKey = some (OrderText.join []) := rfl
    have whole : buildRecord none [] (toldProps [] emptyRecordProps) = .ok t ↔
        (ofContent [] emptyRecordProps).WellFormed ∧ t = ofContent [] emptyRecordProps :=
      buildRecord_told rfl (by simp) (by simp) (.refl []) stored
    exact whole
  | .record name entries props =>
    obtain ⟨own, inner⟩ := wellFormed_record.1 h
    have sound : ∀ e ∈ entries, e.WellFormed := fun e he => ⟨own.valid e he, inner e he⟩
    obtain ⟨order, perm, stored⟩ := own.ordered
    have names := map_name_retoldEntries entries
    have whole (each : ∀ e ∈ retoldEntries entries, e.WellFormed) :
        buildRecord none (retoldEntries entries) (toldProps entries props) = .ok t ↔
          (ofContent (retoldEntries entries) props).WellFormed ∧
            t = ofContent (retoldEntries entries) props :=
      buildRecord_told names each (names ▸ own.distinct) (names ▸ perm) stored
    rw [retold]
    constructor
    · intro run
      obtain ⟨es, built, run⟩ := bind_eq_ok.1 run
      obtain ⟨each, rfl⟩ := (buildEntries_ofEntries_iff entries sound).1 built
      exact (whole each).1 run
    · rintro ⟨sound', rfl⟩
      have each := wellFormed_of_ofContent sound'
      have built := (buildEntries_ofEntries_iff entries sound).2 ⟨each, rfl⟩
      exact bind_eq_ok.2 ⟨_, built, (whole each).2 ⟨sound', rfl⟩⟩
  | .array element nullable props =>
    rw [build_array, retold, wellFormed_array, bind_eq_ok]
    simp only [build_ofSchema_iff element (wellFormed_array.1 h)]
    constructor
    · rintro ⟨u, ⟨sound, rfl⟩, same⟩
      cases same
      exact ⟨sound, rfl⟩
    · rintro ⟨sound, rfl⟩
      exact ⟨_, ⟨sound, rfl⟩, rfl⟩

theorem buildEntries_ofEntries_iff (entries : List TypedRecords.Entry)
    (h : ∀ e ∈ entries, e.WellFormed) {es : List TypedRecords.Entry} :
    buildEntries (ofEntries entries) = .ok es ↔
      (∀ e ∈ retoldEntries entries, e.WellFormed) ∧ es = retoldEntries entries := by
  match entries with
  | [] => simp [ofEntries, buildEntries, retoldEntries, eq_comm]
  | ⟨name, rawName, schema, nullable, metadata, comment, default, props⟩ :: rest =>
    obtain ⟨own, others⟩ := List.forall_mem_cons.1 h
    have first {t : Schema} : (ofSchema schema).build = .ok t ↔
        schema.retold.WellFormed ∧ t = schema.retold := build_ofSchema_iff schema own.schema
    have later {fs : List TypedRecords.Entry} : buildEntries (ofEntries rest) = .ok fs ↔
        (∀ e ∈ retoldEntries rest, e.WellFormed) ∧ fs = retoldEntries rest :=
      buildEntries_ofEntries_iff rest others
    rw [ofEntries_eq_map, List.map_cons, ← ofEntries_eq_map, buildEntries, bind_eq_ok,
      buildEntry_ofEntry own.valid, retoldEntries, List.forall_mem_cons]
    simp only [bind_eq_ok, later, first]
    constructor
    · rintro ⟨_, ⟨_, ⟨sound, rfl⟩, made⟩, _, ⟨each, rfl⟩, same⟩
      cases made
      cases same
      exact ⟨⟨⟨own.valid, wellFormed_bare.2 sound⟩, each⟩, rfl⟩
    · rintro ⟨⟨sound, each⟩, rfl⟩
      exact ⟨_, ⟨_, ⟨wellFormed_bare.1 sound.schema, rfl⟩, rfl⟩, _, ⟨each, rfl⟩, rfl⟩
end

end Descriptor

end TypedRecords
