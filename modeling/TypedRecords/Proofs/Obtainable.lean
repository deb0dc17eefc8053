import TypedRecords.Codec
import TypedRecords.Proofs.Canonical.Decompile
import TypedRecords.Proofs.Record.Builder

/-! What can be obtained.
Schemas, entries, records, values and their builders come from each other by the operations
of the library only: there is a rule for every operation that makes one of them. All that can
be obtained this way is well-formed, and every well-formed schema can be obtained. -/
namespace TypedRecords

open Result

mutual
inductive Schema.Obtainable : Schema → Prop
  | scalar (kind : ScalarKind) : Schema.Obtainable (.scalar kind)
  | emptyRecord : Schema.Obtainable .emptyRecord
  | ofCanonical {c : Canonical} {strict : Bool} {s : Schema}
      (run : Schema.ofCanonical c strict = .ok s) : Schema.Obtainable s
  | described {d : Descriptor} {s : Schema} (run : d.build = .ok s) : Schema.Obtainable s
  | built {b : SchemaBuilder} {s : Schema} (h : SchemaBuilder.Obtainable b)
      (run : b.build = .ok s) : Schema.Obtainable s
  | arranged {b : SchemaBuilder} {compare : Entry → Entry → Ordering} {s : Schema}
      (h : SchemaBuilder.Obtainable b) (run : b.buildWithOrder compare = .ok s) :
      Schema.Obtainable s
  | ofEntry {e : Entry} (h : Entry.Obtainable e) : Schema.Obtainable e.schema
  | element {s element : Schema} (h : Schema.Obtainable s)
      (inner : s.element? = some element) : Schema.Obtainable element
  | ofRecord {r : Record} (h : Record.Obtainable r) : Schema.Obtainable r.schema
  | decoded {c : Codec} {bytes : List UInt8} {s : Schema} {records : List Record}
      (run : c.decodeAll bytes = .ok (s, records)) : Schema.Obtainable s

inductive Entry.Obtainable : Entry → Prop
  | built {b : EntryBuilder} {e : Entry} (h : EntryBuilder.Obtainable b)
      (run : b.build = .ok e) : Entry.Obtainable e
  | described {d : Descriptor.Entry} {e : Entry} (run : Descriptor.buildEntry d = .ok e) :
      Entry.Obtainable e
  | ofSchema {s : Schema} {e : Entry} (h : Schema.Obtainable s) (mem : e ∈ s.entries) :
      Entry.Obtainable e
  | ofList {l : EntryList} {e : Entry} (h : EntryList.Obtainable l) (mem : e ∈ l.entries) :
      Entry.Obtainable e
  | ofBuilder {b : SchemaBuilder} {e : Entry} (h : SchemaBuilder.Obtainable b)
      (mem : e ∈ b.entries) : Entry.Obtainable e

inductive EntryList.Obtainable : EntryList → Prop
  | empty : EntryList.Obtainable EntryList.empty
  | add {l : EntryList} {e : Entry} (h : EntryList.Obtainable l) (own : Entry.Obtainable e) :
      EntryList.Obtainable (l.add e).2
  | remove {l : EntryList} (name : String) (h : EntryList.Obtainable l) :
      EntryList.Obtainable (l.remove name).2
  | replace {l l' : EntryList} {name : String} {e : Entry} (h : EntryList.Obtainable l)
      (own : Entry.Obtainable e) (run : l.replace name e = .ok l') : EntryList.Obtainable l'
  | moveBefore {l l' : EntryList} {pivot name : String} (h : EntryList.Obtainable l)
      (run : l.moveBefore pivot name = .ok l') : EntryList.Obtainable l'
  | moveAfter {l l' : EntryList} {pivot name : String} (h : EntryList.Obtainable l)
      (run : l.moveAfter pivot name = .ok l') : EntryList.Obtainable l'
  | swap {l l' : EntryList} {first second : String} (h : EntryList.Obtainable l)
      (run : l.swap first second = .ok l') : EntryList.Obtainable l'

inductive EntryBuilder.Obtainable : EntryBuilder → Prop
  | empty : EntryBuilder.Obtainable EntryBuilder.empty
  | ofEntry {e : Entry} (h : Entry.Obtainable e) : EntryBuilder.Obtainable e.toBuilder
  | withName {b : EntryBuilder} (label : String) (h : EntryBuilder.Obtainable b) :
      EntryBuilder.Obtainable (b.withName label)
  | withRawName {b : EntryBuilder} (label : String) (h : EntryBuilder.Obtainable b) :
      EntryBuilder.Obtainable (b.withRawName label)
  | withType {b : EntryBuilder} (kind : Kind) (h : EntryBuilder.Obtainable b) :
      EntryBuilder.Obtainable (b.withType kind)
  | withElement {b : EntryBuilder} {element : Schema} (h : EntryBuilder.Obtainable b)
      (own : Schema.Obtainable element) : EntryBuilder.Obtainable (b.withElement element)
  | withElementNullable {b : EntryBuilder} (nullable : Bool) (h : EntryBuilder.Obtainable b) :
      EntryBuilder.Obtainable (b.withElementNullable nullable)
  | withSchema {b : EntryBuilder} {s : Schema} (h : EntryBuilder.Obtainable b)
      (own : Schema.Obtainable s) : EntryBuilder.Obtainable (b.withSchema s)
  | withNullable {b : EntryBuilder} (nullable : Bool) (h : EntryBuilder.Obtainable b) :
      EntryBuilder.Obtainable (b.withNullable nullable)
  | withMetadata {b : EntryBuilder} (metadata : Bool) (h : EntryBuilder.Obtainable b) :
      EntryBuilder.Obtainable (b.withMetadata metadata)
  | withComment {b : EntryBuilder} (comment : String) (h : EntryBuilder.Obtainable b) :
      EntryBuilder.Obtainable (b.withComment comment)
  | withDefault {b : EntryBuilder} (value : Json) (h : EntryBuilder.Obtainable b) :
      EntryBuilder.Obtainable (b.withDefault value)
  | withProp {b : EntryBuilder} (key value : String) (h : EntryBuilder.Obtainable b) :
      EntryBuilder.Obtainable (b.withProp key value)
  | withProps {b : EntryBuilder} (pairs : List (String × String))
      (h : EntryBuilder.Obtainable b) : EntryBuilder.Obtainable (b.withProps pairs)

inductive SchemaBuilder.Obtainable : SchemaBuilder → Prop
  | empty : SchemaBuilder.Obtainable SchemaBuilder.empty
  | ofSchema {s : Schema} (h : Schema.Obtainable s) : SchemaBuilder.Obtainable s.toBuilder
  | withType {b : SchemaBuilder} (kind : Kind) (h : SchemaBuilder.Obtainable b) :
      SchemaBuilder.Obtainable (b.withType kind)
  | withEntry {b b' : SchemaBuilder} {e : Entry} (h : SchemaBuilder.Obtainable b)
      (own : Entry.Obtainable e) (run : b.withEntry e = .ok b') : SchemaBuilder.Obtainable b'
  | withEntryBefore {b b' : SchemaBuilder} {pivot : String} {e : Entry}
      (h : SchemaBuilder.Obtainable b) (own : Entry.Obtainable e)
      (run : b.withEntryBefore pivot e = .ok b') : SchemaBuilder.Obtainable b'
  | withEntryAfter {b b' : SchemaBuilder} {pivot : String} {e : Entry}
      (h : SchemaBuilder.Obtainable b) (own : Entry.Obtainable e)
      (run : b.withEntryAfter pivot e = .ok b') : SchemaBuilder.Obtainable b'
  | remove {b b' : SchemaBuilder} {name : String} (h : SchemaBuilder.Obtainable b)
      (run : b.remove name = .ok b') : SchemaBuilder.Obtainable b'
  | removeEntry {b b' : SchemaBuilder} {e : Entry} (h : SchemaBuilder.Obtainable b)
      (run : b.removeEntry e = .ok b') : SchemaBuilder.Obtainable b'
  | moveBefore {b b' : SchemaBuilder} {pivot name : String} (h : SchemaBuilder.Obtainable b)
      (run : b.moveBefore pivot name = .ok b') : SchemaBuilder.Obtainable b'
  | moveAfter {b b' : SchemaBuilder} {pivot name : String} (h : SchemaBuilder.Obtainable b)
      (run : b.moveAfter pivot name = .ok b') : SchemaBuilder.Obtainable b'
  | swap {b b' : SchemaBuilder} {first second : String} (h : SchemaBuilder.Obtainable b)
      (run : b.swap first second = .ok b') : SchemaBuilder.Obtainable b'
  | withElement {b b' : SchemaBuilder} {element : Schema} (h : SchemaBuilder.Obtainable b)
      (own : Schema.Obtainable element) (run : b.withElement element = .ok b') :
      SchemaBuilder.Obtainable b'
  | withElementNullable {b b' : SchemaBuilder} {nullable : Bool}
      (h : SchemaBuilder.Obtainable b) (run : b.withElementNullable nullable = .ok b') :
      SchemaBuilder.Obtainable b'
  | withRecordName {b : SchemaBuilder} (name : String) (h : SchemaBuilder.Obtainable b) :
      SchemaBuilder.Obtainable (b.withRecordName name)
  | withProp {b : SchemaBuilder} (key value : String) (h : SchemaBuilder.Obtainable b) :
      SchemaBuilder.Obtainable (b.withProp key value)
  | withProps {b : SchemaBuilder} (pairs : List (String × String))
      (h : SchemaBuilder.Obtainable b) : SchemaBuilder.Obtainable (b.withProps pairs)

inductive RecordBuilder.Obtainable : RecordBuilder → Prop
  | bound {s : Schema} {b : RecordBuilder} (h : Schema.Obtainable s)
      (run : RecordBuilder.bound s = .ok b) : RecordBuilder.Obtainable b
  | unbound : RecordBuilder.Obtainable RecordBuilder.unbound
  | write {b b' : RecordBuilder} {label : String} {v : Value} (h : RecordBuilder.Obtainable b)
      (own : Value.Obtainable v) (run : b.write (.label label) v = .ok b') :
      RecordBuilder.Obtainable b'
  | writeEntry {b b' : RecordBuilder} {e : Entry} {v : Value} (h : RecordBuilder.Obtainable b)
      (named : Entry.Obtainable e) (own : Value.Obtainable v)
      (run : b.write (.entry e) v = .ok b') : RecordBuilder.Obtainable b'
  | writeTimestamp {b b' : RecordBuilder} {label : String} {millis : Int}
      (h : RecordBuilder.Obtainable b) (run : b.writeTimestamp (.label label) millis = .ok b') :
      RecordBuilder.Obtainable b'
  | writeEntryTimestamp {b b' : RecordBuilder} {e : Entry} {millis : Int}
      (h : RecordBuilder.Obtainable b) (named : Entry.Obtainable e)
      (run : b.writeTimestamp (.entry e) millis = .ok b') : RecordBuilder.Obtainable b'

inductive Record.Obtainable : Record → Prop
  | built {b : RecordBuilder} {r : Record} (h : RecordBuilder.Obtainable b)
      (run : b.build = .ok r) : Record.Obtainable r
  | ofJson {s : Schema} {j : Json} {r : Record} (h : Schema.Obtainable s)
      (run : Record.ofJson s j = .ok r) : Record.Obtainable r
  | decoded {c : Codec} {bytes : List UInt8} {s : Schema} {records : List Record} {r : Record}
      (run : c.decodeAll bytes = .ok (s, records)) (mem : r ∈ records) : Record.Obtainable r
  | ofValue {r : Record} (h : Value.Obtainable (.record r)) : Record.Obtainable r

inductive Value.Obtainable : Value → Prop
  | null : Value.Obtainable .null
  | string (s : String) : Value.Obtainable (.string s)
  | int (n : Int32) : Value.Obtainable (.int n)
  | long (n : Int64) : Value.Obtainable (.long n)
  | float (x : Binary32) : Value.Obtainable (.float x)
  | double (x : Binary64) : Value.Obtainable (.double x)
  | boolean (b : Bool) : Value.Obtainable (.boolean b)
  | bytes (bytes : List UInt8) : Value.Obtainable (.bytes bytes)
  /-- `kept` also leaves out the leap second at the end of the last second that is kept. A value
  can hold such an instant, and writing it as a value is not refused, but its milliseconds are
  beyond the last ones and would not be read again. -/
  | datetime (t : Instant) (kept : t.Kept) : Value.Obtainable (.datetime t)
  | record {r : Record} (h : Record.Obtainable r) : Value.Obtainable (.record r)
  | array {items : List Value} (h : ∀ v ∈ items, Value.Obtainable v) :
      Value.Obtainable (.array items)
  | ofJson {s : Schema} {j : Json} {v : Value} (h : Schema.Obtainable s)
      (run : Value.ofJson s j = .ok v) : Value.Obtainable v
  | ofRecord {r : Record} {v : Value} (h : Record.Obtainable r) (mem : v ∈ r.values) :
      Value.Obtainable v
  | item {items : List Value} {v : Value} (h : Value.Obtainable (.array items))
      (mem : v ∈ items) : Value.Obtainable v
end

theorem Codec.exists_ofDatum {c : Codec} {bytes : List UInt8} {s : Schema} {records : List Record}
    (run : c.decodeAll bytes = .ok (s, records)) {r : Record} (mem : r ∈ records) :
    ∃ d, Record.ofDatum s d = .ok r := by
  obtain ⟨⟨header, rest⟩, -, run⟩ := bind_eq_ok.1 run
  obtain ⟨t, -, run⟩ := bind_eq_ok.1 run
  obtain ⟨rs, read, same⟩ := bind_eq_ok.1 run
  cases same
  have listed : (Except.ok r : Result Record) ∈ records.map .ok := List.mem_map_of_mem mem
  rw [← mapM_eq_ok_iff.1 read] at listed
  obtain ⟨d, -, made⟩ := List.mem_map.1 listed
  obtain ⟨datum, -, made⟩ := bind_eq_ok.1 made
  exact ⟨datum, made⟩

/-- What a container holds is well-formed, however it was written. -/
theorem Codec.wellFormed_decodeAll {c : Codec} {bytes : List UInt8} {s : Schema}
    {records : List Record} (run : c.decodeAll bytes = .ok (s, records)) :
    s.WellFormed ∧ ∀ r ∈ records, r.WellFormed := by
  have from_ := fun r (hr : r ∈ records) => Codec.exists_ofDatum run hr
  obtain ⟨⟨header, rest⟩, -, run⟩ := bind_eq_ok.1 run
  obtain ⟨t, stored, run⟩ := bind_eq_ok.1 run
  obtain ⟨rs, -, same⟩ := bind_eq_ok.1 run
  cases same
  obtain ⟨document, -, stored⟩ := bind_eq_ok.1 stored
  obtain ⟨canonical, -, stored⟩ := bind_eq_ok.1 stored
  obtain ⟨u, decompiled, stored⟩ := bind_eq_ok.1 stored
  have sound : u.WellFormed := Canonical.wellFormed_decompile canonical decompiled
  split at stored
  · rename_i kind
    cases stored
    refine ⟨sound, fun r hr => ?_⟩
    obtain ⟨d, made⟩ := from_ r hr
    exact Record.wellFormed_ofDatum sound kind made
  · cases stored

mutual
theorem Schema.Obtainable.wellFormed {s : Schema} : s.Obtainable → s.WellFormed
  | .scalar kind => Schema.wellFormed_scalar kind
  | .emptyRecord => Schema.wellFormed_emptyRecord
  | .ofCanonical run => Canonical.wellFormed_decompile _ run
  | .described run => Descriptor.wellFormed_build _ run
  | .built h run => h.wellFormed.build run
  | .arranged h run => h.wellFormed.buildWithOrder run
  | .ofEntry h => h.wellFormed.schema
  | .element h inner => h.wellFormed.element inner
  | .ofRecord h => (Record.wellFormed_iff.1 h.wellFormed).1
  | .decoded run => (Codec.wellFormed_decodeAll run).1

theorem Entry.Obtainable.wellFormed {e : Entry} : e.Obtainable → e.WellFormed
  | .built h run => h.wellFormed.build run
  | .described run => Descriptor.wellFormed_buildEntry _ run
  | .ofSchema h mem => h.wellFormed.wellFormed_entry mem
  | .ofList h mem => h.wellFormed.inner _ mem
  | .ofBuilder h mem => h.wellFormed.entries mem

theorem EntryList.Obtainable.wellFormed {l : EntryList} : l.Obtainable → l.WellFormed
  | .empty => EntryList.wellFormed_empty
  | .add h own => (h.wellFormed.add own.wellFormed).2
  | .remove _ h => h.wellFormed.remove
  | .replace h own run => h.wellFormed.replace own.wellFormed run
  | .moveBefore h run => h.wellFormed.moveBefore run
  | .moveAfter h run => h.wellFormed.moveAfter run
  | .swap h run => h.wellFormed.swap run

theorem EntryBuilder.Obtainable.wellFormed {b : EntryBuilder} : b.Obtainable → b.WellFormed
  | .empty => EntryBuilder.wellFormed_empty
  | .ofEntry h => EntryBuilder.wellFormed_toBuilder h.wellFormed
  | .withName label h => h.wellFormed.withName label
  | .withRawName label h => h.wellFormed.withRawName label
  | .withType kind h => h.wellFormed.withType kind
  | .withElement h own => h.wellFormed.withElement own.wellFormed
  | .withElementNullable nullable h => h.wellFormed.withElementNullable nullable
  | .withSchema h own => h.wellFormed.withSchema own.wellFormed
  | .withNullable nullable h => h.wellFormed.withNullable nullable
  | .withMetadata metadata h => h.wellFormed.withMetadata metadata
  | .withComment comment h => h.wellFormed.withComment comment
  | .withDefault value h => h.wellFormed.withDefault value
  | .withProp key value h => h.wellFormed.withProp key value
  | .withProps pairs h => h.wellFormed.withProps pairs

theorem SchemaBuilder.Obtainable.wellFormed {b : SchemaBuilder} : b.Obtainable → b.WellFormed
  | .empty => SchemaBuilder.wellFormed_empty
  | .ofSchema h => SchemaBuilder.wellFormed_ofSchema h.wellFormed
  | .withType kind h => h.wellFormed.withType kind
  | .withEntry h own run => h.wellFormed.withEntry own.wellFormed run
  | .withEntryBefore h own run => h.wellFormed.withEntryBefore own.wellFormed run
  | .withEntryAfter h own run => h.wellFormed.withEntryAfter own.wellFormed run
  | .remove h run => h.wellFormed.remove run
  | .removeEntry h run => h.wellFormed.removeEntry run
  | .moveBefore h run => h.wellFormed.moveBefore run
  | .moveAfter h run => h.wellFormed.moveAfter run
  | .swap h run => h.wellFormed.swap run
  | .withElement _ own run => SchemaBuilder.WellFormed.withElement own.wellFormed run
  | .withElementNullable h run => h.wellFormed.withElementNullable run
  | .withRecordName _ h => h.wellFormed
  | .withProp _ _ h => h.wellFormed
  | .withProps _ h => h.wellFormed

theorem RecordBuilder.Obtainable.wellFormed {b : RecordBuilder} : b.Obtainable → b.WellFormed
  | .bound h run => RecordBuilder.wellFormed_bound h.wellFormed run
  | .unbound => RecordBuilder.wellFormed_unbound
  | .write h own run => h.wellFormed.write (by simp) own.wellFormed run
  | .writeEntry h named own run =>
    h.wellFormed.write (fun _ same => EntryKey.entry.inj same ▸ named.wellFormed)
      own.wellFormed run
  | .writeTimestamp h run => h.wellFormed.writeTimestamp (by simp) run
  | .writeEntryTimestamp h named run =>
    h.wellFormed.writeTimestamp (fun _ same => EntryKey.entry.inj same ▸ named.wellFormed) run

theorem Record.Obtainable.wellFormed {r : Record} : r.Obtainable → r.WellFormed
  | .built h run => h.wellFormed.build run
  | .ofJson h run => Record.wellFormed_ofJson h.wellFormed run
  | .decoded run mem => (Codec.wellFormed_decodeAll run).2 _ mem
  | .ofValue h => h.wellFormed

theorem Value.Obtainable.wellFormed {v : Value} : v.Obtainable → v.WellFormed
  | .null | .string _ | .int _ | .long _ | .float _ | .double _ | .boolean _ | .bytes _ => trivial
  | .datetime _ kept => kept
  | .record h => h.wellFormed
  | .array h => Value.allWellFormed_iff.2 fun v hv => (h v hv).wellFormed
  | .ofJson h run => Schema.keeps_converter _ h.wellFormed _ _ _ run
  | .ofRecord h mem => (Record.wellFormed_iff.1 h.wellFormed).2.2.2 _ mem
  | .item h mem => Value.allWellFormed_iff.1 h.wellFormed _ mem
end

/-! Builders reach every well-formed schema. -/

theorem EntryBuilder.Obtainable.elim {α : Type} {b : EntryBuilder} {step : α → EntryBuilder}
    (a : Option α) (h : b.Obtainable) (keeps : ∀ x, (step x).Obtainable) :
    (a.elim b step).Obtainable := by
  cases a with
  | none => exact h
  | some x => exact keeps x

theorem Entry.obtainable_of_schema {e : Entry} (valid : Identifier.isValid e.name)
    (inner : e.schema.Obtainable) : e.Obtainable := by
  obtain ⟨name, rawName, schema, nullable, metadata, comment, default, props⟩ := e
  have start : EntryBuilder.Obtainable (EntryBuilder.empty.withName name |>.withSchema schema
      |>.withNullable nullable |>.withMetadata metadata |>.withProps props.pairs) :=
    .withProps _ (.withMetadata _ (.withNullable _ (.withSchema (.withName _ .empty) inner)))
  have labelled := start.elim rawName fun label => .withRawName label start
  have told := labelled.elim comment fun text => .withComment text labelled
  have whole := told.elim default fun value => .withDefault value told
  exact .built whole
    (EntryBuilder.build_eq_ok rawName schema nullable metadata comment default props valid)

theorem Schema.obtainable_array {element : Schema} (nullable : Bool) (props : Props)
    (inner : element.Obtainable) : (array element nullable props).Obtainable := by
  have given : SchemaBuilder.array.withElement element =
      .ok ⟨.array (some element) true, Props.empty, none⟩ := rfl
  have told : SchemaBuilder.withElementNullable ⟨.array (some element) true, Props.empty, none⟩
      nullable = .ok ⟨.array (some element) nullable, Props.empty, none⟩ := rfl
  have start : SchemaBuilder.array.Obtainable := .withType .array .empty
  refine .built (.withProps props.pairs (.withElementNullable (.withElement start inner given) told))
    ?_
  simp [SchemaBuilder.build, SchemaBuilder.finish, SchemaBuilder.withProps]

theorem Schema.obtainable_record {name : String} {entries : List Entry} {props : Props}
    (h : Arranged name entries props) (own : ∀ e ∈ entries, e.Obtainable) :
    (record name entries props).Obtainable := by
  obtain ⟨order, perm, stored⟩ := h.ordered
  obtain ⟨b, declared, built⟩ := SchemaBuilder.exists_buildListed h
    (fun e he => (own e he).wellFormed) perm stored
  have start : ((SchemaBuilder.record.withRecordName name).withProps
      (props.erase Canonical.orderKey).pairs).Obtainable :=
    .withProps _ (.withRecordName name (.withType .record .empty))
  have whole : b.Obtainable :=
    foldlM_keeps (fun _ _ e he hb run => .withEntry hb (own e he) run) start declared
  exact .arranged whole built

mutual
theorem Schema.WellFormed.obtainable (s : Schema) (h : s.WellFormed) : s.Obtainable := by
  match s with
  | .scalar kind => exact .scalar kind
  | .emptyRecord => exact .emptyRecord
  | .array element nullable props =>
    exact Schema.obtainable_array nullable props (obtainable element (wellFormed_array.1 h))
  | .record name entries props =>
    obtain ⟨own, inner⟩ := wellFormed_record.1 h
    exact Schema.obtainable_record own
      (obtainableEntries entries fun e he => ⟨own.valid e he, inner e he⟩)

theorem Schema.WellFormed.obtainableEntries (entries : List Entry)
    (h : ∀ e ∈ entries, e.WellFormed) : ∀ e ∈ entries, e.Obtainable := by
  match entries with
  | [] => simp
  | ⟨name, rawName, schema, nullable, metadata, comment, default, props⟩ :: rest =>
    obtain ⟨first, others⟩ := List.forall_mem_cons.1 h
    refine List.forall_mem_cons.2 ⟨?_, obtainableEntries rest others⟩
    exact Entry.obtainable_of_schema first.valid (obtainable schema first.schema)
end

/-- The builders make the well-formed schemas, all of them and no others. -/
theorem Schema.obtainable_iff_wellFormed {s : Schema} : s.Obtainable ↔ s.WellFormed :=
  ⟨fun h => h.wellFormed, fun h => h.obtainable⟩

namespace SchemaBuilder

theorem exists_obtainable_ofEntries {entries : List Entry} (own : ∀ e ∈ entries, e.WellFormed)
    (distinct : (entries.map Entry.name).Nodup) :
    ∃ l, (ofEntries l).Obtainable ∧ l.entries = entries := by
  obtain ⟨l, declared, all⟩ := foldlM_withEntry_empty Props.empty none own distinct
  have start : (ofEntries EntryList.empty).Obtainable := .withType .record .empty
  refine ⟨l, foldlM_keeps (fun _ _ e he hb run => .withEntry hb ?_ run) start declared, all⟩
  exact Entry.obtainable_of_schema (own e he).valid (own e he).schema.obtainable

end SchemaBuilder
end TypedRecords
