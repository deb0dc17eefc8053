import TypedRecords.Proofs.Schema.Description
import TypedRecords.Proofs.Schema.LogicalOrder

/-! One text, two readers.
The logical order that a descriptor tells and the one that a compiled record has are read by
different pieces of code. One of them skips empty parts, and so counts the places differently, but
no name is empty. Both therefore arrange the entries alike. -/
namespace TypedRecords

open Result

/-- A record of some entries in the logical order in which a list names them. -/
structure Schema.RankedBy (s : Schema) (listed : List String) (entries : List Entry) : Prop where
  kind : s.kind = .record
  declared : s.entries = entries
  ordered : s.entriesOrdered.map Entry.name =
    OrderText.ranked listed (entries.map Entry.name)

namespace SchemaBuilder

theorem rankedBy_of_buildListed {entries : List Entry} {props : Props} {name : Option String}
    {b : SchemaBuilder} {listed : List String} {s : Schema} (own : ∀ e ∈ entries, e.WellFormed)
    (distinct : (entries.map Entry.name).Nodup)
    (declared : entries.foldlM withEntry ⟨.record EntryList.empty, props, name⟩ = .ok b)
    (run : b.buildListed listed = .ok s) : s.RankedBy listed entries := by
  obtain ⟨l, whole, rfl⟩ := foldlM_withEntry_empty props name own distinct
  obtain rfl : ⟨.record l, props, name⟩ = b := Except.ok.inj (whole.symm.trans declared)
  have start : WellFormed ⟨.record EntryList.empty, props, name⟩ := EntryList.wellFormed_empty
  obtain ⟨-, kind, same, ordered⟩ := (start.withEntries own declared).buildWithOrder_spec rfl run
  exact ⟨kind, same, ordered ▸ map_mergeSort_place listed distinct⟩

end SchemaBuilder

namespace Descriptor

theorem rankedBy_of_buildRecord {name : Option String} {entries : List TypedRecords.Entry}
    {props : Props} {order : String} {s : Schema} (own : ∀ e ∈ entries, e.WellFormed)
    (distinct : (entries.map TypedRecords.Entry.name).Nodup)
    (told : props.find? Canonical.orderKey = some order)
    (run : buildRecord name entries props = .ok s) :
    s.RankedBy (OrderText.split order) entries := by
  rw [buildRecord_eq, told] at run
  obtain ⟨b, declared, run⟩ := bind_eq_ok.1 run
  exact SchemaBuilder.rankedBy_of_buildListed own distinct declared run

end Descriptor

namespace Canonical

theorem rankedBy_of_rebuildRecord {name : String} {fieldNames : List String} {props : Props}
    {entries : List Entry} {order : String} {s : Schema} (own : ∀ e ∈ entries, e.WellFormed)
    (distinct : (entries.map Entry.name).Nodup) (told : props.find? orderKey = some order)
    (run : rebuildRecord name fieldNames props entries false = .ok s) :
    s.RankedBy (OrderText.split order) entries := by
  rw [rebuildRecord, SchemaBuilder.record_withProps] at run
  obtain ⟨b, declared, run⟩ := bind_eq_ok.1 run
  simp only [told, listedNames, Bool.false_and, Bool.false_eq_true, if_false, ok_bind] at run
  obtain ⟨kind, same, ordered⟩ :=
    SchemaBuilder.rankedBy_of_buildListed own distinct declared run
  have named : ∀ name ∈ entries.map Entry.name, !name.isEmpty :=
    List.forall_mem_map.2 fun e he => by simpa using Identifier.ne_empty_of_isValid (own e he).valid
  exact ⟨kind, same, ordered.trans (OrderText.ranked_filter named)⟩

theorem rankedBy_of_decompile {name space : String} {entries : List Entry} {props : Props}
    {order : String} {s : Schema} (own : ∀ e ∈ entries, e.WellFormed)
    (distinct : (entries.map Entry.name).Nodup) (told : props.find? orderKey = some order)
    (run : decompile false (.record name space (Schema.compiledEntries entries) props) = .ok s) :
    ∃ entries', Schema.plainEntries entries' =
        Schema.plainEntries (entries.map Entry.recovered) ∧
      s.RankedBy (OrderText.split order) entries' := by
  rw [decompile, Schema.isEmpty_compiledEntries] at run
  split at run
  · rename_i shared
    obtain rfl : entries = [] := by simp_all
    cases run
    refine ⟨[], rfl, rfl, rfl, ?_⟩
    rw [Schema.emptyRecord.entriesOrdered_perm.eq_nil]
    simp [OrderText.ranked]
  · obtain ⟨entries', built, run⟩ := bind_eq_ok.1 run
    obtain ⟨_, built', same⟩ := decompileFields_recovered false entries rfl own
    cases built.symm.trans built'
    have names := (Schema.names_of_plainEntries same).trans
      (Schema.map_name_recoveredEntries entries)
    exact ⟨entries', same.trans (by rw [Schema.recoveredEntries_eq_map]),
      rankedBy_of_rebuildRecord (wellFormed_decompileFields _ built) (names ▸ distinct) told run⟩

end Canonical

namespace Schema

theorem plainEntries_eq_of_perm {entries entries' ordered ordered' : List Entry}
    (distinct : (entries.map Entry.name).Nodup) (perm : ordered.Perm entries)
    (perm' : ordered'.Perm entries') (same : plainEntries entries' = plainEntries entries)
    (names : ordered'.map Entry.name = ordered.map Entry.name) :
    plainEntries ordered' = plainEntries ordered := by
  have named (es : List Entry) : (plainEntries es).map Entry.name = es.map Entry.name := by
    simp [plainEntries_eq_map, Entry.plain, Function.comp_def]
  have moved {es fs : List Entry} (h : es.Perm fs) : (plainEntries es).Perm (plainEntries fs) := by
    simpa only [plainEntries_eq_map] using h.map Entry.plain
  have distinct : ((plainEntries entries).map Entry.name).Nodup := by rwa [named]
  refine eq_of_map_name_eq distinct ?_ ?_ ?_
  · exact fun e => (same ▸ moved perm').mem_iff.1
  · exact fun e => (moved perm).mem_iff.1
  · rw [named, named, names]

end Schema

/-- Two records of the same entries, of which one was told by a descriptor and the other by a
compiled record, both with the same text for the logical order. -/
structure Schema.SameOrder (text : String) (entries : List Entry) (s s' : Schema) : Prop where
  written : s.props.find? Canonical.orderKey = s'.props.find? Canonical.orderKey
  declared : s.entries = entries
  perm : s.entriesOrdered.Perm entries
  ordered : s.entriesOrdered.map Entry.name =
    OrderText.ranked (OrderText.split text) (entries.map Entry.name)
  declared' : beqEntries s'.entries (entries.map Entry.recovered) = true
  ordered' : beqEntries s'.entriesOrdered (s.entriesOrdered.map Entry.recovered) = true
  equal : (∀ e ∈ entries, e.schema.Recoverable ∧ e.props.find? Canonical.labelKey = none) →
    beqEntries s'.entries s.entries = true ∧
      beqEntries s'.entriesOrdered s.entriesOrdered = true

namespace Descriptor

/-- The same text means the same for both readers. -/
theorem sameOrder_of_build {name : Option String} {ds : List Descriptor.Entry}
    {element : Option Descriptor} {nullable : Bool} {props props' : Props} {text n space : String}
    {entries : List TypedRecords.Entry} {s s' : Schema}
    (inner : buildEntries ds = .ok entries)
    (distinct : (entries.map TypedRecords.Entry.name).Nodup)
    (told : props.find? Canonical.orderKey = some text)
    (built : build ⟨.record, name, ds, element, nullable, props⟩ = .ok s)
    (stored : props'.find? Canonical.orderKey = some text)
    (read : Schema.ofCanonical (.record n space (Schema.compiledEntries entries) props') false =
      .ok s') :
    Schema.SameOrder text entries s s' := by
  have own : ∀ e ∈ entries, e.WellFormed := wellFormed_buildEntries ds inner
  have run : buildRecord name entries props = .ok s := by
    rw [build, inner, ok_bind] at built
    exact built
  obtain ⟨kind, rfl, ordered⟩ := rankedBy_of_buildRecord own distinct told run
  obtain ⟨entries', same, kind', rfl, ordered'⟩ :=
    Canonical.rankedBy_of_decompile own distinct stored read
  have retold (es : List TypedRecords.Entry) :
      (es.map TypedRecords.Entry.recovered).map TypedRecords.Entry.name =
        es.map TypedRecords.Entry.name := by
    rw [← Schema.recoveredEntries_eq_map, Schema.map_name_recoveredEntries]
  have agree : s'.entriesOrdered.map TypedRecords.Entry.name =
      s.entriesOrdered.map TypedRecords.Entry.name := by
    rw [ordered', ordered, Schema.names_of_plainEntries same, retold]
  have perm := s.entriesOrdered_perm
  have perm' := s'.entriesOrdered_perm
  have sound : s.WellFormed := wellFormed_buildRecord own run
  have sound' : s'.WellFormed := Canonical.wellFormed_decompile _ read
  have alike := Schema.plainEntries_eq_of_perm ((retold _).symm ▸ distinct)
    (perm.map TypedRecords.Entry.recovered) perm' same (agree.trans (retold _).symm)
  exact
    { written := by rw [sound.find?_orderKey kind, sound'.find?_orderKey kind', agree]
      declared := rfl
      perm := perm
      ordered := ordered
      declared' := (Schema.beqEntries_iff_plain ..).2 same
      ordered' := (Schema.beqEntries_iff_plain ..).2 alike
      equal := fun clear => by
        have whole : Schema.plainEntries s'.entries = Schema.plainEntries s.entries := by
          rw [same, ← Schema.recoveredEntries_eq_map]
          exact Schema.plainEntries_recovered _ fun e he => ⟨(own e he).schema, clear e he⟩
        have alike := Schema.plainEntries_eq_of_perm distinct perm perm' whole agree
        exact ⟨(Schema.beqEntries_iff_plain ..).2 whole,
          (Schema.beqEntries_iff_plain ..).2 alike⟩ }

/-! A text with an empty part, an unknown name, a name that stands there twice and one that does
not stand there. -/

example : OrderText.ranked (OrderText.split ",b,x,a,,b") ["c", "a", "b"] = ["a", "b", "c"] := by
  decide

def column (name : String) : Entry :=
  ⟨name, none, .scalar .int, none, true, false, false, none, none, Props.empty⟩

def cell (name : String) : TypedRecords.Entry :=
  ⟨name, none, .scalar .int, false, false, none, none, Props.empty⟩

def tableProps : Props := Props.empty.insert Canonical.orderKey ",b,x,a,,b"

theorem wellFormed_cell {name : String} (valid : Identifier.isValid name) :
    (cell name).WellFormed :=
  ⟨valid, Schema.wellFormed_scalar .int⟩

theorem decompileFields_cells {names : List String} (valid : ∀ name ∈ names, Identifier.isValid name) :
    Canonical.decompileFields false (Schema.compiledEntries (names.map cell)) =
      .ok (names.map cell) := by
  induction names with
  | nil => simp [Schema.compiledEntries, Canonical.decompileFields]
  | cons name rest ih =>
    obtain ⟨here, later⟩ := List.forall_mem_cons.1 valid
    have field : Canonical.rebuildEntry name (.scalar .int) false none none [] Props.empty =
        .ok (cell name) :=
      Canonical.rebuildEntry_eq_ok none (.scalar .int) false false none none Props.empty here
    have type : Canonical.decompile false (.primitive .int) = .ok (.scalar .int) := by
      simp [Canonical.decompile, Canonical.scalarKind?]
    have taken : Canonical.splitNullable (.primitive .int) = .ok (.primitive .int, false) := rfl
    have first : Schema.compiledEntries ((name :: rest).map cell) =
        ⟨name, .primitive .int, none, none, [], Props.empty⟩ ::
          Schema.compiledEntries (rest.map cell) := rfl
    rw [first, Canonical.decompileFields_cons _ taken]
    simp only [type, ok_bind, field, ih later]
    rfl

theorem buildEntries_columns {names : List String} (valid : ∀ name ∈ names, Identifier.isValid name) :
    buildEntries (names.map column) = .ok (names.map cell) := by
  induction names with
  | nil => rfl
  | cons name rest ih =>
    obtain ⟨here, later⟩ := List.forall_mem_cons.1 valid
    have first : buildEntry (column name) = .ok (cell name) := by
      simp [column, buildEntry, buildElement, build_entryBuilder, Identifier.sanitize_eq_self here,
        EntryBuilder.describedSchema, cell]
    rw [List.map_cons, buildEntries, first, ih later]
    rfl

theorem exists_tables {names : List String} {props : Props} {text : String}
    (valid : ∀ name ∈ names, Identifier.isValid name) (distinct : names.Nodup)
    (told : props.find? Canonical.orderKey = some text) : ∃ s s',
      build ⟨.record, some "R", names.map column, none, true, props⟩ = .ok s ∧
      Schema.ofCanonical (.record "R" Canonical.recordSpace
        (Schema.compiledEntries (names.map cell)) props) false = .ok s' := by
  have own : ∀ e ∈ names.map cell, e.WellFormed :=
    List.forall_mem_map.2 fun name hn => wellFormed_cell (valid name hn)
  obtain ⟨l, declared, all⟩ := SchemaBuilder.foldlM_withEntry_empty
    (props.erase Canonical.orderKey) (some "R") own (by simpa [cell, Function.comp_def])
  have flat : ∀ e ∈ l.entries, ∃ k, e.schema = .scalar k := by simp [all, cell]
  have ends (listed : List String) : ∃ s, SchemaBuilder.buildListed
      ⟨.record l, props.erase Canonical.orderKey, some "R"⟩ listed = .ok s :=
    SchemaBuilder.exists_finish_of_flat "R" (props.erase Canonical.orderKey) (fun entries =>
      entries.mergeSort fun x y => (compare (OrderText.place listed x.name)
        (OrderText.place listed y.name)).isLE) flat
  obtain ⟨s, run⟩ := ends (OrderText.split text)
  obtain ⟨s', run'⟩ := ends ((OrderText.split text).filter fun name => !name.isEmpty)
  refine ⟨s, s', ?_, ?_⟩
  · rw [build, buildEntries_columns valid, ok_bind, buildRecord_eq, declared, ok_bind, told]
    exact run
  · have apart : ¬ ("R" == Canonical.emptyRecordName &&
        (Schema.compiledEntries (names.map cell)).isEmpty) = true := by simp [Canonical.emptyRecordName]
    rw [Schema.ofCanonical, Canonical.decompile, if_neg apart, decompileFields_cells valid, ok_bind,
      Canonical.rebuildRecord, SchemaBuilder.record_withProps, declared, ok_bind, told]
    exact run'

theorem sameOrder_of_build_cells : ∃ s s',
    build ⟨.record, some "R", ["c", "a", "b"].map column, none, true, tableProps⟩ = .ok s ∧
    Schema.ofCanonical (.record "R" Canonical.recordSpace
      (Schema.compiledEntries (["c", "a", "b"].map cell)) tableProps) false = .ok s' ∧
    Schema.SameOrder ",b,x,a,,b" (["c", "a", "b"].map cell) s s' := by
  have valid : ∀ name ∈ ["c", "a", "b"], Identifier.isValid name := by decide
  have told : tableProps.find? Canonical.orderKey = some ",b,x,a,,b" := by decide
  obtain ⟨s, s', built, read⟩ := exists_tables valid (by decide) told
  exact ⟨s, s', built, read, sameOrder_of_build (buildEntries_columns valid) (by decide)
    told built told read⟩

end Descriptor

end TypedRecords
