import TypedRecords.Proofs.Avro.Container
import TypedRecords.Proofs.Avro.Document
import TypedRecords.Proofs.Record.Conformance
import TypedRecords.Proofs.Record.Datum
import TypedRecords.Proofs.Schema.Document

/-! Records come back from their container.
The schema returns by its document, which the metadata keep, and the data return through the
container. Equal schemas read data alike, so it does not matter that the records were made
for another schema than the one that is read. What takes no bytes does not come back: a
container of no records has not even a header, and a record without bytes is a fault. -/
namespace TypedRecords

open Avro Result

namespace Codec

theorem storedDatum_eq {s : Schema} {type : WireType} {defs : WireType.Definitions}
    {r : Record} {d : Datum}
    (same : (r.schema == s) = true) (run : r.toDatum = .ok d)
    (known : type.definitions = .ok defs) (conforms : type.conforms defs "" d = true) :
    storedDatum s type r = .ok d := by
  simp [storedDatum, same, run, known, conforms]

theorem encodeAll_of_admitted {c : Codec} {s : Schema} {type : WireType} {records : List Record}
    {data : List Datum} (kind : s.kind = .record)
    (accepted : WireType.ofJson s.toCanonicalJson = .ok type)
    (same : ∀ r ∈ records, (r.schema == s) = true)
    (run : records.mapM Record.toDatum = .ok data)
    (admitted : ∃ defs, type.definitions = .ok defs ∧ ∀ d ∈ data, type.conforms defs "" d = true) :
    c.encodeAll s records = .ok (Container.write type c.compression (schemaMetadata s) data) := by
  obtain ⟨defs, known, conforms⟩ := admitted
  have stored : records.mapM (storedDatum s type) = .ok data := by
    rw [mapM_congr (g := Record.toDatum) fun r hr => ?_, run]
    have written : r.toDatum ∈ data.map Except.ok := mapM_eq_ok_iff.1 run ▸ List.mem_map_of_mem hr
    obtain ⟨d, hd, own⟩ := List.mem_map.1 written
    rw [← own]
    exact storedDatum_eq (same r hr) own.symm known (conforms d hd)
  simp [encodeAll, storedData, kind, accepted, stored]

theorem storedDocument_eq_ok {s : Schema} {h : Container.Header}
    (kept : h.metadata = schemaMetadata s)
    (parsed : Json.parse s.toCanonicalJson.compact = some s.toCanonicalJson) :
    storedDocument h = .ok s.toCanonicalJson := by
  simp [storedDocument, kept, schemaMetadata, Assoc.find?, Text.ofUtf8?_utf8, parsed]

theorem exists_storedSchema {c : Codec} {s : Schema} {h : Container.Header}
    (sound : s.WellFormed) (kind : s.kind = .record) (clear : s.Recoverable)
    (storable : s.Storable) (found : storedDocument h = .ok s.toCanonicalJson) :
    ∃ s', c.storedSchema h = .ok s' ∧ s'.WellFormed ∧ s'.plain = s.plain := by
  obtain ⟨form, read, sameForm⟩ :=
    Canonical.exists_ofJson_toJson (storable.writable sound kind)
  obtain ⟨s', run, same⟩ := Canonical.decompile_of_plain c.strictOrder s sameForm sound clear
  have kind' : s'.kind = .record := (Schema.kind_of_plain same).trans kind
  refine ⟨s', ?_, Canonical.wellFormed_decompile form run, same⟩
  simp [storedSchema, found, Schema.toCanonicalJson, read, Schema.ofCanonical, run, kind']

theorem recordsOfData_toDatum {s : Schema} {records : List Record} {data : List Datum}
    (sound : s.WellFormed) (own : ∀ r ∈ records, r.WellFormed ∧ s.plain = r.schema.plain)
    (run : records.mapM Record.toDatum = .ok data) :
    ∃ records', recordsOfData s (data.map .ok) = .ok records' ∧
      records'.length = records.length ∧
      ∀ p ∈ records'.zip records, p.1.identical p.2.cut = true := by
  induction records generalizing data with
  | nil =>
    cases run
    exact ⟨[], rfl, rfl, by simp⟩
  | cons r rest ih =>
    obtain ⟨⟨wellFormed, same⟩, others⟩ := List.forall_mem_cons.1 own
    rw [List.mapM_cons, bind_eq_ok] at run
    obtain ⟨d, first, run⟩ := run
    obtain ⟨ds, later, done⟩ := bind_eq_ok.1 run
    cases done
    obtain ⟨r', read, alike⟩ := Record.ofDatum_toDatum wellFormed sound same first
    obtain ⟨rest', readRest, one, alikeRest⟩ := ih others later
    refine ⟨r' :: rest', ?_, by simp [one], ?_⟩
    · simp only [recordsOfData] at readRest
      simp [recordsOfData, List.mapM_cons, read, readRest]
    · simpa [alike] using alikeRest

theorem separate_schemaMetadata (s : Schema) : Container.Separate (schemaMetadata s) := by
  have apart : schemaKey.startsWith Container.reservedStem = false := by decide +kernel
  constructor
  · simp [schemaMetadata, Assoc.Sorted]
  · intro p hp
    rw [List.mem_singleton.1 hp]
    exact apart

/-! What cannot be read back. -/

theorem decodeAll_nil (c : Codec) : c.decodeAll [] = .error .avro := rfl

theorem encodeAll_nil {c : Codec} {s : Schema} {type : WireType} (kind : s.kind = .record)
    (accepted : WireType.ofJson s.toCanonicalJson = .ok type) : c.encodeAll s [] = .ok [] := by
  simp [encodeAll, storedData, kind, accepted, Container.write]

theorem recordsOfData_ne_ok {s : Schema} {data : List (Result Datum)} {e : SchemaError}
    (mem : .error e ∈ data) (records : List Record) : recordsOfData s data ≠ .ok records := by
  intro run
  have listed : (Except.error e : Result Record) ∈ records.map .ok := by
    rw [← mapM_eq_ok_iff.1 run]
    exact List.mem_map.2 ⟨_, mem, rfl⟩
  simp at listed

theorem of_decodeAll {c : Codec} {bytes rest : List UInt8} {h : Container.Header} {s : Schema}
    {records : List Record} (opened : Container.readHeader bytes = .ok (h, rest))
    (run : c.decodeAll bytes = .ok (s, records)) :
    recordsOfData s (Container.data h rest) = .ok records := by
  rw [decodeAll, opened, ok_bind] at run
  obtain ⟨t, -, run⟩ := bind_eq_ok.1 run
  obtain ⟨rs, read, same⟩ := bind_eq_ok.1 run
  cases same
  exact read

/-- Where the document of the schema tells all about it, and the container holds its header and
the data as they are, what is written can be read back exactly if there are records and all of
them take bytes. Other documents and containers may be written and not read: one that is nested
too deep, or one in which a property `logicalType` changes the type of an entry. -/
theorem decodeAll_encodeAll_iff {c : Codec} {s : Schema} {type : WireType}
    {records : List Record} (h : s.Obtainable) (kind : s.kind = .record) (clear : s.Recoverable)
    (storable : s.Storable) (own : ∀ r ∈ records, r.Obtainable ∧ (r.schema == s) = true)
    (accepted : WireType.ofJson s.toCanonicalJson = .ok type)
    (parsed : Json.parse s.toCanonicalJson.compact = some s.toCanonicalJson)
    (stores : ∀ data, records.mapM Record.toDatum = .ok data →
      Container.Stores type c.compression (schemaMetadata s) data) :
    ∃ bytes data, c.encodeAll s records = .ok bytes ∧ records.mapM Record.toDatum = .ok data ∧
      ((∃ s' records', c.decodeAll bytes = .ok (s', records') ∧
        records'.length = records.length) ↔ records ≠ [] ∧ ∀ d ∈ data, d.encode ≠ []) := by
  have sound := h.wellFormed
  obtain ⟨data, run⟩ : ∃ data, records.mapM Record.toDatum = .ok data := by
    refine exists_mapM_eq_ok fun r hr => ?_
    obtain ⟨d, run, -⟩ := (own r hr).1.wellFormed.toDatum_conforms
    exact ⟨d, run⟩
  have one : data.length = records.length := by
    simpa using (congrArg List.length (mapM_eq_ok_iff.1 run)).symm
  have stored := stores data run
  refine ⟨_, data, encodeAll_of_admitted kind accepted (fun r hr => (own r hr).2) run
    stored.admitted, run, ?_⟩
  by_cases none_ : records = []
  · obtain rfl : data = [] := List.eq_nil_of_length_eq_zero (one.trans (by simp [none_]))
    have fault : c.decodeAll (Container.write type c.compression (schemaMetadata s) []) =
        .error .avro := decodeAll_nil c
    simp [fault, none_]
  · have present : data ≠ [] := by
      rintro rfl
      exact none_ (List.eq_nil_of_length_eq_zero one.symm)
    obtain ⟨header, rest, opened, metadata, content, fault⟩ := stored.returned present
    constructor
    · rintro ⟨s', records', read, -⟩
      refine ⟨none_, fun d hd bare => ?_⟩
      obtain ⟨e, mem⟩ := fault ⟨d, hd, bare⟩
      exact recordsOfData_ne_ok mem records' (of_decodeAll opened read)
    · rintro ⟨-, taken⟩
      obtain ⟨s', schema, sound', same⟩ := exists_storedSchema (c := c) sound kind clear storable
        (storedDocument_eq_ok metadata parsed)
      obtain ⟨records', read, many, -⟩ := recordsOfData_toDatum sound'
        (fun r hr => ⟨(own r hr).1.wellFormed,
          same.trans (Schema.eq_iff_plain.1 (own r hr).2).symm⟩) run
      exact ⟨s', records', by simp [decodeAll, opened, schema, content taken, read], many⟩

end Codec

/-! A container of one instant, which is finer than what is stored, and one of lists of such
instants with a remark. -/

namespace Schema

def tick : Schema :=
  .record "Tick" [⟨"at", none, .scalar .datetime, false, false, none, none, Props.empty⟩]
    (Props.ofList [(Canonical.orderKey, "at")])

theorem wellFormed_tick : tick.WellFormed := by
  have own : Arranged "Tick" tick.entries tick.props :=
    { valid := by decide +kernel
      distinct := by decide +kernel
      ordered := ⟨["at"], by decide +kernel, by decide +kernel⟩
      consistent := by decide +kernel }
  refine wellFormed_record.2 ⟨own, ?_⟩
  simp [wellFormed_scalar]

theorem recoverable_tick : tick.Recoverable := ⟨by decide +kernel, by decide +kernel⟩

theorem storable_tick : tick.Storable :=
  ⟨by decide +kernel, by decide +kernel, by simp [tick, nodes, nodesOfEntries, recordName?]⟩

end Schema

namespace Record

def tick : Record := ⟨.tick, [.datetime ⟨0, 1500000⟩]⟩

theorem obtainable_tick : tick.Obtainable := by
  have read : Instant.ofText? "1970-01-01T00:00:00.0015Z" = some ⟨0, 1500000⟩ := by
    decide +kernel
  have place : Schema.tick.entryIndex? "at" = some 0 := by decide +kernel
  have run : ofJson .tick (.obj [("at", .str "1970-01-01T00:00:00.0015Z")]) = .ok tick := by
    rw [ofJson, Schema.readRecord]
    simp only [Json.fields?, Schema.writeFields, place]
    simp [Schema.tick, Schema.kind, Schema.entries, Schema.converters, Schema.converter,
      Schema.unlessNull, Json.isNull, Schema.scalarOfJson?, Schema.instantOfJson?, read,
      Written.write, Value.validate, Value.checkKind, Value.kind?, Assoc.insert, Written.fill,
      Assoc.find?, tick]
  exact .ofJson (Schema.obtainable_iff_wellFormed.2 Schema.wellFormed_tick) run

end Record

namespace Codec

/-- The attributes of a record, all of them or only those that the format knows. -/
def recordAttributes (whole : Bool) (order name : String) (fields : List Json) : Attributes :=
  (if whole then [("familiar.entries.order", .str order)] else [])
    ++ [("fields", .arr fields), ("name", .str name), ("namespace", .str "familiar.records"),
      ("type", .str "record")]

def recordText (whole : Bool) (order name fields : String) : String :=
  (if whole then "\x7b\"familiar.entries.order\":\"" ++ order ++ "\"," else "\x7b")
    ++ "\"fields\":[" ++ fields ++ "],\"name\":\"" ++ name
    ++ "\",\"namespace\":\"familiar.records\",\"type\":\"record\"\x7d"

def tickType : WireType :=
  .record ⟨"familiar.records", "Tick"⟩ [⟨"at", .temporal .timestampMillis, none, []⟩]

def instantAttributes (whole : Bool) : Attributes :=
  (if whole then [("familiar.datetime", .str "true")] else [])
    ++ [("logicalType", .str "timestamp-millis"), ("type", .str "long")]

def tickDocument (whole : Bool) : Json :=
  .obj (recordAttributes whole "at" "Tick"
    [.obj [("name", .str "at"), ("type", .obj (instantAttributes whole))]])

def tickText (whole : Bool) : String :=
  recordText whole "at" "Tick"
    ("\x7b\"name\":\"at\",\"type\":\x7b"
      ++ (if whole then "\"familiar.datetime\":\"true\"," else "")
      ++ "\"logicalType\":\"timestamp-millis\",\"type\":\"long\"\x7d\x7d")

theorem toCanonicalJson_tick : Schema.tick.toCanonicalJson = tickDocument true := rfl

theorem toJson_tickType : tickType.toJson = tickDocument false := rfl

theorem compact_tickDocument (whole : Bool) : (tickDocument whole).compact = tickText whole := by
  cases whole <;>
    simp [tickDocument, recordAttributes, instantAttributes, Json.compact, Json.compactFields,
      Json.compactItems, Json.atom, Json.quote] <;>
    decide +kernel

set_option maxRecDepth 2000 in
theorem parse_tickDocument (whole : Bool) :
    Json.parse (tickDocument whole).compact = some (tickDocument whole) := by
  rw [compact_tickDocument, Json.parse, Json.parseTo, tickText, recordText]
  -- Each piece of the text is taken apart at once; to decode its bytes would be slow.
  cases whole <;>
  · simp only [Bool.false_eq_true, if_true, if_false, String.toList_append]
    repeat rw [String.toList_ofList]
    rfl

theorem read_tickDocument (whole : Bool) (levels : Nat) (names : Names) (space : String) :
    ∃ later, WireType.read levels names space (tickDocument whole) = .ok (tickType, later) := by
  have long : Primitive.ofName? "long" = some .long := by decide
  have instant (names : Names) : WireType.readObject levels names "familiar.records"
      (instantAttributes whole) = .ok (.temporal .timestampMillis, names) :=
    WireType.readObject_temporal (by cases whole <;> rfl) (by cases whole <;> rfl) long
  have fields (names : Names) : WireType.readFields levels names "familiar.records"
      [.obj [("name", .str "at"), ("type", .obj (instantAttributes whole))]] =
        .ok ([⟨"at", .temporal .timestampMillis, none, []⟩], names) := by
    refine WireType.readFields_cons rfl (by decide +kernel)
      ((WireType.readObject_object rfl rfl).trans (instant names)) rfl ?_
    rw [WireType.readFields]
  rw [tickDocument, WireType.read]
  cases whole <;>
    exact ⟨_, WireType.readObject_record rfl rfl rfl (WireType.readRecord_eq_ok
      (WireType.name_eq_ok rfl rfl (by decide +kernel) (by decide +kernel)) rfl rfl (fields _) rfl)⟩

theorem ofJson_tickDocument (whole : Bool) :
    WireType.ofJson (tickDocument whole) = .ok tickType :=
  WireType.ofJson_of_read fun levels => read_tickDocument whole levels Names.empty ""

def tickDatum : Datum := .record [("at", .temporal .timestampMillis 1)]

theorem encode_tickDatum : tickDatum.encode = [2] := by
  simp [tickDatum, Datum.encode, Datum.encodeFields, Varint.encode, Varint.fold, Varint.groups]

theorem definitions_tickType :
    tickType.definitions = .ok [(⟨"familiar.records", "Tick"⟩, tickType)] := rfl

theorem reads_tickDatum (refs : Name → Reader Datum) (space : String) :
    Reader.Reads refs space tickType tickDatum :=
  Reader.reads_record (.cons ⟨rfl, Reader.reads_temporal rfl 1⟩ .nil)

theorem stores_tick : Container.Stores tickType .deflate (schemaMetadata .tick) [tickDatum] := by
  have header : Container.Holds
      (Container.metadataFor tickType .deflate (schemaMetadata .tick)) := by
    rw [schemaMetadata, Container.metadataFor, toJson_tickType, toCanonicalJson_tick,
      compact_tickDocument, compact_tickDocument]
    exact ⟨by decide +kernel, by decide +kernel⟩
  have alone : Container.blocksOf [[2]] = [⟨1, [2]⟩] := by decide +kernel
  have block : Container.Block.Holds .deflate ⟨1, [2]⟩ :=
    ⟨by decide +kernel, by decide +kernel, by decide +kernel⟩
  refine ⟨separate_schemaMetadata _, header, parse_tickDocument false, ofJson_tickDocument false,
    ⟨_, definitions_tickType, by decide +kernel⟩, ?_, ?_⟩
  · simpa [encode_tickDatum, alone] using block
  · intro d hd
    rw [List.mem_singleton.1 hd]
    exact Container.datumReader_append definitions_tickType fun _ => reads_tickDatum _ _

theorem decodeAll_encodeAll_iff_tick :
    Record.tick.Obtainable ∧ ∃ bytes data, default.encodeAll .tick [.tick] = .ok bytes ∧
      [Record.tick].mapM Record.toDatum = .ok data ∧
      ((∃ s' records', default.decodeAll bytes = .ok (s', records') ∧ records'.length = 1) ↔
        [Record.tick] ≠ [] ∧ ∀ d ∈ data, d.encode ≠ []) := by
  have own : ∀ r ∈ [Record.tick], r.Obtainable ∧ (r.schema == Schema.tick) = true := by
    simpa using ⟨Record.obtainable_tick, Schema.eq_self Schema.tick⟩
  have written : [Record.tick].mapM Record.toDatum = .ok [tickDatum] := rfl
  have stores : ∀ data, [Record.tick].mapM Record.toDatum = .ok data →
      Container.Stores tickType default.compression (schemaMetadata .tick) data := by
    intro data run
    cases run.symm.trans written
    exact stores_tick
  exact ⟨Record.obtainable_tick,
    decodeAll_encodeAll_iff (Schema.obtainable_iff_wellFormed.2 Schema.wellFormed_tick) rfl
      Schema.recoverable_tick Schema.storable_tick own
      (ofJson_tickDocument true) (parse_tickDocument true) stores⟩

theorem unreadable_tick : Schema.tick.Obtainable ∧ Schema.tick.kind = .record ∧
    ∃ bytes, default.encodeAll .tick [] = .ok bytes ∧
      ¬ ∃ s records, default.decodeAll bytes = .ok (s, records) := by
  refine ⟨Schema.obtainable_iff_wellFormed.2 Schema.wellFormed_tick, rfl, [],
    encodeAll_nil rfl (ofJson_tickDocument true), ?_⟩
  simp [decodeAll_nil]

end Codec
end TypedRecords
