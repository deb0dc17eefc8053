import Mathlib.Data.List.Forall2
import TypedRecords.Avro.Container
import TypedRecords.Proofs.Assoc
import TypedRecords.Proofs.Result
import TypedRecords.Proofs.Text

/-! The header of a container comes back.
Every reader of the header takes exactly the bytes that its writer gave, whatever follows
them. The metadata of users are told from those of the format by their keys. -/
namespace TypedRecords.Avro

open Result

namespace Varint

theorem fold_lt {n : Int} (h : fitsSigned 64 n) : fold n < twoTo 64 := by
  have half : twoTo 63 = 9223372036854775808 := rfl
  have full : twoTo 64 = 18446744073709551616 := rfl
  simp only [fitsSigned, Bool.and_eq_true, decide_eq_true_eq, half] at h
  unfold fold
  split <;> omega

theorem decode_encode {n : Int} (h : fitsSigned 64 n) (rest : List UInt8) :
    decode (encode n ++ rest) = .ok (n, rest) := by
  have small := fold_lt h
  have fits : fold n < Nat.pow 128 (9 + 1) := Nat.lt_trans small (by decide)
  have read : readGroups maxGroups (groups (fold n) ++ rest) = .ok (fold n, rest) :=
    readGroups_groups 9 (fold n) rest fits
  simp [decode, encode, read, Nat.mod_eq_of_lt small, unfold_fold]

end Varint

namespace Reader

variable {α : Type}

theorem whole_append {n : Int} (h : fitsSigned 64 n) (rest : List UInt8) :
    whole (Varint.encode n ++ rest) = .ok (n, rest) := by
  simp [whole, Varint.decode_encode h, Except.toOption, require]

theorem fitsSigned_of_le {n : Nat} (h : n ≤ maxLength) : fitsSigned 64 n := by
  have half : twoTo 63 = 9223372036854775808 := rfl
  simp only [maxLength] at h
  simp only [fitsSigned, Bool.and_eq_true, decide_eq_true_eq, half]
  omega

theorem length_append {n : Nat} (h : n ≤ maxLength) (rest : List UInt8) :
    length (Varint.encode n ++ rest) = .ok (n, rest) := by
  have bound : (n : Int) ≤ maxLength := by exact_mod_cast h
  simp [length, whole_append (fitsSigned_of_le h), bound]

theorem blockLength_append {n : Nat} (h : n ≤ maxLength) (rest : List UInt8) :
    blockLength (Varint.encode n ++ rest) = .ok (n, rest) := by
  have bound : (n : Int) ≤ maxLength := by exact_mod_cast h
  have above : ¬ (n : Int) < 0 := by omega
  simp [blockLength, whole_append (fitsSigned_of_le h), bound, above]

theorem take_append (front rest : List UInt8) :
    take front.length (front ++ rest) = .ok (front, rest) := by
  simp [take]

theorem counted_append {bytes : List UInt8} (h : bytes.length ≤ maxLength) (rest : List UInt8) :
    counted (Datum.counted bytes ++ rest) = .ok (bytes, rest) := by
  simp [counted, Datum.counted, List.append_assoc, length_append h, take_append]

theorem text_append {s : String} (h : (Text.utf8 s).length ≤ maxLength) (rest : List UInt8) :
    text (Datum.counted (Text.utf8 s) ++ rest) = .ok (.string s, rest) := by
  simp [text, Datum.counted, List.append_assoc, length_append h, take_append,
    Text.ofUtf8?_utf8, require]

theorem times_append {item : Reader α} {write : α → List UInt8} {items : List α}
    (h : ∀ a ∈ items, ∀ rest, item (write a ++ rest) = .ok (a, rest)) (rest : List UInt8) :
    times item items.length (items.flatMap write ++ rest) = .ok (items, rest) := by
  induction items with
  | nil => rfl
  | cons a others ih =>
    have first := h a List.mem_cons_self
    have later := ih fun b hb => h b (List.mem_cons_of_mem _ hb)
    simp [times, List.append_assoc, first, later]

theorem blocks_append (item : Reader α) (write : α → List UInt8) {items : List α}
    (h : ∀ a ∈ items, ∀ rest, item (write a ++ rest) = .ok (a, rest))
    (few : items.length ≤ maxLength) (rest : List UInt8) :
    blocks item (Datum.block items.length (items.flatMap write) ++ rest) = .ok (items, rest) := by
  have closing (later : List UInt8) : blockLength (0 :: later) = .ok (0, later) := by
    simpa [Varint.encode, Varint.fold, Varint.groups] using blockLength_append (Nat.zero_le _) later
  by_cases none_ : items = []
  · subst none_
    simp [blocks, Datum.block, blocksUpTo, closing]
  · have some_ : items.length ≠ 0 := by simpa using none_
    obtain ⟨fuel, enough⟩ : ∃ fuel, (Datum.block items.length (items.flatMap write) ++ rest).length
        = fuel + 1 := Nat.exists_eq_add_one_of_ne_zero (by simp [Datum.block, some_])
    rw [blocks, enough]
    simp only [Datum.block, some_, if_false, List.append_assoc, blocksUpTo,
      blockLength_append few, ok_bind, times_append h, List.singleton_append, closing]
    simp

/-! Data of a type, part by part. -/

/-- A datum is read back from its bytes, whatever follows them. -/
def Reads (refs : Name → Reader Datum) (space : String) (t : WireType) (d : Datum) : Prop :=
  ∀ rest, datum refs space t (d.encode ++ rest) = .ok (d, rest)

variable {refs : Name → Reader Datum} {space : String}

theorem reads_temporal {t : Temporal} (wide : t.base = .long) (n : Int64) :
    Reads refs space (.temporal t) (.temporal t n) := fun rest => by
  have fits : fitsSigned 64 n.toInt := by
    have low := n.le_toInt
    have high := n.toInt_lt
    have half : twoTo 63 = 9223372036854775808 := rfl
    simp only [fitsSigned, Bool.and_eq_true, decide_eq_true_eq, half]
    omega
  simp [datum, temporal, wide, Datum.encode, whole_append fits]

theorem reads_record {name : Name} {fields : List WireType.Field} {ds : List (String × Datum)}
    (h : List.Forall₂ (fun (f : WireType.Field) p =>
      f.name = p.1 ∧ Reads refs (name.within space).space f.type p.2) fields ds) :
    Reads refs space (.record name fields) (.record ds) := fun rest => by
  have all : recordFields refs (name.within space).space fields (Datum.encodeFields ds ++ rest) =
      .ok (ds, rest) := by
    induction h with
    | nil => rfl
    | @cons f p fields ds first _ ih =>
      obtain ⟨own, type, default, aliases⟩ := f
      obtain ⟨rfl, read⟩ := first
      simp [recordFields, Datum.encodeFields, List.append_assoc, read _, ih]
  simp [datum, Datum.encode, all]

end Reader

namespace Container

/-- What a header can hold: no more items and no longer ones than are read. -/
structure Holds (metadata : Metadata) : Prop where
  few : metadata.length ≤ Reader.maxLength
  short : ∀ p ∈ metadata, (Text.utf8 p.1).length ≤ Reader.maxLength ∧ p.2.length ≤ Reader.maxLength

theorem encodeMetadata_eq (metadata : Metadata) :
    encodeMetadata metadata = Datum.block metadata.length
      (metadata.flatMap fun p => Datum.counted (Text.utf8 p.1) ++ Datum.counted p.2) := by
  have values (pairs : Metadata) : Datum.encodeValues (pairs.map fun p => (p.1, .bytes p.2)) =
      pairs.flatMap fun p => Datum.counted (Text.utf8 p.1) ++ Datum.counted p.2 := by
    induction pairs with
    | nil => rfl
    | cons p rest ih => simp [Datum.encodeValues, Datum.encode, ih]
  simp [encodeMetadata, Datum.encode, values]

theorem readMetadata_append {metadata : Metadata} (sorted : Assoc.Sorted metadata)
    (holds : Holds metadata) (rest : List UInt8) :
    readMetadata (magic ++ encodeMetadata metadata ++ rest) = .ok (metadata, rest) := by
  let write := fun p : String × List UInt8 =>
    Datum.counted (Text.utf8 p.1) ++ Datum.counted p.2
  have entries : ∀ p ∈ metadata, ∀ later,
      Reader.entry Reader.counted (write p ++ later) = .ok (p, later) := by
    intro p hp later
    obtain ⟨key, value⟩ := holds.short p hp
    simp [write, Reader.entry, List.append_assoc, Reader.text_append key,
      Reader.counted_append value]
  have pairs := Reader.blocks_append (Reader.entry Reader.counted) write entries holds.few rest
  simp [readMetadata, List.append_assoc, Reader.take_append, encodeMetadata_eq, write, pairs,
    Assoc.insertAll_nil sorted]

/-! The metadata of users beside those of the format. -/

/-- Metadata of users: in key order, and under no key of the format. -/
structure Separate (metadata : Metadata) : Prop where
  sorted : Assoc.Sorted metadata
  apart : ∀ p ∈ metadata, p.1.startsWith reservedStem = false

theorem Separate.find?_metadataFor {metadata : Metadata} (h : Separate metadata)
    (type : WireType) (compression : Compression) (key : String) :
    Assoc.find? key (metadataFor type compression metadata) =
      (Assoc.find? key metadata).or (Assoc.find? key
        [(compressionKey, Text.utf8 compression.name), (typeKey, Text.utf8 type.toJson.compact)]) :=
  Assoc.find?_insertAll_of_nodup (Assoc.nodup_of_sorted h.sorted) _

theorem Separate.find?_eq_none {metadata : Metadata} (h : Separate metadata) {key : String}
    (reserved : key.startsWith reservedStem = true) : Assoc.find? key metadata = none := by
  refine Assoc.find?_eq_none_iff.2 fun p hp same => ?_
  have apart := h.apart p hp
  simp [same, reserved] at apart

theorem sorted_metadataFor (type : WireType) (compression : Compression) (metadata : Metadata) :
    Assoc.Sorted (metadataFor type compression metadata) := by
  refine Assoc.sorted_insertAll metadata ?_
  have order : compressionKey < typeKey := by decide
  refine List.Pairwise.cons (fun p hp => ?_) (List.pairwise_singleton _ _)
  rw [List.mem_singleton.1 hp]
  exact order

theorem Separate.filter_metadataFor {metadata : Metadata} (h : Separate metadata)
    (type : WireType) (compression : Compression) :
    (metadataFor type compression metadata).filter (fun p => !p.1.startsWith reservedStem) =
      metadata := by
  have codec : compressionKey.startsWith reservedStem = true := by decide +kernel
  have schema : typeKey.startsWith reservedStem = true := by decide +kernel
  refine Assoc.ext_find? (List.Pairwise.filter _ (sorted_metadataFor type compression metadata))
    h.sorted fun key => ?_
  rw [Assoc.find?_filter (fun key => !key.startsWith reservedStem), h.find?_metadataFor]
  by_cases reserved : key.startsWith reservedStem
  · simp [reserved, h.find?_eq_none reserved]
  · have notCodec : compressionKey ≠ key := fun same => reserved (same ▸ codec)
    have notSchema : typeKey ≠ key := fun same => reserved (same ▸ schema)
    simp [reserved, Assoc.find?, notCodec, notSchema]

/-! The header as a whole. -/

theorem length_markerFor (bytes : List UInt8) : (markerFor bytes).length = markerLength := by
  simp [markerFor, markerLength, Sha256.digest, Sha256.State.words, Sha256.bigEndian]

theorem readHeader_append {type : WireType} {compression : Compression} {metadata : Metadata}
    {marker : List UInt8} (separate : Separate metadata)
    (holds : Holds (metadataFor type compression metadata))
    (parsed : Json.parse type.toJson.compact = some type.toJson)
    (accepted : WireType.ofJson type.toJson = .ok type) (one : marker.length = markerLength)
    (rest : List UInt8) :
    readHeader (magic ++ encodeMetadata (metadataFor type compression metadata) ++ marker ++ rest) =
      .ok (⟨type, compression, metadata, marker⟩, rest) := by
  have codec : Assoc.find? compressionKey metadata = none :=
    separate.find?_eq_none (by decide +kernel)
  have schema : Assoc.find? typeKey metadata = none :=
    separate.find?_eq_none (by decide +kernel)
  have differ : compressionKey ≠ typeKey := by decide
  have readPairs := readMetadata_append (sorted_metadataFor type compression metadata) holds
    (marker ++ rest)
  have knownType : readType (metadataFor type compression metadata) = .ok type := by
    simp [readType, separate.find?_metadataFor, schema, Assoc.find?, differ, require,
      Text.ofUtf8?_utf8, parsed, accepted]
  have knownCompression :
      readCompression (metadataFor type compression metadata) = .ok compression := by
    simp [readCompression, separate.find?_metadataFor, codec, Assoc.find?, require,
      Text.ofUtf8?_utf8, Compression.ofName?_name]
  have closing : readMarker (marker ++ rest) = .ok (marker, rest) := by
    rw [readMarker, ← one]
    exact Reader.take_append marker rest
  rw [List.append_assoc, readHeader, readPairs]
  simp [knownType, knownCompression, closing, separate.filter_metadataFor]

/-! Blocks of data. -/

def blockOf (data : List Datum) : Block := ⟨data.length, (data.map Datum.encode).flatten⟩

theorem fill_map (size : Nat) (data : List Datum) :
    ∃ front back, fill size (data.map Datum.encode) =
        (front.map Datum.encode, back.map Datum.encode) ∧
      front ++ back = data ∧ (data ≠ [] → front ≠ []) := by
  induction data generalizing size with
  | nil => exact ⟨[], [], rfl, rfl, by simp⟩
  | cons d rest ih =>
    by_cases full : blockSize ≤ size + d.encode.length
    · exact ⟨[d], rest, by simp [fill, full], rfl, by simp⟩
    · obtain ⟨front, back, split, whole, -⟩ := ih (size + d.encode.length)
      exact ⟨d :: front, back, by simp [fill, full, split], by simp [whole], by simp⟩

theorem blocksUpTo_map {count : Nat} {data : List Datum} (enough : data.length ≤ count) :
    ∃ groups : List (List Datum), blocksUpTo count (data.map Datum.encode) = groups.map blockOf ∧
      groups.flatten = data ∧ ∀ group ∈ groups, group ≠ [] := by
  induction count generalizing data with
  | zero =>
    obtain rfl : data = [] := by simpa using enough
    exact ⟨[], rfl, rfl, by simp⟩
  | succ count ih =>
    cases data with
    | nil => exact ⟨[], rfl, rfl, by simp⟩
    | cons d rest =>
      obtain ⟨front, back, split, whole, some_⟩ := fill_map 0 (d :: rest)
      have taken : front ≠ [] := some_ (by simp)
      have fewer : back.length ≤ count := by
        have sizes := congrArg List.length whole
        have positive := List.length_pos_iff.2 taken
        simp only [List.length_append, List.length_cons] at sizes enough
        omega
      obtain ⟨groups, others, flat, filled⟩ := ih fewer
      refine ⟨front :: groups, ?_, by simp [flat, whole], List.forall_mem_cons.2 ⟨taken, filled⟩⟩
      rw [List.map_cons] at split
      simp [blocksUpTo, split, others, blockOf]

theorem blocksOf_map (data : List Datum) :
    ∃ groups : List (List Datum), blocksOf (data.map Datum.encode) = groups.map blockOf ∧
      groups.flatten = data ∧ ∀ group ∈ groups, group ≠ [] :=
  blocksUpTo_map (Nat.le_of_eq (List.length_map Datum.encode).symm)

structure Block.Holds (compression : Compression) (b : Block) : Prop where
  few : b.count ≤ Reader.maxLength
  short : (compression.compress b.bytes).length ≤ Reader.maxLength
  undone : compression.decompress? (compression.compress b.bytes) = some b.bytes

variable {compression : Compression} {marker : List UInt8}

theorem nextBlock_append {b : Block} (filled : b.count ≠ 0) (h : b.Holds compression)
    (one : marker.length = markerLength) (rest : List UInt8) :
    nextBlock compression marker (encodeBlock compression marker b ++ rest) =
      .ok (some (b, rest)) := by
  have count := Varint.decode_encode (Reader.fitsSigned_of_le h.few)
  have content := Reader.counted_append h.short (marker ++ rest)
  have closing : readMarker (marker ++ rest) = .ok (marker, rest) := by
    rw [readMarker, ← one]
    exact Reader.take_append marker rest
  have above : ¬ (b.count : Int) < 0 := by omega
  simp only [Datum.counted, List.append_assoc] at content
  simp [nextBlock, encodeBlock, List.append_assoc, count, content, closing, h.undone, require,
    filled, above, countOf]

theorem readBlocks_flatMap {count : Nat} {bs : List Block}
    (h : ∀ b ∈ bs, b.count ≠ 0 ∧ b.Holds compression) (one : marker.length = markerLength)
    (enough : bs.length ≤ count) :
    readBlocks compression marker count (bs.flatMap (encodeBlock compression marker)) =
      bs.map .ok := by
  induction bs generalizing count with
  | nil => cases count <;> rfl
  | cons b rest ih =>
    obtain ⟨⟨filled, first⟩, later⟩ := List.forall_mem_cons.1 h
    cases count with
    | zero => simp at enough
    | succ count =>
      have others := ih later (by simpa using enough)
      simp [readBlocks, nextBlock_append filled first one, others]

theorem length_le_flatMap (one : marker.length = markerLength) (bs : List Block) :
    bs.length ≤ (bs.flatMap (encodeBlock compression marker)).length := by
  induction bs with
  | nil => simp
  | cons b rest ih =>
    simp only [List.flatMap_cons, List.length_append, List.length_cons, encodeBlock, one,
      markerLength]
    omega

theorem blockData_append {reader : Reader Datum} {later : List (Result Datum)}
    {data : List Datum} (h : ∀ d ∈ data, d.encode ≠ [] ∧
      ∀ rest, reader (d.encode ++ rest) = .ok (d, rest)) :
    blockData reader later data.length (data.map Datum.encode).flatten = data.map .ok ++ later := by
  induction data with
  | nil => rfl
  | cons d rest ih =>
    obtain ⟨⟨some_, read⟩, others⟩ := List.forall_mem_cons.1 h
    have taken := List.length_pos_iff.2 some_
    simp [blockData, read, taken, ih others]

theorem length_le_flatten {data : List Datum} (h : ∀ d ∈ data, d.encode ≠ []) :
    data.length ≤ (data.map Datum.encode).flatten.length := by
  induction data with
  | nil => simp
  | cons d rest ih =>
    obtain ⟨some_, others⟩ := List.forall_mem_cons.1 h
    have taken := List.length_pos_iff.2 some_
    have sizes := ih others
    simp only [List.map_cons, List.flatten_cons, List.length_append, List.length_cons]
    omega

theorem blockData_blockOf {reader : Reader Datum} {later : List (Result Datum)}
    {data : List Datum} (h : ∀ d ∈ data, d.encode ≠ [] ∧
      ∀ rest, reader (d.encode ++ rest) = .ok (d, rest)) :
    blockData reader later (min (blockOf data).count ((blockOf data).bytes.length + 1))
      (blockOf data).bytes = data.map .ok ++ later := by
  have count : min data.length ((data.map Datum.encode).flatten.length + 1) = data.length :=
    Nat.min_eq_left (Nat.le_succ_of_le (length_le_flatten fun d hd => (h d hd).1))
  simp only [blockOf, count]
  exact blockData_append h

theorem dataOf_blocks {reader : Reader Datum} {groups : List (List Datum)}
    (h : ∀ d ∈ groups.flatten, d.encode ≠ [] ∧
      ∀ rest, reader (d.encode ++ rest) = .ok (d, rest)) :
    dataOf reader ((groups.map blockOf).map .ok) = groups.flatten.map .ok := by
  induction groups with
  | nil => rfl
  | cons group rest ih =>
    have later := ih fun d hd => h d (List.mem_append_right _ hd)
    rw [List.map_cons, List.map_cons, dataOf, later,
      blockData_blockOf fun d hd => h d (List.mem_append_left _ hd)]
    simp

theorem error_mem_blockData {reader : Reader Datum} {later : List (Result Datum)}
    {data : List Datum} {count : Nat}
    (reads : ∀ d ∈ data, ∀ rest, reader (d.encode ++ rest) = .ok (d, rest))
    (enough : min data.length ((data.map Datum.encode).flatten.length + 1) ≤ count)
    (bare : ∃ d ∈ data, d.encode = []) :
    ∃ e, .error e ∈ blockData reader later count (data.map Datum.encode).flatten := by
  induction data generalizing count with
  | nil => simp at bare
  | cons d rest ih =>
    obtain ⟨own, others⟩ := List.forall_mem_cons.1 reads
    simp only [List.map_cons, List.flatten_cons, List.length_cons, List.length_append] at enough
    obtain ⟨count, rfl⟩ : ∃ n, count = n + 1 := Nat.exists_eq_add_one_of_ne_zero (by omega)
    simp only [List.map_cons, List.flatten_cons, blockData, own]
    by_cases taken : d.encode = []
    · exact ⟨.avro, by simp [taken]⟩
    · have positive := List.length_pos_iff.2 taken
      have fewer : min rest.length ((rest.map Datum.encode).flatten.length + 1) ≤ count := by
        omega
      obtain ⟨e, mem⟩ := ih others fewer (by simpa [taken] using bare)
      exact ⟨e, by simp [positive, mem]⟩

theorem error_mem_dataOf {reader : Reader Datum} {groups : List (List Datum)}
    (reads : ∀ d ∈ groups.flatten, ∀ rest, reader (d.encode ++ rest) = .ok (d, rest))
    (bare : ∃ d ∈ groups.flatten, d.encode = []) :
    ∃ e, .error e ∈ dataOf reader ((groups.map blockOf).map .ok) := by
  induction groups with
  | nil => simp at bare
  | cons group rest ih =>
    have own : ∀ d ∈ group, ∀ rest, reader (d.encode ++ rest) = .ok (d, rest) :=
      fun d hd => reads d (List.mem_append_left _ hd)
    rw [List.map_cons, List.map_cons, dataOf]
    by_cases here : ∃ d ∈ group, d.encode = []
    · exact error_mem_blockData own (Nat.le_refl _) here
    · have taken : ∀ d ∈ group, d.encode ≠ [] := fun d hd none_ => here ⟨d, hd, none_⟩
      have bareRest : ∃ d ∈ rest.flatten, d.encode = [] := by
        obtain ⟨d, hd, none_⟩ := bare
        rcases List.mem_append.1 hd with hd | hd
        · exact absurd none_ (taken d hd)
        · exact ⟨d, hd, none_⟩
      obtain ⟨e, mem⟩ := ih (fun d hd => reads d (List.mem_append_right _ hd)) bareRest
      rw [blockData_blockOf fun d hd => ⟨taken d hd, own d hd⟩]
      exact ⟨e, List.mem_append_right _ mem⟩

theorem data_flatMap {h : Header} {data : List Datum} (one : h.marker.length = markerLength)
    (holds : ∀ b ∈ blocksOf (data.map Datum.encode), b.Holds h.compression) :
    ∃ groups : List (List Datum), groups.flatten = data ∧
      Container.data h ((blocksOf (data.map Datum.encode)).flatMap
        (encodeBlock h.compression h.marker)) =
          dataOf (datumReader h.type) ((groups.map blockOf).map .ok) := by
  obtain ⟨groups, distributed, flat, filled⟩ := blocksOf_map data
  have sound : ∀ b ∈ groups.map blockOf, b.count ≠ 0 ∧ b.Holds h.compression := by
    intro b hb
    obtain ⟨group, mem, rfl⟩ := List.mem_map.1 hb
    exact ⟨by simpa [blockOf] using filled group mem, holds _ (distributed ▸ hb)⟩
  refine ⟨groups, flat, ?_⟩
  rw [distributed, Container.data, blocks, readBlocks_flatMap sound one (length_le_flatMap one _)]

/-! Containers as a whole. -/

theorem datumReader_append {type : WireType} {defs : WireType.Definitions} {d : Datum}
    (known : type.definitions = .ok defs)
    (h : ∀ depth, Reader.Reads (Reader.behind defs depth) "" type d) (rest : List UInt8) :
    datumReader type (d.encode ++ rest) = .ok (d, rest) := by
  simp [datumReader, known, Reader.ofType, h _ rest]

/-- What is relied on for some data of a type: the header is read as it was written, the data go
with the type and into blocks, and each of them is read from the bytes that stand for it. -/
structure Stores (type : WireType) (compression : Compression) (metadata : Metadata)
    (data : List Datum) : Prop where
  separate : Separate metadata
  header : Holds (metadataFor type compression metadata)
  parsed : Json.parse type.toJson.compact = some type.toJson
  accepted : WireType.ofJson type.toJson = .ok type
  admitted : ∃ defs, type.definitions = .ok defs ∧ ∀ d ∈ data, type.conforms defs "" d = true
  small : ∀ b ∈ blocksOf (data.map Datum.encode), b.Holds compression
  reads : ∀ d ∈ data, ∀ rest, datumReader type (d.encode ++ rest) = .ok (d, rest)

/-- The header comes back, and so do the data if each of them takes a byte. -/
theorem Stores.returned {type : WireType} {metadata : Metadata} {data : List Datum}
    (h : Stores type compression metadata data) (some_ : data ≠ []) :
    ∃ header rest, readHeader (write type compression metadata data) = .ok (header, rest) ∧
      header.metadata = metadata ∧
      ((∀ d ∈ data, d.encode ≠ []) → Container.data header rest = data.map .ok) ∧
      ((∃ d ∈ data, d.encode = []) → ∃ e, .error e ∈ Container.data header rest) := by
  have present : data.isEmpty = false := by simpa using some_
  let opening := magic ++ encodeMetadata (metadataFor type compression metadata)
  let header : Header := ⟨type, compression, metadata, markerFor opening⟩
  have one : header.marker.length = markerLength := length_markerFor opening
  let body := (blocksOf (data.map Datum.encode)).flatMap (encodeBlock compression header.marker)
  obtain ⟨groups, flat, read⟩ := data_flatMap one h.small
  refine ⟨header, body, ?_, rfl, fun taken => ?_, fun bare => ?_⟩
  · rw [write, present]
    exact readHeader_append h.separate h.header h.parsed h.accepted one body
  · rw [read, ← flat]
    exact dataOf_blocks fun d hd => ⟨taken d (flat ▸ hd), h.reads d (flat ▸ hd)⟩
  · rw [read]
    exact error_mem_dataOf (fun d hd => h.reads d (flat ▸ hd)) (flat ▸ bare)

/-- What a container is relied on for: the data go with its type, and reading gives back in
order what was written, together with the metadata of users. -/
structure Keeps (type : WireType) (compression : Compression) (metadata : Metadata)
    (data : List Datum) : Prop where
  admitted : ∃ defs, type.definitions = .ok defs ∧ ∀ d ∈ data, type.conforms defs "" d = true
  returned : ∃ header rest, readHeader (write type compression metadata data) = .ok (header, rest) ∧
    header.metadata = metadata ∧ Container.data header rest = data.map .ok

theorem Stores.keeps {type : WireType} {metadata : Metadata} {data : List Datum}
    (h : Stores type compression metadata data) (some_ : data ≠ [])
    (taken : ∀ d ∈ data, d.encode ≠ []) : Keeps type compression metadata data := by
  obtain ⟨header, rest, opened, kept, content, -⟩ := h.returned some_
  exact ⟨h.admitted, header, rest, opened, kept, content taken⟩

end Container
end TypedRecords.Avro
