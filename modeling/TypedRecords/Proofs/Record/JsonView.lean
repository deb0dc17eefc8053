import TypedRecords.Proofs.InstantText
import TypedRecords.Proofs.Record.Conformance
import TypedRecords.Proofs.Record.Datum
import TypedRecords.Proofs.Rounding

/-! Records survive their view.
A view does not say of which type it is, but it is read by the schema that the record was made
for. The keys of an object are the names of the entries, so every value reaches its own entry, in
whatever order the keys come. -/
namespace TypedRecords

open Result

namespace Value

mutual
/-- A view shows the value in full: its floating point numbers are finite, and its instants have
whole milliseconds, no leap second and years of four digits. -/
def Shown : Value → Prop
  | .float x => x.isFinite = true
  | .double x => x.isFinite = true
  | .datetime t => t.Whole
  | .record ⟨_, values⟩ => AllShown values
  | .array items => AllShown items
  | _ => True

def AllShown : List Value → Prop
  | [] => True
  | v :: rest => Shown v ∧ AllShown rest
end

/-! Values that are the same bit by bit are equal, if none of them is no number. -/

theorem eq_of_identical {v v' : Value} (scalar : v.kind? ≠ some .record ∧ v.kind? ≠ some .array)
    (same : v'.identical v = true) : v' = v := by
  cases v with
  | record r => exact (scalar.1 rfl).elim
  | array items => exact (scalar.2 rfl).elim
  | _ =>
    cases v' with
    | record r =>
      obtain ⟨s, values⟩ := r
      simp [identical] at same
    | _ => simp_all [identical]

mutual
theorem beq_of_identical (v : Value) {v' : Value} (shown : v.Shown)
    (same : v'.identical v = true) : v'.beq v = true := by
  match v with
  | .float x =>
    obtain rfl := eq_of_identical (by simp [kind?]) same
    have number := Binary32.not_isNaN shown
    simp [beq, Binary32.numEq, number]
  | .double x =>
    obtain rfl := eq_of_identical (by simp [kind?]) same
    have number := Binary64.not_isNaN shown
    simp [beq, Binary64.numEq, number]
  | .record ⟨s, values⟩ =>
    cases v' with
    | record r =>
      obtain ⟨t, values'⟩ := r
      obtain ⟨schema, items⟩ := Bool.and_eq_true_iff.1 same
      exact Bool.and_eq_true_iff.2 ⟨schema, beqItems_of_identicalItems values shown items⟩
    | _ => simp [identical] at same
  | .array items =>
    cases v' with
    | array items' => exact beqItems_of_identicalItems items shown same
    | record r =>
      obtain ⟨s, values⟩ := r
      simp [identical] at same
    | _ => simp [identical] at same
  | .null | .string _ | .int _ | .long _ | .boolean _ | .bytes _ | .datetime _ =>
    obtain rfl := eq_of_identical (by simp [kind?]) same
    simp [beq]

theorem beqItems_of_identicalItems (items : List Value) {items' : List Value}
    (shown : AllShown items) (same : identicalItems items' items = true) :
    beqItems items' items = true := by
  match items with
  | [] => cases items' <;> simp_all [identicalItems, beqItems]
  | v :: rest =>
    cases items' with
    | nil => simp [identicalItems] at same
    | cons v' rest' =>
      obtain ⟨first, others⟩ := Bool.and_eq_true_iff.1 same
      have head := beq_of_identical v shown.1 first
      have tail := beqItems_of_identicalItems rest shown.2 others
      exact Bool.and_eq_true_iff.2 ⟨head, tail⟩
end

/-! Views of scalars. -/

theorem int32?_toInt (n : Int32) : (Json.int n.toInt).int32? = some n := by
  have within : fitsSigned 32 n.toInt = true := by
    simp only [fitsSigned, Bool.and_eq_true, decide_eq_true_eq]
    exact ⟨n.le_toInt, n.toInt_lt⟩
  simp [Json.int32?, Json.intIf?, within]

theorem int64?_toInt (n : Int64) : (Json.int n.toInt).int64? = some n := by
  have within : fitsSigned 64 n.toInt = true := by
    simp only [fitsSigned, Bool.and_eq_true, decide_eq_true_eq]
    exact ⟨n.le_toInt, n.toInt_lt⟩
  simp [Json.int64?, Json.intIf?, within]

theorem byte?_toNat (b : UInt8) : (Json.int b.toNat).byte? = some b := by
  have within : fitsUnsigned 8 b.toNat = true := by
    simp only [fitsUnsigned, Bool.and_eq_true, decide_eq_true_eq]
    exact ⟨by omega, by exact_mod_cast b.toNat_lt⟩
  simp [Json.byte?, Json.intIf?, within]

theorem bytesOfJson?_toNat (bytes : List UInt8) :
    Schema.bytesOfJson? (.arr (bytes.map fun b => .int b.toNat)) = some bytes := by
  simp only [Schema.bytesOfJson?]
  induction bytes with
  | nil => rfl
  | cons b rest ih => simp [byte?_toNat, ih]

theorem scalarOfJson?_toJson {v : Value} {k : ScalarKind} (kind : v.kind? = some (.scalar k))
    (shown : v.Shown) : Schema.scalarOfJson? v.toJson k = some v := by
  cases v with
  | null | record r | array items => simp [kind?] at kind
  | float x =>
    cases kind
    have finite := Binary32.isFinite_toBinary64 shown
    simp [toJson, floatToJson, finite, Schema.scalarOfJson?, Json.binary64?,
      Binary32.toBinary32_toBinary64 shown]
  | double x =>
    cases kind
    have finite : x.isFinite = true := shown
    simp [toJson, floatToJson, finite, Schema.scalarOfJson?, Json.binary64?]
  | datetime t =>
    cases kind
    have whole : t.Whole := shown
    simp [toJson, Schema.scalarOfJson?, Schema.instantOfJson?, whole.ofText?_text]
  | _ =>
    cases kind
    simp [toJson, Schema.scalarOfJson?, Json.str?, Json.bool?, int32?_toInt, int64?_toInt,
      bytesOfJson?_toNat]

theorem isNull_toJson {v : Value} (shown : v.Shown) : v.toJson.isNull = v.isNull := by
  cases v with
  | float x => simp [toJson, floatToJson, Binary32.isFinite_toBinary64 shown, Json.isNull, isNull]
  | double x =>
    have finite : x.isFinite = true := shown
    simp [toJson, floatToJson, finite, Json.isNull, isNull]
  | record r =>
    obtain ⟨s, values⟩ := r
    rfl
  | _ => simp [toJson, Json.isNull, isNull]

end Value

/-! Views of records. -/

/-- An entry reads a view as a value that fits it. -/
structure Entry.Reads (e : Entry) (j : Json) (v : Value) : Prop where
  read : e.schema.converter e.name j = .ok v
  fits : v.Fits e.schema e.nullable

inductive Schema.ReadAll : List Entry → List Json → List Value → Prop
  | nil : ReadAll [] [] []
  | cons {e : Entry} {j : Json} {v : Value} {entries : List Entry} {js : List Json}
      {values : List Value} (first : e.Reads j v) (rest : ReadAll entries js values) :
      ReadAll (e :: entries) (j :: js) (v :: values)

theorem Assoc.mem_keys_iff {α : Type} {key : String} {pairs : List (String × α)} :
    key ∈ pairs.map Prod.fst ↔ Assoc.find? key pairs ≠ none := by
  rw [Ne, Assoc.find?_eq_none_iff]
  simp

namespace Schema

theorem getElem?_converters (entries : List Entry) (i : Nat) :
    (converters entries)[i]? = entries[i]?.map fun e => e.schema.converter := by
  induction entries generalizing i with
  | nil => rfl
  | cons e rest ih =>
    obtain ⟨⟩ := e
    cases i with
    | zero => rfl
    | succ i => exact ih i

section

variable {entries : List Entry} {js : List Json} {values : List Value}
  (h : ReadAll entries js values)
include h

theorem ReadAll.length_eq : js.length = entries.length ∧ values.length = entries.length := by
  induction h with
  | nil => exact ⟨rfl, rfl⟩
  | cons first rest ih => exact ⟨congrArg (· + 1) ih.1, congrArg (· + 1) ih.2⟩

theorem ReadAll.exists_entry {key : String} {j : Json}
    (mem : (key, j) ∈ (entries.map Entry.name).zip js) :
    ∃ e ∈ entries, ∃ v, e.name = key ∧ e.Reads j v ∧
      (key, v) ∈ (entries.map Entry.name).zip values := by
  induction h with
  | nil => simp at mem
  | @cons e _ v _ _ _ first rest ih =>
    rw [List.map_cons, List.zip_cons_cons, List.mem_cons] at mem
    rcases mem with here | later
    · cases here
      exact ⟨e, by simp, v, rfl, first, by simp⟩
    · obtain ⟨e', inside, v', named, reads, there⟩ := ih later
      exact ⟨e', by simp [inside], v', named, reads, by simp [there]⟩

end

theorem WellFormed.exists_writeFields {s : Schema} (h : s.WellFormed)
    {table : List (String × Value)} {fields : List (String × Json)}
    (each : ∀ p ∈ fields, ∃ e ∈ s.entries, ∃ v, e.name = p.1 ∧ e.Reads p.2 v ∧
      Assoc.find? p.1 table = some v) (written : Written) :
    ∃ written', s.writeFields (converters s.entries) written fields = .ok written' ∧
      ∀ key, Assoc.find? key written' =
        if key ∈ fields.map Prod.fst then Assoc.find? key table else Assoc.find? key written := by
  induction fields generalizing written with
  | nil => exact ⟨written, rfl, by simp⟩
  | cons field rest ih =>
    obtain ⟨key, j⟩ := field
    obtain ⟨⟨e, mem, v, rfl, reads, found⟩, others⟩ := List.forall_mem_cons.1 each
    obtain ⟨i, here⟩ := List.mem_iff_getElem?.1 mem
    have index : s.entryIndex? e.name = some i := entryIndex?_of_name h.distinct here
    have convert : (converters s.entries)[i]? = some e.schema.converter := by
      rw [getElem?_converters, here, Option.map_some]
    have stored : written.write e v = .ok (Assoc.insert e.name v written) :=
      Written.write_eq_ok_iff.2 ⟨reads.fits, rfl⟩
    obtain ⟨written', wrote, all⟩ := ih others (Assoc.insert e.name v written)
    refine ⟨written', ?_, fun key => ?_⟩
    · simp [Schema.writeFields, index, here, convert, reads.read, stored, wrote]
    · rw [all, Assoc.find?_insert]
      by_cases later : key ∈ rest.map Prod.fst
      · simp [later]
      · by_cases own : e.name = key
        · subst own
          simp [later, found]
        · simp [later, own, Ne.symm own]

theorem WellFormed.readRecord_ofFields {s : Schema} (h : s.WellFormed) (kind : s.kind = .record)
    {js : List Json} {values : List Value} (each : ReadAll s.entries js values) :
    s.readRecord (converters s.entries) (Json.ofFields ((s.entries.map Entry.name).zip js)) =
      .ok ⟨s, values⟩ := by
  let names := s.entries.map Entry.name
  obtain ⟨one, two⟩ := each.length_eq
  have keys : (names.zip js).map Prod.fst = names := List.map_fst_zip (by simp [names, one])
  have keys' : (names.zip values).map Prod.fst = names := List.map_fst_zip (by simp [names, two])
  have single : ((names.zip js).map Prod.fst).Nodup := keys.symm ▸ h.distinct
  have single' : ((names.zip values).map Prod.fst).Nodup := keys'.symm ▸ h.distinct
  have fields : ∀ p ∈ Assoc.insertAll [] (names.zip js), ∃ e ∈ s.entries, ∃ v, e.name = p.1 ∧
      e.Reads p.2 v ∧ Assoc.find? p.1 (names.zip values) = some v := by
    intro p mem
    obtain ⟨e, inside, v, named, reads, there⟩ :=
      each.exists_entry ((Assoc.mem_insertAll mem).resolve_right (by simp))
    exact ⟨e, inside, v, named, reads, Assoc.find?_of_mem_of_nodup single' there⟩
  obtain ⟨written, wrote, all⟩ := h.exists_writeFields fields []
  have filled : ∀ p ∈ s.entries.zip values, Assoc.find? p.1.name written = some p.2 := by
    intro p mem
    have there : (p.1.name, p.2) ∈ names.zip values := by
      rw [show names.zip values = _ from List.zip_map_left]
      exact List.mem_map_of_mem (f := Prod.map Entry.name id) mem
    have used : p.1.name ∈ (Assoc.insertAll [] (names.zip js)).map Prod.fst := by
      rw [Assoc.mem_keys_iff, Assoc.find?_insertAll_of_nodup single, Assoc.find?, Option.or_none,
        ← Assoc.mem_keys_iff, keys]
      exact List.mem_map_of_mem (List.of_mem_zip mem).1
    rw [all, if_pos used, Assoc.find?_of_mem_of_nodup single' there]
  have run : (do
      let written ← s.writeFields (converters s.entries) [] (Assoc.insertAll [] (names.zip js))
      return ⟨s, ← written.fill s.entries (converters s.entries)⟩ : Result Record) =
        .ok ⟨s, values⟩ := by
    rw [wrote, ok_bind, Written.fill_eq_ok two (length_converters _) filled]
    rfl
  simp only [Schema.readRecord, Json.ofFields, Json.fields?, kind, if_true]
  exact run

/-! What a converter does with a view. -/

theorem converter_null (s : Schema) (name : String) : s.converter name .null = .ok .null := by
  cases s <;> (rw [converter]; rfl)

theorem converter_scalar {k : ScalarKind} {j : Json} {v : Value} (present : j.isNull = false)
    (read : scalarOfJson? j k = some v) (name : String) :
    (Schema.scalar k).converter name j = .ok v := by
  simp [converter, unlessNull, present, read]

theorem converter_ofFields {s : Schema} (kind : s.kind = .record) (name : String)
    (pairs : List (String × Json)) :
    s.converter name (Json.ofFields pairs) = (do
      return .record (← s.readRecord (converters s.entries) (Json.ofFields pairs))) := by
  cases s with
  | emptyRecord | record => rw [converter]; rfl
  | _ => simp [Schema.kind] at kind

theorem converter_arr {s element : Schema} (inner : s.element? = some element) (name : String)
    (items : List Json) :
    s.converter name (.arr items) = (do
      return .array (← readItems element.converter name 0 items)) := by
  rw [eq_array_of_element? inner, converter]
  rfl

end Schema

namespace Value

mutual
/-- A value is read back from its view by any schema that equals its own. -/
theorem converter_toJson {s s' : Schema} {nullable : Bool} (v : Value) (fits : v.Fits s nullable)
    (own : v.WellFormed) (shown : v.Shown) (h : s'.WellFormed) (same : s'.plain = s.plain)
    (name : String) :
    ∃ v', s'.converter name v.toJson = .ok v' ∧ v'.Fits s' nullable ∧ v'.identical v = true := by
  have kind : s'.kind = s.kind := Schema.kind_of_plain same
  match v with
  | .null => exact ⟨.null, s'.converter_null name, fits, rfl⟩
  | .record ⟨made, values⟩ =>
    obtain ⟨recordKind, equal⟩ := fits
    obtain ⟨-, -, fit, sound⟩ := own
    have whole : s'.plain = made.plain := same.trans (Schema.eq_iff_plain.1 equal).symm
    have entries := Schema.entries_of_plain whole
    obtain ⟨values', read, alike⟩ := readAll_itemsToJson values fit sound shown
      (fun e he => h.entry he) entries
    refine ⟨.record ⟨s', values'⟩, ?_, ⟨kind.trans recordKind, Schema.eq_self s'⟩, ?_⟩
    · rw [toJson, ← Schema.names_of_plainEntries entries,
        Schema.converter_ofFields (kind.trans recordKind),
        h.readRecord_ofFields (kind.trans recordKind) read]
      rfl
    · simp [identical, alike, Schema.eq_iff_plain.2 whole]
  | .array items =>
    obtain ⟨element, inner, fit⟩ := fits
    obtain ⟨element', inner', sameElement, sameNullable⟩ := Schema.element_of_plain same inner
    obtain ⟨items', read, fit', alike⟩ := readItems_itemsToJson items fit own shown
      (h.element inner') sameElement name 0
    refine ⟨.array items', ?_, ⟨element', inner', sameNullable ▸ fit'⟩, alike⟩
    rw [toJson, Schema.converter_arr inner', read]
    rfl
  | .string x | .int x | .long x | .float x | .double x | .boolean x | .bytes x | .datetime x =>
    obtain rfl := Schema.eq_scalar_of_kind (kind.trans fits)
    have read := Schema.converter_scalar (isNull_toJson shown) (scalarOfJson?_toJson rfl shown) name
    exact ⟨_, read, rfl, by simp [identical]⟩

theorem readAll_itemsToJson {entries entries' : List Entry} (values : List Value)
    (fit : FitEntries entries values) (own : AllWellFormed values) (shown : AllShown values)
    (sound : ∀ e ∈ entries', e.schema.WellFormed)
    (same : Schema.plainEntries entries' = Schema.plainEntries entries) :
    ∃ values', Schema.ReadAll entries' (itemsToJson values) values' ∧
      identicalItems values' values = true := by
  match entries, values with
  | [], [] =>
    obtain rfl : entries' = [] := by simpa [Schema.plainEntries_eq_map] using same
    exact ⟨[], .nil, rfl⟩
  | e :: rest, v :: values =>
    obtain ⟨e', others, rfl, -, sameSchema, sameNullable, later⟩ := Schema.plainEntries_cons same
    obtain ⟨first, soundRest⟩ := List.forall_mem_cons.1 sound
    obtain ⟨v', read, fits, alike⟩ := converter_toJson v fit.1 own.1 shown.1 first sameSchema
      e'.name
    obtain ⟨values', readRest, alikeRest⟩ := readAll_itemsToJson values fit.2 own.2 shown.2
      soundRest later
    exact ⟨v' :: values', .cons ⟨read, sameNullable ▸ fits⟩ readRest,
      by simp [identicalItems, alike, alikeRest]⟩

theorem readItems_itemsToJson {element element' : Schema} {nullable : Bool} (items : List Value)
    (fit : AllFit element nullable items) (own : AllWellFormed items) (shown : AllShown items)
    (h : element'.WellFormed) (same : element'.plain = element.plain) (name : String)
    (index : Nat) :
    ∃ items', Schema.readItems element'.converter name index (itemsToJson items) = .ok items' ∧
      AllFit element' nullable items' ∧ identicalItems items' items = true := by
  match items with
  | [] => exact ⟨[], rfl, trivial, rfl⟩
  | v :: rest =>
    obtain ⟨v', read, fits, alike⟩ := converter_toJson v fit.1 own.1 shown.1 h same
      (itemName name index)
    obtain ⟨rest', readRest, fitRest, alikeRest⟩ := readItems_itemsToJson rest fit.2 own.2 shown.2
      h same name (index + 1)
    exact ⟨v' :: rest', by simp [itemsToJson, Schema.readItems, read, readRest],
      ⟨fits, fitRest⟩, by simp [identicalItems, alike, alikeRest]⟩
end

end Value

namespace Record

def Shown (r : Record) : Prop := (Value.record r).Shown

/-- What a record is shown as in full is read back to a record that equals it. -/
theorem exists_ofJson_view {r : Record} (h : r.Obtainable) (shown : r.Shown) :
    ∃ r', Record.ofJson r.schema r.toJson = .ok r' ∧ (r' == r) = true := by
  obtain ⟨s, values⟩ := r
  obtain ⟨sound, kind, fit, own⟩ := wellFormed_iff.1 h.wellFormed
  obtain ⟨values', read, alike⟩ := Value.readAll_itemsToJson values fit
    (Value.allWellFormed_iff.2 own) shown (fun e he => sound.entry he) rfl
  refine ⟨⟨s, values'⟩, sound.readRecord_ofFields kind read, ?_⟩
  have equal := Value.beqItems_of_identicalItems values shown alike
  exact Bool.and_eq_true_iff.2 ⟨Schema.eq_self s, equal⟩

theorem shown_trip : trip.Shown := by
  have year : (Instant.ofMillis 1714979289010).year = 2024 := rfl
  have start : (Instant.ofMillis 1714979289010).Whole :=
    ⟨by decide, ⟨10, rfl⟩, by rw [year]; decide⟩
  have far : Binary64.isFinite ⟨0x4059000000000000⟩ = true := by decide
  simp only [Shown, trip, Value.Shown, Value.AllShown, and_true, true_and]
  exact ⟨start, far⟩

theorem exists_ofJson_view_trip :
    trip.Obtainable ∧ trip.Shown ∧
      ∃ r', Record.ofJson trip.schema trip.toJson = .ok r' ∧ (r' == trip) = true :=
  ⟨obtainable_trip, shown_trip, exists_ofJson_view obtainable_trip shown_trip⟩

end Record

end TypedRecords
