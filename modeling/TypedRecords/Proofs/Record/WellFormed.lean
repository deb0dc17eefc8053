import TypedRecords.Proofs.Assoc
import TypedRecords.Proofs.Equality
import TypedRecords.Proofs.Instant
import TypedRecords.Proofs.Result
import TypedRecords.Proofs.Schema.WellFormed
import TypedRecords.Record.Datum
import TypedRecords.Proofs.Schema.Lookup

/-! Well-formed values.
Writing checks that a value fits its place. So the values of a record fit its entries, and
those of the records inside it fit theirs, whether they were written, read from a document
or a container, or are the defaults that the entries declare. -/
namespace TypedRecords

open Result

namespace Schema

theorem eq_scalar_of_kind {s : Schema} {k : ScalarKind} (h : s.kind = .scalar k) :
    s = .scalar k := by
  cases s <;> simp_all [kind]

theorem eq_array_of_element? {s element : Schema} (h : s.element? = some element) :
    s = .array element s.elementNullable s.props := by
  cases s <;> simp_all [element?, elementNullable, props]

end Schema

namespace Value

mutual
/-- Whether a value fits a place of the given type. A record fits if it was made for an equal
schema. -/
def Fits (s : Schema) (nullable : Bool) : Value → Prop
  | .null => nullable = true
  | .record ⟨own, _⟩ => s.kind = .record ∧ (own == s) = true
  | .array items => ∃ element, s.element? = some element ∧ AllFit element s.elementNullable items
  | .string _ => s.kind = .scalar .string
  | .int _ => s.kind = .scalar .int
  | .long _ => s.kind = .scalar .long
  | .float _ => s.kind = .scalar .float
  | .double _ => s.kind = .scalar .double
  | .boolean _ => s.kind = .scalar .boolean
  | .bytes _ => s.kind = .scalar .bytes
  | .datetime _ => s.kind = .scalar .datetime

def AllFit (element : Schema) (nullable : Bool) : List Value → Prop
  | [] => True
  | v :: rest => Fits element nullable v ∧ AllFit element nullable rest
end

def FitEntries : List Entry → List Value → Prop
  | [], [] => True
  | e :: entries, v :: values => v.Fits e.schema e.nullable ∧ FitEntries entries values
  | _, _ => False

theorem allFit_iff {element : Schema} {nullable : Bool} {items : List Value} :
    AllFit element nullable items ↔ ∀ v ∈ items, v.Fits element nullable := by
  induction items with
  | nil => simp [AllFit]
  | cons v rest ih => rw [AllFit, ih, List.forall_mem_cons]

theorem element?_eq_some {s element : Schema} (h : s.element? = some element) :
    s.kind = .array := by
  cases s <;> simp_all [Schema.element?, Schema.kind]

mutual
/-- The check of a value asks whether it fits, whatever its place is called. -/
theorem validate_eq_ok_iff {s : Schema} {nullable : Bool} {name : String} (v : Value) :
    v.validate s nullable name = .ok () ↔ v.Fits s nullable := by
  match v with
  | .null => cases nullable <;> simp [validate, checkKind, kind?, Fits]
  | .record ⟨own, values⟩ =>
    by_cases kind : s.kind = .record
    · by_cases same : (own == s) = true <;> simp [validate, checkKind, kind, same, Fits]
    · simp [validate, checkKind, kind, Ne.symm kind, Fits]
  | .array items =>
    by_cases kind : s.kind = .array
    · cases given : s.element? with
      | none => simp [validate, checkKind, kind, given, Fits]
      | some element =>
        simp [validate, checkKind, kind, given, Fits, validateItems_eq_ok_iff items]
    · have none_ : s.element? = none := by
        cases given : s.element? with
        | none => rfl
        | some element => exact absurd (element?_eq_some given) kind
      simp [validate, checkKind, Ne.symm kind, none_, Fits]
  | .string _ | .int _ | .long _ | .float _ | .double _ | .boolean _ | .bytes _
  | .datetime _ => simp [validate, checkKind, kind?, Fits, eq_comm]

theorem validateItems_eq_ok_iff {element : Schema} {nullable : Bool} {name : String}
    {index : Nat} (items : List Value) :
    validateItems element nullable name index items = .ok () ↔ AllFit element nullable items := by
  match items with
  | [] => simp [validateItems, AllFit]
  | v :: rest =>
    rw [validateItems, then_eq_ok, AllFit, validate_eq_ok_iff v, validateItems_eq_ok_iff rest]
end

mutual
theorem Fits.of_plain {s t : Schema} {nullable : Bool} (same : t.plain = s.plain) (v : Value)
    (h : v.Fits s nullable) : v.Fits t nullable := by
  have kind : t.kind = s.kind := Schema.kind_of_plain same
  match v with
  | .null => exact h
  | .record ⟨own, _⟩ =>
    have equal := Schema.eq_iff_plain.1 h.2
    exact ⟨kind.trans h.1, Schema.eq_iff_plain.2 (equal.trans same.symm)⟩
  | .array items =>
    obtain ⟨element, inner, fit⟩ := h
    obtain ⟨element', inner', sameElement, sameNullable⟩ := Schema.element_of_plain same inner
    exact ⟨element', inner', sameNullable ▸ AllFit.of_plain sameElement items fit⟩
  | .string _ | .int _ | .long _ | .float _ | .double _ | .boolean _ | .bytes _
  | .datetime _ => exact kind.trans h

theorem AllFit.of_plain {s t : Schema} {nullable : Bool} (same : t.plain = s.plain)
    (items : List Value) (h : AllFit s nullable items) : AllFit t nullable items := by
  match items with
  | [] => trivial
  | v :: rest => exact ⟨Fits.of_plain same v h.1, AllFit.of_plain same rest h.2⟩
end

mutual
/-- Everything inside a value is as it was checked to be: instants are kept, and records have
values that fit their entries. -/
def WellFormed : Value → Prop
  | .datetime t => t.Kept
  | .record ⟨s, values⟩ =>
    s.WellFormed ∧ s.kind = .record ∧ FitEntries s.entries values ∧ AllWellFormed values
  | .array items => AllWellFormed items
  | _ => True

def AllWellFormed : List Value → Prop
  | [] => True
  | v :: rest => WellFormed v ∧ AllWellFormed rest
end

theorem allWellFormed_iff {values : List Value} :
    AllWellFormed values ↔ ∀ v ∈ values, v.WellFormed := by
  induction values with
  | nil => simp [AllWellFormed]
  | cons v rest ih => simp [AllWellFormed, ih]

end Value

namespace Record

def WellFormed (r : Record) : Prop := (Value.record r).WellFormed

theorem wellFormed_iff {r : Record} : r.WellFormed ↔ r.schema.WellFormed ∧
    r.schema.kind = .record ∧ Value.FitEntries r.schema.entries r.values ∧
    ∀ v ∈ r.values, v.WellFormed := by
  obtain ⟨s, values⟩ := r
  simp [WellFormed, Value.WellFormed, Value.allWellFormed_iff]

end Record

/-! Values on their way into a record. -/

/-- A reader that gives well-formed values only. -/
def Converter.Keeps (convert : Converter) : Prop :=
  ∀ name j v, convert name j = .ok v → v.WellFormed

namespace Written

/-- What was written is well-formed and fits the entries that it was written to. -/
structure Fits (written : Written) (entries : List Entry) : Prop where
  sound : ∀ p ∈ written, p.2.WellFormed
  fits : ∀ e ∈ entries, ∀ v, Assoc.find? e.name written = some v → v.Fits e.schema e.nullable

theorem fits_nil (entries : List Entry) : Fits [] entries := by
  constructor <;> simp [Assoc.find?]

theorem eq_of_name_eq {entries : List Entry} (distinct : (entries.map Entry.name).Nodup)
    {a b : Entry} (ha : a ∈ entries) (hb : b ∈ entries) (same : a.name = b.name) : a = b := by
  obtain ⟨i, here⟩ := List.mem_iff_getElem?.1 ha
  obtain ⟨j, there⟩ := List.mem_iff_getElem?.1 hb
  obtain rfl := Schema.place_eq_of_name_eq distinct here there same
  exact Option.some.inj (here.symm.trans there)

theorem write_eq_ok_iff {written written' : Written} {e : Entry} {v : Value} :
    written.write e v = .ok written' ↔
      v.Fits e.schema e.nullable ∧ Assoc.insert e.name v written = written' := by
  rw [write, then_eq_ok, Value.validate_eq_ok_iff v]
  simp

theorem Fits.write {written written' : Written} {entries : List Entry} {e : Entry} {v : Value}
    (h : written.Fits entries) (distinct : (entries.map Entry.name).Nodup) (mem : e ∈ entries)
    (own : v.WellFormed) (run : written.write e v = .ok written') : written'.Fits entries := by
  obtain ⟨fits, rfl⟩ := write_eq_ok_iff.1 run
  refine ⟨fun p hp => ?_, fun f hf w found => ?_⟩
  · rcases Assoc.mem_insert hp with rfl | old
    · exact own
    · exact h.sound p old
  · rw [Assoc.find?_insert] at found
    split at found
    · rename_i same
      cases found
      exact eq_of_name_eq distinct mem hf same ▸ fits
    · exact h.fits f hf w found

theorem fallback_spec {e : Entry} {convert : Converter} {v : Value} (keeps : convert.Keeps)
    (run : fallback e convert = .ok v) : v.WellFormed ∧ v.Fits e.schema false := by
  unfold fallback at run
  split at run
  · cases run
  · obtain ⟨w, read, run⟩ := bind_eq_ok.1 run
    obtain ⟨checked, same⟩ := then_eq_ok.1 run
    cases same
    exact ⟨keeps _ _ _ read, (Value.validate_eq_ok_iff v).1 checked⟩

theorem fill_spec {written : Written} {entries : List Entry} {converters : List Converter}
    {values : List Value} (h : written.Fits entries)
    (one : converters.length = entries.length) (keeps : ∀ c ∈ converters, c.Keeps)
    (run : written.fill entries converters = .ok values) :
    Value.FitEntries entries values ∧ ∀ v ∈ values, v.WellFormed := by
  induction entries generalizing converters values with
  | nil =>
    cases run
    simp [Value.FitEntries]
  | cons e rest ih =>
    cases converters with
    | nil => simp at one
    | cons convert others =>
      have later : written.Fits rest := ⟨h.sound, fun f hf => h.fits f (List.mem_cons_of_mem _ hf)⟩
      have sameLength : others.length = rest.length := by simpa using one
      have spec (v : Value) (own : v.WellFormed) (fits : v.Fits e.schema e.nullable)
          (tail : written.fill rest others >>= (fun vs => Except.ok (v :: vs)) = .ok values) :
          Value.FitEntries (e :: rest) values ∧ ∀ v ∈ values, v.WellFormed := by
        obtain ⟨vs, filled, same⟩ := bind_eq_ok.1 tail
        cases same
        obtain ⟨restFit, restSound⟩ := ih later sameLength
          (fun c hc => keeps c (List.mem_cons_of_mem _ hc)) filled
        exact ⟨⟨fits, restFit⟩, List.forall_mem_cons.2 ⟨own, restSound⟩⟩
      rw [fill] at run
      cases found : Assoc.find? e.name written with
      | some v =>
        simp only [found] at run
        exact spec v (h.sound _ (Assoc.mem_of_find? found))
          (h.fits e List.mem_cons_self v found) run
      | none =>
        simp only [found] at run
        by_cases nullable : e.nullable = true
        · rw [if_pos nullable] at run
          exact spec .null trivial nullable run
        · rw [if_neg nullable] at run
          obtain ⟨v, default, run⟩ := bind_eq_ok.1 run
          obtain ⟨own, fits⟩ := fallback_spec (keeps convert List.mem_cons_self) default
          have required : e.nullable = false := by simpa using nullable
          exact spec v own (required ▸ fits) run

end Written

/-! Values read from documents. -/

namespace Schema

theorem mem_of_entry? {s : Schema} {name : String} {e : Entry} (h : s.entry? name = some e) :
    e ∈ s.entries := by
  obtain ⟨i, -, here⟩ := Option.bind_eq_some_iff.1 h
  exact List.mem_of_getElem? here

theorem length_converters (entries : List Entry) :
    (converters entries).length = entries.length := by
  induction entries with
  | nil => rfl
  | cons e rest ih =>
    obtain ⟨⟩ := e
    simp [converters, ih]

theorem keeps_unlessNull {convert : Converter} (h : convert.Keeps) :
    (unlessNull convert).Keeps := by
  intro name j v run
  unfold unlessNull at run
  split at run
  · cases run
    trivial
  · exact h name j v run

theorem wellFormed_scalarOfJson? {j : Json} {k : ScalarKind} {v : Value}
    (h : scalarOfJson? j k = some v) : v.WellFormed := by
  cases k with
  | datetime =>
    obtain ⟨t, read, rfl⟩ := Option.map_eq_some_iff.1 h
    have kept : t.Kept := by
      unfold instantOfJson? at read
      split at read
      · exact Instant.kept_of_ofText? read
      · obtain ⟨ms, -, range⟩ := Option.bind_eq_some_iff.1 read
        exact Instant.kept_of_ofMillis? range
    exact kept
  | _ =>
    obtain ⟨_, _, rfl⟩ := Option.map_eq_some_iff.1 h
    trivial

theorem writeFields_cons_eq_ok {s : Schema} {converters : List Converter}
    {written written' : Written} {key : String} {j : Json} {rest : List (String × Json)}
    (run : s.writeFields converters written ((key, j) :: rest) = .ok written') :
    ∃ i e convert v next, s.entryIndex? key = some i ∧ s.entries[i]? = some e ∧
      converters[i]? = some convert ∧ convert e.name j = .ok v ∧ written.write e v = .ok next ∧
      s.writeFields converters next rest = .ok written' := by
  rw [Schema.writeFields] at run
  split at run
  · cases run
  · rename_i i found
    split at run
    · rename_i e convert here own
      obtain ⟨v, read, run⟩ := bind_eq_ok.1 run
      obtain ⟨next, wrote, run⟩ := bind_eq_ok.1 run
      exact ⟨i, e, convert, v, next, found, here, own, read, wrote, run⟩
    · cases run

section

variable {s : Schema} (h : s.WellFormed) {converters : List Converter}
  (keeps : ∀ c ∈ converters, c.Keeps)
include h keeps

theorem WellFormed.writeFields {written written' : Written} {fields : List (String × Json)}
    (fits : written.Fits s.entries) (run : s.writeFields converters written fields = .ok written') :
    written'.Fits s.entries := by
  induction fields generalizing written with
  | nil =>
    cases run
    exact fits
  | cons field rest ih =>
    obtain ⟨i, e, convert, v, next, -, at_e, at_convert, read, wrote, run⟩ :=
      writeFields_cons_eq_ok run
    have own := keeps convert (List.mem_of_getElem? at_convert) _ _ _ read
    exact ih (fits.write h.distinct (List.mem_of_getElem? at_e) own wrote) run

theorem WellFormed.readRecord (one : converters.length = s.entries.length) {j : Json}
    {r : Record} (run : s.readRecord converters j = .ok r) : r.WellFormed := by
  unfold Schema.readRecord at run
  split at run
  · cases run
  · split at run
    · rename_i fields _ kind
      obtain ⟨written, wrote, run⟩ := bind_eq_ok.1 run
      obtain ⟨values, filled, same⟩ := bind_eq_ok.1 run
      cases same
      have fits := h.writeFields keeps (Written.fits_nil _) wrote
      obtain ⟨fit, sound⟩ := Written.fill_spec fits one keeps filled
      exact ⟨h, kind, fit, Value.allWellFormed_iff.2 sound⟩
    · cases run

end

theorem keeps_readItems {convert : Converter} (h : convert.Keeps) {name : String} {index : Nat}
    {items : List Json} {values : List Value}
    (run : readItems convert name index items = .ok values) : ∀ v ∈ values, v.WellFormed := by
  induction items generalizing index values with
  | nil =>
    cases run
    simp
  | cons j rest ih =>
    obtain ⟨v, read, run⟩ := bind_eq_ok.1 run
    obtain ⟨others, later, same⟩ := bind_eq_ok.1 run
    cases same
    exact List.forall_mem_cons.2 ⟨h _ _ _ read, ih later⟩

mutual
theorem keeps_converter (s : Schema) (h : s.WellFormed) : s.converter.Keeps := by
  match s with
  | .scalar k =>
    rw [converter]
    refine keeps_unlessNull fun name j v run => ?_
    split at run
    · rename_i read
      cases run
      exact wellFormed_scalarOfJson? read
    · cases run
  | .emptyRecord =>
    rw [converter]
    refine keeps_unlessNull fun name j v run => ?_
    obtain ⟨r, read, same⟩ := bind_eq_ok.1 run
    cases same
    exact h.readRecord (by simp) rfl read
  | .record name entries props =>
    rw [converter]
    refine keeps_unlessNull fun name j v run => ?_
    obtain ⟨r, read, same⟩ := bind_eq_ok.1 run
    cases same
    exact h.readRecord (keeps_converters entries (wellFormed_record.1 h).2)
      (length_converters entries) read
  | .array element nullable props =>
    rw [converter]
    refine keeps_unlessNull fun name j v run => ?_
    split at run
    · cases run
    · obtain ⟨items, read, same⟩ := bind_eq_ok.1 run
      cases same
      exact Value.allWellFormed_iff.2
        (keeps_readItems (keeps_converter element (wellFormed_array.1 h)) read)

theorem keeps_converters (entries : List Entry) (h : ∀ e ∈ entries, e.schema.WellFormed) :
    ∀ c ∈ converters entries, c.Keeps := by
  match entries with
  | [] => simp [converters]
  | ⟨_, _, schema, _, _, _, _, _⟩ :: rest =>
    obtain ⟨first, others⟩ := List.forall_mem_cons.1 h
    rw [converters]
    exact List.forall_mem_cons.2 ⟨keeps_converter schema first, keeps_converters rest others⟩
end

theorem WellFormed.keeps_converters {s : Schema} (h : s.WellFormed) :
    ∀ c ∈ converters s.entries, c.Keeps :=
  Schema.keeps_converters s.entries fun _ he => h.entry he

end Schema

theorem Record.wellFormed_ofJson {s : Schema} {j : Json} {r : Record} (h : s.WellFormed)
    (run : Record.ofJson s j = .ok r) : r.WellFormed :=
  h.readRecord h.keeps_converters (Schema.length_converters _) run

/-! Values read from containers. -/

namespace Value

open Avro

theorem wellFormed_scalarOfDatum {s : Schema} {name : String} {d : Datum} {v : Value}
    (run : scalarOfDatum s name d = .ok v) : v.WellFormed := by
  unfold scalarOfDatum at run
  split at run
  · split at run
    · cases run
    · split at run
      · rename_i t range
        cases run
        exact Instant.kept_of_ofMillis? range
      · cases run
  · rename_i k _
    split at run
    · rename_i w read
      cases run
      unfold scalarOfDatum? at read
      split at read <;> cases read <;> trivial
    · cases run
  · cases run

theorem wellFormed_complete {s : Schema} {written : Written} {r : Record} (h : s.WellFormed)
    (kind : s.kind = .record) (fits : written.Fits s.entries)
    (run : complete s written = .ok r) : r.WellFormed := by
  obtain ⟨values, filled, same⟩ := bind_eq_ok.1 run
  cases same
  obtain ⟨fit, sound⟩ := Written.fill_spec fits (Schema.length_converters _)
    h.keeps_converters filled
  exact ⟨h, kind, fit, allWellFormed_iff.2 sound⟩

mutual
theorem wellFormed_ofDatum {s : Schema} (h : s.WellFormed) {name : String} {outer : Bool}
    (d : Datum) {v : Value} (run : ofDatum s name outer d = .ok v) : v.WellFormed := by
  match d with
  | .null =>
    cases run
    trivial
  | .union index d =>
    cases outer with
    | false => cases run
    | true => exact wellFormed_ofDatum h d run
  | .record fields =>
    rw [ofDatum] at run
    split at run
    · rename_i kind
      obtain ⟨written, wrote, run⟩ := bind_eq_ok.1 run
      obtain ⟨r, done, same⟩ := bind_eq_ok.1 run
      cases same
      exact wellFormed_complete h kind
        (wellFormed_writeData h (Written.fits_nil _) fields wrote) done
    · cases run
  | .array items =>
    rw [ofDatum] at run
    split at run
    · rename_i element inner
      obtain ⟨values, read, same⟩ := bind_eq_ok.1 run
      cases same
      exact allWellFormed_iff.2 (wellFormed_itemsOfDatum (h.element inner) items read)
    · cases run
  | .boolean _ | .int _ | .long _ | .float _ | .double _ | .bytes _ | .string _ | .temporal ..
  | .uuid _ | .decimal _ | .duration .. | .fixed _ | .enum .. | .map _ =>
    exact wellFormed_scalarOfDatum run

theorem wellFormed_itemsOfDatum {element : Schema} (h : element.WellFormed) {name : String}
    {index : Nat} (items : List Datum) {values : List Value}
    (run : itemsOfDatum element name index items = .ok values) : ∀ v ∈ values, v.WellFormed := by
  match items with
  | [] =>
    cases run
    simp
  | d :: rest =>
    obtain ⟨v, first, run⟩ := bind_eq_ok.1 run
    obtain ⟨others, later, same⟩ := bind_eq_ok.1 run
    cases same
    exact List.forall_mem_cons.2 ⟨wellFormed_ofDatum h d first, wellFormed_itemsOfDatum h rest later⟩

theorem wellFormed_writeData {s : Schema} (h : s.WellFormed) {written written' : Written}
    (fits : written.Fits s.entries) (fields : List (String × Datum))
    (run : writeData s written fields = .ok written') : written'.Fits s.entries := by
  match fields with
  | [] =>
    cases run
    exact fits
  | (key, d) :: rest =>
    rw [writeData] at run
    split at run
    · cases run
    · rename_i e known
      obtain ⟨v, read, run⟩ := bind_eq_ok.1 run
      obtain ⟨next, wrote, run⟩ := bind_eq_ok.1 run
      have mem := Schema.mem_of_entry? known
      have own := wellFormed_ofDatum (h.entry mem) d read
      exact wellFormed_writeData h (fits.write h.distinct mem own wrote) rest run
end

end Value

theorem Record.wellFormed_ofDatum {s : Schema} {d : Avro.Datum} {r : Record} (h : s.WellFormed)
    (kind : s.kind = .record) (run : Record.ofDatum s d = .ok r) : r.WellFormed := by
  unfold Record.ofDatum at run
  split at run
  · obtain ⟨written, wrote, done⟩ := bind_eq_ok.1 run
    exact Value.wellFormed_complete h kind
      (Value.wellFormed_writeData h (Written.fits_nil _) _ wrote) done
  · cases run

end TypedRecords
