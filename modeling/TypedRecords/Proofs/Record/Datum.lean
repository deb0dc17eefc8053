import TypedRecords.Proofs.Record.WellFormed

/-! Reading data back into records.
What a record is written as is read back by any schema that equals its own. Fields are looked
up by the names of the entries, so every value returns to its entry and no default is used;
instants come back without what is finer than milliseconds. -/
namespace TypedRecords

open Avro Result

namespace Value

mutual
/-- A value with its instants counted anew from their whole milliseconds. -/
def cut : Value → Value
  | .datetime t => .datetime (.ofMillis t.millis)
  | .record ⟨s, values⟩ => .record ⟨s, cutAll values⟩
  | .array items => .array (cutAll items)
  | .null => .null
  | .string s => .string s
  | .int n => .int n
  | .long n => .long n
  | .float x => .float x
  | .double x => .double x
  | .boolean b => .boolean b
  | .bytes bs => .bytes bs

def cutAll : List Value → List Value
  | [] => []
  | v :: rest => cut v :: cutAll rest
end

mutual
/-- Equality of values in which floating point numbers are compared by their bits. -/
def identical : Value → Value → Bool
  | .null, .null => true
  | .string a, .string b => a == b
  | .int a, .int b => a == b
  | .long a, .long b => a == b
  | .float a, .float b => a == b
  | .double a, .double b => a == b
  | .boolean a, .boolean b => a == b
  | .bytes a, .bytes b => a == b
  | .datetime a, .datetime b => a == b
  | .record ⟨s, as⟩, .record ⟨t, bs⟩ => s == t && identicalItems as bs
  | .array as, .array bs => identicalItems as bs
  | _, _ => false

def identicalItems : List Value → List Value → Bool
  | [], [] => true
  | a :: as, b :: bs => identical a b && identicalItems as bs
  | _, _ => false
end

end Value

namespace Record

def cut (r : Record) : Record := ⟨r.schema, Value.cutAll r.values⟩

def identical (a b : Record) : Bool :=
  a.schema == b.schema && Value.identicalItems a.values b.values

end Record

namespace Schema

theorem WellFormed.entry?_name {s : Schema} (h : s.WellFormed) {e : Entry} (mem : e ∈ s.entries) :
    s.entry? e.name = some e := by
  obtain ⟨i, here⟩ := List.mem_iff_getElem?.1 mem
  exact entry?_of_entryIndex? (entryIndex?_of_name h.distinct here) here

end Schema

namespace Written

theorem fill_eq_ok {written : Written} {entries : List Entry} {values : List Value}
    {converters : List Converter} (one : values.length = entries.length)
    (each : converters.length = entries.length)
    (wrote : ∀ p ∈ entries.zip values, Assoc.find? p.1.name written = some p.2) :
    written.fill entries converters = .ok values := by
  induction entries generalizing values converters with
  | nil =>
    obtain rfl : values = [] := by simpa using one
    cases converters <;> rfl
  | cons e rest ih =>
    cases values with
    | nil => simp at one
    | cons v values =>
      cases converters with
      | nil => simp at each
      | cons convert converters =>
        have here := wrote (e, v) (by simp)
        have later := ih (by simpa using one) (by simpa using each)
          fun p hp => wrote p (by simp [hp])
        simp only [fill, here, pure_eq_ok, ok_bind, later]

end Written

namespace Value

theorem ofDatum_branchIf {s : Schema} {name : String} {nullable : Bool} {d : Datum}
    (bare : ∀ i e, d ≠ .union i e) :
    ofDatum s name true (branchIf nullable d) = ofDatum s name false d := by
  cases nullable with
  | true => simp [branchIf, ofDatum]
  | false => cases d <;> simp_all [branchIf, ofDatum]

theorem complete_eq_ok {s : Schema} {values : List Value} (h : s.WellFormed)
    (one : values.length = s.entries.length) :
    complete s (Assoc.insertAll [] ((s.entries.map Entry.name).zip values)) =
      .ok ⟨s, values⟩ := by
  let pairs := (s.entries.map Entry.name).zip values
  have keys : pairs.map Prod.fst = s.entries.map Entry.name :=
    List.map_fst_zip (by simp [one])
  have single : (pairs.map Prod.fst).Nodup := keys ▸ h.distinct
  have wrote : ∀ p ∈ s.entries.zip values,
      Assoc.find? p.1.name (Assoc.insertAll [] pairs) = some p.2 := by
    intro p hp
    have mem : (p.1.name, p.2) ∈ pairs := by
      have zipped : pairs = (s.entries.zip values).map fun q => (q.1.name, q.2) := by
        simp [pairs, List.zip_map_left, Prod.map]
      rw [zipped]
      exact List.mem_map_of_mem hp
    rw [Assoc.find?_insertAll_of_nodup single, Assoc.find?_of_mem_of_nodup single mem]
    rfl
  simp only [complete, pairs] at wrote ⊢
  rw [Written.fill_eq_ok one (Schema.length_converters _) wrote]
  rfl

mutual
theorem ofDatum_toDatum {s s' : Schema} {nullable : Bool} {name : String} {d : Datum}
    (v : Value) (fits : v.Fits s nullable) (own : v.WellFormed) (h : s'.WellFormed)
    (same : s'.plain = s.plain) (run : v.toDatum s nullable name = .ok d) (name' : String) :
    ∃ v', ofDatum s' name' true d = .ok v' ∧ v'.Fits s' nullable ∧
      v'.identical v.cut = true := by
  have kind : s'.kind = s.kind := Schema.kind_of_plain same
  match v with
  | .null =>
    obtain rfl : nullable = true := fits
    simp only [toDatum, if_true, Except.ok.injEq] at run
    subst run
    exact ⟨.null, by simp [ofDatum], rfl, rfl⟩
  | .record ⟨made, values⟩ =>
    -- It is written by the schema it was made for and read by the schema of the place.
    obtain ⟨recordKind, equal⟩ := fits
    obtain ⟨-, -, fit, sound⟩ := own
    obtain ⟨ds, wrote, done⟩ := bind_eq_ok.1 run
    cases done
    have whole : s'.plain = made.plain := same.trans (Schema.eq_iff_plain.1 equal).symm
    obtain ⟨values', one, read, alike⟩ := writeData_fieldsToDatum h values fit sound
      (Schema.entries_of_plain whole) (fun _ he => he) wrote []
    refine ⟨.record ⟨s', values'⟩, ?_, ⟨kind.trans recordKind, Schema.eq_self s'⟩, ?_⟩
    · rw [ofDatum_branchIf (by simp), ofDatum, if_pos (kind.trans recordKind), read, ok_bind,
        complete_eq_ok h one]
      rfl
    · simp [cut, identical, alike, Schema.eq_iff_plain.2 whole]
  | .array items =>
    obtain ⟨element, inner, fit⟩ := fits
    obtain ⟨element', inner', sameElement, sameNullable⟩ := Schema.element_of_plain same inner
    simp only [toDatum, inner] at run
    obtain ⟨ds, wrote, done⟩ := bind_eq_ok.1 run
    cases done
    obtain ⟨items', read, fit', alike⟩ := itemsOfDatum_itemsToDatum items fit own
      (h.element inner') sameElement wrote name' 0
    refine ⟨.array items', ?_, ⟨element', inner', sameNullable ▸ fit'⟩, alike⟩
    rw [ofDatum_branchIf (by simp), ofDatum, inner']
    simp [read]
  | .datetime t =>
    obtain rfl := Schema.eq_scalar_of_kind (kind.trans fits)
    have kept : t.Kept := own
    simp only [toDatum, Except.ok.injEq] at run
    subst run
    -- Only the milliseconds are in the file: what comes back is the cut instant.
    refine ⟨.datetime (.ofMillis t.millis), ?_, rfl, by simp [cut, identical]⟩
    rw [ofDatum_branchIf (by simp)]
    simp [ofDatum, scalarOfDatum, millisOfDatum?, kept.toInt_ofInt, kept.ofMillis?]
  | .string x | .int x | .long x | .float x | .double x | .boolean x | .bytes x =>
    obtain rfl := Schema.eq_scalar_of_kind (kind.trans fits)
    simp only [toDatum, Except.ok.injEq] at run
    subst run
    rw [ofDatum_branchIf (by simp)]
    simp [ofDatum, scalarOfDatum, scalarOfDatum?, Fits, Schema.kind, cut, identical]

theorem writeData_fieldsToDatum {s : Schema} (h : s.WellFormed) {entries entries' : List Entry}
    {ds : List (String × Datum)} (values : List Value) (fit : FitEntries entries values)
    (own : AllWellFormed values) (same : Schema.plainEntries entries' = Schema.plainEntries entries)
    (within : ∀ e ∈ entries', e ∈ s.entries) (run : fieldsToDatum entries values = .ok ds)
    (written : Written) :
    ∃ values', values'.length = entries'.length ∧
      writeData s written ds =
        .ok (Assoc.insertAll written ((entries'.map Entry.name).zip values')) ∧
      identicalItems values' (cutAll values) = true := by
  match entries, values with
  | [], [] =>
    cases run
    obtain rfl : entries' = [] := by simpa [Schema.plainEntries_eq_map] using same
    exact ⟨[], rfl, rfl, rfl⟩
  | e :: rest, v :: values =>
    obtain ⟨e', others, rfl, sameName, sameSchema, sameNullable, later⟩ :=
      Schema.plainEntries_cons same
    obtain ⟨mem, withinRest⟩ := List.forall_mem_cons.1 within
    obtain ⟨d, first, run⟩ := bind_eq_ok.1 run
    obtain ⟨ds', wrote, done⟩ := bind_eq_ok.1 run
    cases done
    obtain ⟨v', read, fits, alike⟩ := ofDatum_toDatum v fit.1 own.1 (h.entry mem) sameSchema
      first e'.name
    obtain ⟨values', one, readRest, alikeRest⟩ := writeData_fieldsToDatum h values fit.2 own.2
      later withinRest wrote (Assoc.insert e'.name v' written)
    refine ⟨v' :: values', by simp [one], ?_, by simp [cutAll, identicalItems, alike, alikeRest]⟩
    have stored : written.write e' v' = .ok (Assoc.insert e'.name v' written) :=
      Written.write_eq_ok_iff.2 ⟨sameNullable ▸ fits, rfl⟩
    rw [writeData, ← sameName, h.entry?_name mem]
    simp only [read, ok_bind, stored, readRest]
    rfl

theorem itemsOfDatum_itemsToDatum {element element' : Schema} {nullable : Bool} {name : String}
    {index : Nat} {ds : List Datum} (items : List Value) (fit : AllFit element nullable items)
    (own : AllWellFormed items) (h : element'.WellFormed)
    (same : element'.plain = element.plain)
    (run : itemsToDatum element nullable name index items = .ok ds) (name' : String)
    (index' : Nat) :
    ∃ items', itemsOfDatum element' name' index' ds = .ok items' ∧
      AllFit element' nullable items' ∧ identicalItems items' (cutAll items) = true := by
  match items with
  | [] =>
    cases run
    exact ⟨[], rfl, trivial, rfl⟩
  | v :: rest =>
    obtain ⟨d, first, run⟩ := bind_eq_ok.1 run
    obtain ⟨ds', wrote, done⟩ := bind_eq_ok.1 run
    cases done
    obtain ⟨v', read, fits, alike⟩ := ofDatum_toDatum v fit.1 own.1 h same first
      (itemName name' index')
    obtain ⟨rest', readRest, fitRest, alikeRest⟩ := itemsOfDatum_itemsToDatum rest fit.2 own.2 h
      same wrote name' (index' + 1)
    exact ⟨v' :: rest', by simp [itemsOfDatum, read, readRest], ⟨fits, fitRest⟩,
      by simp [cutAll, identicalItems, alike, alikeRest]⟩
end

end Value

/-- A record is read back by any schema that equals its own. -/
theorem Record.ofDatum_toDatum {r : Record} {s : Schema} {d : Datum} (own : r.WellFormed)
    (h : s.WellFormed) (same : s.plain = r.schema.plain) (run : r.toDatum = .ok d) :
    ∃ r', Record.ofDatum s d = .ok r' ∧ r'.identical r.cut = true := by
  obtain ⟨-, -, fit, sound⟩ := Record.wellFormed_iff.1 own
  obtain ⟨ds, wrote, done⟩ := bind_eq_ok.1 run
  cases done
  obtain ⟨values, one, read, alike⟩ := Value.writeData_fieldsToDatum h r.values fit
    (Value.allWellFormed_iff.2 sound) (Schema.entries_of_plain same) (fun _ he => he) wrote []
  refine ⟨⟨s, values⟩, ?_, ?_⟩
  · simp [Record.ofDatum, read, Value.complete_eq_ok h one]
  · simp [Record.identical, Record.cut, alike, Schema.eq_iff_plain.2 same]

end TypedRecords
