import TypedRecords.Proofs.Record.Bound
import TypedRecords.Proofs.Record.JsonView

/-! Where the instants in a record come from.
Counts of milliseconds make instants that are exact, and so do the setters for instants and what is
read from containers. The instants of values that are handed over, and those that texts tell, in a
document or in a default, are stored as they are. So an instant that is not exact can be traced to
one of these. -/
namespace TypedRecords

open Result

/-- A whole number of milliseconds. -/
def Instant.Exact (t : Instant) : Prop := ofMillis t.millis = t

instance (t : Instant) : Decidable t.Exact := inferInstanceAs (Decidable (_ = _))

theorem Instant.exact_ofMillis (ms : Int) : (ofMillis ms).Exact := by
  rw [Exact, millis_ofMillis]

theorem Instant.exact_iff {t : Instant} : t.Exact ↔ t.nanos < 1000000000 ∧ 1000000 ∣ t.nanos := by
  obtain ⟨seconds, nanos⟩ := t
  simp only [Exact, ofMillis, millis, Instant.mk.injEq]
  omega

theorem Instant.eq_ofMillis_of_ofMillis? {ms : Int} {t : Instant} (h : ofMillis? ms = some t) :
    t = ofMillis ms := by
  unfold ofMillis? at h
  split at h
  · exact (Option.some.inj h).symm
  · cases h

/-! Instants of values, documents and schemas. -/

namespace Value

mutual
def instants : Value → List Instant
  | .datetime t => [t]
  | .record ⟨_, values⟩ => instantsOf values
  | .array items => instantsOf items
  | _ => []

def instantsOf : List Value → List Instant
  | [] => []
  | v :: rest => v.instants ++ instantsOf rest
end

theorem mem_instantsOf {t : Instant} {values : List Value} :
    t ∈ instantsOf values ↔ ∃ v ∈ values, t ∈ v.instants := by
  induction values with
  | nil => simp [instantsOf]
  | cons v rest ih => simp [instantsOf, ih]

end Value

def Record.instants (r : Record) : List Instant := Value.instantsOf r.values

namespace Schema

mutual
/-- The instants that a document tells as texts, where it is read as a value of a type. -/
def toldInstants (s : Schema) : Json → List Instant
  | .str text => if s.kind = .scalar .datetime then (Instant.ofText? text).toList else []
  | .arr items =>
    match s.element? with
    | some element => toldByItems element items
    | none => []
  | .obj fields => toldByFields s fields
  | _ => []

def toldByItems (element : Schema) : List Json → List Instant
  | [] => []
  | j :: rest => toldInstants element j ++ toldByItems element rest

def toldByFields (s : Schema) : List (String × Json) → List Instant
  | [] => []
  | (key, j) :: rest =>
    (match s.entry? key with
      | some e => toldInstants e.schema j
      | none => []) ++ toldByFields s rest
end

mutual
def defaultInstants : Schema → List Instant
  | .record _ entries _ => defaultInstantsOf entries
  | .array element _ _ => element.defaultInstants
  | _ => []

def defaultInstantsOf : List Entry → List Instant
  | [] => []
  | ⟨_, _, schema, _, _, _, default, _⟩ :: rest =>
    default.elim [] (schema.toldInstants ·) ++ schema.defaultInstants ++ defaultInstantsOf rest
end

theorem mem_defaultInstantsOf {t : Instant} {entries : List Entry} :
    t ∈ defaultInstantsOf entries ↔ ∃ e ∈ entries,
      (∃ j, e.default = some j ∧ t ∈ e.schema.toldInstants j) ∨ t ∈ e.schema.defaultInstants := by
  induction entries with
  | nil => simp [defaultInstantsOf]
  | cons e rest ih =>
    obtain ⟨name, rawName, schema, nullable, metadata, comment, default, props⟩ := e
    cases default <;> simp [defaultInstantsOf, ih, or_assoc]

theorem defaultInstantsOf_entries (s : Schema) {t : Instant}
    (h : t ∈ defaultInstantsOf s.entries) : t ∈ s.defaultInstants := by
  cases s with
  | record name entries props => exact h
  | _ => simp [entries, defaultInstantsOf] at h

theorem defaultInstants_element {s element : Schema} (inner : s.element? = some element)
    {t : Instant} (h : t ∈ element.defaultInstants) : t ∈ s.defaultInstants := by
  rw [eq_array_of_element? inner]
  exact h

end Schema

/-! Values all of whose instants have a property that exact ones have. -/

def Value.Within (P : Instant → Prop) (v : Value) : Prop := ∀ t ∈ v.instants, P t

def Written.Within (P : Instant → Prop) (written : Written) : Prop := ∀ p ∈ written, p.2.Within P

/-- What is read for a type has only instants with a property, if the document tells no others. -/
def Converter.Within (P : Instant → Prop) (s : Schema) (convert : Converter) : Prop :=
  ∀ name j v, convert name j = .ok v → (∀ t ∈ s.toldInstants j, P t) → v.Within P

section

variable {P : Instant → Prop}

theorem Value.within_of_all {values : List Value} (h : ∀ v ∈ values, v.Within P) :
    ∀ t ∈ instantsOf values, P t := by
  intro t mem
  obtain ⟨v, hv, inside⟩ := mem_instantsOf.1 mem
  exact h v hv t inside

theorem Value.within_record {r : Record} :
    (Value.record r).Within P ↔ ∀ t ∈ r.instants, P t := by
  obtain ⟨schema, values⟩ := r
  exact Iff.rfl

theorem Entry.defaultsTo_of_fallback {e : Entry} {v : Value}
    (run : Written.fallback e e.schema.converter = .ok v) : e.DefaultsTo v := by
  cases defaults_iff.2 run with
  | taken h => exact h

namespace Written

theorem within_nil : Within P [] := by simp [Within]

theorem Within.write {written written' : Written} {e : Entry} {v : Value}
    (h : written.Within P) (own : v.Within P) (run : written.write e v = .ok written') :
    written'.Within P := by
  obtain ⟨-, rfl⟩ := write_eq_ok_iff.1 run
  intro p hp
  rcases Assoc.mem_insert hp with rfl | old
  · exact own
  · exact h p old

theorem Within.value {written : Written} {e : Entry} {v : Value} (h : written.Within P)
    (reads : Converter.Within P e.schema e.schema.converter)
    (defaults : ∀ j, e.default = some j → ∀ t ∈ e.schema.toldInstants j, P t)
    (run : written.value e e.schema.converter = .ok v) : v.Within P := by
  rw [Written.value] at run
  cases found : Assoc.find? e.name written with
  | some stored =>
    rw [found] at run
    cases run
    exact h _ (Assoc.mem_of_find? found)
  | none =>
    rw [found] at run
    by_cases nullable : e.nullable = true
    · rw [if_pos nullable] at run
      cases run
      simp [Value.Within, Value.instants]
    · rw [if_neg nullable] at run
      obtain ⟨⟨j, declared, read⟩, -⟩ := Entry.defaultsTo_of_fallback run
      exact reads _ j v read (defaults j declared)

theorem Within.fill {written : Written} {entries : List Entry} {values : List Value}
    (h : written.Within P)
    (reads : ∀ e ∈ entries, Converter.Within P e.schema e.schema.converter)
    (defaults : ∀ t ∈ Schema.defaultInstantsOf entries, P t)
    (run : written.fill entries (Schema.converters entries) = .ok values) :
    ∀ v ∈ values, v.Within P := by
  rw [fill_eq_mapM, mapM_eq_ok_iff] at run
  intro v hv
  have listed : (Except.ok v : Result Value) ∈ values.map .ok := List.mem_map_of_mem hv
  rw [← run] at listed
  obtain ⟨e, mem, filled⟩ := List.mem_map.1 listed
  refine h.value (reads e mem) (fun j declared t told => ?_) filled
  exact defaults t (Schema.mem_defaultInstantsOf.2 ⟨e, mem, .inl ⟨j, declared, told⟩⟩)

end Written

/-! Reading documents. -/

namespace Schema

theorem within_unlessNull {s : Schema} {convert : Converter} (h : Converter.Within P s convert) :
    Converter.Within P s (unlessNull convert) := by
  intro name j v run told
  unfold unlessNull at run
  split at run
  · cases run
    simp [Value.Within, Value.instants]
  · exact h name j v run told

theorem within_writeFields {s : Schema} {written written' : Written}
    {fields : List (String × Json)} (h : written.Within P)
    (reads : ∀ e ∈ s.entries, Converter.Within P e.schema e.schema.converter)
    (told : ∀ t ∈ s.toldByFields fields, P t)
    (run : s.writeFields (converters s.entries) written fields = .ok written') :
    written'.Within P := by
  induction fields generalizing written with
  | nil =>
    cases run
    exact h
  | cons field rest ih =>
    obtain ⟨key, j⟩ := field
    obtain ⟨i, e, convert, v, next, found, here, own, read, wrote, run⟩ :=
      writeFields_cons_eq_ok run
    rw [getElem?_converters, here, Option.map_some] at own
    cases own
    simp only [toldByFields, entry?_of_entryIndex? found here, List.mem_append] at told
    have within := reads e (List.mem_of_getElem? here) e.name j v read fun t ht => told t (.inl ht)
    exact ih (h.write within wrote) (fun t ht => told t (.inr ht)) run

theorem within_readRecord {s : Schema} {j : Json} {r : Record}
    (reads : ∀ e ∈ s.entries, Converter.Within P e.schema e.schema.converter)
    (defaults : ∀ t ∈ defaultInstantsOf s.entries, P t) (told : ∀ t ∈ s.toldInstants j, P t)
    (run : s.readRecord (converters s.entries) j = .ok r) : ∀ t ∈ r.instants, P t := by
  unfold readRecord at run
  split at run
  · cases run
  · rename_i fields object
    split at run
    · obtain ⟨written, wrote, run⟩ := bind_eq_ok.1 run
      obtain ⟨values, filled, same⟩ := bind_eq_ok.1 run
      cases same
      cases j with
      | obj given =>
        cases object
        have within := within_writeFields Written.within_nil reads told wrote
        exact Value.within_of_all (within.fill reads defaults filled)
      | _ => cases object
    · cases run

theorem within_readItems {element : Schema} {name : String} {index : Nat} {items : List Json}
    {values : List Value} (reads : Converter.Within P element element.converter)
    (told : ∀ t ∈ toldByItems element items, P t)
    (run : readItems element.converter name index items = .ok values) :
    ∀ v ∈ values, v.Within P := by
  induction items generalizing index values with
  | nil =>
    cases run
    simp
  | cons j rest ih =>
    obtain ⟨v, read, run⟩ := bind_eq_ok.1 run
    obtain ⟨others, later, same⟩ := bind_eq_ok.1 run
    cases same
    simp only [toldByItems, List.mem_append] at told
    exact List.forall_mem_cons.2 ⟨reads _ j v read fun t ht => told t (.inl ht),
      ih (fun t ht => told t (.inr ht)) later⟩

theorem within_scalarOfJson? (whole : ∀ ms, P (.ofMillis ms)) {k : ScalarKind} {j : Json}
    {v : Value} (told : ∀ t ∈ (Schema.scalar k).toldInstants j, P t)
    (h : scalarOfJson? j k = some v) : v.Within P := by
  cases k with
  | datetime =>
    obtain ⟨t, read, rfl⟩ := Option.map_eq_some_iff.1 h
    have known : P t := by
      unfold instantOfJson? at read
      split at read
      · exact told t (by simp [toldInstants, kind, read])
      · obtain ⟨ms, -, range⟩ := Option.bind_eq_some_iff.1 read
        rw [Instant.eq_ofMillis_of_ofMillis? range]
        exact whole _
    simpa [Value.Within, Value.instants] using known
  | _ =>
    obtain ⟨_, _, rfl⟩ := Option.map_eq_some_iff.1 h
    simp [Value.Within, Value.instants]

mutual
/-- What is read has instants that are exact, or told by the document or by a default. -/
theorem within_converter (whole : ∀ ms, P (.ofMillis ms)) (s : Schema)
    (defaults : ∀ t ∈ s.defaultInstants, P t) : Converter.Within P s s.converter := by
  match s with
  | .scalar k =>
    rw [converter]
    refine within_unlessNull fun place j v run told => ?_
    split at run
    · rename_i read
      cases run
      exact within_scalarOfJson? whole told read
    · cases run
  | .emptyRecord =>
    rw [converter]
    refine within_unlessNull fun place j v run told => ?_
    obtain ⟨r, read, same⟩ := bind_eq_ok.1 run
    cases same
    exact Value.within_record.2 (within_readRecord (by simp [entries])
      (by simp [entries, defaultInstantsOf]) told read)
  | .record name entries props =>
    rw [converter]
    refine within_unlessNull fun place j v run told => ?_
    obtain ⟨r, read, same⟩ := bind_eq_ok.1 run
    cases same
    exact Value.within_record.2 (within_readRecord (s := .record name entries props)
      (within_converters whole entries defaults) defaults told read)
  | .array element nullable props =>
    rw [converter]
    refine within_unlessNull fun place j v run told => ?_
    split at run
    · cases run
    · rename_i items listed
      obtain ⟨values, read, same⟩ := bind_eq_ok.1 run
      cases same
      cases j with
      | arr given =>
        cases listed
        exact Value.within_of_all
          (within_readItems (within_converter whole element defaults) told read)
      | _ => cases listed

theorem within_converters (whole : ∀ ms, P (.ofMillis ms)) (entries : List Entry)
    (defaults : ∀ t ∈ defaultInstantsOf entries, P t) :
    ∀ e ∈ entries, Converter.Within P e.schema e.schema.converter := by
  match entries with
  | [] => simp
  | ⟨_, _, schema, _, _, _, _, _⟩ :: rest =>
    simp only [defaultInstantsOf, List.mem_append] at defaults
    exact List.forall_mem_cons.2
      ⟨within_converter whole schema fun t ht => defaults t (.inl (.inr ht)),
        within_converters whole rest fun t ht => defaults t (.inr ht)⟩
end

end Schema

theorem Record.within_ofJson (whole : ∀ ms, P (.ofMillis ms)) {s : Schema} {j : Json} {r : Record}
    (defaults : ∀ t ∈ s.defaultInstants, P t) (told : ∀ t ∈ s.toldInstants j, P t)
    (run : Record.ofJson s j = .ok r) : ∀ t ∈ r.instants, P t := by
  have inner : ∀ t ∈ Schema.defaultInstantsOf s.entries, P t := fun t ht =>
    defaults t (s.defaultInstantsOf_entries ht)
  exact Schema.within_readRecord (Schema.within_converters whole s.entries inner) inner told run

/-! Reading containers. -/

namespace Value

open Avro

theorem within_scalarOfDatum (whole : ∀ ms, P (.ofMillis ms)) {s : Schema} {name : String}
    {d : Datum} {v : Value} (run : scalarOfDatum s name d = .ok v) : v.Within P := by
  unfold scalarOfDatum at run
  split at run
  · split at run
    · cases run
    · split at run
      · rename_i t range
        cases run
        have known : P t := Instant.eq_ofMillis_of_ofMillis? range ▸ whole _
        simpa [Within, instants] using known
      · cases run
  · split at run
    · rename_i w read
      cases run
      unfold scalarOfDatum? at read
      split at read <;> cases read <;> simp [Within, instants]
    · cases run
  · cases run

theorem within_complete (whole : ∀ ms, P (.ofMillis ms)) {s : Schema} {written : Written}
    {r : Record} (h : written.Within P) (defaults : ∀ t ∈ s.defaultInstants, P t)
    (run : complete s written = .ok r) : ∀ t ∈ r.instants, P t := by
  have inner : ∀ t ∈ Schema.defaultInstantsOf s.entries, P t := fun t ht =>
    defaults t (s.defaultInstantsOf_entries ht)
  obtain ⟨values, filled, same⟩ := bind_eq_ok.1 run
  cases same
  exact within_of_all (h.fill (Schema.within_converters whole s.entries inner) inner filled)

mutual
/-- What is read from a container has instants that are exact or told by a default. -/
theorem within_ofDatum (whole : ∀ ms, P (.ofMillis ms)) {s : Schema}
    (defaults : ∀ t ∈ s.defaultInstants, P t) {name : String} {outer : Bool} (d : Datum) {v : Value}
    (run : ofDatum s name outer d = .ok v) : v.Within P := by
  match d with
  | .null =>
    cases run
    simp [Within, instants]
  | .union index d =>
    cases outer with
    | false => cases run
    | true => exact within_ofDatum whole defaults d run
  | .record fields =>
    rw [ofDatum] at run
    split at run
    · obtain ⟨written, wrote, run⟩ := bind_eq_ok.1 run
      obtain ⟨r, done, same⟩ := bind_eq_ok.1 run
      cases same
      have within := within_writeData whole defaults Written.within_nil fields wrote
      exact within_record.2 (within_complete whole within defaults done)
    · cases run
  | .array items =>
    rw [ofDatum] at run
    split at run
    · rename_i element inner
      obtain ⟨values, read, same⟩ := bind_eq_ok.1 run
      cases same
      have own : ∀ t ∈ element.defaultInstants, P t := fun t ht =>
        defaults t (Schema.defaultInstants_element inner ht)
      exact within_of_all (within_itemsOfDatum whole own items read)
    · cases run
  | .boolean _ | .int _ | .long _ | .float _ | .double _ | .bytes _ | .string _ | .temporal ..
  | .uuid _ | .decimal _ | .duration .. | .fixed _ | .enum .. | .map _ =>
    exact within_scalarOfDatum whole run

theorem within_itemsOfDatum (whole : ∀ ms, P (.ofMillis ms)) {element : Schema}
    (defaults : ∀ t ∈ element.defaultInstants, P t) {name : String} {index : Nat}
    (items : List Datum) {values : List Value}
    (run : itemsOfDatum element name index items = .ok values) : ∀ v ∈ values, v.Within P := by
  match items with
  | [] =>
    cases run
    simp
  | d :: rest =>
    obtain ⟨v, first, run⟩ := bind_eq_ok.1 run
    obtain ⟨others, later, same⟩ := bind_eq_ok.1 run
    cases same
    exact List.forall_mem_cons.2
      ⟨within_ofDatum whole defaults d first, within_itemsOfDatum whole defaults rest later⟩

theorem within_writeData (whole : ∀ ms, P (.ofMillis ms)) {s : Schema}
    (defaults : ∀ t ∈ s.defaultInstants, P t) {written written' : Written} (h : written.Within P)
    (fields : List (String × Datum))
    (run : writeData s written fields = .ok written') : written'.Within P := by
  match fields with
  | [] =>
    cases run
    exact h
  | (key, d) :: rest =>
    rw [writeData] at run
    split at run
    · cases run
    · rename_i e known
      obtain ⟨v, read, run⟩ := bind_eq_ok.1 run
      obtain ⟨next, wrote, run⟩ := bind_eq_ok.1 run
      have inner : ∀ t ∈ e.schema.defaultInstants, P t := fun t ht =>
        defaults t (s.defaultInstantsOf_entries
          (Schema.mem_defaultInstantsOf.2 ⟨e, Schema.mem_of_entry? known, .inr ht⟩))
      have own := within_ofDatum whole inner d read
      exact within_writeData whole defaults (h.write own wrote) rest run
end

theorem within_ofDatum_record (whole : ∀ ms, P (.ofMillis ms)) {s : Schema}
    (defaults : ∀ t ∈ s.defaultInstants, P t) {d : Datum}
    {r : Record} (run : Record.ofDatum s d = .ok r) : ∀ t ∈ r.instants, P t := by
  unfold Record.ofDatum at run
  split at run
  · obtain ⟨written, wrote, done⟩ := bind_eq_ok.1 run
    exact within_complete whole (within_writeData whole defaults Written.within_nil _ wrote)
      defaults done
  · cases run

end Value

/-! Building records. -/

namespace RecordBuilder

theorem within_displace {entries entries' : EntryList} {written written' : Written} {old : Entry}
    (h : written.Within P) (run : displace entries written old = .ok (entries', written')) :
    written'.Within P := by
  obtain ⟨list, -, run⟩ := bind_eq_ok.1 run
  cases found : Assoc.find? old.name written with
  | none =>
    simp only [found] at run
    cases run
    exact h
  | some v =>
    simp only [found] at run
    cases run
    intro p hp
    rcases Assoc.mem_insert hp with rfl | kept
    · exact h (old.name, v) (Assoc.mem_of_find? found)
    · exact h p (List.mem_filter.1 kept).1

theorem within_declare {entries entries' : EntryList} {written written' : Written}
    {key : EntryKey} {v : Value} {e : Entry} (h : written.Within P)
    (run : declare entries written key v = .ok (e, entries', written')) : written'.Within P := by
  cases key with
  | entry given =>
    cases run
    exact h
  | label label =>
    obtain ⟨s, -, run⟩ := bind_eq_ok.1 run
    obtain ⟨new, -, run⟩ := bind_eq_ok.1 run
    cases found : entries.get? new.name with
    | none =>
      simp only [found] at run
      cases run
      exact h
    | some old =>
      simp only [found] at run
      split at run
      · obtain ⟨⟨entries₁, written₁⟩, moved, run⟩ := bind_eq_ok.1 run
        cases run
        exact within_displace h moved
      · cases run
        exact h

theorem within_write {b b' : RecordBuilder} {key : EntryKey} {v : Value} (h : b.written.Within P)
    (own : v.Within P) (run : b.write key v = .ok b') : b'.written.Within P := by
  obtain ⟨binding, written⟩ := b
  cases binding with
  | bound s =>
    simp only [RecordBuilder.write] at run
    split at run
    · cases run
    · obtain ⟨next, wrote, same⟩ := bind_eq_ok.1 run
      cases same
      exact h.write own wrote
  | unbound entries =>
    obtain ⟨⟨e, entries', written'⟩, declared, run⟩ := bind_eq_ok.1 run
    obtain ⟨next, wrote, same⟩ := bind_eq_ok.1 run
    cases same
    exact (within_declare h declared).write own wrote

/-- The instants that a write hands over as they are. -/
def Write.given : Write → List Instant
  | .value _ v => v.instants
  | .timestamp .. => []
  | .datetime .. => []

section

variable (whole : ∀ ms, P (.ofMillis ms))
include whole

theorem within_run {b b' : RecordBuilder} {w : Write} (h : b.written.Within P)
    (given : ∀ t ∈ w.given, P t) (run : w.run b = .ok b') : b'.written.Within P := by
  obtain ⟨v, stored, run⟩ := Write.run_eq_ok_iff.1 run
  have counted (millis : Int) (made : (Instant.ofMillis? millis).map Value.datetime = some v) :
      v.Within P := by
    obtain ⟨t, range, rfl⟩ := Option.map_eq_some_iff.1 made
    have known : P t := Instant.eq_ofMillis_of_ofMillis? range ▸ whole millis
    simpa [Value.Within, Value.instants] using known
  refine within_write h ?_ run
  cases w with
  | value key given_ =>
    cases stored
    exact given
  | timestamp key millis => exact counted millis stored
  | datetime key t => exact counted t.millis stored

theorem within_writeAll {b b' : RecordBuilder} {ws : List Write} (h : b.written.Within P)
    (given : ∀ t ∈ ws.flatMap Write.given, P t) (run : b.writeAll ws = .ok b') :
    b'.written.Within P :=
  foldlM_keeps (fun _ _ w hw hb run => within_run whole hb
    (fun t ht => given t (List.mem_flatMap.2 ⟨w, hw, ht⟩)) run) h run

theorem within_build {b : RecordBuilder} {r : Record} (h : b.written.Within P)
    (defaults : ∀ t ∈ r.schema.defaultInstants, P t) (run : b.build = .ok r) :
    ∀ t ∈ r.instants, P t := by
  obtain ⟨s, known, run⟩ := bind_eq_ok.1 run
  obtain ⟨values, -, same⟩ := bind_eq_ok.1 (id run)
  cases same
  exact Value.within_complete whole h defaults run

end

end RecordBuilder
end
end TypedRecords
