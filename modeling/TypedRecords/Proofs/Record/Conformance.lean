import TypedRecords.Proofs.Canonical.Decompile
import TypedRecords.Proofs.Schema.RoundTrip

/-! Records as data conform to the canonical form of their schema.
Whether a place admits null is decided once for its type and once for its value, and a nested
record is written by its own schema, not by the one that was declared. The two agree, since a
value fits its place and equal schemas have canonical forms that are equal. -/
namespace TypedRecords

open Avro Result

namespace Canonical

mutual
/-- A datum of exactly the shape of a type. A union stands for a place that may be null: its
first branch holds null, its second a datum of the other type. -/
inductive Conforms : Canonical → Datum → Prop
  | boolean (b : Bool) : Conforms (.primitive .boolean) (.boolean b)
  | int (n : Int32) : Conforms (.primitive .int) (.int n)
  | long (n : Int64) : Conforms (.primitive .long) (.long n)
  | float (x : Binary32) : Conforms (.primitive .float) (.float x)
  | double (x : Binary64) : Conforms (.primitive .double) (.double x)
  | bytes (bytes : List UInt8) : Conforms (.primitive .bytes) (.bytes bytes)
  | string (s : String) : Conforms (.primitive .string) (.string s)
  | timestamp (n : Int64) : Conforms .timestampMillis (.temporal .timestampMillis n)
  | array {items : Canonical} {props : Props} {ds : List Datum}
      (h : ∀ d ∈ ds, Conforms items d) : Conforms (.array items props) (.array ds)
  | record {name space : String} {fields : List Field} {props : Props}
      {ds : List (String × Datum)} (h : ConformFields fields ds) :
      Conforms (.record name space fields props) (.record ds)
  | absent (c : Canonical) : Conforms (.union [null, c]) (.union 0 .null)
  | present {c : Canonical} {d : Datum} (h : Conforms c d) :
      Conforms (.union [null, c]) (.union 1 d)

inductive ConformFields : List Field → List (String × Datum) → Prop
  | nil : ConformFields [] []
  | cons {f : Field} {d : Datum} {fields : List Field} {ds : List (String × Datum)}
      (h : Conforms f.type d) (others : ConformFields fields ds) :
      ConformFields (f :: fields) ((f.name, d) :: ds)
end

mutual
theorem Conforms.of_plain_eq {c c' : Canonical} {d : Datum} (same : c'.plain = c.plain) :
    c.Conforms d → c'.Conforms d
  | .boolean b => by cases c' <;> simp_all [plain, Conforms.boolean]
  | .int n => by cases c' <;> simp_all [plain, Conforms.int]
  | .long n => by cases c' <;> simp_all [plain, Conforms.long]
  | .float x => by cases c' <;> simp_all [plain, Conforms.float]
  | .double x => by cases c' <;> simp_all [plain, Conforms.double]
  | .bytes bs => by cases c' <;> simp_all [plain, Conforms.bytes]
  | .string s => by cases c' <;> simp_all [plain, Conforms.string]
  | .timestamp n => by cases c' <;> simp_all [plain, Conforms.timestamp]
  | .array h => by
    obtain ⟨items', rfl, sameItems⟩ := plain_array same
    exact .array fun d hd => (h d hd).of_plain_eq sameItems
  | .record h => by
    obtain ⟨fields', rfl, sameFields⟩ := plain_record same
    exact .record (h.of_plain_eq sameFields)
  | .absent c => by
    obtain ⟨e, rfl, -⟩ := plain_nullable same
    exact .absent e
  | .present h => by
    obtain ⟨e, rfl, sameBase⟩ := plain_nullable same
    exact .present (h.of_plain_eq sameBase)

theorem ConformFields.of_plain_eq {fields fields' : List Field} {ds : List (String × Datum)}
    (same : plainFields fields' = plainFields fields) :
    ConformFields fields ds → ConformFields fields' ds
  | .nil => by
    cases fields' with
    | nil => exact .nil
    | cons f rest => simp [plainFields_eq_map] at same
  | .cons h others => by
    obtain ⟨type, default, rest, rfl, sameType, -, later⟩ := plainFields_cons same
    exact .cons (h.of_plain_eq sameType) (others.of_plain_eq later)
end

theorem Conforms.branchIf {s : Schema} {d : Datum} (nullable : Bool)
    (h : s.compiled.Conforms d) :
    (Schema.nullableIf nullable s.compiled).Conforms (branchIf nullable d) := by
  cases nullable with
  | false => exact h
  | true =>
    simpa [Schema.nullableIf, wrapNullable, isUnion_compiled, TypedRecords.branchIf] using
      Conforms.present h

end Canonical

namespace Value

open Canonical Schema

mutual
/-- A value that fits its place has a datum that conforms to the type of the place. -/
theorem toDatum_conforms {s : Schema} {nullable : Bool} (name : String) (v : Value)
    (fits : v.Fits s nullable) (own : v.WellFormed) :
    ∃ d, v.toDatum s nullable name = .ok d ∧ (nullableIf nullable s.compiled).Conforms d := by
  match v with
  | .null =>
    obtain rfl : nullable = true := fits
    refine ⟨.union 0 .null, by simp [toDatum], ?_⟩
    simpa [nullableIf, wrapNullable, isUnion_compiled] using Conforms.absent s.compiled
  | .record ⟨made, values⟩ =>
    obtain ⟨kind, same⟩ := fits
    obtain ⟨-, kindMade, fit, sound⟩ := own
    obtain ⟨ds, run, conform⟩ := fieldsToDatum_conforms values fit sound
    obtain ⟨recordName, -, compiled⟩ := compiled_of_kind kindMade
    have whole : made.compiled.Conforms (.record ds) := compiled ▸ .record conform
    have declared := whole.of_plain_eq (plain_compiled_eq (Schema.eq_iff_plain.1 same)).symm
    exact ⟨branchIf nullable (.record ds), by simp [toDatum, run], declared.branchIf nullable⟩
  | .array items =>
    obtain ⟨element, inner, fit⟩ := fits
    obtain ⟨ds, run, conform⟩ := itemsToDatum_conforms name 0 items fit own
    have whole : s.compiled.Conforms (.array ds) := by
      rw [eq_array_of_element? inner, compiled]
      exact .array conform
    exact ⟨branchIf nullable (.array ds), by simp [toDatum, inner, run], whole.branchIf nullable⟩
  | .string text =>
    obtain rfl := eq_scalar_of_kind fits
    exact ⟨_, by rw [toDatum], (Conforms.string text).branchIf (s := .scalar .string) nullable⟩
  | .int n =>
    obtain rfl := eq_scalar_of_kind fits
    exact ⟨_, by rw [toDatum], (Conforms.int n).branchIf (s := .scalar .int) nullable⟩
  | .long n =>
    obtain rfl := eq_scalar_of_kind fits
    exact ⟨_, by rw [toDatum], (Conforms.long n).branchIf (s := .scalar .long) nullable⟩
  | .float x =>
    obtain rfl := eq_scalar_of_kind fits
    exact ⟨_, by rw [toDatum], (Conforms.float x).branchIf (s := .scalar .float) nullable⟩
  | .double x =>
    obtain rfl := eq_scalar_of_kind fits
    exact ⟨_, by rw [toDatum], (Conforms.double x).branchIf (s := .scalar .double) nullable⟩
  | .boolean b =>
    obtain rfl := eq_scalar_of_kind fits
    exact ⟨_, by rw [toDatum], (Conforms.boolean b).branchIf (s := .scalar .boolean) nullable⟩
  | .bytes bs =>
    obtain rfl := eq_scalar_of_kind fits
    exact ⟨_, by rw [toDatum], (Conforms.bytes bs).branchIf (s := .scalar .bytes) nullable⟩
  | .datetime t =>
    obtain rfl := eq_scalar_of_kind fits
    exact ⟨_, by rw [toDatum],
      (Conforms.timestamp (Int64.ofInt t.millis)).branchIf (s := .scalar .datetime) nullable⟩

theorem fieldsToDatum_conforms {entries : List Entry} (values : List Value)
    (fit : FitEntries entries values) (own : AllWellFormed values) :
    ∃ ds, fieldsToDatum entries values = .ok ds ∧ ConformFields (compiledEntries entries) ds := by
  match entries, values with
  | [], [] => exact ⟨[], by rw [fieldsToDatum], .nil⟩
  | ⟨name, _, schema, nullable, _, _, _, _⟩ :: rest, v :: values =>
    obtain ⟨first, others⟩ := fit
    obtain ⟨sound, soundRest⟩ := own
    obtain ⟨d, run, conforms⟩ := toDatum_conforms name v first sound
    obtain ⟨ds, runRest, conformRest⟩ := fieldsToDatum_conforms values others soundRest
    refine ⟨(name, d) :: ds, by simp [fieldsToDatum, run, runRest], ?_⟩
    exact .cons (f := ⟨name, nullableIf nullable schema.compiled, _, _, _, _⟩) conforms conformRest

theorem itemsToDatum_conforms {element : Schema} {nullable : Bool} (name : String) (index : Nat)
    (items : List Value) (fit : AllFit element nullable items) (own : AllWellFormed items) :
    ∃ ds, itemsToDatum element nullable name index items = .ok ds ∧
      ∀ d ∈ ds, (nullableIf nullable element.compiled).Conforms d := by
  match items with
  | [] => exact ⟨[], by rw [itemsToDatum], by simp⟩
  | v :: rest =>
    obtain ⟨d, run, conforms⟩ := toDatum_conforms (itemName name index) v fit.1 own.1
    obtain ⟨ds, runRest, conformRest⟩ :=
      itemsToDatum_conforms name (index + 1) rest fit.2 own.2
    exact ⟨d :: ds, by simp [itemsToDatum, run, runRest],
      List.forall_mem_cons.2 ⟨conforms, conformRest⟩⟩
end

end Value

namespace Record

theorem WellFormed.toDatum_conforms {r : Record} (h : r.WellFormed) :
    ∃ d, r.toDatum = .ok d ∧ r.schema.compiled.Conforms d := by
  obtain ⟨-, kind, fit, sound⟩ := wellFormed_iff.1 h
  obtain ⟨ds, run, conform⟩ :=
    Value.fieldsToDatum_conforms r.values fit (Value.allWellFormed_iff.2 sound)
  obtain ⟨name, -, compiled⟩ := Schema.compiled_of_kind kind
  exact ⟨.record ds, by simp [toDatum, run], compiled ▸ .record conform⟩

theorem exists_conforming_datum {r : Record} {s : Schema} (h : r.Obtainable)
    (same : (s == r.schema) = true) :
    ∃ d, r.toDatum = .ok d ∧ s.compiled.Conforms d := by
  obtain ⟨d, run, conforms⟩ := WellFormed.toDatum_conforms h.wellFormed
  exact ⟨d, run, conforms.of_plain_eq (Schema.plain_compiled_eq (Schema.eq_iff_plain.1 same))⟩

def trip : Record :=
  ⟨.journey, [.datetime (.ofMillis 1714979289010),
    .array [.record ⟨.leg, [.string "Ulm", .double ⟨0x4059000000000000⟩]⟩, .null], .null]⟩

theorem obtainable_trip : trip.Obtainable := by
  refine .ofJson (Schema.obtainable_iff_wellFormed.2 Schema.wellFormed_journey) (j := .obj
    [("legs", .arr [.obj [("km", .float ⟨0x4059000000000000⟩), ("to", .str "Ulm")], .null]),
     ("start", .int 1714979289010)]) ?_
  rfl

theorem exists_conforming_datum_trip :
    trip.Obtainable ∧ ∃ d, trip.toDatum = .ok d ∧ Schema.journey.compiled.Conforms d :=
  ⟨obtainable_trip, exists_conforming_datum obtainable_trip (Schema.eq_self _)⟩

end Record

end TypedRecords
