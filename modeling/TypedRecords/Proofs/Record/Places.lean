import TypedRecords.Proofs.Record.Builder
import TypedRecords.Proofs.Schema.Lookup

/-! Labels lead to places.
A label that is found leads to one place of the schema. Reading by the label reads the value
at that place, and writing by it changes the value at that place and at no other. -/
namespace TypedRecords

open Result

namespace Written

def value (written : Written) (e : Entry) (convert : Converter) : Result Value :=
  match Assoc.find? e.name written with
  | some v => .ok v
  | none => if e.nullable then .ok .null else fallback e convert

theorem fill_cons (written : Written) (e : Entry) (entries : List Entry) (convert : Converter)
    (converters : List Converter) :
    written.fill (e :: entries) (convert :: converters) = (do
      let v ← written.value e convert
      return v :: (← written.fill entries converters)) := by
  rw [fill, value]
  cases Assoc.find? e.name written with
  | some v => rfl
  | none =>
    by_cases nullable : e.nullable = true
    · simp only [nullable, if_true]
      rfl
    · simp only [nullable]
      rfl

theorem fill_getElem? {written : Written} {entries : List Entry} {converters : List Converter}
    {values : List Value} (run : written.fill entries converters = .ok values) (i : Nat) :
    values[i]? =
      (entries.zip converters)[i]?.bind fun p => (written.value p.1 p.2).toOption := by
  induction entries generalizing converters values i with
  | nil =>
    cases run
    simp
  | cons e entries ih =>
    cases converters with
    | nil =>
      cases run
      simp
    | cons convert converters =>
      rw [fill_cons] at run
      obtain ⟨v, own, run⟩ := bind_eq_ok.1 run
      obtain ⟨vs, later, same⟩ := bind_eq_ok.1 run
      cases same
      cases i with
      | zero => simp [own, Except.toOption]
      | succ i => simpa using ih later i

theorem value_insert_self (written : Written) (e : Entry) (v : Value) (convert : Converter) :
    Written.value (Assoc.insert e.name v written) e convert = .ok v := by
  simp [value, Assoc.find?_insert]

theorem value_insert_of_ne (written : Written) {name : String} {e : Entry} (v : Value)
    (convert : Converter) (other : name ≠ e.name) :
    Written.value (Assoc.insert name v written) e convert = written.value e convert := by
  simp [value, Assoc.find?_insert, other]

end Written

namespace RecordBuilder

theorem build_bound {s : Schema} {written : Written} {r : Record}
    (run : build ⟨.bound s, written⟩ = .ok r) :
    r.schema = s ∧ written.fill s.entries (Schema.converters s.entries) = .ok r.values := by
  obtain ⟨known, same, run⟩ := bind_eq_ok.1 run
  cases same
  obtain ⟨values, filled, same⟩ := bind_eq_ok.1 run
  cases same
  exact ⟨rfl, filled⟩

/-- What a write to an entry changes in the record that is built. -/
theorem build_write {s : Schema} {i : Nat} {e : Entry} {written written' : Written} {v : Value}
    {r' : Record} (distinct : (s.entries.map Entry.name).Nodup) (here : s.entries[i]? = some e)
    (wrote : written.write e v = .ok written') (built : build ⟨.bound s, written'⟩ = .ok r') :
    r'.values[i]? = some v ∧
      ∀ r, build ⟨.bound s, written⟩ = .ok r → ∀ j, j ≠ i → r'.values[j]? = r.values[j]? := by
  obtain ⟨-, rfl⟩ := Written.write_eq_ok_iff.1 wrote
  have filled' := Written.fill_getElem? (build_bound built).2
  refine ⟨?_, fun r before j other => ?_⟩
  · obtain ⟨inside, rfl⟩ := List.getElem?_eq_some_iff.1 here
    have place : i < (s.entries.zip (Schema.converters s.entries)).length := by
      rwa [List.length_zip, Schema.length_converters, Nat.min_self]
    rw [filled', List.getElem?_eq_getElem place]
    simp [Written.value_insert_self, Except.toOption]
  · rw [filled', Written.fill_getElem? (build_bound before).2]
    refine Option.bind_congr fun p hp => ?_
    obtain ⟨there, -⟩ := List.getElem?_zip_eq_some.1 hp
    have apart : e.name ≠ p.1.name := fun same =>
      other (Schema.place_eq_of_name_eq distinct there here same.symm)
    rw [Written.value_insert_of_ne _ _ _ apart]

end RecordBuilder

namespace Schema

/-- A label leads to an entry: it is found there, and reading and writing by it concern the
value at its place and no other. -/
structure Leads (s : Schema) (label : String) (i : Nat) (e : Entry) : Prop where
  index : s.entryIndex? label = some i
  entry : s.entry? label = some e
  read : ∀ r : Record, r.schema = s → ∀ v, r.get label = .ok v ↔ r.values[i]? = some v
  write : ∀ written v b' r', RecordBuilder.write ⟨.bound s, written⟩ (.label label) v = .ok b' →
    b'.build = .ok r' → r'.values[i]? = some v ∧
      ∀ r, RecordBuilder.build ⟨.bound s, written⟩ = .ok r → ∀ j, j ≠ i →
        r'.values[j]? = r.values[j]?

theorem leads {s : Schema} {label : String} {i : Nat} {e : Entry}
    (distinct : (s.entries.map Entry.name).Nodup) (found : s.entryIndex? label = some i)
    (here : s.entries[i]? = some e) : s.Leads label i e := by
  have known := entry?_of_entryIndex? found here
  refine ⟨found, known, fun r made v => ?_, fun written v b' r' run built => ?_⟩
  · subst made
    unfold Record.get
    rw [found, Option.bind_some]
    cases r.values[i]? <;> simp
  · simp only [RecordBuilder.write, RecordBuilder.keyName, known] at run
    obtain ⟨written', wrote, same⟩ := bind_eq_ok.1 run
    cases same
    exact RecordBuilder.build_write distinct here wrote built

end Schema
end TypedRecords
