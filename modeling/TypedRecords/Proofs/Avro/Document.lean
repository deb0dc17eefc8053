import TypedRecords.Avro.Document
import TypedRecords.Proofs.Result

/-! How the documents of types are read, form by form.
Only the attributes that the format knows decide; whatever else an object holds is passed
over. -/
namespace TypedRecords.Avro.WireType

open Result

variable {levels : Nat} {names later : Names} {space : String} {attributes : Attributes}

/-- An object that only holds another type stands for it. -/
theorem readObject_object {inner : Attributes} (plain : attributes.meaning? = .ok none)
    (found : Assoc.find? "type" attributes = some (.obj inner)) :
    readObject levels names space attributes = readObject levels names space inner := by
  rw [readObject, plain]
  simp only
  rw [readPlain]
  split <;> simp_all

theorem readCarrier_primitive {word : String} {p : Primitive}
    (found : Assoc.find? "type" attributes = some (.str word))
    (known : Primitive.ofName? word = some p) :
    readCarrier levels names space attributes = .ok (.primitive p, names) := by
  have other : word ≠ "fixed" := by
    rintro rfl
    exact absurd known (by decide +revert)
  rw [readCarrier]
  split
  · simp_all
  · rename_i given
    cases found.symm.trans given
    simp [Json.str?, other, read, plainly, Names.find, known]

theorem readObject_temporal {word : String} {t : Temporal}
    (marked : attributes.meaning? = .ok (some (.temporal t)))
    (found : Assoc.find? "type" attributes = some (.str word))
    (known : Primitive.ofName? word = some t.base) :
    readObject levels names space attributes = .ok (.temporal t, names) := by
  simp [readObject, marked, readCarrier_primitive found known, yielding, withMeaning,
    Meaning.suits, overlay, plainly]

theorem readFields_cons {name : String} {type : WireType} {field : Field} {fields : List Field}
    {between : Names} {js : List Json} (named : attributes.text? "name" = some name)
    (valid : Identifier.isValid name)
    (run : readObject levels names space attributes = .ok (type, between))
    (complete : field? between levels name type attributes = .ok field)
    (others : readFields levels between space js = .ok (fields, later)) :
    readFields levels names space (.obj attributes :: js) = .ok (field :: fields, later) := by
  rw [readFields]
  simp [named, valid, run, complete, others, plainly]

theorem name_eq_ok {own base : String} (named : attributes.text? "name" = some base)
    (spaced : attributes.text? "namespace" = some own)
    (bare : Name.split? base = some (none, base)) (valid : Name.isSpace own) :
    attributes.name space = .ok ⟨own, base⟩ := by
  simp [Attributes.name, named, spaced, Name.ofAttributes, bare, valid]

theorem readRecord_eq_ok {name : Name} {aliases : List Name} {js : List Json}
    {fields : List Field} (own : attributes.name space = .ok name)
    (others : attributes.aliases name.space = .ok aliases)
    (content : Assoc.find? "fields" attributes = some (.arr js))
    (run : readFields levels (names.start name aliases) name.space js = .ok (fields, later))
    (distinct : distinctFields [] fields) :
    readRecord levels names space attributes =
      .ok (.record name fields, later.finish name aliases (.record name fields)) := by
  rw [readRecord]
  simp only [own, others, plainly, ok_bind]
  split
  · rename_i given
    cases content.symm.trans given
    simp [run, record?, distinct]
  · simp_all

theorem readObject_record {content : Json} {result : WireType × Names}
    (plain : attributes.meaning? = .ok none)
    (found : Assoc.find? "type" attributes = some (.str "record"))
    (given : Assoc.find? "fields" attributes = some content)
    (run : readRecord levels names space attributes = .ok result) :
    readObject levels names space attributes = .ok result := by
  rw [readObject, plain]
  simp only
  rw [readPlain]
  split
  · rename_i same
    cases found.symm.trans same
    simp [unlessEmpty, Assoc.contains, given, run]
  all_goals simp_all

theorem ofJson_of_read {j : Json} {t : WireType}
    (run : ∀ levels, ∃ later, read levels Names.empty "" j = .ok (t, later)) :
    ofJson j = .ok t := by
  obtain ⟨later, read⟩ := run (defaultLevels j)
  rw [ofJson, read]

end TypedRecords.Avro.WireType
