import TypedRecords.Proofs.Record.Bound
import TypedRecords.Proofs.Record.JsonView

/-! The keys of an object.
An entry has as many keys as there are spellings of its label, so an object may tell the value of
one entry more than once. Every one of its fields is converted and must fit, and of those that
lead to one place the last one counts. -/
namespace TypedRecords

open Result

theorem find?_rel {α β : Type} {R : α → β → Prop} {p : α → Bool} {q : β → Bool} {xs : List α}
    {ys : List β} (h : List.Forall₂ R xs ys) (same : ∀ x y, R x y → p x = q y) :
    Option.Rel R (xs.find? p) (ys.find? q) := by
  induction h with
  | nil => exact .none
  | @cons x y _ _ first rest ih =>
    rw [List.find?_cons, List.find?_cons, same x y first]
    cases q y with
    | true => exact .some first
    | false => exact ih

namespace Schema

/-! Names of places stand in faults only. -/

theorem readItems_eq_ok {convert : Converter} {name : String} (name' : String)
    (free : ∀ place place' j v, convert place j = .ok v → convert place' j = .ok v)
    {index : Nat} {items : List Json} {values : List Value}
    (run : readItems convert name index items = .ok values) :
    readItems convert name' index items = .ok values := by
  induction items generalizing index values with
  | nil => exact run
  | cons j rest ih =>
    obtain ⟨v, first, run⟩ := bind_eq_ok.1 run
    obtain ⟨vs, later, same⟩ := bind_eq_ok.1 run
    cases same
    have own := free _ (Value.itemName name' index) j v first
    simp [readItems, own, ih later]

theorem unlessNull_eq_ok {convert : Converter} {name name' : String} {j : Json} {v : Value}
    (free : convert name j = .ok v → convert name' j = .ok v)
    (run : unlessNull convert name j = .ok v) : unlessNull convert name' j = .ok v := by
  unfold unlessNull at run ⊢
  cases null : j.isNull with
  | true => simpa [null] using run
  | false => simpa [null] using free (by simpa [null] using run)

theorem converter_eq_ok (s : Schema) {name : String} (name' : String) {j : Json} {v : Value}
    (run : s.converter name j = .ok v) : s.converter name' j = .ok v := by
  match s with
  | .scalar k =>
    rw [converter] at run ⊢
    refine unlessNull_eq_ok (fun read => ?_) run
    cases known : scalarOfJson? j k with
    | none => simp [known] at read
    | some v => simpa [known] using read
  | .emptyRecord | .record .. =>
    rw [converter] at run ⊢
    exact unlessNull_eq_ok id run
  | .array element _ _ =>
    rw [converter] at run ⊢
    refine unlessNull_eq_ok (fun read => ?_) run
    cases known : j.items? with
    | none => simp [known] at read
    | some items =>
      simp only [known] at read ⊢
      obtain ⟨values, read, same⟩ := bind_eq_ok.1 read
      have free := fun place place' j v (h : element.converter place j = .ok v) =>
        element.converter_eq_ok place' h
      rw [readItems_eq_ok name' free read]
      exact same

/-! Fields of an object. -/

structure KeyReads (s : Schema) (key : String) (j : Json) (i : Nat) (e : Entry) (v : Value) :
    Prop where
  index : s.entryIndex? key = some i
  entry : s.entries[i]? = some e
  read : Value.ofJson e.schema j = .ok v
  fits : v.Fits e.schema e.nullable

/-- The last of the fields whose keys lead to a place. -/
def lastField? (s : Schema) (i : Nat) (fields : List (String × Json)) : Option (String × Json) :=
  fields.reverse.find? fun p => s.entryIndex? p.1 == some i

def Stores (s : Schema) (field : String × Json) (p : Nat × Value) : Prop :=
  ∃ e, s.KeyReads field.1 field.2 p.1 e p.2

theorem storeAll_of_writeFields {s : Schema} {written written' : Written}
    {fields : List (String × Json)}
    (run : s.writeFields (converters s.entries) written fields = .ok written') :
    ∃ stores, List.Forall₂ s.Stores fields stores ∧
      Written.StoreAll s.entries written stores written' := by
  induction fields generalizing written with
  | nil =>
    cases run
    exact ⟨[], .nil, .nil _⟩
  | cons field rest ih =>
    obtain ⟨key, j⟩ := field
    obtain ⟨i, e, convert, v, next, found, here, own, read, wrote, run⟩ :=
      writeFields_cons_eq_ok run
    rw [getElem?_converters, here, Option.map_some] at own
    cases own
    have reads : s.KeyReads key j i e v :=
      ⟨found, here, e.schema.converter_eq_ok _ read, (Written.write_eq_ok_iff.1 wrote).1⟩
    obtain ⟨stores, each, all⟩ := ih run
    exact ⟨(i, v) :: stores, .cons ⟨e, reads⟩ each, .cons here wrote all⟩

theorem keyReads_of_mem {s : Schema} {fields : List (String × Json)} {stores : List (Nat × Value)}
    (each : List.Forall₂ s.Stores fields stores) {key : String} {j : Json}
    (mem : (key, j) ∈ fields) : ∃ i e v, s.KeyReads key j i e v := by
  obtain ⟨n, inside, here⟩ := List.mem_iff_getElem.1 mem
  obtain ⟨e, reads⟩ := each.get inside (each.length_eq ▸ inside)
  simp only [List.get_eq_getElem, here] at reads
  exact ⟨_, e, _, reads⟩

theorem lastAt_eq_some {s : Schema} {fields : List (String × Json)} {stores : List (Nat × Value)}
    (each : List.Forall₂ s.Stores fields stores) {i : Nat} {field : String × Json}
    (last : s.lastField? i fields = some field) :
    ∃ e v, s.KeyReads field.1 field.2 i e v ∧ Written.lastAt i stores = some v := by
  have same : ∀ field p, s.Stores field p → (s.entryIndex? field.1 == some i) = (p.1 == i) := by
    rintro field p ⟨e, reads⟩
    simp [reads.index]
  have found := find?_rel (List.forall₂_reverse_iff.2 each) same
  rw [lastField?] at last
  rw [last] at found
  cases stored : stores.reverse.find? fun p => p.1 == i with
  | none =>
    rw [stored] at found
    cases found
  | some p =>
    rw [stored] at found
    obtain ⟨⟨e, reads⟩⟩ := found
    obtain rfl : p.1 = i := by simpa using List.find?_some stored
    exact ⟨e, p.2, reads, by rw [Written.lastAt, stored, Option.map_some]⟩

end Schema

namespace Record

theorem ofJson_eq_ok {s : Schema} {o : Json} {fields : List (String × Json)} {r : Record}
    (object : o.fields? = some fields) (run : ofJson s o = .ok r) :
    ∃ stores written, List.Forall₂ s.Stores fields stores ∧
      Written.StoreAll s.entries [] stores written ∧
      RecordBuilder.build ⟨.bound s, written⟩ = .ok r := by
  rw [ofJson, Schema.readRecord] at run
  simp only [object] at run
  split at run
  · obtain ⟨written, wrote, run⟩ := bind_eq_ok.1 run
    obtain ⟨stores, each, all⟩ := Schema.storeAll_of_writeFields wrote
    exact ⟨stores, written, each, all, run⟩
  · cases run

/-- Every key of an object that was read leads to an entry, which reads what stands there, and
reading the record by the key gives what stands under the last key that leads to the same
place. -/
theorem ofJson_keeps_last_fields {s : Schema} {o : Json} {fields : List (String × Json)}
    {r : Record} (h : s.Obtainable) (object : o.fields? = some fields)
    (run : ofJson s o = .ok r) {key : String} {j : Json} (mem : (key, j) ∈ fields) :
    ∃ i e v, s.KeyReads key j i e v ∧ ∃ key' j' v', s.lastField? i fields = some (key', j') ∧
      s.KeyReads key' j' i e v' ∧ r.get key = .ok v' := by
  obtain ⟨stores, written, each, all, built⟩ := ofJson_eq_ok object run
  obtain ⟨i, e, v, reads⟩ := Schema.keyReads_of_mem each mem
  refine ⟨i, e, v, reads, ?_⟩
  obtain ⟨⟨key', j'⟩, last⟩ : ∃ field, s.lastField? i fields = some field := by
    rw [← Option.isSome_iff_exists, Schema.lastField?, List.find?_isSome]
    exact ⟨(key, j), List.mem_reverse.2 mem, by simp [reads.index]⟩
  obtain ⟨e', v', reads', stored⟩ := Schema.lastAt_eq_some each last
  obtain rfl : e = e' := Option.some.inj (reads.entry.symm.trans reads'.entry)
  have holds := all.find?_eq_lastAt h.wellFormed.distinct
  obtain ⟨made, -, filled⟩ := (RecordBuilder.build_eq_ok_iff holds r).1 built
  obtain ⟨w, there, gets⟩ := filled i e reads.entry
  rw [stored] at gets
  cases gets
  have leads := Schema.leads h.wellFormed.distinct reads.index reads.entry
  exact ⟨key', j', v', last, reads', (leads.read r made v').2 there⟩

/-! An object in which a label and the name that it gets tell two values of one entry. -/

def spelledTwice : Json := .ofFields [("first name", .str "Ada"), ("first_name", .str "Eva")]

def eva : Record := ⟨.person, [.string "Eva", .int 18, .null]⟩

theorem ofJson_keeps_last_fields_eva : ∃ fields, spelledTwice.fields? = some fields ∧
    ofJson .person spelledTwice = .ok eva ∧ ("first name", .str "Ada") ∈ fields ∧
    ∃ i e v, Schema.person.KeyReads "first name" (.str "Ada") i e v ∧ ∃ key' j' v',
      Schema.person.lastField? i fields = some (key', j') ∧
      Schema.person.KeyReads key' j' i e v' ∧ eva.get "first name" = .ok v' := by
  have known : Schema.person.Obtainable :=
    Schema.obtainable_iff_wellFormed.2 Schema.wellFormed_person
  have run : ofJson .person spelledTwice = .ok eva := rfl
  have mem : ("first name", .str "Ada") ∈
      [("first name", Json.str "Ada"), ("first_name", .str "Eva")] := .head _
  exact ⟨_, rfl, run, mem, ofJson_keeps_last_fields known rfl run mem⟩

/-- The value under the first of the two keys is in no place of the record. -/
theorem ofJson_drops_earlier_field : Schema.person.Obtainable ∧
    spelledTwice.fields? = some [("first name", .str "Ada"), ("first_name", .str "Eva")] ∧
    ofJson .person spelledTwice = .ok eva ∧
    ¬ ∃ i e v, Schema.person.KeyReads "first name" (.str "Ada") i e v ∧
      eva.get "first name" = .ok v := by
  refine ⟨Schema.obtainable_iff_wellFormed.2 Schema.wellFormed_person, rfl, rfl, ?_⟩
  rintro ⟨i, e, v, reads, found⟩
  obtain rfl : i = 0 := (Option.some.inj reads.index).symm
  obtain rfl : e = Schema.firstName := (Option.some.inj reads.entry).symm
  obtain rfl : v = .string "Ada" := (Except.ok.inj reads.read).symm
  have told : eva.get "first name" = .ok (.string "Eva") := rfl
  simp [told] at found

end Record
end TypedRecords
