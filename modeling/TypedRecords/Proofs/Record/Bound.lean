import TypedRecords.Proofs.Record.Places
import TypedRecords.Proofs.Record.Unbound

/-! Bound builders remember last writes only.
A name, a label and an entry are ways to a place of the schema, and a place holds what was written
to it last. So the record that is built, or the fault that comes instead, depends neither on the
keys nor on the order in which different places were written. -/
namespace TypedRecords

open Result

/-! What an entry gets. -/

namespace Entry

structure DefaultsTo (e : Entry) (v : Value) : Prop where
  read : ∃ j, e.default = some j ∧ Value.ofJson e.schema j = .ok v
  fits : v.Fits e.schema false

inductive Defaults (e : Entry) : Result Value → Prop
  | taken {v : Value} (h : e.DefaultsTo v) : Defaults e (.ok v)
  | missing (undeclared : e.default = none) : Defaults e (.error (.missingValue e.name))
  | unreadable {j : Json} {fault : SchemaError} (declared : e.default = some j)
      (failed : Value.ofJson e.schema j = .error fault) : Defaults e (.error fault)
  | refused {j : Json} {v : Value} {fault : SchemaError} (declared : e.default = some j)
      (read : Value.ofJson e.schema j = .ok v)
      (failed : v.validate e.schema false e.name = .error fault) : Defaults e (.error fault)

/-- What an entry gets in a record: what was written to it last, else null, else its default. -/
inductive Gets (e : Entry) : (last : Option Value) → Result Value → Prop
  | written (v : Value) : Gets e (some v) (.ok v)
  | null (nullable : e.nullable = true) : Gets e none (.ok .null)
  | default {outcome : Result Value} (required : e.nullable = false) (h : e.Defaults outcome) :
      Gets e none outcome

theorem defaults_iff {e : Entry} {outcome : Result Value} :
    e.Defaults outcome ↔ Written.fallback e e.schema.converter = outcome := by
  constructor
  · intro h
    cases h with
    | @taken v own =>
      obtain ⟨j, declared, read⟩ := own.read
      have checked : v.validate e.schema false e.name = .ok () :=
        (Value.validate_eq_ok_iff v).2 own.fits
      rw [Value.ofJson] at read
      simp [Written.fallback, declared, read, checked]
    | missing undeclared => simp [Written.fallback, undeclared]
    | unreadable declared failed =>
      rw [Value.ofJson] at failed
      simp [Written.fallback, declared, failed]
    | refused declared read failed =>
      rw [Value.ofJson] at read
      simp [Written.fallback, declared, read, failed]
  · rintro rfl
    cases declared : e.default with
    | none =>
      simp only [Written.fallback, declared]
      exact .missing declared
    | some j =>
      simp only [Written.fallback, declared]
      cases read : e.schema.converter "value" j with
      | error fault => exact .unreadable declared read
      | ok v =>
        rw [ok_bind]
        cases checked : v.validate e.schema false e.name with
        | error fault => exact .refused declared read checked
        | ok _ => exact .taken ⟨⟨j, declared, read⟩, (Value.validate_eq_ok_iff v).1 checked⟩

theorem gets_iff {e : Entry} {written : Written} {outcome : Result Value} :
    e.Gets (Assoc.find? e.name written) outcome ↔
      written.value e e.schema.converter = outcome := by
  rw [Written.value]
  cases found : Assoc.find? e.name written with
  | some v =>
    constructor
    · rintro ⟨⟩
      rfl
    · rintro rfl
      exact .written v
  | none =>
    cases nullable : e.nullable with
    | true =>
      constructor
      · rintro (_ | _ | ⟨required, -⟩)
        · rfl
        · cases nullable.symm.trans required
      · rintro rfl
        exact .null nullable
    | false =>
      constructor
      · rintro (_ | own | ⟨-, h⟩)
        · cases nullable.symm.trans own
        · exact defaults_iff.1 h
      · intro same
        exact .default nullable (defaults_iff.2 same)

/-- An entry stays without a value if nothing was written to it, null is no value for it, and its
default is none either. -/
theorem exists_gets_error_iff {e : Entry} {last : Option Value} :
    (∃ fault, e.Gets last (.error fault)) ↔
      last = none ∧ e.nullable = false ∧ ¬ ∃ v, e.DefaultsTo v := by
  constructor
  · rintro ⟨fault, _ | _ | ⟨required, failed⟩⟩
    refine ⟨rfl, required, fun ⟨v, taken⟩ => ?_⟩
    cases (defaults_iff.1 failed).symm.trans (defaults_iff.1 (.taken taken))
  · rintro ⟨rfl, required, undefaulted⟩
    cases outcome : Written.fallback e e.schema.converter with
    | error fault => exact ⟨fault, .default required (defaults_iff.2 outcome)⟩
    | ok v =>
      cases defaults_iff.2 outcome with
      | taken h => exact absurd ⟨v, h⟩ undefaulted

end Entry

namespace Written

theorem fill_eq_mapM (written : Written) (entries : List Entry) :
    written.fill entries (Schema.converters entries) =
      entries.mapM fun e => written.value e e.schema.converter := by
  induction entries with
  | nil => rfl
  | cons e rest ih =>
    obtain ⟨name, rawName, schema, nullable, metadata, comment, default, props⟩ := e
    rw [Schema.converters, fill_cons, ih, List.mapM_cons]

/-! Runs of writes to places. -/

def lastAt (i : Nat) (stores : List (Nat × Value)) : Option Value :=
  (stores.reverse.find? fun p => p.1 == i).map Prod.snd

theorem lastAt_cons (i j : Nat) (v : Value) (rest : List (Nat × Value)) :
    lastAt i ((j, v) :: rest) = (lastAt i rest).or (if j = i then some v else none) := by
  rw [lastAt, List.reverse_cons, List.find?_append, Option.map_or]
  by_cases same : j = i <;> simp [lastAt, same]

inductive StoreAll (entries : List Entry) : Written → List (Nat × Value) → Written → Prop
  | nil (written : Written) : StoreAll entries written [] written
  | cons {written next written' : Written} {i : Nat} {e : Entry} {v : Value}
      {rest : List (Nat × Value)} (here : entries[i]? = some e)
      (wrote : written.write e v = .ok next) (later : StoreAll entries next rest written') :
      StoreAll entries written ((i, v) :: rest) written'

theorem StoreAll.find? {entries : List Entry} {written written' : Written}
    {stores : List (Nat × Value)} (h : StoreAll entries written stores written')
    (distinct : (entries.map Entry.name).Nodup) {i : Nat} {e : Entry}
    (here : entries[i]? = some e) :
    Assoc.find? e.name written' = (lastAt i stores).or (Assoc.find? e.name written) := by
  induction h with
  | nil written => rfl
  | @cons written next written' j f v rest there wrote later ih =>
    obtain ⟨-, rfl⟩ := write_eq_ok_iff.1 wrote
    rw [ih, lastAt_cons, Assoc.find?_insert, Option.or_assoc]
    by_cases same : j = i
    · subst same
      cases here.symm.trans there
      simp
    · have apart : f.name ≠ e.name := fun named =>
        same (Schema.place_eq_of_name_eq distinct there here named)
      simp [same, apart]

theorem StoreAll.find?_eq_lastAt {entries : List Entry} {written : Written}
    {stores : List (Nat × Value)} (h : StoreAll entries [] stores written)
    (distinct : (entries.map Entry.name).Nodup) (i : Nat) (e : Entry)
    (here : entries[i]? = some e) : Assoc.find? e.name written = lastAt i stores :=
  (h.find? distinct here).trans Option.or_none

end Written

namespace RecordBuilder

theorem build_bound_eq (s : Schema) (written : Written) :
    build ⟨.bound s, written⟩ =
      (s.entries.mapM fun e => written.value e e.schema.converter) >>= fun values =>
        .ok ⟨s, values⟩ := by
  rw [← Written.fill_eq_mapM]
  rfl

def stores (s : Schema) (ws : List Write) : List (Nat × Value) :=
  ws.filterMap fun w => do return (← s.entryIndex? (keyName w.key), ← w.value?)

/-- What was written to a place last, whichever keys led there. -/
def lastWritten (s : Schema) (ws : List Write) (i : Nat) : Option Value :=
  Written.lastAt i (stores s ws)

section

variable {s : Schema} {written : Written} {b : RecordBuilder}

theorem run_bound {w : Write} (run : w.run ⟨.bound s, written⟩ = .ok b) :
    ∃ i e v written', s.entryIndex? (keyName w.key) = some i ∧ s.entries[i]? = some e ∧
      w.value? = some v ∧ written.write e v = .ok written' ∧ b = ⟨.bound s, written'⟩ := by
  obtain ⟨v, stored, run⟩ := Write.run_eq_ok_iff.1 run
  simp only [RecordBuilder.write] at run
  split at run
  · cases run
  · rename_i e known
    obtain ⟨i, found, here⟩ := Option.bind_eq_some_iff.1 known
    obtain ⟨written', wrote, same⟩ := bind_eq_ok.1 run
    cases same
    exact ⟨i, e, v, written', found, here, stored, wrote, rfl⟩

theorem writeAll_bound {ws : List Write} (run : writeAll ⟨.bound s, written⟩ ws = .ok b) :
    ∃ written', b = ⟨.bound s, written'⟩ ∧ (stores s ws).length = ws.length ∧
      Written.StoreAll s.entries written (stores s ws) written' := by
  induction ws generalizing written with
  | nil =>
    cases run
    exact ⟨written, rfl, rfl, .nil written⟩
  | cons w rest ih =>
    obtain ⟨next, first, later⟩ := bind_eq_ok.1 run
    obtain ⟨i, e, v, between, found, here, stored, wrote, rfl⟩ := run_bound first
    obtain ⟨written', same, one, all⟩ := ih later
    have head : stores s (w :: rest) = (i, v) :: stores s rest := by
      simp [stores, found, stored]
    exact ⟨written', same, by simp [head, one], head ▸ .cons here wrote all⟩

end

/-- What a builder makes of a schema, given the values that were written to its places last. -/
structure BuildsFrom (b : RecordBuilder) (s : Schema) (last : Nat → Option Value) : Prop where
  record : ∀ r, b.build = .ok r ↔ r.schema = s ∧ r.values.length = s.entries.length ∧
    ∀ (i : Nat) e, s.entries[i]? = some e →
      ∃ v, r.values[i]? = some v ∧ e.Gets (last i) (.ok v)
  fault : ∀ fault, b.build = .error fault ↔
    ∃ (i : Nat) (e : Entry), s.entries[i]? = some e ∧ e.Gets (last i) (.error fault) ∧
      ∀ (j : Nat) f, j < i → s.entries[j]? = some f → ∃ v, f.Gets (last j) (.ok v)
  /-- There is a fault exactly if an entry that must not be null was not written and has no
  default. -/
  fails : (∃ fault, b.build = .error fault) ↔
    ∃ (i : Nat) (e : Entry), s.entries[i]? = some e ∧ last i = none ∧ e.nullable = false ∧
      ¬ ∃ v, e.DefaultsTo v

section

variable {s : Schema} {written : Written} {last : Nat → Option Value}
  (h : ∀ (i : Nat) e, s.entries[i]? = some e → Assoc.find? e.name written = last i)
include h

theorem gets_last_iff {i : Nat} {e : Entry} (here : s.entries[i]? = some e)
    (outcome : Result Value) :
    e.Gets (last i) outcome ↔ written.value e e.schema.converter = outcome := by
  rw [← h i e here, Entry.gets_iff]

theorem build_eq_ok_iff (r : Record) : build ⟨.bound s, written⟩ = .ok r ↔
    r.schema = s ∧ r.values.length = s.entries.length ∧ ∀ (i : Nat) e, s.entries[i]? = some e →
      ∃ v, r.values[i]? = some v ∧ e.Gets (last i) (.ok v) := by
  rw [build_bound_eq, bind_eq_ok]
  constructor
  · rintro ⟨values, filled, same⟩
    cases same
    obtain ⟨one, each⟩ := mapM_eq_ok_iff_getElem?.1 filled
    refine ⟨rfl, one, fun i e here => ?_⟩
    obtain ⟨v, there, own⟩ := each i e here
    exact ⟨v, there, (gets_last_iff h here _).2 own⟩
  · obtain ⟨made, values⟩ := r
    rintro ⟨rfl, one, each⟩
    refine ⟨values, mapM_eq_ok_iff_getElem?.2 ⟨one, fun i e here => ?_⟩, rfl⟩
    obtain ⟨v, there, gets⟩ := each i e here
    exact ⟨v, there, (gets_last_iff h here _).1 gets⟩

theorem build_eq_error_iff (fault : SchemaError) : build ⟨.bound s, written⟩ = .error fault ↔
    ∃ (i : Nat) (e : Entry), s.entries[i]? = some e ∧ e.Gets (last i) (.error fault) ∧
      ∀ (j : Nat) f, j < i → s.entries[j]? = some f → ∃ v, f.Gets (last j) (.ok v) := by
  rw [build_bound_eq, bind_ok_eq_error, mapM_eq_error_iff]
  constructor
  · rintro ⟨i, e, here, failed, before⟩
    refine ⟨i, e, here, (gets_last_iff h here _).2 failed, fun j f below there => ?_⟩
    obtain ⟨v, own⟩ := before j f below there
    exact ⟨v, (gets_last_iff h there _).2 own⟩
  · rintro ⟨i, e, here, gets, before⟩
    refine ⟨i, e, here, (gets_last_iff h here _).1 gets, fun j f below there => ?_⟩
    obtain ⟨v, own⟩ := before j f below there
    exact ⟨v, (gets_last_iff h there _).1 own⟩

theorem buildsFrom_last : BuildsFrom ⟨.bound s, written⟩ s last := by
  refine ⟨build_eq_ok_iff h, build_eq_error_iff h, ?_⟩
  constructor
  · rintro ⟨fault, failed⟩
    obtain ⟨i, e, here, gets, -⟩ := (build_eq_error_iff h fault).1 failed
    exact ⟨i, e, here, Entry.exists_gets_error_iff.1 ⟨fault, gets⟩⟩
  · rintro ⟨i, e, here, empty⟩
    obtain ⟨fault, gets⟩ := Entry.exists_gets_error_iff.2 empty
    cases outcome : build ⟨.bound s, written⟩ with
    | error fault => exact ⟨fault, rfl⟩
    | ok r =>
      obtain ⟨-, -, each⟩ := (build_eq_ok_iff h r).1 outcome
      obtain ⟨v, -, own⟩ := each i e here
      cases ((gets_last_iff h here _).1 gets).symm.trans ((gets_last_iff h here _).1 own)

end

theorem build_bound_congr {s : Schema} {written written' : Written}
    (same : ∀ e ∈ s.entries, Assoc.find? e.name written' = Assoc.find? e.name written) :
    build ⟨.bound s, written'⟩ = build ⟨.bound s, written⟩ := by
  rw [build_bound_eq, build_bound_eq]
  have each : ∀ e ∈ s.entries,
      written'.value e e.schema.converter = written.value e e.schema.converter := by
    intro e he
    rw [Written.value, Written.value, same e he]
  rw [mapM_congr each]

/-- A bound builder builds from the last writes to the places of its schema, and two runs of
writes that agree on these build the same. -/
theorem bound_builds_from_last_writes {s : Schema} {b₀ b : RecordBuilder} {ws : List Write}
    (h : s.Obtainable) (start : bound s = .ok b₀) (run : b₀.writeAll ws = .ok b) :
    (stores s ws).length = ws.length ∧ b.BuildsFrom s (lastWritten s ws) ∧
      ∀ ws' b', b₀.writeAll ws' = .ok b' →
        (∀ i, lastWritten s ws' i = lastWritten s ws i) → b'.build = b.build := by
  obtain rfl : b₀ = ⟨.bound s, []⟩ := by
    unfold bound at start
    split at start
    · exact (Except.ok.inj start).symm
    · cases start
  have distinct := h.wellFormed.distinct
  obtain ⟨written, rfl, one, all⟩ := writeAll_bound run
  refine ⟨one, buildsFrom_last (all.find?_eq_lastAt distinct), fun ws' b' run' same => ?_⟩
  obtain ⟨written', rfl, -, all'⟩ := writeAll_bound run'
  refine build_bound_congr fun e he => ?_
  obtain ⟨i, here⟩ := List.mem_iff_getElem?.1 he
  have agree : Written.lastAt i (stores s ws') = Written.lastAt i (stores s ws) := same i
  rw [all'.find?_eq_lastAt distinct i e here, all.find?_eq_lastAt distinct i e here, agree]

end RecordBuilder

/-! A name that is written by its label, then by the name that the label gets, beside an age that
has a default. -/

namespace Schema

def firstName : Entry :=
  ⟨"first_name", some "first name", .scalar .string, false, false, none, none, Props.empty⟩

def person : Schema :=
  .record "Person"
    [firstName, ⟨"age", none, .scalar .int, false, false, none, some (.int 18), Props.empty⟩,
     ⟨"nick", none, .scalar .string, true, false, none, none, Props.empty⟩]
    (Props.ofList [(Canonical.orderKey, "first_name,age,nick")])

theorem wellFormed_person : person.WellFormed := by
  have own : Arranged "Person" person.entries person.props :=
    { valid := by decide
      distinct := by decide
      ordered := ⟨["first_name", "age", "nick"], by decide, by decide⟩
      consistent := by decide }
  refine wellFormed_record.2 ⟨own, ?_⟩
  simp [firstName, wellFormed_scalar]

end Schema

namespace RecordBuilder

namespace Write

def spelled : List Write :=
  [.value (.label "first name") (.string "Ada"), .value (.label "nick") .null,
    .value (.label "first_name") (.string "Eva")]

def addressed : List Write :=
  [.value (.entry Schema.firstName) (.string "Eva"), .value (.label "nick") .null]

end Write

theorem bound_builds_from_last_writes_person : ∃ b₀ b b', bound .person = .ok b₀ ∧
    b₀.writeAll Write.spelled = .ok b ∧ b₀.writeAll Write.addressed = .ok b' ∧
    b.BuildsFrom .person (lastWritten .person Write.spelled) ∧ b'.build = b.build ∧
    b.build = .ok ⟨.person, [.string "Eva", .int 18, .null]⟩ := by
  have same (i : Nat) : lastWritten .person Write.addressed i =
      lastWritten .person Write.spelled i := by
    match i with
    | 0 | 1 | 2 | _ + 3 => rfl
  have known : Schema.person.Obtainable :=
    Schema.obtainable_iff_wellFormed.2 Schema.wellFormed_person
  have start : bound .person = .ok ⟨.bound .person, []⟩ := rfl
  have run : writeAll ⟨.bound .person, []⟩ Write.spelled =
      .ok ⟨.bound .person, [("first_name", .string "Eva"), ("nick", .null)]⟩ := rfl
  obtain ⟨-, builds, agree⟩ := bound_builds_from_last_writes known start run
  exact ⟨_, _, _, start, run, rfl, builds, agree Write.addressed _ rfl same, rfl⟩

end RecordBuilder
end TypedRecords
