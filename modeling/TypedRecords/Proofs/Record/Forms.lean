import TypedRecords.Proofs.Record.Instants

/-! Exact instants in all their forms.
An instant can be written as a value, as it is or by its milliseconds, told by a document as a
number or a text, and held by a container as a count. If it is exact, all of these are read as that
instant, also among the items of arrays. So records are the same whichever forms are used. -/
namespace TypedRecords

open Avro Result

theorem Schema.writeFields_cons (s : Schema) (written : Written) (key : String) (j : Json)
    (rest : List (String × Json)) :
    s.writeFields (converters s.entries) written ((key, j) :: rest) =
      match s.entry? key with
      | none => .error (.notInSchema key)
      | some e => (do
        let v ← e.schema.converter e.name j
        s.writeFields (converters s.entries) (← written.write e v) rest) := by
  rw [writeFields, entry?]
  cases s.entryIndex? key with
  | none => rfl
  | some i =>
    rw [Option.bind_some]
    simp only [getElem?_converters]
    cases s.entries[i]? <;> rfl

namespace Value

/-- All instants in a value are exact, and in the years that are kept. -/
def Sound (v : Value) : Prop := ∀ t ∈ v.instants, t.Exact ∧ t.Kept

theorem sound_array {items : List Value} :
    (Value.array items).Sound ↔ ∀ v ∈ items, v.Sound := by
  constructor
  · exact fun h v hv t ht => h t (mem_instantsOf.2 ⟨v, hv, ht⟩)
  · intro h t ht
    obtain ⟨v, hv, inside⟩ := mem_instantsOf.1 ht
    exact h v hv t inside

mutual
/-- What a document can tell for a value of a type: an instant by its milliseconds or by its text,
an array item by item, and a value as whatever is read as that value. Instants in years of four
digits have a text. -/
inductive Told : Schema → Value → Json → Prop
  | number (t : Instant) : Told (.scalar .datetime) (.datetime t) (.int t.millis)
  | text (t : Instant) (year : 0 ≤ t.year ∧ t.year ≤ 9999) :
      Told (.scalar .datetime) (.datetime t) (.str t.text)
  | array {element : Schema} (nullable : Bool) (props : Props) {items : List Value} {js : List Json}
      (each : ToldAll element items js) :
      Told (.array element nullable props) (.array items) (.arr js)
  | value {s : Schema} {v : Value} {j : Json} (read : ∀ name, s.converter name j = .ok v) :
      Told s v j

inductive ToldAll : Schema → List Value → List Json → Prop
  | nil (element : Schema) : ToldAll element [] []
  | cons {element : Schema} {v : Value} {j : Json} {items : List Value} {js : List Json}
      (first : Told element v j) (rest : ToldAll element items js) :
      ToldAll element (v :: items) (j :: js)
end

mutual
inductive Held : Schema → Value → Datum → Prop
  | temporal (t : Instant) (nullable : Bool) : Held (.scalar .datetime) (.datetime t)
      (branchIf nullable (.temporal .timestampMillis (Int64.ofInt t.millis)))
  | long (t : Instant) (nullable : Bool) : Held (.scalar .datetime) (.datetime t)
      (branchIf nullable (.long (Int64.ofInt t.millis)))
  | array {element : Schema} (itemNullable : Bool) (props : Props) (nullable : Bool)
      {items : List Value} {ds : List Datum} (each : HeldAll element items ds) :
      Held (.array element itemNullable props) (.array items) (branchIf nullable (.array ds))
  | value {s : Schema} {v : Value} {d : Datum} (read : ∀ name, ofDatum s name true d = .ok v) :
      Held s v d

inductive HeldAll : Schema → List Value → List Datum → Prop
  | nil (element : Schema) : HeldAll element [] []
  | cons {element : Schema} {v : Value} {d : Datum} {items : List Value} {ds : List Datum}
      (first : Held element v d) (rest : HeldAll element items ds) :
      HeldAll element (v :: items) (d :: ds)
end

section

variable {t : Instant} (exact_ : t.Exact) (kept : t.Kept)
include exact_ kept

theorem converter_millis (name : String) :
    (Schema.scalar .datetime).converter name (.int t.millis) = .ok (.datetime t) := by
  have whole : (Json.int t.millis).int64? = some (Int64.ofInt t.millis) := by
    have read := int64?_toInt (Int64.ofInt t.millis)
    rwa [kept.toInt_ofInt] at read
  have told : Schema.scalarOfJson? (.int t.millis) .datetime =
      some (.datetime (.ofMillis t.millis)) := by
    simp [Schema.scalarOfJson?, Schema.instantOfJson?, whole, kept.toInt_ofInt, kept.ofMillis?]
  rw [exact_] at told
  exact Schema.converter_scalar (by simp [Json.isNull]) told name

omit kept in
theorem converter_text (year : 0 ≤ t.year ∧ t.year ≤ 9999) (name : String) :
    (Schema.scalar .datetime).converter name (.str t.text) = .ok (.datetime t) := by
  obtain ⟨nanos, millis⟩ := Instant.exact_iff.1 exact_
  have shown : (Value.datetime t).Shown := Instant.Whole.mk nanos millis year
  have told := scalarOfJson?_toJson (k := .datetime) rfl shown
  exact Schema.converter_scalar (isNull_toJson shown) told name

theorem scalarOfDatum_millis {d : Datum} (millis : millisOfDatum? d = some (Int64.ofInt t.millis))
    (name : String) : scalarOfDatum (.scalar .datetime) name d = .ok (.datetime t) := by
  have range := kept.ofMillis?
  rw [exact_] at range
  simp [scalarOfDatum, millis, kept.toInt_ofInt, range]

end

/-! The induction is on the value: the items of an array are told and held by items. -/

mutual
theorem Told.read {s : Schema} (v : Value) {j : Json} (sound : v.Sound) (h : Told s v j)
    (name : String) : s.converter name j = .ok v := by
  cases h with
  | number t =>
    obtain ⟨exact_, kept⟩ := sound t (by simp [instants])
    exact converter_millis exact_ kept name
  | text t year => exact converter_text (sound t (by simp [instants])).1 year name
  | @array element nullable props items js each =>
    rw [Schema.converter_arr rfl, ToldAll.read items (sound_array.1 sound) each name 0]
    rfl
  | value read => exact read name

theorem ToldAll.read {element : Schema} (items : List Value) {js : List Json}
    (sound : ∀ v ∈ items, v.Sound) (h : ToldAll element items js) (name : String) (index : Nat) :
    Schema.readItems element.converter name index js = .ok items := by
  cases h with
  | nil => rfl
  | @cons _ v j items js first rest =>
    obtain ⟨own, others⟩ := List.forall_mem_cons.1 sound
    simp [Schema.readItems, Told.read v own first, ToldAll.read items others rest]
end

mutual
theorem Held.read {s : Schema} (v : Value) {d : Datum} (sound : v.Sound) (h : Held s v d)
    (name : String) : ofDatum s name true d = .ok v := by
  cases h with
  | temporal t nullable =>
    obtain ⟨exact_, kept⟩ := sound t (by simp [instants])
    rw [ofDatum_branchIf (by simp)]
    simp only [ofDatum]
    exact scalarOfDatum_millis exact_ kept rfl name
  | long t nullable =>
    obtain ⟨exact_, kept⟩ := sound t (by simp [instants])
    rw [ofDatum_branchIf (by simp)]
    simp only [ofDatum]
    exact scalarOfDatum_millis exact_ kept rfl name
  | @array element itemNullable props nullable items ds each =>
    rw [ofDatum_branchIf (by simp)]
    simp [ofDatum, Schema.element?, HeldAll.read items (sound_array.1 sound) each]
  | value read => exact read name

theorem HeldAll.read {element : Schema} (items : List Value) {ds : List Datum}
    (sound : ∀ v ∈ items, v.Sound) (h : HeldAll element items ds) (name : String) (index : Nat) :
    itemsOfDatum element name index ds = .ok items := by
  cases h with
  | nil => rfl
  | @cons _ v d items ds first rest =>
    obtain ⟨own, others⟩ := List.forall_mem_cons.1 sound
    simp [itemsOfDatum, Held.read v own first, HeldAll.read items others rest]
end

end Value

namespace Route

inductive Writes (p : String × Value) : RecordBuilder.Write → Prop
  | value : Writes p (.value (.label p.1) p.2)
  | timestamp (t : Instant) (same : p.2 = .datetime t) :
      Writes p (.timestamp (.label p.1) t.millis)
  | datetime (t : Instant) (same : p.2 = .datetime t) : Writes p (.datetime (.label p.1) t)

structure Tells (s : Schema) (p : String × Value) (field : String × Json) : Prop where
  key : field.1 = p.1
  told : ∀ e, s.entry? p.1 = some e → p.2.Told e.schema field.2

structure Holds (s : Schema) (p : String × Value) (field : String × Datum) : Prop where
  key : field.1 = p.1
  held : ∀ e, s.entry? p.1 = some e → p.2.Held e.schema field.2

def write (b : RecordBuilder) (p : String × Value) : Result RecordBuilder :=
  RecordBuilder.write b (.label p.1) p.2

def store (s : Schema) (written : Written) (p : String × Value) : Result Written :=
  match s.entry? p.1 with
  | none => .error (.notInSchema p.1)
  | some e => written.write e p.2

theorem Writes.run_eq {p : String × Value} {w : RecordBuilder.Write} (h : Writes p w)
    (sound : p.2.Sound) (b : RecordBuilder) : w.run b = write b p := by
  have counted (t : Instant) (same : p.2 = .datetime t) :
      b.writeTimestamp (.label p.1) t.millis = write b p := by
    obtain ⟨exact_, kept⟩ := sound t (by simp [same, Value.instants])
    rw [RecordBuilder.writeTimestamp, kept.ofMillis?, exact_, write, same]
  cases h with
  | value => rfl
  | timestamp t same => exact counted t same
  | datetime t same => exact counted t same

variable {values : List (String × Value)}

theorem foldlM_write_bound (s : Schema) (written : Written) :
    values.foldlM write ⟨.bound s, written⟩ =
      values.foldlM (store s) written >>= fun written => .ok ⟨.bound s, written⟩ := by
  induction values generalizing written with
  | nil => rfl
  | cons p rest ih =>
    rw [List.foldlM_cons, List.foldlM_cons, store, write]
    simp only [RecordBuilder.write, RecordBuilder.keyName]
    cases s.entry? p.1 with
    | none => rfl
    | some e =>
      cases wrote : Written.write written e p.2 with
      | error fault => simp [wrote]
      | ok next => simpa [wrote] using ih next

section

variable (sound : ∀ p ∈ values, p.2.Sound)
include sound

theorem writeAll_eq {ws : List RecordBuilder.Write} (forms : List.Forall₂ Writes values ws)
    (b : RecordBuilder) : b.writeAll ws = values.foldlM write b := by
  induction forms generalizing b with
  | nil => rfl
  | @cons p w values ws first rest ih =>
    obtain ⟨own, others⟩ := List.forall_mem_cons.1 sound
    rw [RecordBuilder.writeAll, List.foldlM_cons, List.foldlM_cons, first.run_eq own b]
    exact congrArg _ (funext fun b' => ih others b')

theorem writeFields_eq {s : Schema} {fields : List (String × Json)}
    (forms : List.Forall₂ (Tells s) values fields) (written : Written) :
    s.writeFields (Schema.converters s.entries) written fields =
      values.foldlM (store s) written := by
  induction forms generalizing written with
  | nil => rfl
  | @cons p field values fields first rest ih =>
    obtain ⟨own, others⟩ := List.forall_mem_cons.1 sound
    obtain ⟨key, j⟩ := field
    obtain ⟨rfl, told⟩ := first
    rw [List.foldlM_cons, Schema.writeFields_cons, store]
    cases known : s.entry? p.1 with
    | none => rfl
    | some e =>
      simp only [(told e known).read p.2 own, ok_bind]
      exact congrArg _ (funext fun next => ih others next)

theorem writeData_eq {s : Schema} {data : List (String × Datum)}
    (forms : List.Forall₂ (Holds s) values data) (written : Written) :
    Value.writeData s written data = values.foldlM (store s) written := by
  induction forms generalizing written with
  | nil => rfl
  | @cons p field values data first rest ih =>
    obtain ⟨own, others⟩ := List.forall_mem_cons.1 sound
    obtain ⟨key, d⟩ := field
    obtain ⟨rfl, held⟩ := first
    rw [List.foldlM_cons, Value.writeData, store]
    cases known : s.entry? p.1 with
    | none => rfl
    | some e =>
      simp only [(held e known).read p.2 own, ok_bind]
      exact congrArg _ (funext fun next => ih others next)

end

end Route

def Record.ofWrites (s : Schema) (ws : List RecordBuilder.Write) : Result Record := do
  (← (← RecordBuilder.bound s).writeAll ws).build

/-- It is the same to a record in which forms its values are handed over. -/
structure Route.Agree (values : List (String × Value)) : Prop where
  /-- Any builder is left the same by any forms of the writes. -/
  writes : ∀ (b : RecordBuilder) ws ws', List.Forall₂ Writes values ws →
    List.Forall₂ Writes values ws' → b.writeAll ws = b.writeAll ws'
  /-- Writes, documents and containers make the same record. -/
  records : ∀ (s : Schema) ws fields data, s.kind = .record → List.Forall₂ Writes values ws →
    List.Forall₂ (Tells s) values fields → List.Forall₂ (Holds s) values data →
    Record.ofWrites s ws = Record.ofJson s (.obj fields) ∧
      Record.ofJson s (.obj fields) = Record.ofDatum s (.record data)

theorem Route.agree {values : List (String × Value)} (sound : ∀ p ∈ values, p.2.Sound) :
    Agree values := by
  refine ⟨fun b ws ws' forms forms' => ?_, fun s ws fields data kind written told held => ?_⟩
  · rw [writeAll_eq sound forms, writeAll_eq sound forms']
  · have stored : Record.ofJson s (.obj fields) =
        (values.foldlM (store s) [] >>= Value.complete s) := by
      simp only [← writeFields_eq sound told, Record.ofJson, Schema.readRecord, Json.fields?, kind,
        if_true]
      rfl
    have built : Record.ofWrites s ws = (values.foldlM (store s) [] >>= Value.complete s) := by
      simp only [Record.ofWrites, RecordBuilder.bound, kind, if_true, ok_bind,
        writeAll_eq sound written, foldlM_write_bound, bind_assoc]
      rfl
    have decoded : Record.ofDatum s (.record data) =
        (values.foldlM (store s) [] >>= Value.complete s) := by
      rw [← writeData_eq sound held]
      rfl
    exact ⟨built.trans stored.symm, stored.trans decoded.symm⟩

end TypedRecords
