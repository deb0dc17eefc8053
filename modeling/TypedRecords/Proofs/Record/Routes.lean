import TypedRecords.Proofs.Codec
import TypedRecords.Proofs.Record.Forms

/-! Instants by every route.
A record is built from writes, read from a document or decoded from a container. An instant in it is
exact, unless it was handed over within a value or told by a text. Only exact instants come back
from a container, and it is the same to a record in which form they were handed over. -/
namespace TypedRecords

open Result

inductive Route where
  | bound (s : Schema) (ws : List RecordBuilder.Write)
  | unbound (ws : List RecordBuilder.Write)
  | document (s : Schema) (j : Json)
  | container (c : Codec) (bytes : List UInt8)

namespace Route

def Leads : Route → Record → Prop
  | .bound s ws, r => ∃ b₀ b, RecordBuilder.bound s = .ok b₀ ∧ b₀.writeAll ws = .ok b ∧
    b.build = .ok r
  | .unbound ws, r => ∃ b, RecordBuilder.unbound.writeAll ws = .ok b ∧ b.build = .ok r
  | .document s j, r => Record.ofJson s j = .ok r
  | .container c bytes, r => ∃ s records, c.decodeAll bytes = .ok (s, records) ∧ r ∈ records

def Obtainable : Route → Prop
  | .bound s ws => s.Obtainable ∧ ∀ w ∈ ws, w.Obtainable
  | .unbound ws => ∀ w ∈ ws, w.Obtainable
  | .document s _ => s.Obtainable
  | .container .. => True

/-- The instants that are handed over within values or told by texts. -/
def given : Route → List Instant
  | .bound _ ws => ws.flatMap RecordBuilder.Write.given
  | .unbound ws => ws.flatMap RecordBuilder.Write.given
  | .document s j => s.toldInstants j
  | .container .. => []

end Route

theorem RecordBuilder.Write.obtainable_datetime (label : String) (t : Instant) :
    (datetime (.label label) t).Obtainable := by
  obtain ⟨key, value⟩ := obtainable_timestamp label t.millis
  exact ⟨key, value⟩

theorem RecordBuilder.WellFormed.run {b b' : RecordBuilder} {w : Write} (h : b.WellFormed)
    (given : w.Obtainable) (run : w.run b = .ok b') : b'.WellFormed := by
  obtain ⟨v, stored, wrote⟩ := Write.run_eq_ok_iff.1 run
  exact h.write (fun e named => (given.key e named).wellFormed) (given.value v stored).wellFormed
    wrote

theorem RecordBuilder.WellFormed.writeAll {b b' : RecordBuilder} {ws : List Write}
    (h : b.WellFormed) (given : ∀ w ∈ ws, w.Obtainable) (run : b.writeAll ws = .ok b') :
    b'.WellFormed :=
  foldlM_keeps (fun _ _ w hw hb run => hb.run (given w hw) run) h run

theorem Route.wellFormed {route : Route} {r : Record} (given : route.Obtainable)
    (leads : route.Leads r) : r.WellFormed := by
  cases route with
  | bound s ws =>
    obtain ⟨b₀, b, start, run, built⟩ := leads
    have sound := RecordBuilder.wellFormed_bound given.1.wellFormed start
    exact (sound.writeAll given.2 run).build built
  | unbound ws =>
    obtain ⟨b, run, built⟩ := leads
    exact (RecordBuilder.wellFormed_unbound.writeAll given run).build built
  | document s j => exact Record.wellFormed_ofJson given.wellFormed leads
  | container c bytes =>
    obtain ⟨s, records, run, mem⟩ := leads
    exact (Codec.wellFormed_decodeAll run).2 r mem

/-! Where instants come from. -/

theorem Value.schema_of_complete {s : Schema} {written : Written} {r : Record}
    (run : complete s written = .ok r) : r.schema = s := by
  obtain ⟨values, -, same⟩ := bind_eq_ok.1 run
  cases same
  rfl

theorem Record.schema_ofDatum {s : Schema} {d : Avro.Datum} {r : Record}
    (run : ofDatum s d = .ok r) : r.schema = s := by
  unfold ofDatum at run
  split at run
  · obtain ⟨written, -, run⟩ := bind_eq_ok.1 run
    exact Value.schema_of_complete run
  · cases run

theorem RecordBuilder.eq_of_bound {s : Schema} {b : RecordBuilder} (start : bound s = .ok b) :
    b = ⟨.bound s, []⟩ := by
  unfold bound at start
  split at start
  · exact (Except.ok.inj start).symm
  · cases start

theorem Record.schema_ofJson {s : Schema} {j : Json} {r : Record} (run : ofJson s j = .ok r) :
    r.schema = s := by
  unfold ofJson Schema.readRecord at run
  split at run
  · cases run
  · split at run
    · obtain ⟨written, -, run⟩ := bind_eq_ok.1 run
      exact Value.schema_of_complete run
    · cases run

/-- An instant in a record is exact, or was handed over as it is, or stands in a default. -/
theorem Route.Leads.origin {route : Route} {r : Record} (leads : route.Leads r) :
    ∀ t ∈ r.instants, t.Exact ∨ t ∈ route.given ∨ t ∈ r.schema.defaultInstants := by
  -- One property passes through every route: an instant is exact or comes from what was given.
  have whole (ms : Int) : (Instant.ofMillis ms).Exact ∨ Instant.ofMillis ms ∈ route.given ∨
      Instant.ofMillis ms ∈ r.schema.defaultInstants := .inl (Instant.exact_ofMillis ms)
  have given : ∀ t ∈ route.given, t.Exact ∨ t ∈ route.given ∨ t ∈ r.schema.defaultInstants :=
    fun t ht => .inr (.inl ht)
  have defaults : ∀ t ∈ r.schema.defaultInstants,
      t.Exact ∨ t ∈ route.given ∨ t ∈ r.schema.defaultInstants := fun t ht => .inr (.inr ht)
  cases route with
  | bound s ws =>
    obtain ⟨b₀, b, start, run, built⟩ := leads
    obtain rfl := RecordBuilder.eq_of_bound start
    exact RecordBuilder.within_build whole
      (RecordBuilder.within_writeAll whole Written.within_nil given run) defaults built
  | unbound ws =>
    obtain ⟨b, run, built⟩ := leads
    exact RecordBuilder.within_build whole
      (RecordBuilder.within_writeAll whole Written.within_nil given run) defaults built
  | document s j =>
    obtain rfl := Record.schema_ofJson leads
    exact Record.within_ofJson whole defaults given leads
  | container c bytes =>
    obtain ⟨s, records, run, mem⟩ := leads
    obtain ⟨d, read⟩ := Codec.exists_ofDatum run mem
    obtain rfl := Record.schema_ofDatum read
    exact Value.within_ofDatum_record whole defaults read

/-! What containers hold. -/

namespace Value

mutual
theorem instants_cut (v : Value) :
    v.cut.instants = v.instants.map fun t => .ofMillis t.millis := by
  match v with
  | .datetime t => rfl
  | .record ⟨s, values⟩ => exact instantsOf_cutAll values
  | .array items => exact instantsOf_cutAll items
  | .null | .string _ | .int _ | .long _ | .float _ | .double _ | .boolean _ | .bytes _ => rfl

theorem instantsOf_cutAll (values : List Value) :
    instantsOf (cutAll values) = (instantsOf values).map fun t => .ofMillis t.millis := by
  match values with
  | [] => rfl
  | v :: rest => rw [cutAll, instantsOf, instantsOf, List.map_append, instants_cut v,
      instantsOf_cutAll rest]
end

mutual
theorem cut_eq_self (v : Value) (exact_ : ∀ t ∈ v.instants, t.Exact) : v.cut = v := by
  match v with
  | .datetime t => exact congrArg Value.datetime (exact_ t (by simp [instants]))
  | .record ⟨s, values⟩ => rw [cut, cutAll_eq_self values exact_]
  | .array items => rw [cut, cutAll_eq_self items exact_]
  | .null | .string _ | .int _ | .long _ | .float _ | .double _ | .boolean _ | .bytes _ => rfl

theorem cutAll_eq_self (values : List Value) (exact_ : ∀ t ∈ instantsOf values, t.Exact) :
    cutAll values = values := by
  match values with
  | [] => rfl
  | v :: rest =>
    simp only [instantsOf, List.mem_append] at exact_
    rw [cutAll, cut_eq_self v fun t ht => exact_ t (.inl ht),
      cutAll_eq_self rest fun t ht => exact_ t (.inr ht)]
end

mutual
theorem instants_of_identical (v : Value) {v' : Value} (same : v'.identical v = true) :
    v'.instants = v.instants := by
  match v with
  | .record ⟨s, values⟩ =>
    cases v' with
    | record r =>
      obtain ⟨t, values'⟩ := r
      exact instantsOf_of_identicalItems values (Bool.and_eq_true_iff.1 same).2
    | _ => simp [identical] at same
  | .array items =>
    cases v' with
    | array items' => exact instantsOf_of_identicalItems items same
    | record r =>
      obtain ⟨s, values⟩ := r
      simp [identical] at same
    | _ => simp [identical] at same
  | .null | .string _ | .int _ | .long _ | .float _ | .double _ | .boolean _ | .bytes _
  | .datetime _ =>
    obtain rfl := eq_of_identical (by simp [kind?]) same
    rfl

theorem instantsOf_of_identicalItems (items : List Value) {items' : List Value}
    (same : identicalItems items' items = true) : instantsOf items' = instantsOf items := by
  match items with
  | [] => cases items' <;> simp_all [identicalItems]
  | v :: rest =>
    cases items' with
    | nil => simp [identicalItems] at same
    | cons v' rest' =>
      obtain ⟨first, others⟩ := Bool.and_eq_true_iff.1 same
      rw [instantsOf, instantsOf, instants_of_identical v first,
        instantsOf_of_identicalItems rest others]
end

end Value

namespace Record

/-- What a record is written as is read back as the very record. -/
def Returns (r : Record) : Prop :=
  ∃ d, r.toDatum = .ok d ∧ ∀ s : Schema, s.WellFormed → (s == r.schema) = true →
    ∃ r', ofDatum s d = .ok r' ∧ r'.identical r = true

theorem WellFormed.returns_iff {r : Record} (h : r.WellFormed) :
    r.Returns ↔ ∀ t ∈ r.instants, t.Exact := by
  have back (s : Schema) (sound : s.WellFormed) (same : (s == r.schema) = true) (d : Avro.Datum)
      (run : r.toDatum = .ok d) := ofDatum_toDatum h sound (Schema.eq_iff_plain.1 same) run
  constructor
  · rintro ⟨d, run, returned⟩
    have sound := (wellFormed_iff.1 h).1
    obtain ⟨r', read, whole⟩ := returned r.schema sound (Schema.eq_self _)
    obtain ⟨cut, again, alike⟩ := back r.schema sound (Schema.eq_self _) d run
    obtain rfl : r' = cut := Except.ok.inj (read.symm.trans again)
    -- What was read has the instants of the record, and those that are left of them.
    have kept := Value.instantsOf_of_identicalItems _ (Bool.and_eq_true_iff.1 whole).2
    have left := Value.instantsOf_of_identicalItems _ (Bool.and_eq_true_iff.1 alike).2
    have fixed : r.instants.map (fun t => .ofMillis t.millis) = r.instants.map id := by
      rw [List.map_id]
      exact (Value.instantsOf_cutAll r.values).symm.trans (left.symm.trans kept)
    exact List.map_inj_left.1 fixed
  · intro exact_
    obtain ⟨d, run, -⟩ := h.toDatum_conforms
    refine ⟨d, run, fun s sound same => ?_⟩
    obtain ⟨r', read, alike⟩ := back s sound same d run
    have whole : r.cut = r := by
      obtain ⟨made, values⟩ := r
      exact congrArg (Record.mk made) (Value.cutAll_eq_self values exact_)
    exact ⟨r', read, whole ▸ alike⟩

end Record

namespace Record

/-- An instant in a record is exact unless it was handed over within a value, or stands in a text or
a default. The record comes back from what is written of it exactly if all its instants are. Values
with exact instants make the same records in all forms. -/
theorem instants_by_route {route : Route} {r : Record} (given : route.Obtainable)
    (leads : route.Leads r) :
    (∀ t ∈ r.instants, t.Exact ∨ t ∈ route.given ∨ t ∈ r.schema.defaultInstants) ∧
      (r.Returns ↔ ∀ t ∈ r.instants, t.Exact) ∧
      ∀ values : List (String × Value), (∀ p ∈ values, p.2.Sound) → Route.Agree values :=
  ⟨leads.origin, (Route.wellFormed given leads).returns_iff, fun _ sound => Route.agree sound⟩

def beat : Record := ⟨.tick, [.datetime ⟨0, 1000000⟩]⟩

theorem instants_by_route_beat :
    (Route.bound .tick [.datetime (.label "at") ⟨0, 1500000⟩]).Leads beat ∧
      (∀ t ∈ beat.instants, t.Exact) ∧ beat.Returns ∧
      Route.Agree [("at", .datetime ⟨0, 1000000⟩)] := by
  have known : Schema.tick.Obtainable :=
    Schema.obtainable_iff_wellFormed.2 Schema.wellFormed_tick
  have given : (Route.bound .tick [.datetime (.label "at") ⟨0, 1500000⟩]).Obtainable := by
    refine ⟨known, fun w hw => ?_⟩
    rw [List.mem_singleton.1 hw]
    exact RecordBuilder.Write.obtainable_datetime "at" _
  have leads : (Route.bound .tick [.datetime (.label "at") ⟨0, 1500000⟩]).Leads beat :=
    ⟨_, ⟨.bound .tick, [("at", .datetime ⟨0, 1000000⟩)]⟩, rfl, rfl, rfl⟩
  obtain ⟨origin, returns, agree⟩ := instants_by_route given leads
  have whole : ∀ t ∈ beat.instants, t.Exact := fun t ht => by
    rcases origin t ht with exact_ | told | default
    · exact exact_
    · cases told
    · cases default
  have sound : ∀ p ∈ [("at", Value.datetime ⟨0, 1000000⟩)], p.2.Sound := by
    simp [Value.Sound, Value.instants]
    decide
  exact ⟨leads, whole, returns.2 whole, agree _ sound⟩

theorem tick_not_exact :
    (Route.bound .tick [.value (.label "at") (.datetime ⟨0, 1500000⟩)]).Leads tick ∧
      tick.Obtainable ∧ ∃ t ∈ tick.instants, ¬ t.Exact := by
  refine ⟨⟨_, ⟨.bound .tick, [("at", .datetime ⟨0, 1500000⟩)]⟩, rfl, rfl, rfl⟩, obtainable_tick, ?_⟩
  exact ⟨⟨0, 1500000⟩, by simp [tick, instants, Value.instantsOf, Value.instants], by decide⟩

end Record
end TypedRecords
