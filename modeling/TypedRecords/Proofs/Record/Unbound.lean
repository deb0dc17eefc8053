import TypedRecords.Proofs.Obtainable
import TypedRecords.Proofs.Record.Datum

/-! Unbound builders keep their balance.
Entries stand in a list and values under names, and a write may change both more than once: an
older entry makes room, an entry is declared, a value is stored. After every write there is
still one value for every entry and one entry for every value, so that building can fail for
one reason only, which is a name that stands for two records. -/
namespace TypedRecords.RecordBuilder

open Result

/-- Declared entries, every one of them with a value. -/
structure Balanced (entries : EntryList) (written : Written) : Prop extends
    Declared entries written where
  full : ∀ e ∈ entries.entries, ∃ v, Assoc.find? e.name written = some v

theorem balanced_empty : Balanced EntryList.empty [] :=
  ⟨wellFormed_unbound, by simp [EntryList.empty]⟩

/-- What is stored for a value of type `s` that is written to a label. -/
def labelEntry (label : String) (s : Schema) : Entry :=
  { name := Identifier.sanitize label
    rawName := if Identifier.sanitize label != label then some label else none
    schema := s, nullable := true, metadata := false, comment := none, default := none
    props := Props.empty }

theorem build_label (label : String) (s : Schema) :
    (EntryBuilder.empty.withName label |>.withSchema s |>.withNullable true).build =
      .ok (labelEntry label s) := rfl

theorem wellFormed_labelEntry (label : String) {s : Schema} (h : s.WellFormed) :
    (labelEntry label s).WellFormed :=
  ⟨Identifier.isValid_sanitize label, h⟩

theorem obtainable_labelEntry (label : String) {s : Schema} (h : s.Obtainable) :
    (labelEntry label s).Obtainable :=
  .built (.withNullable true (.withSchema (.withName label .empty) h)) (build_label label s)

/-! Entries that make room. -/

def numberedAt (l : EntryList) (i : Nat) (old : Entry) (n : Nat) : EntryList :=
  .ofEntries (l.entries.set i (old.renamed (Identifier.suffixed old.name (n + 1))))

def numberedValue (written : Written) (old : Entry) (n : Nat) (v : Value) : Written :=
  Assoc.insert (Identifier.suffixed old.name (n + 1)) v (Assoc.erase old.name written)

/-- The least number that makes a free name of a name that is taken. -/
structure LeastFree (taken : List String) (name : String) (n : Nat) : Prop where
  free : Identifier.suffixed name (n + 1) ∉ taken
  least : ∀ j, j < n → Identifier.suffixed name (j + 1) ∈ taken

theorem LeastFree.resolve {taken : List String} {name : String} (used : name ∈ taken) :
    ∃ n, LeastFree taken name n ∧
      (Identifier.resolve name taken).name = Identifier.suffixed name (n + 1) := by
  obtain ⟨k, found, free, least⟩ := Identifier.resolve_spec name taken
  cases k with
  | zero => exact absurd used free
  | succ n => exact ⟨n, ⟨free, fun j hj => least (j + 1) (Nat.succ_lt_succ hj)⟩, found⟩

section

variable {l : EntryList} {written : Written} {i : Nat} {old : Entry} (h : Balanced l written)
  (here : l.entries[i]? = some old)
include h here

theorem Balanced.displace_eq_ok : ∃ n v, LeastFree l.names old.name n ∧
    Assoc.find? old.name written = some v ∧
    displace l written old = .ok (numberedAt l i old n, numberedValue written old n v) := by
  have mem : old ∈ l.entries := List.mem_of_getElem? here
  have used : old.name ∈ l.names := List.mem_map_of_mem mem
  obtain ⟨n, number, found⟩ := LeastFree.resolve used
  obtain ⟨v, stored⟩ := h.full old mem
  have unused : l.contains (Identifier.suffixed old.name (n + 1)) = false := by
    rw [Bool.eq_false_iff]
    exact fun used => number.free (h.list.contains_iff.1 used)
  have replaced : l.replace old.name (old.renamed (Identifier.suffixed old.name (n + 1))) =
      .ok (numberedAt l i old n) := by
    simp [EntryList.replace, h.list.position?_eq_some here, Entry.renamed, unused, numberedAt]
  refine ⟨n, v, number, stored, ?_⟩
  simp only [displace, found, replaced, ok_bind, stored]
  rfl

theorem mem_numberedAt {n : Nat} {f : Entry} (hf : f ∈ (numberedAt l i old n).entries) :
    f = old.renamed (Identifier.suffixed old.name (n + 1)) ∨ f ∈ l.entries ∧ f.name ≠ old.name := by
  obtain ⟨j, there⟩ := List.mem_iff_getElem?.1 hf
  have there : (l.entries.set i (old.renamed (Identifier.suffixed old.name (n + 1))))[j]? = some f :=
    there
  by_cases place : i = j
  · obtain ⟨inside, -⟩ := List.getElem?_eq_some_iff.1 here
    rw [← place, List.getElem?_set_self inside] at there
    exact .inl (Option.some.inj there).symm
  · rw [List.getElem?_set_ne place] at there
    refine .inr ⟨List.mem_of_getElem? there, fun same => place ?_⟩
    exact Schema.place_eq_of_name_eq h.list.distinct here there same.symm

theorem not_mem_numberedAt {n : Nat} (number : LeastFree l.names old.name n) :
    old.name ∉ (numberedAt l i old n).names := by
  intro used
  obtain ⟨f, hf, named⟩ := List.mem_map.1 used
  rcases mem_numberedAt h here hf with rfl | ⟨-, other⟩
  · have mem : old ∈ l.entries := List.mem_of_getElem? here
    refine number.free ?_
    rw [show Identifier.suffixed old.name (n + 1) = old.name from named]
    exact List.mem_map_of_mem mem
  · exact other named

theorem Balanced.displaced {n : Nat} {v : Value} (number : LeastFree l.names old.name n)
    (run : displace l written old = .ok (numberedAt l i old n, numberedValue written old n v)) :
    Balanced (numberedAt l i old n) (numberedValue written old n v) := by
  have mem : old ∈ l.entries := List.mem_of_getElem? here
  refine ⟨h.displace (h.list.inner old mem) mem run, fun f hf => ?_⟩
  rcases mem_numberedAt h here hf with rfl | ⟨before, other⟩
  · exact ⟨v, by simp [numberedValue, Assoc.find?_insert, Entry.renamed]⟩
  · obtain ⟨w, found⟩ := h.full f before
    have apart : Identifier.suffixed old.name (n + 1) ≠ f.name := fun same =>
      number.free (same ▸ List.mem_map_of_mem before)
    exact ⟨w, by simp [numberedValue, Assoc.find?_insert, Assoc.find?_erase, apart, other.symm,
      found]⟩

end

/-! One write. -/

section

variable {l : EntryList} {written written' : Written} {v : Value} (h : Balanced l written)
include h

theorem Balanced.contains_iff {name : String} :
    Assoc.contains name written = true ↔ name ∈ l.names := by
  constructor
  · intro stored
    obtain ⟨w, found⟩ := Option.isSome_iff_exists.1 stored
    exact h.keys _ (Assoc.mem_of_find? found)
  · intro used
    obtain ⟨e, mem, rfl⟩ := List.mem_map.1 used
    obtain ⟨w, found⟩ := h.full e mem
    exact Option.isSome_iff_exists.2 ⟨w, found⟩

theorem Balanced.add_write {e : Entry} (own : e.WellFormed) (sound : v.WellFormed)
    (run : written.write (l.add e).1 v = .ok written') : Balanced (l.add e).2 written' := by
  refine ⟨(h.add own).write (h.list.add own).1 sound run, fun f hf => ?_⟩
  obtain ⟨-, rfl⟩ := Written.write_eq_ok_iff.1 run
  have kept (mem : f ∈ l.entries) :
      ∃ u, Assoc.find? f.name (Assoc.insert (l.add e).1.name v written) = some u := by
    obtain ⟨u, found⟩ := h.full f mem
    rw [Assoc.find?_insert]
    split
    · exact ⟨v, rfl⟩
    · exact ⟨u, found⟩
  rcases h.list.add_entries e with same | ⟨more, -⟩
  · exact kept (same ▸ hf)
  · rw [more] at hf
    rcases List.mem_append.1 hf with old | new
    · exact kept old
    · rw [List.mem_singleton.1 new]
      exact ⟨v, by simp [Assoc.find?_insert]⟩

theorem Balanced.fits_add_iff (e : Entry) :
    v.Fits (l.add e).1.schema (l.add e).1.nullable ↔ v.Fits e.schema e.nullable := by
  rcases h.list.add_cases e with ⟨stored, -, same, added⟩ | ⟨-, added⟩
  · rw [added]
    simp only [Entry.sameDeclaration, Bool.and_eq_true, beq_iff_eq] at same
    have plain := Schema.eq_iff_plain.1 same.2
    have nullable : stored.nullable = e.nullable := by simp [same]
    constructor
    · intro fits
      exact nullable ▸ Value.Fits.of_plain plain.symm v fits
    · intro fits
      exact Value.Fits.of_plain plain v (nullable ▸ fits)
  · rw [added]
    rfl

omit h in
theorem declareLabel_of_stays {label : String} {s : Schema} (inferred : inferSchema v = .ok s)
    (stays : ∀ old, l.get? (Identifier.sanitize label) = some old →
      displaces (labelEntry label s) old = false) :
    declareLabel l written label v =
      .ok ((l.add (labelEntry label s)).1, (l.add (labelEntry label s)).2, written) := by
  simp only [declareLabel, inferred, ok_bind, build_label]
  cases found : l.get? (labelEntry label s).name with
  | none => rfl
  | some old =>
    simp only [stays old found]
    rfl

/-- A label whose name is that of an older entry takes the name from it. -/
theorem Balanced.declareLabel_of_displaces {label : String} {s : Schema} {i : Nat} {old : Entry}
    (inferred : inferSchema v = .ok s) (here : l.entries[i]? = some old)
    (named : old.name = Identifier.sanitize label)
    (moves : displaces (labelEntry label s) old = true) :
    ∃ n u, LeastFree l.names old.name n ∧ Assoc.find? old.name written = some u ∧
      Balanced (numberedAt l i old n) (numberedValue written old n u) ∧
      (numberedAt l i old n).add (labelEntry label s) =
        (labelEntry label s, (numberedAt l i old n).push (labelEntry label s)) ∧
      declareLabel l written label v = .ok (labelEntry label s,
        (numberedAt l i old n).push (labelEntry label s), numberedValue written old n u) := by
  obtain ⟨n, u, number, stored, moved⟩ := h.displace_eq_ok here
  have balanced := h.displaced here number moved
  have free : (labelEntry label s).name ∉ (numberedAt l i old n).names := by
    have same : (labelEntry label s).name = old.name := named.symm
    exact same ▸ not_mem_numberedAt h here number
  have added := balanced.list.add_of_not_mem free
  have found : l.get? (labelEntry label s).name = some old := by
    rw [labelEntry, ← named]
    exact h.list.get?_eq_some here
  refine ⟨n, u, number, stored, balanced, added, ?_⟩
  simp only [declareLabel, inferred, ok_bind, build_label, found, moves, if_true, moved, added]
  rfl

end

def entryFor (key : EntryKey) (v : Value) : Result Entry :=
  match key with
  | .label label => do return labelEntry label (← inferSchema v)
  | .entry e => .ok e

theorem wellFormed_entryFor {key : EntryKey} {v : Value} {e : Entry}
    (named : ∀ given, key = .entry given → given.WellFormed) (own : v.WellFormed)
    (wanted : entryFor key v = .ok e) : e.WellFormed := by
  cases key with
  | label label =>
    obtain ⟨s, inferred, same⟩ := bind_eq_ok.1 wanted
    cases same
    exact wellFormed_labelEntry label (wellFormed_inferSchema v own inferred)
  | entry _ =>
    cases wanted
    exact named e rfl

section

variable {l : EntryList} {written : Written} {key : EntryKey} {v : Value}
  (h : Balanced l written)
include h

theorem Balanced.declare_eq_ok {e : Entry} (wanted : entryFor key v = .ok e) :
    ∃ l₁ written₁, Balanced l₁ written₁ ∧
      declare l written key v = .ok ((l₁.add e).1, (l₁.add e).2, written₁) := by
  cases key with
  | entry given =>
    cases wanted
    exact ⟨l, written, h, rfl⟩
  | label label =>
    obtain ⟨s, inferred, same⟩ := bind_eq_ok.1 wanted
    cases same
    by_cases stays : ∀ old, l.get? (Identifier.sanitize label) = some old →
        displaces (labelEntry label s) old = false
    · exact ⟨l, written, h, declareLabel_of_stays inferred stays⟩
    · obtain ⟨old, found, moves⟩ : ∃ old, l.get? (Identifier.sanitize label) = some old ∧
          displaces (labelEntry label s) old = true := by
        simpa using stays
      obtain ⟨mem, named⟩ := h.list.of_get? found
      obtain ⟨i, here⟩ := List.mem_iff_getElem?.1 mem
      obtain ⟨n, u, -, -, balanced, added, declared⟩ :=
        h.declareLabel_of_displaces inferred here named moves
      exact ⟨_, _, balanced, by rw [added]; exact declared⟩

omit h in
theorem exists_entryFor_of_declare {done : Entry × EntryList × Written}
    (run : declare l written key v = .ok done) : ∃ e, entryFor key v = .ok e := by
  cases key with
  | entry given => exact ⟨given, rfl⟩
  | label label =>
    obtain ⟨s, inferred, -⟩ := bind_eq_ok.1 run
    exact ⟨labelEntry label s, by simp [entryFor, inferred]⟩

/-- A write adds the entry that it asks for to a balanced list and stores the value for it. -/
theorem Balanced.write_eq_ok_iff {b : RecordBuilder} :
    RecordBuilder.write ⟨.unbound l, written⟩ key v = .ok b ↔
      ∃ e l₁ written₁ written₂, entryFor key v = .ok e ∧ Balanced l₁ written₁ ∧
        declare l written key v = .ok ((l₁.add e).1, (l₁.add e).2, written₁) ∧
        Written.write written₁ (l₁.add e).1 v = .ok written₂ ∧
        b = ⟨.unbound (l₁.add e).2, written₂⟩ := by
  constructor
  · intro run
    obtain ⟨done, declared, run⟩ := bind_eq_ok.1 run
    obtain ⟨e, wanted⟩ := exists_entryFor_of_declare declared
    obtain ⟨l₁, written₁, balanced, added⟩ := h.declare_eq_ok wanted
    cases declared.symm.trans added
    obtain ⟨written₂, stored, same⟩ := bind_eq_ok.1 run
    cases same
    exact ⟨e, l₁, written₁, written₂, wanted, balanced, declared, stored, rfl⟩
  · rintro ⟨e, l₁, written₁, written₂, -, -, declared, stored, rfl⟩
    simp [RecordBuilder.write, declared, stored]

theorem Balanced.exists_write_iff :
    (∃ b, RecordBuilder.write ⟨.unbound l, written⟩ key v = .ok b) ↔
      ∃ e, entryFor key v = .ok e ∧ v.Fits e.schema e.nullable := by
  constructor
  · rintro ⟨b, run⟩
    obtain ⟨e, l₁, written₁, written₂, wanted, balanced, -, stored, -⟩ := h.write_eq_ok_iff.1 run
    exact ⟨e, wanted, (balanced.fits_add_iff e).1 (Written.write_eq_ok_iff.1 stored).1⟩
  · rintro ⟨e, wanted, fits⟩
    obtain ⟨l₁, written₁, balanced, declared⟩ := h.declare_eq_ok wanted
    have stored : Written.write written₁ (l₁.add e).1 v = .ok _ :=
      Written.write_eq_ok_iff.2 ⟨(balanced.fits_add_iff e).2 fits, rfl⟩
    exact ⟨_, h.write_eq_ok_iff.2 ⟨e, l₁, written₁, _, wanted, balanced, declared, stored, rfl⟩⟩

theorem Balanced.write {b : RecordBuilder}
    (named : ∀ given, key = .entry given → given.WellFormed) (own : v.WellFormed)
    (run : RecordBuilder.write ⟨.unbound l, written⟩ key v = .ok b) :
    ∃ l' written', b = ⟨.unbound l', written'⟩ ∧ Balanced l' written' := by
  obtain ⟨e, l₁, written₁, written₂, wanted, balanced, -, stored, rfl⟩ := h.write_eq_ok_iff.1 run
  exact ⟨_, _, rfl, balanced.add_write (wellFormed_entryFor named own wanted) own stored⟩

end

/-! Runs of writes. -/

inductive Write where
  | value (key : EntryKey) (v : Value)
  | timestamp (key : EntryKey) (millis : Int)
  | datetime (key : EntryKey) (t : Instant)

namespace Write

def key : Write → EntryKey
  | .value key _ => key
  | .timestamp key _ => key
  | .datetime key _ => key

def value? : Write → Option Value
  | .value _ v => some v
  | .timestamp _ millis => (Instant.ofMillis? millis).map .datetime
  | .datetime _ t => (Instant.ofMillis? t.millis).map .datetime

def run (b : RecordBuilder) : Write → Result RecordBuilder
  | .value key v => b.write key v
  | .timestamp key millis => b.writeTimestamp key millis
  | .datetime key t => b.writeDatetime key t

theorem run_eq_ok_iff {b b' : RecordBuilder} {w : Write} :
    w.run b = .ok b' ↔ ∃ v, w.value? = some v ∧ b.write w.key v = .ok b' := by
  have instants (key : EntryKey) (millis : Int) : b.writeTimestamp key millis = .ok b' ↔
      ∃ v, (Instant.ofMillis? millis).map Value.datetime = some v ∧ b.write key v = .ok b' := by
    unfold RecordBuilder.writeTimestamp
    cases Instant.ofMillis? millis <;> simp
  cases w with
  | value key v => simp [run, value?, Write.key]
  | timestamp key millis => exact instants key millis
  | datetime key t => exact instants key t.millis

structure Obtainable (w : Write) : Prop where
  key : ∀ e, w.key = .entry e → e.Obtainable
  value : ∀ v, w.value? = some v → v.Obtainable

theorem obtainable_value {v : Value} (label : String) (h : v.Obtainable) :
    (value (.label label) v).Obtainable :=
  ⟨by simp [Write.key], by simpa [value?] using h⟩

theorem obtainable_timestamp (label : String) (millis : Int) :
    (timestamp (.label label) millis).Obtainable := by
  refine ⟨by simp [Write.key], fun v hv => ?_⟩
  simp only [value?] at hv
  obtain ⟨t, range, rfl⟩ := Option.map_eq_some_iff.1 hv
  exact .datetime t (Instant.kept_of_ofMillis? range)

def Accepted (w : Write) : Prop :=
  ∃ v e, w.value? = some v ∧ entryFor w.key v = .ok e ∧ v.Fits e.schema e.nullable

end Write

def writeAll (b : RecordBuilder) (ws : List Write) : Result RecordBuilder :=
  ws.foldlM Write.run b

def InBalance (b : RecordBuilder) : Prop :=
  ∃ l written, b = ⟨.unbound l, written⟩ ∧ Balanced l written

theorem inBalance_unbound : unbound.InBalance := ⟨_, _, rfl, balanced_empty⟩

theorem InBalance.run {b b' : RecordBuilder} {w : Write} (h : b.InBalance)
    (given : w.Obtainable) (run : w.run b = .ok b') : b'.InBalance := by
  obtain ⟨l, written, rfl, balanced⟩ := h
  obtain ⟨v, stored, wrote⟩ := Write.run_eq_ok_iff.1 run
  exact balanced.write (fun e named => (given.key e named).wellFormed)
    (given.value v stored).wellFormed wrote

theorem InBalance.exists_run_iff {b : RecordBuilder} {w : Write} (h : b.InBalance) :
    (∃ b', w.run b = .ok b') ↔ w.Accepted := by
  obtain ⟨l, written, rfl, balanced⟩ := h
  constructor
  · rintro ⟨b', run⟩
    obtain ⟨v, stored, wrote⟩ := Write.run_eq_ok_iff.1 run
    obtain ⟨e, wanted, fits⟩ := balanced.exists_write_iff.1 ⟨b', wrote⟩
    exact ⟨v, e, stored, wanted, fits⟩
  · rintro ⟨v, e, stored, wanted, fits⟩
    obtain ⟨b', wrote⟩ := balanced.exists_write_iff.2 ⟨e, wanted, fits⟩
    exact ⟨b', Write.run_eq_ok_iff.2 ⟨v, stored, wrote⟩⟩

section

variable {ws : List Write} {b : RecordBuilder} (h : b.InBalance)
  (given : ∀ w ∈ ws, w.Obtainable)
include h given

theorem InBalance.writeAll {b' : RecordBuilder} (run : b.writeAll ws = .ok b') : b'.InBalance :=
  foldlM_keeps (fun _ _ w hw hb run => hb.run (given w hw) run) h run

/-- A run succeeds exactly if every write in it would succeed alone. -/
theorem InBalance.exists_writeAll_iff :
    (∃ b', b.writeAll ws = .ok b') ↔ ∀ w ∈ ws, w.Accepted := by
  induction ws generalizing b with
  | nil => simp [RecordBuilder.writeAll]
  | cons w rest ih =>
    obtain ⟨own, others⟩ := List.forall_mem_cons.1 given
    constructor
    · rintro ⟨b', run⟩
      obtain ⟨next, first, later⟩ := bind_eq_ok.1 run
      have accepted := (ih (h.run own first) others).1 ⟨b', later⟩
      exact List.forall_mem_cons.2 ⟨h.exists_run_iff.1 ⟨next, first⟩, accepted⟩
    · intro accepted
      obtain ⟨first, later⟩ := List.forall_mem_cons.1 accepted
      obtain ⟨next, run⟩ := h.exists_run_iff.2 first
      obtain ⟨b', rest⟩ := (ih (h.run own run) others).2 later
      exact ⟨b', bind_eq_ok.2 ⟨next, run, rest⟩⟩

end

/-! Building. -/

theorem Balanced.build_eq_ok {l : EntryList} {written : Written} {s : Schema}
    (h : Balanced l written) (built : (SchemaBuilder.ofEntries l).build = .ok s) :
    ∃ r, build ⟨.unbound l, written⟩ = .ok r ∧ r.schema = s ∧ s.entries = l.entries ∧
      r.values.map some = l.entries.map fun e => Assoc.find? e.name written := by
  obtain ⟨-, -, same⟩ := build_ofEntries h.list built
  let stored := fun e : Entry => (Assoc.find? e.name written).getD .null
  have found : ∀ e ∈ l.entries, Assoc.find? e.name written = some (stored e) := by
    intro e he
    obtain ⟨v, found⟩ := h.full e he
    simp [stored, found]
  have filled : written.fill s.entries (Schema.converters s.entries) =
      .ok (l.entries.map stored) := by
    refine Written.fill_eq_ok (by simp [same]) (Schema.length_converters _) fun p hp => ?_
    obtain ⟨e, v⟩ := p
    obtain ⟨j, pair⟩ := List.mem_iff_getElem?.1 hp
    obtain ⟨here, value⟩ := List.getElem?_zip_eq_some.1 pair
    simp only [same] at here
    obtain rfl : stored e = v := by simpa [here] using value
    exact found e (List.mem_of_getElem? here)
  refine ⟨⟨s, l.entries.map stored⟩, ?_, rfl, same, ?_⟩
  · simp [build, schema, built, filled]
  · rw [List.map_map]
    exact List.map_congr_left fun e he => (found e he).symm

/-- Entries and values that account for each other. -/
structure Accounted (b : RecordBuilder) (l : EntryList) : Prop where
  binding : b.binding = .unbound l
  keys : ∀ name, Assoc.contains name b.written = true ↔ name ∈ l.names
  valid : ∀ e ∈ l.entries, ∃ v, Assoc.find? e.name b.written = some v ∧
    v.validate e.schema e.nullable e.name = .ok ()
  room : ∀ old ∈ l.entries, ∃ moved, displace l b.written old = .ok moved
  /-- Building gives the entries with their values, in the order of the entries, unless the
  schema is refused because a name stands for two different records in it. -/
  builds : (∃ r, b.build = .ok r ∧ r.schema.entries = l.entries ∧
      r.values.map some = l.entries.map fun e => Assoc.find? e.name b.written) ∨
    ∃ full, b.build = .error (.format (.definedTwice full)) ∧
      (SchemaBuilder.ofEntries l).build = .error (.format (.definedTwice full)) ∧
      Canonical.Clash (Schema.listed l.entries).compiled.nodes full

/-- After any run of writes, entries and values account for each other. -/
theorem accounted_of_writeAll {ws : List Write} {b : RecordBuilder}
    (given : ∀ w ∈ ws, w.Obtainable) (run : unbound.writeAll ws = .ok b) :
    ∃ l, b.Accounted l := by
  obtain ⟨l, written, rfl, balanced⟩ := inBalance_unbound.writeAll given run
  refine ⟨l, rfl, fun name => balanced.contains_iff, fun e he => ?_, fun old mem => ?_, ?_⟩
  · obtain ⟨v, found⟩ := balanced.full e he
    exact ⟨v, found, (Value.validate_eq_ok_iff v).2 (balanced.fits.fits e he v found)⟩
  · obtain ⟨i, here⟩ := List.mem_iff_getElem?.1 mem
    obtain ⟨n, v, -, -, moved⟩ := balanced.displace_eq_ok here
    exact ⟨_, moved⟩
  · rcases SchemaBuilder.build_ofEntries_ends l with ⟨s, built⟩ | ⟨full, failed, clash⟩
    · obtain ⟨r, done, rfl, same, values⟩ := balanced.build_eq_ok built
      exact .inl ⟨r, done, same, values⟩
    · exact .inr ⟨full, by simp [build, schema, failed], failed, clash⟩

/-! A run in which an older entry makes room, then finds its own entry again by that entry. -/

namespace Write

def mixed : List Write :=
  [.value (.label "field") (.string "a"), .value (.label "field") (.int 1),
    .timestamp (.label "at time") 0,
    .value (.entry (labelEntry "field" (.scalar .string))) (.string "b")]

theorem obtainable_mixed : ∀ w ∈ mixed, w.Obtainable := by
  have entry : (value (.entry (labelEntry "field" (.scalar .string))) (.string "b")).Obtainable := by
    refine ⟨fun e he => ?_, by simpa [value?] using Value.Obtainable.string "b"⟩
    cases he
    exact obtainable_labelEntry "field" (.scalar .string)
  simp [mixed, obtainable_value, obtainable_timestamp, entry, Value.Obtainable.string,
    Value.Obtainable.int]

theorem accepted_mixed : ∀ w ∈ mixed, w.Accepted := by
  refine List.forall_mem_cons.2 ⟨?_, List.forall_mem_cons.2 ⟨?_, List.forall_mem_cons.2
    ⟨?_, List.forall_mem_cons.2 ⟨?_, by simp⟩⟩⟩⟩
  · exact ⟨.string "a", labelEntry "field" (.scalar .string), rfl, rfl, rfl⟩
  · exact ⟨.int 1, labelEntry "field" (.scalar .int), rfl, rfl, rfl⟩
  · exact ⟨.datetime (.ofMillis 0), labelEntry "at time" (.scalar .datetime), rfl, rfl, rfl⟩
  · exact ⟨.string "b", labelEntry "field" (.scalar .string), rfl, rfl, rfl⟩

end Write

theorem accounted_mixed : ∃ b l, unbound.writeAll Write.mixed = .ok b ∧ b.Accounted l := by
  obtain ⟨b, run⟩ := (inBalance_unbound.exists_writeAll_iff Write.obtainable_mixed).2
    Write.accepted_mixed
  obtain ⟨l, accounted⟩ := accounted_of_writeAll Write.obtainable_mixed run
  exact ⟨b, l, run, accounted⟩

end TypedRecords.RecordBuilder
