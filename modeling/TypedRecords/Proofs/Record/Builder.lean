import TypedRecords.Proofs.Record.WellFormed
import TypedRecords.Proofs.Schema.Builder
import TypedRecords.Record.Builder

/-! Record builders make well-formed records only.
An unbound builder keeps every value under the name of an entry that it fits, also while
entries are declared and older ones move to other names. -/
namespace TypedRecords.RecordBuilder

open Result

/-- Entries that were declared, and the values written to them. -/
structure Declared (entries : EntryList) (written : Written) : Prop where
  list : entries.WellFormed
  fits : written.Fits entries.entries
  keys : ∀ p ∈ written, p.1 ∈ entries.names

def WellFormed (b : RecordBuilder) : Prop :=
  match b.binding with
  | .bound s => s.WellFormed ∧ s.kind = .record ∧ b.written.Fits s.entries
  | .unbound entries => Declared entries b.written

theorem wellFormed_bound {s : Schema} {b : RecordBuilder} (h : s.WellFormed)
    (run : bound s = .ok b) : b.WellFormed := by
  unfold bound at run
  split at run
  · rename_i kind
    cases run
    exact ⟨h, kind, Written.fits_nil _⟩
  · cases run

theorem wellFormed_unbound : unbound.WellFormed :=
  ⟨EntryList.wellFormed_empty, Written.fits_nil _, by simp [unbound]⟩

mutual
theorem wellFormed_inferSchema (v : Value) {s : Schema} (h : v.WellFormed)
    (run : inferSchema v = .ok s) : s.WellFormed := by
  match v with
  | .null => cases run
  | .record ⟨own, values⟩ =>
    cases run
    exact h.1
  | .array items =>
    obtain ⟨element, inner, same⟩ := bind_eq_ok.1 run
    cases same
    exact Schema.wellFormed_array.2 (wellFormed_inferElement items h inner)
  | .string _ | .int _ | .long _ | .float _ | .double _ | .boolean _ | .bytes _
  | .datetime _ =>
    cases run
    exact Schema.wellFormed_scalar _

theorem wellFormed_inferElement (items : List Value) {s : Schema}
    (h : Value.AllWellFormed items) (run : inferElement items = .ok s) : s.WellFormed := by
  match items with
  | [] => cases run
  | v :: rest =>
    rw [inferElement] at run
    split at run
    · exact wellFormed_inferElement rest h.2 run
    · exact wellFormed_inferSchema v h.1 run
end

theorem find?_eq_none_of_keys {entries : EntryList} {written : Written}
    (h : Declared entries written) {name : String} (free : name ∉ entries.names) :
    Assoc.find? name written = none :=
  Assoc.find?_eq_none_iff.2 fun p hp same => free (same ▸ h.keys p hp)

theorem Declared.add {entries : EntryList} {written : Written} (h : Declared entries written)
    {e : Entry} (own : e.WellFormed) : Declared (entries.add e).2 written := by
  have list := (h.list.add own).2
  rcases h.list.add_entries e with same | ⟨more, free⟩
  · refine ⟨list, ?_, fun p hp => ?_⟩
    · exact same ▸ h.fits
    · rw [EntryList.names, same]
      exact h.keys p hp
  · refine ⟨list, ⟨h.fits.sound, fun f hf v found => ?_⟩, fun p hp => ?_⟩
    · rw [more] at hf
      rcases List.mem_append.1 hf with old | new
      · exact h.fits.fits f old v found
      · -- Nothing was written under a name that was free.
        rw [List.mem_singleton.1 new, find?_eq_none_of_keys h free] at found
        cases found
    · rw [EntryList.names, more, List.map_append]
      exact List.mem_append_left _ (h.keys p hp)

theorem Declared.write {entries : EntryList} {written written' : Written}
    (h : Declared entries written) {e : Entry} {v : Value} (mem : e ∈ entries.entries)
    (own : v.WellFormed) (run : written.write e v = .ok written') : Declared entries written' := by
  refine ⟨h.list, h.fits.write h.list.distinct mem own run, fun p hp => ?_⟩
  obtain ⟨-, rfl⟩ := Written.write_eq_ok_iff.1 run
  rcases Assoc.mem_insert hp with rfl | old
  · exact List.mem_map_of_mem mem
  · exact h.keys p old

theorem mem_names_set {entries : List Entry} {i : Nat} {name other : String} (e : Entry)
    (inside : i < entries.length) (here : entries[i].name = name)
    (used : other ∈ entries.map Entry.name) (apart : other ≠ name) :
    other ∈ (entries.set i e).map Entry.name := by
  obtain ⟨f, hf, rfl⟩ := List.mem_map.1 used
  obtain ⟨j, hj, rfl⟩ := List.mem_iff_getElem.1 hf
  have differ : i ≠ j := fun same => apart (by subst same; exact here)
  refine List.mem_map_of_mem (List.mem_iff_getElem.2 ⟨j, by simpa using hj, ?_⟩)
  exact List.getElem_set_ne differ _

theorem fits_rename {entries : List Entry} {written : Written} (h : written.Fits entries)
    {name : String} (old : Entry) (i : Nat) (nothing : Assoc.find? name written = none) :
    written.Fits (entries.set i (old.renamed name)) := by
  refine ⟨h.sound, fun f hf w look => ?_⟩
  rcases List.mem_or_eq_of_mem_set hf with hf | rfl
  · exact h.fits f hf w look
  · have look : Assoc.find? name written = some w := look
    rw [nothing] at look
    cases look

theorem fits_move {entries : List Entry} {written : Written} (h : written.Fits entries)
    {name : String} {old : Entry} {i : Nat} {v : Value} (stored : old ∈ entries)
    (inside : i < entries.length)
    (distinct : ((entries.set i (old.renamed name)).map Entry.name).Nodup)
    (found : Assoc.find? old.name written = some v) :
    Written.Fits (Assoc.insert name v (Assoc.erase old.name written))
      (entries.set i (old.renamed name)) := by
  refine ⟨fun p hp => ?_, fun f hf w look => ?_⟩
  · rcases Assoc.mem_insert hp with rfl | hp
    · exact h.sound (old.name, v) (Assoc.mem_of_find? found)
    · exact h.sound p (List.mem_filter.1 hp).1
  · rw [Assoc.find?_insert] at look
    split at look
    · rename_i same
      cases look
      have moved : f = old.renamed name :=
        Written.eq_of_name_eq distinct hf (List.mem_set inside _) same.symm
      exact moved ▸ h.fits old stored v found
    · rename_i other
      rw [Assoc.find?_erase] at look
      split at look
      · cases look
      · rcases List.mem_or_eq_of_mem_set hf with hf | rfl
        · exact h.fits f hf w look
        · exact absurd rfl other

/-- An entry that makes room takes its value along. -/
theorem Declared.displace {entries entries' : EntryList} {written written' : Written}
    (h : Declared entries written) {old : Entry} (own : old.WellFormed)
    (stored : old ∈ entries.entries)
    (run : displace entries written old = .ok (entries', written')) :
    Declared entries' written' := by
  obtain ⟨list, replaced, run⟩ := bind_eq_ok.1 run
  let name := (Identifier.resolve old.name entries.names).name
  have renamed : (old.renamed name).WellFormed :=
    ⟨Identifier.isValid_resolve own.valid entries.names, own.schema⟩
  have sound : list.WellFormed := h.list.replace renamed replaced
  obtain ⟨i, inside, here, unused, rfl⟩ := h.list.replace_spec replaced
  cases found : Assoc.find? old.name written with
  | some v =>
    simp only [found] at run
    cases run
    refine ⟨sound, fits_move h.fits stored inside sound.distinct found, fun p hp => ?_⟩
    rcases Assoc.mem_insert hp with rfl | hp
    · exact List.mem_map_of_mem (List.mem_set inside (old.renamed name))
    · obtain ⟨mem, other⟩ := List.mem_filter.1 hp
      exact mem_names_set _ inside here (h.keys p mem) (by simpa using other)
  | none =>
    simp only [found] at run
    cases run
    have nothing : Assoc.find? name written = none := by
      by_cases same : name = old.name
      · rw [same, found]
      · exact find?_eq_none_of_keys h fun used => same (unused used)
    refine ⟨sound, fits_rename h.fits old i nothing, fun p hp => ?_⟩
    exact mem_names_set _ inside here (h.keys p hp) (Assoc.find?_eq_none_iff.1 found p hp)

theorem Declared.declareLabel {entries entries' : EntryList} {written written' : Written}
    (h : Declared entries written) {label : String} {v : Value} {e : Entry} (own : v.WellFormed)
    (run : declareLabel entries written label v = .ok (e, entries', written')) :
    e ∈ entries'.entries ∧ Declared entries' written' := by
  obtain ⟨s, inferred, run⟩ := bind_eq_ok.1 run
  obtain ⟨new, built, run⟩ := bind_eq_ok.1 run
  have fresh : new.WellFormed := ((((EntryBuilder.wellFormed_empty.withName label).withSchema
    (wellFormed_inferSchema v own inferred)).withNullable true).build built)
  have ends {entries₁ : EntryList} {written₁ : Written} (d : Declared entries₁ written₁)
      (done : Except.ok (ε := SchemaError) ((entries₁.add new).1, (entries₁.add new).2, written₁) =
        .ok (e, entries', written')) : e ∈ entries'.entries ∧ Declared entries' written' := by
    cases done
    exact ⟨(d.list.add fresh).1, d.add fresh⟩
  cases found : entries.get? new.name with
  | none =>
    simp only [found] at run
    exact ends h run
  | some old =>
    obtain ⟨stored, -⟩ := h.list.of_get? found
    simp only [found] at run
    split at run
    · obtain ⟨⟨entries₁, written₁⟩, moved, run⟩ := bind_eq_ok.1 run
      exact ends (h.displace (h.list.inner old stored) stored moved) run
    · exact ends h run

theorem WellFormed.write {b b' : RecordBuilder} {key : EntryKey} {v : Value} (h : b.WellFormed)
    (named : ∀ e, key = .entry e → e.WellFormed) (own : v.WellFormed)
    (run : b.write key v = .ok b') : b'.WellFormed := by
  obtain ⟨binding, written⟩ := b
  cases binding with
  | bound s =>
    obtain ⟨sound, kind, fits⟩ := h
    simp only [RecordBuilder.write] at run
    split at run
    · cases run
    · rename_i e known
      obtain ⟨written', wrote, same⟩ := bind_eq_ok.1 run
      cases same
      exact ⟨sound, kind, fits.write sound.distinct (Schema.mem_of_entry? known) own wrote⟩
  | unbound entries =>
    obtain ⟨⟨e, entries', written'⟩, declared, run⟩ := bind_eq_ok.1 run
    obtain ⟨written'', wrote, same⟩ := bind_eq_ok.1 run
    cases same
    have ready : e ∈ entries'.entries ∧ Declared entries' written' := by
      cases key with
      | entry given =>
        cases declared
        exact ⟨(h.list.add (named given rfl)).1, h.add (named given rfl)⟩
      | label label => exact h.declareLabel own declared
    exact ready.2.write ready.1 own wrote

theorem WellFormed.writeTimestamp {b b' : RecordBuilder} {key : EntryKey} {millis : Int}
    (h : b.WellFormed) (named : ∀ e, key = .entry e → e.WellFormed)
    (run : b.writeTimestamp key millis = .ok b') : b'.WellFormed := by
  unfold RecordBuilder.writeTimestamp at run
  split at run
  · rename_i t range
    have own : (Value.datetime t).WellFormed := Instant.kept_of_ofMillis? range
    exact h.write named own run
  · cases run

theorem build_ofEntries {l : EntryList} {s : Schema} (h : l.WellFormed)
    (run : (SchemaBuilder.ofEntries l).build = .ok s) :
    s.WellFormed ∧ s.kind = .record ∧ s.entries = l.entries := by
  have declared : (SchemaBuilder.ofEntries l).WellFormed := h
  exact ⟨declared.build run, SchemaBuilder.entries_of_finish rfl run⟩

theorem WellFormed.schema {b : RecordBuilder} {s : Schema} (h : b.WellFormed)
    (run : b.schema = .ok s) :
    s.WellFormed ∧ s.kind = .record ∧ b.written.Fits s.entries := by
  obtain ⟨binding, written⟩ := b
  cases binding with
  | bound s =>
    cases run
    exact h
  | unbound entries =>
    obtain ⟨sound, kind, same⟩ := build_ofEntries h.list run
    exact ⟨sound, kind, same ▸ h.fits⟩

theorem WellFormed.build {b : RecordBuilder} {r : Record} (h : b.WellFormed)
    (run : b.build = .ok r) : r.WellFormed := by
  obtain ⟨s, known, run⟩ := bind_eq_ok.1 run
  obtain ⟨sound, kind, fits⟩ := h.schema known
  exact Value.wellFormed_complete sound kind fits run

end TypedRecords.RecordBuilder
