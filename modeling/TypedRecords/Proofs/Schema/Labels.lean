import TypedRecords.Proofs.Obtainable
import TypedRecords.Proofs.Record.Places

/-! Labels that are declared one after the other.
A label that is an identifier becomes a name, and any other label is kept beside the name that
was made from it. So distinct labels get entries of their own, and every label leads to its
own entry, with one exception: a name that was made for an earlier label can be the label
itself. Names are looked up first, and the label then leads to that earlier entry. -/
namespace TypedRecords

open Result

structure Declaration where
  label : String
  attributes : EntryBuilder

namespace Declaration

def entry (d : Declaration) : Result Entry := (d.attributes.withName d.label).build

structure Names (label : String) (e : Entry) : Prop where
  name : e.name = Identifier.sanitize label
  rawName : e.rawName = if e.name ≠ label then some label else none

theorem names_of_entry {d : Declaration} {e : Entry} (run : d.entry = .ok e) :
    Names d.label e := by
  obtain ⟨named, raw, -⟩ := EntryBuilder.of_build run
  have name : Identifier.sanitize d.label = e.name := Option.some.inj named
  refine ⟨name.symm, raw.trans ?_⟩
  simp [EntryBuilder.withName, name]

theorem wellFormed_entry {d : Declaration} {e : Entry} (types : d.attributes.Obtainable)
    (run : d.entry = .ok e) : e.WellFormed :=
  (types.wellFormed.withName d.label).build run

end Declaration

namespace SchemaBuilder

def declare (b : SchemaBuilder) (d : Declaration) : Result SchemaBuilder := do
  b.withEntry (← d.entry)

def declareAll (b : SchemaBuilder) (ds : List Declaration) : Result SchemaBuilder :=
  ds.foldlM declare b

end SchemaBuilder

namespace EntryList

/-- The list that labels were declared in: they are the labels of its entries, and each of them
is a name or is kept as a label. -/
structure Labelled (l : EntryList) (labels : List String) : Prop where
  list : l.WellFormed
  known : ∀ e ∈ l.entries, ∀ label, e.rawName = some label → label ∈ labels
  found : ∀ label ∈ labels, label ∈ l.names ∨ ∃ e ∈ l.entries, e.rawName = some label

theorem labelled_empty : empty.Labelled [] :=
  ⟨wellFormed_empty, by simp [empty], by simp⟩

section

variable {l : EntryList} {labels : List String} {label : String} {e : Entry}
  (h : l.Labelled labels) (named : Declaration.Names label e) (fresh : label ∉ labels)
include h named fresh

theorem Labelled.add_fresh (free : label ∉ l.names) :
    ∃ name, name ∉ l.names ∧ l.add e = (e.renamed name, l.push (e.renamed name)) ∧
      (name = label ∨ e.rawName = some label) := by
  by_cases same : e.name = label
  · have own : e.renamed label = e := same ▸ e.renamed_name
    exact ⟨label, free, own ▸ h.list.add_of_not_mem (same ▸ free), .inl rfl⟩
  · have kept : e.rawName = some label := by rw [named.rawName, if_pos same]
    rcases h.list.add_cases e with ⟨stored, mem, declared, -⟩ | ⟨unused, added⟩
    · -- The entry of an earlier declaration would have the same label.
      simp only [Entry.sameDeclaration, Bool.and_eq_true, beq_iff_eq] at declared
      have before : stored.rawName = some label := by simp_all
      exact absurd (h.known stored mem label before) fresh
    · exact ⟨_, unused, added, .inr kept⟩

theorem Labelled.add (own : e.WellFormed) : (l.add e).2.Labelled (labels ++ [label]) := by
  have kept : ∀ raw, e.rawName = some raw → raw = label := by
    intro raw
    rw [named.rawName]
    split <;> simp_all
  have stays : l.entries ⊆ (l.add e).2.entries := (h.list.prefix_add e).subset
  refine ⟨(h.list.add own).2, fun f hf raw labelled => ?_, fun other mem => ?_⟩
  · rcases h.list.add_cases e with ⟨stored, -, -, added⟩ | ⟨-, added⟩
    · rw [added] at hf
      exact List.mem_append_left _ (h.known f hf raw labelled)
    · rw [added] at hf
      rcases List.mem_append.1 hf with old | new
      · exact List.mem_append_left _ (h.known f old raw labelled)
      · rw [List.mem_singleton.1 new] at labelled
        simp [kept raw labelled]
  · rcases List.mem_append.1 mem with old | new
    · rcases h.found other old with named | ⟨f, hf, labelled⟩
      · exact .inl (List.map_subset _ stays named)
      · exact .inr ⟨f, stays hf, labelled⟩
    · obtain rfl := List.mem_singleton.1 new
      by_cases used : other ∈ l.names
      · exact .inl (List.map_subset _ stays used)
      · obtain ⟨name, -, added, own⟩ := h.add_fresh named fresh used
        rw [added]
        rcases own with rfl | labelled
        · exact .inl (by simp [names, push, Entry.renamed])
        · exact .inr ⟨e.renamed name, by simp [push], labelled⟩

end

end EntryList

namespace SchemaBuilder

theorem declare_eq_ok_iff {b b' : SchemaBuilder} {d : Declaration} {l : EntryList}
    (shape : b.shape = .record l) :
    b.declare d = .ok b' ↔
      ∃ e, d.entry = .ok e ∧ { b with shape := .record (l.add e).2 } = b' := by
  have given (e : Entry) : b.withEntry e = .ok { b with shape := .record (l.add e).2 } := by
    simp [withEntry, onEntries, shape]
  rw [declare, bind_eq_ok]
  simp only [given, Except.ok.injEq]

/-- What a run over distinct labels leaves behind; the entries that were there stay in front. -/
theorem declareAll_spec {ds : List Declaration} {start b : SchemaBuilder} {l : EntryList}
    {labels : List String} (shape : start.shape = .record l) (h : l.Labelled labels)
    (apart : (labels ++ ds.map Declaration.label).Nodup)
    (types : ∀ d ∈ ds, d.attributes.Obtainable) (run : start.declareAll ds = .ok b) :
    ∃ l', b = { start with shape := .record l' } ∧
      l'.Labelled (labels ++ ds.map Declaration.label) ∧ l.entries <+: l'.entries := by
  induction ds generalizing start l labels with
  | nil =>
    cases run
    refine ⟨l, ?_, by simpa using h, List.prefix_refl _⟩
    rw [← shape]
  | cons d rest ih =>
    obtain ⟨next, first, later⟩ := bind_eq_ok.1 run
    obtain ⟨e, made, rfl⟩ := (declare_eq_ok_iff shape).1 first
    obtain ⟨own, others⟩ := List.forall_mem_cons.1 types
    have fresh : d.label ∉ labels := fun used =>
      (List.nodup_append.1 apart).2.2 _ used _ (by simp) rfl
    have sound := Declaration.wellFormed_entry own made
    have grown := h.add (Declaration.names_of_entry made) fresh sound
    obtain ⟨l', same, whole, more⟩ := ih rfl grown (by simpa using apart) others later
    refine ⟨l', same, by simpa using whole, ?_⟩
    exact (h.list.prefix_add e).trans more

end SchemaBuilder

namespace Schema

section

variable {l l' : EntryList} {labels all : List String} {label name : String} {e : Entry}
  {s : Schema} (whole : l'.Labelled all) (same : s.entries = l'.entries)
  (named : Declaration.Names label e)
  (more : (l.push (e.renamed name)).entries <+: l'.entries)

include same more

theorem getElem?_pushed : s.entries[l.length]? = some (e.renamed name) := by
  obtain ⟨rest, append⟩ := more
  rw [same, ← append, EntryList.push, EntryList.length]
  simp

include whole named

theorem entryIndex?_pushed (h : l.Labelled labels) (fresh : label ∉ labels)
    (own : name = label ∨ e.rawName = some label) : s.entryIndex? label = some l.length := by
  have here := getElem?_pushed same more
  rcases own with rfl | labelled
  · exact entryIndex?_of_name (same ▸ whole.list.distinct) here
  · have other : e.name ≠ label := by
      intro meet
      rw [named.rawName, if_neg (not_not_intro meet)] at labelled
      cases labelled
    have invalid : ¬ Identifier.isValid label := fun valid =>
      other (named.name.trans (Identifier.sanitize_eq_self valid))
    refine entryIndex?_of_rawName ?_ here labelled fun f hf raw => ?_
    · rw [same]
      exact fun used => invalid (whole.list.valid_of_mem_names used)
    · obtain ⟨rest, append⟩ := more
      rw [same, ← append, EntryList.push, List.append_assoc, EntryList.length,
        List.take_left' rfl] at hf
      exact fresh (h.known f hf label raw)

theorem eq_name_of_entryIndex? {other : String} (mem : other ∈ all) (apart : other ≠ label)
    (found : s.entryIndex? other = some l.length) : other = name := by
  obtain ⟨f, here, found⟩ := of_entryIndex? found
  obtain rfl : e.renamed name = f := Option.some.inj ((getElem?_pushed same more).symm.trans here)
  rcases found with rfl | ⟨unnamed, labelled | ⟨unlabelled, -⟩⟩
  · rfl
  · have raw : e.rawName = some other := labelled
    rw [named.rawName] at raw
    split at raw
    · exact absurd (Option.some.inj raw).symm apart
    · cases raw
  · rw [same] at unnamed unlabelled
    rcases whole.found other mem with used | ⟨f, hf, labelled⟩
    · exact absurd used unnamed
    · exact absurd labelled (unlabelled f hf)

end

/-- After a run over distinct labels, every label leads to the entry that was declared for it,
unless an earlier entry had that label for its name at the time: then it leads to that one. -/
theorem leads_of_declared {start b : SchemaBuilder} {arrange : List Entry → List Entry}
    {s : Schema} {before after : List Declaration} {d : Declaration}
    (bare : start.shape = .record .empty)
    (apart : ((before ++ d :: after).map Declaration.label).Nodup)
    (types : ∀ d' ∈ before ++ d :: after, d'.attributes.Obtainable)
    (declared : start.declareAll (before ++ d :: after) = .ok b)
    (built : b.finish arrange = .ok s) :
    ∃ l e, start.declareAll before = .ok { start with shape := .record l } ∧ d.entry = .ok e ∧
      (d.label ∉ l.names → ∃ name, l.add e = (e.renamed name, l.push (e.renamed name)) ∧
        s.Leads d.label l.length (e.renamed name) ∧
        ∀ d' ∈ before ++ after, s.entryIndex? d'.label = some l.length → d'.label = name) ∧
      (d.label ∈ l.names → ∃ i f, l.entries[i]? = some f ∧ f.name = d.label ∧
        s.Leads d.label i f) := by
  rw [SchemaBuilder.declareAll, List.foldlM_append] at declared
  obtain ⟨b₁, first, later⟩ := bind_eq_ok.1 declared
  obtain ⟨b₂, middle, last⟩ := bind_eq_ok.1 later
  rw [List.map_append, List.map_cons] at apart
  have others : d.label ∉ before.map Declaration.label ++ after.map Declaration.label :=
    (List.nodup_cons.1 (List.perm_middle.nodup_iff.1 apart)).1
  have fresh : d.label ∉ before.map Declaration.label := fun used =>
    others (List.mem_append_left _ used)
  -- The run up to the label, the label, and the rest of the run.
  obtain ⟨l, rfl, h, -⟩ := SchemaBuilder.declareAll_spec bare EntryList.labelled_empty
    (List.nodup_append.1 apart).1 (fun d' hd => types d' (by simp [hd])) first
  obtain ⟨e, made, rfl⟩ := (SchemaBuilder.declare_eq_ok_iff rfl).1 middle
  rw [List.nil_append] at h
  have named := Declaration.names_of_entry made
  have own := Declaration.wellFormed_entry (types d (by simp)) made
  obtain ⟨l', rfl, whole, more⟩ := SchemaBuilder.declareAll_spec rfl (h.add named fresh own)
    (by simpa using apart) (fun d' hd => types d' (by simp [hd])) last
  have same := (SchemaBuilder.entries_of_finish rfl built).2
  have distinct : (s.entries.map Entry.name).Nodup := same ▸ whole.list.distinct
  refine ⟨l, e, first, made, fun free => ?_, fun used => ?_⟩
  · obtain ⟨name, -, added, own⟩ := h.add_fresh named fresh free
    rw [added] at more
    have found := entryIndex?_pushed whole same named more h fresh own
    refine ⟨name, added, leads distinct found (getElem?_pushed same more), fun d' hd there => ?_⟩
    have mem : d'.label ∈ before.map Declaration.label ++ after.map Declaration.label := by
      simpa using List.mem_map_of_mem (f := Declaration.label) hd
    have differ : d'.label ≠ d.label := fun meet => others (meet ▸ mem)
    refine eq_name_of_entryIndex? whole same named more ?_ differ there
    rcases List.mem_append.1 mem with mem | mem <;> simp [mem]
  · obtain ⟨f, hf, named⟩ := List.mem_map.1 used
    obtain ⟨i, here⟩ := List.mem_iff_getElem?.1 hf
    obtain ⟨inside, rfl⟩ := List.getElem?_eq_some_iff.1 here
    have there : s.entries[i]? = some l.entries[i] :=
      same ▸ List.prefix_iff_getElem?.1 ((h.list.prefix_add e).trans more) i inside
    exact ⟨i, _, here, named, leads distinct (named ▸ entryIndex?_of_name distinct there) there⟩

end Schema

/-! The exception: the label `a b` gets the name `a_b`, which is the next label. -/

namespace Declaration

def text (label : String) : Declaration :=
  ⟨label, EntryBuilder.empty.withType (.scalar .string)⟩

def textEntry (name : String) (rawName : Option String) : Entry :=
  ⟨name, rawName, .scalar .string, false, false, none, none, Props.empty⟩

theorem entry_text_spaced : (text "a b").entry = .ok (textEntry "a_b" (some "a b")) := by
  rfl

theorem entry_text_unspaced : (text "a_b").entry = .ok (textEntry "a_b" none) := by
  rfl

theorem obtainable_text (label : String) : (text label).attributes.Obtainable :=
  .withType (.scalar .string) .empty

end Declaration

namespace SchemaBuilder

open Declaration

def named : SchemaBuilder := record.withRecordName "R"

theorem declareAll_pair : ∃ l l' name,
    named.declareAll [text "a b"] = .ok { named with shape := .record l } ∧
    named.declareAll [text "a b", text "a_b"] = .ok { named with shape := .record l' } ∧
    l.add (textEntry "a_b" none) = (textEntry name none, l') ∧ name ≠ "a_b" ∧
    l.entries = [textEntry "a_b" (some "a b")] ∧
    l'.entries = [textEntry "a_b" (some "a b"), textEntry name none] := by
  let spaced := textEntry "a_b" (some "a b")
  let l := EntryList.empty.push spaced
  have own : spaced.WellFormed := wellFormed_entry (obtainable_text "a b") entry_text_spaced
  have unused : spaced.name ∉ EntryList.empty.names := by simp [EntryList.names, EntryList.empty]
  have sound : l.WellFormed := EntryList.wellFormed_empty.push own unused
  have first : named.declare (text "a b") = .ok { named with shape := .record l } := by
    refine (declare_eq_ok_iff rfl).2 ⟨spaced, entry_text_spaced, ?_⟩
    rw [EntryList.wellFormed_empty.add_of_not_mem unused]
  rcases sound.add_cases (textEntry "a_b" none) with ⟨stored, mem, same, -⟩ | ⟨free, added⟩
  · obtain rfl : stored = spaced := by simpa [l, EntryList.push, EntryList.empty] using mem
    simp [spaced, textEntry, Entry.sameDeclaration] at same
  · let name := l.settledName (textEntry "a_b" none)
    refine ⟨l, l.push (textEntry name none), name, ?_, ?_, added, ?_, rfl, rfl⟩
    · simp [declareAll, first]
    · have second := (declare_eq_ok_iff (b := { named with shape := .record l }) rfl).2
        ⟨_, entry_text_unspaced, rfl⟩
      rw [added] at second
      simp only [declareAll, List.foldlM_cons, first, ok_bind, second]
      rfl
    · intro taken
      have used : name ∈ l.names := taken ▸ List.mem_cons_self
      exact free used

theorem build_pair {l : EntryList} {name : String}
    (pair : l.entries = [textEntry "a_b" (some "a b"), textEntry name none]) :
    ∃ s, build { named with shape := .record l } = .ok s :=
  exists_finish_of_flat "R" _ _ (by simp [pair, textEntry])

/-- The second label leads to the entry of the first one, and not to its own. -/
theorem label_leads_elsewhere : ∃ l e b s,
    named.declareAll [text "a b"] = .ok { named with shape := .record l } ∧
    (text "a_b").entry = .ok e ∧
    named.declareAll [text "a b", text "a_b"] = .ok b ∧ b.build = .ok s ∧
    s.entry? "a_b" = l.entries[0]? ∧ s.entry? "a_b" ≠ some (l.add e).1 := by
  obtain ⟨l, l', name, first, second, added, other, alone, pair⟩ := declareAll_pair
  obtain ⟨s, built⟩ := build_pair pair
  have same := (entries_of_finish rfl built).2.trans pair
  have distinct : (s.entries.map Entry.name).Nodup := by
    simpa [same, textEntry] using other.symm
  have here : s.entries[0]? = some (textEntry "a_b" (some "a b")) := by simp [same]
  have taken : s.entry? "a_b" = some (textEntry "a_b" (some "a b")) :=
    Schema.entry?_of_entryIndex? (Schema.entryIndex?_of_name distinct here) here
  refine ⟨l, _, _, s, first, entry_text_unspaced, second, built, ?_, ?_⟩
  · rw [taken, alone]
    rfl
  · rw [taken, added]
    simp [textEntry]

theorem leads_of_declared_pair : ∃ b s,
    named.declareAll ([text "a b"] ++ text "a_b" :: []) = .ok b ∧ b.finish id = .ok s ∧
    ∃ l e, named.declareAll [text "a b"] = .ok { named with shape := .record l } ∧
      (text "a_b").entry = .ok e ∧
      ((text "a_b").label ∉ l.names → ∃ name,
        l.add e = (e.renamed name, l.push (e.renamed name)) ∧
        s.Leads (text "a_b").label l.length (e.renamed name) ∧
        ∀ d ∈ [text "a b"] ++ [], s.entryIndex? d.label = some l.length → d.label = name) ∧
      ((text "a_b").label ∈ l.names → ∃ i f, l.entries[i]? = some f ∧
        f.name = (text "a_b").label ∧ s.Leads (text "a_b").label i f) := by
  obtain ⟨-, l', name, -, second, -, -, -, pair⟩ := declareAll_pair
  obtain ⟨s, built⟩ := build_pair pair
  refine ⟨_, s, second, built, ?_⟩
  refine Schema.leads_of_declared rfl (by decide) (fun d hd => ?_) second built
  rcases List.mem_append.1 hd with hd | hd <;> rw [List.mem_singleton.1 hd] <;>
    exact obtainable_text _

end SchemaBuilder

end TypedRecords
