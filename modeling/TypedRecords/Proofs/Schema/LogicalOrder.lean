import TypedRecords.Proofs.Schema.RoundTrip

/-! The two orders of a record.
The order of the declarations is that of the entries and of the compiled fields. The logical
order is written down beside it, and sorting the entries by what is written gives back the
sequence that was written, since their names are distinct and have no commas. -/
namespace TypedRecords

open Result

namespace Schema

theorem eq_of_map_name_eq {entries fs gs : List Entry} (distinct : (entries.map Entry.name).Nodup)
    (hf : ∀ e ∈ fs, e ∈ entries) (hg : ∀ e ∈ gs, e ∈ entries)
    (same : fs.map Entry.name = gs.map Entry.name) : fs = gs := by
  induction fs generalizing gs with
  | nil => exact (List.map_eq_nil_iff.1 same.symm).symm
  | cons f fs ih =>
    cases gs with
    | nil => simp at same
    | cons g gs =>
      obtain ⟨hf, moreF⟩ := List.forall_mem_cons.1 hf
      obtain ⟨hg, moreG⟩ := List.forall_mem_cons.1 hg
      obtain ⟨first, later⟩ := List.cons.inj same
      rw [List.inj_on_of_nodup_map distinct hf hg first, ih moreF moreG later]

theorem entriesOrdered_perm (s : Schema) : s.entriesOrdered.Perm s.entries := by
  rw [entriesOrdered]
  split
  · exact .refl _
  · exact OrderText.arrange_perm ..

section

variable {s : Schema} (h : s.WellFormed)
include h

theorem WellFormed.map_name_entriesOrdered {order : List String}
    (perm : order.Perm (s.entries.map Entry.name))
    (stored : s.props.find? Canonical.orderKey = some (OrderText.join order)) :
    s.entriesOrdered.map Entry.name = order := by
  have valid : ∀ name ∈ s.entries.map Entry.name, Identifier.isValid name :=
    List.forall_mem_map.2 fun e he => h.valid he
  rw [entriesOrdered, stored]
  simp only
  rw [OrderText.map_arrange Entry.name _ h.distinct,
    OrderText.ranked_split_join valid (perm.nodup_iff.2 h.distinct) perm]

theorem WellFormed.entriesOrdered_eq {ordered : List Entry} (perm : ordered.Perm s.entries)
    (stored : s.props.find? Canonical.orderKey =
      some (OrderText.join (ordered.map Entry.name))) : s.entriesOrdered = ordered :=
  eq_of_map_name_eq h.distinct (fun _ => s.entriesOrdered_perm.mem_iff.1)
    (fun _ => perm.mem_iff.1) (h.map_name_entriesOrdered (perm.map Entry.name) stored)

theorem WellFormed.ordered (kind : s.kind = .record) :
    ∃ order : List String, order.Perm (s.entries.map Entry.name) ∧
      s.props.find? Canonical.orderKey = some (OrderText.join order) := by
  cases s with
  | emptyRecord => exact ⟨[], .refl [], rfl⟩
  | record name entries props => exact (wellFormed_record.1 h).1.ordered
  | _ => cases kind

theorem WellFormed.find?_orderKey (kind : s.kind = .record) :
    s.props.find? Canonical.orderKey =
      some (OrderText.join (s.entriesOrdered.map Entry.name)) := by
  obtain ⟨order, perm, stored⟩ := h.ordered kind
  rw [stored, h.map_name_entriesOrdered perm stored]

end

end Schema

namespace SchemaBuilder

variable {b : SchemaBuilder} {l : EntryList} {s : Schema}

theorem find?_orderKey_of_finish {arrange : List Entry → List Entry} (shape : b.shape = .record l)
    (perm : (arrange l.entries).Perm l.entries) (run : b.finish arrange = .ok s) :
    s.props.find? Canonical.orderKey =
      some (OrderText.join ((arrange l.entries).map Entry.name)) := by
  simp only [finish, shape] at run
  split at run
  · rename_i bare
    cases run
    have none_ : l.entries = [] := by simp_all [EntryList.isEmpty]
    rw [none_] at perm ⊢
    rw [perm.eq_nil]
    rfl
  · obtain ⟨_, -, same⟩ := bind_eq_ok.1 run
    cases same
    simp [Schema.props, Props.find?_insert]

/-- A record that was built with an order has its entries as they were declared, and in its logical
order as they were sorted. -/
theorem WellFormed.buildWithOrder_spec (h : b.WellFormed) (shape : b.shape = .record l)
    {compare : Entry → Entry → Ordering} (run : b.buildWithOrder compare = .ok s) :
    s.WellFormed ∧ s.kind = .record ∧ s.entries = l.entries ∧
      s.entriesOrdered = l.entries.mergeSort fun x y => (compare x y).isLE := by
  have sound := h.buildWithOrder run
  obtain ⟨kind, same⟩ := entries_of_finish shape run
  have perm := List.mergeSort_perm l.entries fun x y => (compare x y).isLE
  have stored := find?_orderKey_of_finish shape perm run
  exact ⟨sound, kind, same, sound.entriesOrdered_eq (same ▸ perm) stored⟩

theorem exists_shape_of_kind (kind : b.shape.kind? = some .record) :
    ∃ l, b.shape = .record l ∧ b.entries = l.entries := by
  obtain ⟨shape, props, recordName⟩ := b
  cases shape with
  | record l => exact ⟨l, rfl, rfl⟩
  | _ => simp [Shape.kind?] at kind

/-- Whatever the comparison, the entries and the compiled fields stay as they were declared, and
the logical order is the stably sorted sequence. Of every record that can be obtained, the logical
order is a permutation of the entries, and its names are those that are written down. -/
theorem logical_order :
    (∀ (b : SchemaBuilder) (compare : Entry → Entry → Ordering) (s : Schema),
      b.Obtainable → b.shape.kind? = some .record → Std.TransCmp compare →
      b.buildWithOrder compare = .ok s →
      s.entries = b.entries ∧
      (∃ name, s.compiled =
        .record name Canonical.recordSpace (Schema.compiledEntries b.entries) s.props) ∧
      StablySorted (fun x y => (compare x y).isLE) b.entries s.entriesOrdered ∧
      s.props.find? Canonical.orderKey =
        some (OrderText.join (s.entriesOrdered.map Entry.name))) ∧
    ∀ s : Schema, s.Obtainable → s.kind = .record →
      s.entriesOrdered.Perm s.entries ∧
      s.props.find? Canonical.orderKey =
        some (OrderText.join (s.entriesOrdered.map Entry.name)) := by
  constructor
  · intro b compare s h kind comparison run
    obtain ⟨l, shape, all⟩ := exists_shape_of_kind kind
    obtain ⟨sound, kind, same, ordered⟩ := h.wellFormed.buildWithOrder_spec shape run
    obtain ⟨name, -, compiled⟩ := Schema.compiled_of_kind kind
    have sorted := stablySorted_compare comparison l.entries
    rw [all]
    exact ⟨same, ⟨name, same ▸ compiled⟩, ordered ▸ sorted, sound.find?_orderKey kind⟩
  · intro s h kind
    exact ⟨s.entriesOrdered_perm, h.wellFormed.find?_orderKey kind⟩

def byLength : Entry → Entry → Ordering := compareOn fun e => e.name.length

instance : Std.TransCmp byLength := inferInstanceAs (Std.TransCmp (compareOn _))

def legBuilder : SchemaBuilder := Schema.leg.toBuilder.withRecordName "Leg"

theorem logical_order_leg :
    (∃ s, legBuilder.buildWithOrder byLength = .ok s ∧ s.entries = legBuilder.entries ∧
      (∃ name, s.compiled =
        .record name Canonical.recordSpace (Schema.compiledEntries legBuilder.entries) s.props) ∧
      StablySorted (fun x y => (byLength x y).isLE) legBuilder.entries s.entriesOrdered ∧
      s.props.find? Canonical.orderKey =
        some (OrderText.join (s.entriesOrdered.map Entry.name))) ∧
    Schema.leg.entriesOrdered.Perm Schema.leg.entries ∧
      Schema.leg.props.find? Canonical.orderKey =
        some (OrderText.join (Schema.leg.entriesOrdered.map Entry.name)) := by
  have own : Schema.leg.Obtainable := Schema.obtainable_iff_wellFormed.2 Schema.wellFormed_leg
  have flat : ∀ e ∈ legBuilder.entries, ∃ k, e.schema = .scalar k := by
    simp [legBuilder, SchemaBuilder.entries, Schema.leg, Schema.toBuilder, ofSchema, shapeOf,
      withRecordName, EntryList.ofEntries]
  obtain ⟨s, run⟩ : ∃ s, legBuilder.buildWithOrder byLength = .ok s :=
    exists_finish_of_flat "Leg" _ _ flat
  have built : legBuilder.Obtainable := .withRecordName "Leg" (.ofSchema own)
  exact ⟨⟨s, run, logical_order.1 legBuilder byLength s built rfl inferInstance run⟩,
    logical_order.2 Schema.leg own rfl⟩

end SchemaBuilder

end TypedRecords
