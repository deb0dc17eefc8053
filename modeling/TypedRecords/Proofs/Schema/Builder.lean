import TypedRecords.Proofs.Assoc
import TypedRecords.Proofs.Schema.EntryList
import TypedRecords.Schema.Descriptor

/-! Builders make well-formed schemas only.
Whatever is declared in a builder is sound, so what it builds is: the logical order permutes
the entries, and the check of record names has passed. Descriptors go through the same
builders. -/
namespace TypedRecords

open Result

namespace SchemaBuilder

def Shape.WellFormed : Shape → Prop
  | .record entries => entries.WellFormed
  | .array (some element) _ => element.WellFormed
  | _ => True

def WellFormed (b : SchemaBuilder) : Prop := b.shape.WellFormed

theorem wellFormed_empty : empty.WellFormed := trivial

theorem wellFormed_fresh (kind : Kind) : (Shape.fresh kind).WellFormed := by
  cases kind with
  | record => exact EntryList.wellFormed_empty
  | array => trivial
  | scalar k => trivial

section

variable {b b' : SchemaBuilder} {s : Schema} (h : b.WellFormed)

include h in
theorem WellFormed.withType (kind : Kind) : (b.withType kind).WellFormed := by
  unfold SchemaBuilder.withType
  split
  · exact h
  · exact wellFormed_fresh kind

theorem wellFormed_ofKind (kind : Kind) : (ofKind kind).WellFormed :=
  wellFormed_empty.withType kind

theorem wellFormed_ofSchema (h : s.WellFormed) : (ofSchema s).WellFormed := by
  cases s with
  | scalar k => trivial
  | emptyRecord => exact EntryList.wellFormed_empty
  | record name entries props =>
    exact .ofEntries h.distinct fun e he => h.wellFormed_entry he
  | array element nullable props => exact Schema.wellFormed_array.1 h

include h in
theorem WellFormed.entries {e : Entry} (mem : e ∈ b.entries) : e.WellFormed := by
  obtain ⟨shape, props, recordName⟩ := b
  cases shape with
  | record entries => exact EntryList.WellFormed.inner h e mem
  | _ => simp [SchemaBuilder.entries] at mem

theorem WellFormed.onEntries {operation : Operation} {change : EntryList → Result EntryList}
    (h : b.WellFormed) (keeps : ∀ l l', l.WellFormed → change l = .ok l' → l'.WellFormed)
    (run : b.onEntries operation change = .ok b') : b'.WellFormed := by
  obtain ⟨shape, props, recordName⟩ := b
  cases shape with
  | record entries =>
    obtain ⟨changed, done, same⟩ := bind_eq_ok.1 run
    cases same
    exact keeps entries changed h done
  | _ => simp [SchemaBuilder.onEntries] at run

variable {e : Entry} {pivot name : String}

include h in
theorem WellFormed.withEntry (own : e.WellFormed) (run : b.withEntry e = .ok b') :
    b'.WellFormed := by
  refine h.onEntries (fun l l' hl done => ?_) run
  cases done
  exact (hl.add own).2

theorem wellFormed_placed {move : EntryList → String → Result EntryList} {l l' : EntryList}
    (own : e.WellFormed) (h : l.WellFormed)
    (moves : ∀ l l' name, l.WellFormed → move l name = .ok l' → l'.WellFormed)
    (run : placed e pivot move l = .ok l') : l'.WellFormed := by
  unfold placed at run
  split at run
  · exact moves _ _ _ (h.add own).2 run
  · cases run

include h in
theorem WellFormed.withEntryBefore (own : e.WellFormed)
    (run : b.withEntryBefore pivot e = .ok b') : b'.WellFormed :=
  h.onEntries (fun _ _ hl => wellFormed_placed own hl fun _ _ _ hm => hm.moveBefore) run

include h in
theorem WellFormed.withEntryAfter (own : e.WellFormed)
    (run : b.withEntryAfter pivot e = .ok b') : b'.WellFormed :=
  h.onEntries (fun _ _ hl => wellFormed_placed own hl fun _ _ _ hm => hm.moveAfter) run

include h in
theorem WellFormed.remove (run : b.remove name = .ok b') : b'.WellFormed := by
  refine h.onEntries (fun l l' hl done => ?_) run
  cases done
  exact hl.remove

include h in
theorem WellFormed.removeEntry (run : b.removeEntry e = .ok b') : b'.WellFormed := by
  refine h.onEntries (fun l l' hl done => ?_) run
  cases done
  split
  · exact hl.remove
  · exact hl

include h in
theorem WellFormed.moveBefore (run : b.moveBefore pivot name = .ok b') : b'.WellFormed :=
  h.onEntries (fun _ _ hl => hl.moveBefore) run

include h in
theorem WellFormed.moveAfter (run : b.moveAfter pivot name = .ok b') : b'.WellFormed :=
  h.onEntries (fun _ _ hl => hl.moveAfter) run

include h in
theorem WellFormed.swap (run : b.swap pivot name = .ok b') : b'.WellFormed :=
  h.onEntries (fun _ _ hl => hl.swap) run

theorem WellFormed.withElement (own : s.WellFormed) (run : b.withElement s = .ok b') :
    b'.WellFormed := by
  unfold SchemaBuilder.withElement at run
  split at run
  · cases run
    exact own
  · cases run

include h in
theorem WellFormed.withElementNullable {nullable : Bool}
    (run : b.withElementNullable nullable = .ok b') : b'.WellFormed := by
  obtain ⟨shape, props, recordName⟩ := b
  cases shape with
  | array element old =>
    cases run
    cases element with
    | none => trivial
    | some element => exact h
  | _ => simp [SchemaBuilder.withElementNullable] at run

end

/-! Building. -/

/-- The check of names and the order of the entries are all that a record needs besides sound
entries. -/
theorem wellFormed_finishRecord {recordName : Option String} {l : EntryList} {props : Props}
    {ordered : List Entry} {s : Schema} (h : l.WellFormed) (perm : ordered.Perm l.entries)
    (run : finishRecord recordName l.entries props ordered = .ok s) : s.WellFormed := by
  obtain ⟨seen, checked, same⟩ := bind_eq_ok.1 run
  cases same
  refine Schema.wellFormed_record.2 ⟨?_, fun e he => (h.inner e he).schema⟩
  exact
    { valid := fun e he => (h.inner e he).valid
      distinct := h.distinct
      ordered := ⟨_, perm.map Entry.name, by simp [Props.find?_insert]⟩
      consistent := Canonical.checkNames_ok_iff.1 ⟨seen, checked⟩ }

theorem WellFormed.finish {b : SchemaBuilder} {arrange : List Entry → List Entry} {s : Schema}
    (h : b.WellFormed) (perm : ∀ entries, (arrange entries).Perm entries)
    (run : b.finish arrange = .ok s) : s.WellFormed := by
  obtain ⟨shape, props, recordName⟩ := b
  cases shape with
  | untyped => cases run
  | scalar k =>
    cases run
    exact Schema.wellFormed_scalar k
  | record entries =>
    simp only [SchemaBuilder.finish] at run
    split at run
    · cases run
      exact Schema.wellFormed_emptyRecord
    · exact wellFormed_finishRecord h (perm _) run
  | array element nullable =>
    cases element with
    | none => cases run
    | some element =>
      cases run
      exact Schema.wellFormed_array.2 h

theorem entries_of_finish {b : SchemaBuilder} {l : EntryList} {arrange : List Entry → List Entry}
    {s : Schema} (shape : b.shape = .record l) (run : b.finish arrange = .ok s) :
    s.kind = .record ∧ s.entries = l.entries := by
  simp only [finish, shape] at run
  split at run
  · rename_i bare
    cases run
    have none_ : l.entries = [] := by simp_all [EntryList.isEmpty]
    exact ⟨rfl, none_.symm⟩
  · obtain ⟨_, -, same⟩ := bind_eq_ok.1 run
    cases same
    exact ⟨rfl, rfl⟩

section

variable {b : SchemaBuilder} {s : Schema} (h : b.WellFormed)
include h

theorem WellFormed.build (run : b.build = .ok s) : s.WellFormed :=
  h.finish (fun entries => .refl entries) run

theorem WellFormed.buildWithOrder {compare : Entry → Entry → Ordering}
    (run : b.buildWithOrder compare = .ok s) : s.WellFormed :=
  h.finish (fun entries => List.mergeSort_perm entries _) run

theorem WellFormed.buildListed {listed : List String} (run : b.buildListed listed = .ok s) :
    s.WellFormed :=
  h.buildWithOrder run

theorem WellFormed.withEntries {b' : SchemaBuilder} {entries : List Entry}
    (own : ∀ e ∈ entries, e.WellFormed) (run : entries.foldlM SchemaBuilder.withEntry b = .ok b') :
    b'.WellFormed :=
  foldlM_keeps (fun _ _ e he hb => hb.withEntry (own e he)) h run

end

/-! Names that stand for two records. -/

end SchemaBuilder

namespace Schema

/-- The record of some entries under a given name, or else under that of its content. -/
def titled (recordName : Option String) (entries : List Entry) (props : Props) : Schema :=
  .record (recordName.getD (contentName entries props)) entries props

end Schema

namespace SchemaBuilder

theorem checkNames_then_ends (c : Canonical) (s : Schema) :
    (Canonical.checkNames [] c >>= fun _ => Except.ok s) = .ok s ∨
      ∃ full, (Canonical.checkNames [] c >>= fun _ => Except.ok s) =
        .error (.format (.definedTwice full)) ∧ Canonical.Clash c.nodes full := by
  rcases Canonical.checkNames_nil_ends c with ⟨seen, checked⟩ | ⟨full, refused, clash⟩
  · exact .inl (by rw [checked, ok_bind])
  · exact .inr ⟨full, by rw [refused, error_bind], clash⟩

section

variable (recordName : Option String) (entries : List Entry) (props : Props)

theorem checkedRecord_eq : checkedRecord recordName entries props =
    (Canonical.checkNames [] (Schema.titled recordName entries props).compiled >>= fun _ =>
      .ok (Schema.titled recordName entries props)) := rfl

/-- A record is made exactly if any two records of one full name in its canonical form, the
whole included, are equal. Otherwise a name is reported that stands for two different ones. -/
theorem checkedRecord_ok_iff_consistent :
    ((∃ s, checkedRecord recordName entries props = .ok s) ↔
      (Schema.titled recordName entries props).compiled.Consistent) ∧
    (∀ s, checkedRecord recordName entries props = .ok s →
      s = Schema.titled recordName entries props) ∧
    ∀ fault, checkedRecord recordName entries props = .error fault →
      ∃ full, fault = .format (.definedTwice full) ∧
        Canonical.Clash (Schema.titled recordName entries props).compiled.nodes full := by
  simp only [checkedRecord_eq]
  refine ⟨?_, fun s run => ?_, fun fault failed => ?_⟩
  · rw [← Canonical.checkNames_ok_iff]
    constructor
    · rintro ⟨s, run⟩
      obtain ⟨seen, checked, -⟩ := bind_eq_ok.1 run
      exact ⟨seen, checked⟩
    · rintro ⟨seen, checked⟩
      exact ⟨_, bind_eq_ok.2 ⟨seen, checked, rfl⟩⟩
  · obtain ⟨_, -, same⟩ := bind_eq_ok.1 run
    exact (Except.ok.inj same).symm
  · rcases checkNames_then_ends (Schema.titled recordName entries props).compiled
      (Schema.titled recordName entries props) with run | ⟨full, refused, clash⟩
    · cases run.symm.trans failed
    · exact ⟨full, Except.error.inj (failed.symm.trans refused), clash⟩

end

/-! Every well-formed record can be built. -/

theorem foldlM_withEntry {entries : List Entry} {l : EntryList} (props : Props)
    (recordName : Option String) (h : l.WellFormed) (own : ∀ e ∈ entries, e.WellFormed)
    (distinct : (l.names ++ entries.map Entry.name).Nodup) :
    ∃ l' : EntryList, entries.foldlM withEntry ⟨.record l, props, recordName⟩ =
        .ok ⟨.record l', props, recordName⟩ ∧ l'.entries = l.entries ++ entries := by
  induction entries generalizing l with
  | nil => exact ⟨l, rfl, by simp⟩
  | cons e rest ih =>
    have fresh : e.name ∉ l.names := fun used =>
      (List.nodup_append.1 distinct).2.2 _ used _ (by simp) rfl
    obtain ⟨l', run, all⟩ := ih (h.push (own e List.mem_cons_self) fresh)
      (fun f hf => own f (List.mem_cons_of_mem _ hf))
      (by simpa [EntryList.names_push] using distinct)
    refine ⟨l', ?_, by simp [all, EntryList.push]⟩
    rw [List.foldlM_cons, bind_eq_ok]
    exact ⟨⟨.record (l.push e), props, recordName⟩,
      by simp [withEntry, onEntries, h.add_of_not_mem fresh], run⟩

theorem foldlM_withEntry_empty {entries : List Entry} (props : Props) (recordName : Option String)
    (own : ∀ e ∈ entries, e.WellFormed) (distinct : (entries.map Entry.name).Nodup) :
    ∃ l : EntryList, entries.foldlM withEntry ⟨.record EntryList.empty, props, recordName⟩ =
        .ok ⟨.record l, props, recordName⟩ ∧ l.entries = entries :=
  foldlM_withEntry props recordName EntryList.wellFormed_empty own
    (by simpa [EntryList.names, EntryList.empty] using distinct)

/-- A record builder with a name and the logical order that is stored makes the record. -/
theorem finish_eq_ok {l : EntryList} {name : String} {props : Props} {order : List String}
    (arrange : List Entry → List Entry)
    (arranged : (arrange l.entries).map Entry.name = order)
    (stored : props.find? Canonical.orderKey = some (OrderText.join order))
    (consistent : (Schema.record name l.entries props).compiled.Consistent) :
    finish ⟨.record l, props.erase Canonical.orderKey, some name⟩ arrange =
      .ok (.record name l.entries props) := by
  obtain ⟨seen, checked⟩ := Canonical.checkNames_ok_iff.2 consistent
  simp [finish, finishRecord, checkedRecord, arranged, Props.erase_insert stored, checked]

end SchemaBuilder

namespace Schema

def Flat : Schema → Prop
  | .scalar _ => True
  | .array element _ _ => Flat element
  | _ => False

theorem Flat.checkNames {s : Schema} (h : s.Flat) (nullable : Bool)
    (seen : Canonical.Definitions) :
    Canonical.checkNames seen (nullableIf nullable s.compiled) = .ok seen := by
  match s with
  | .scalar k => cases nullable <;> cases k <;> rfl
  | .array element elementNullable props =>
    have own : element.Flat := h
    have inner := own.checkNames elementNullable seen
    cases nullable with
    | false => exact inner
    | true =>
      change (Canonical.checkNames seen (nullableIf elementNullable element.compiled) >>=
        fun later => Except.ok later) = .ok seen
      rw [inner, ok_bind]

theorem checkFieldNames_flat {entries : List Entry} (flat : ∀ e ∈ entries, e.schema.Flat)
    (seen : Canonical.Definitions) :
    Canonical.checkFieldNames seen (compiledEntries entries) = .ok seen := by
  induction entries with
  | nil => rfl
  | cons e rest ih =>
    obtain ⟨own, others⟩ := List.forall_mem_cons.1 flat
    obtain ⟨name, rawName, schema, nullable⟩ := e
    rw [compiledEntries, Canonical.checkFieldNames, own.checkNames nullable seen]
    exact ih others

end Schema

namespace SchemaBuilder

theorem exists_finish_of_flat {l : EntryList} (name : String) (props : Props)
    (arrange : List Entry → List Entry) (flat : ∀ e ∈ l.entries, ∃ k, e.schema = .scalar k) :
    ∃ s, finish ⟨.record l, props, some name⟩ arrange = .ok s := by
  let order := OrderText.join ((arrange l.entries).map Entry.name)
  let s := Schema.record name l.entries (props.insert Canonical.orderKey order)
  have each : ∀ e ∈ l.entries, e.schema.Flat := by
    intro e he
    obtain ⟨k, same⟩ := flat e he
    exact same ▸ trivial
  have checked := Schema.checkFieldNames_flat each
    [(Canonical.fullName Canonical.recordSpace name, s.compiled)]
  have named : Canonical.checkNames [] s.compiled = .ok _ := checked
  exact ⟨s, by simp [finish, finishRecord, checkedRecord, named, s, order]⟩

/-- Entries that are sorted by the places of their names stand as their names are listed. -/
theorem map_mergeSort_place (listed : List String) {entries : List Entry}
    (distinct : (entries.map Entry.name).Nodup) :
    (entries.mergeSort fun x y => (compare (OrderText.place listed x.name)
      (OrderText.place listed y.name)).isLE).map Entry.name =
      OrderText.ranked listed (entries.map Entry.name) := by
  have comparison : (fun x y : Entry => (compare (OrderText.place listed x.name)
      (OrderText.place listed y.name)).isLE) =
      fun x y => decide (OrderText.place listed x.name ≤ OrderText.place listed y.name) := by
    funext x y
    exact Bool.eq_iff_iff.2 (Std.isLE_compare.trans decide_eq_true_iff.symm)
  simp only [comparison]
  exact OrderText.map_arrange Entry.name listed distinct

theorem record_withProps (name : String) (props : Props) :
    (record.withRecordName name).withProps props.pairs =
      ⟨.record EntryList.empty, props, some name⟩ := by
  simp [record, ofKind, withType, withRecordName, withProps, empty, Shape.kind?, Shape.fresh]

theorem exists_buildListed {name : String} {entries : List Entry} {props : Props}
    {order : List String} (h : Schema.Arranged name entries props)
    (own : ∀ e ∈ entries, e.WellFormed) (perm : order.Perm (entries.map Entry.name))
    (stored : props.find? Canonical.orderKey = some (OrderText.join order)) :
    ∃ b, entries.foldlM withEntry
        ((record.withRecordName name).withProps (props.erase Canonical.orderKey).pairs) = .ok b ∧
      b.buildListed order = .ok (.record name entries props) := by
  have nodup : order.Nodup := perm.nodup_iff.2 h.distinct
  obtain ⟨l, declared, rfl⟩ :=
    foldlM_withEntry_empty (props.erase Canonical.orderKey) (some name) own h.distinct
  let byPlace := fun es : List Entry => es.mergeSort fun x y =>
    (compare (OrderText.place order x.name) (OrderText.place order y.name)).isLE
  have arranged := (map_mergeSort_place order h.distinct).trans (OrderText.ranked_of_perm nodup perm)
  exact ⟨⟨.record l, props.erase Canonical.orderKey, some name⟩,
    record_withProps name _ ▸ declared,
    finish_eq_ok byPlace arranged stored h.consistent⟩

/-! Records that are named by their content. -/

end SchemaBuilder

namespace Schema

/-- The record of some entries that has no name of its own. Without entries, and properties
besides the order, it is the shared one. -/
def ofContent (entries : List Entry) (props : Props) : Schema :=
  if entries.isEmpty && (props.erase Canonical.orderKey).isEmpty then .emptyRecord
  else .record (contentName entries props) entries props

def listed (entries : List Entry) : Schema :=
  ofContent entries
    (Props.empty.insert Canonical.orderKey (OrderText.join (entries.map Entry.name)))

theorem checkNames_emptyRecord : ∃ seen, Canonical.checkNames [] emptyRecord.compiled = .ok seen :=
  ⟨_, rfl⟩

theorem checkNames_ofContent {entries : List Entry} (flat : ∀ e ∈ entries, e.schema.Flat)
    (props : Props) :
    ∃ seen, Canonical.checkNames [] (ofContent entries props).compiled = .ok seen := by
  rw [ofContent]
  split
  · exact checkNames_emptyRecord
  · exact ⟨_, checkFieldNames_flat flat _⟩

end Schema

namespace SchemaBuilder

theorem finish_unnamed {l : EntryList} {props : Props} (arrange : List Entry → List Entry)
    (unset : props.find? Canonical.orderKey = none) {s : Schema}
    (same : s = Schema.ofContent l.entries (props.insert Canonical.orderKey
      (OrderText.join ((arrange l.entries).map Entry.name)))) :
    finish ⟨.record l, props, none⟩ arrange =
      (Canonical.checkNames [] s.compiled >>= fun _ => .ok s) := by
  rw [same, Schema.ofContent, Props.insert_erase _ unset]
  cases bare : l.entries.isEmpty && props.isEmpty with
  | true =>
    obtain ⟨seen, checked⟩ := Schema.checkNames_emptyRecord
    simp [finish, EntryList.isEmpty, bare, checked]
  | false => simp [finish, EntryList.isEmpty, bare, finishRecord, checkedRecord]

theorem build_ofEntries_eq (l : EntryList) : (ofEntries l).build =
    (Canonical.checkNames [] (Schema.listed l.entries).compiled >>= fun _ =>
      .ok (Schema.listed l.entries)) :=
  finish_unnamed id (Props.find?_empty _) rfl

theorem build_ofEntries_ends (l : EntryList) :
    (∃ s, (ofEntries l).build = .ok s) ∨
      ∃ full, (ofEntries l).build = .error (.format (.definedTwice full)) ∧
        Canonical.Clash (Schema.listed l.entries).compiled.nodes full := by
  rw [build_ofEntries_eq]
  exact (checkNames_then_ends _ _).imp_left fun run => ⟨_, run⟩

/-- Records without records inside are never refused. -/
theorem exists_build_of_flat {l : EntryList} (flat : ∀ e ∈ l.entries, e.schema.Flat) :
    ∃ s, (ofEntries l).build = .ok s := by
  obtain ⟨seen, checked⟩ := Schema.checkNames_ofContent flat
    (Props.empty.insert Canonical.orderKey (OrderText.join (l.entries.map Entry.name)))
  have checked : Canonical.checkNames [] (Schema.listed l.entries).compiled = .ok seen := checked
  exact ⟨_, by rw [build_ofEntries_eq, checked]; rfl⟩

end SchemaBuilder

namespace EntryBuilder

structure WellFormed (b : EntryBuilder) : Prop where
  named : ∀ name ∈ b.name, Identifier.isValid name
  inner : ∀ s, b.element = some s ∨ b.schema = some s → s.WellFormed

theorem wellFormed_empty : empty.WellFormed := by
  constructor <;> simp [empty]

theorem of_build {b : EntryBuilder} {e : Entry} (run : b.build = .ok e) :
    b.name = some e.name ∧ e.rawName = b.rawName ∧
      (b.schema = some e.schema ∨ ∃ kind, b.describedSchema e.name kind = .ok e.schema) := by
  unfold build at run
  split at run
  · cases run
  · rename_i name named
    split at run
    · cases run
    · rename_i kind typed
      cases given : b.schema with
      | none =>
        rw [given] at run
        obtain ⟨s, described, same⟩ := bind_eq_ok.1 run
        cases same
        exact ⟨named, rfl, .inr ⟨kind, described⟩⟩
      | some schema =>
        rw [given] at run
        cases run
        exact ⟨named, rfl, .inl rfl⟩

section

variable {b : EntryBuilder} (h : b.WellFormed)
include h

theorem WellFormed.withName (label : String) : (b.withName label).WellFormed := by
  refine ⟨fun name hn => ?_, h.inner⟩
  cases hn
  exact Identifier.isValid_sanitize label

theorem WellFormed.withRawName (label : String) : (b.withRawName label).WellFormed :=
  ⟨h.named, h.inner⟩

theorem WellFormed.withType (kind : Kind) : (b.withType kind).WellFormed := by
  refine ⟨h.named, fun s hs => h.inner s ?_⟩
  refine hs.imp_right fun kept => ?_
  simp only [EntryBuilder.withType] at kept
  split at kept
  · cases kept
  · exact kept

theorem WellFormed.withElement {element : Schema} (own : element.WellFormed) :
    (b.withElement element).WellFormed := by
  refine ⟨h.named, fun s hs => ?_⟩
  simp only [EntryBuilder.withElement, Option.some.injEq, reduceCtorEq, or_false] at hs
  exact hs ▸ own

theorem WellFormed.withElementNullable (nullable : Bool) :
    (b.withElementNullable nullable).WellFormed := by
  refine ⟨h.named, fun s hs => h.inner s ?_⟩
  simp only [EntryBuilder.withElementNullable, reduceCtorEq, or_false] at hs
  exact .inl hs

theorem WellFormed.withSchema {schema : Schema} (own : schema.WellFormed) :
    (b.withSchema schema).WellFormed := by
  refine ⟨h.named, fun s hs => ?_⟩
  simp only [EntryBuilder.withSchema, Option.some.injEq, reduceCtorEq, false_or] at hs
  exact hs ▸ own

theorem WellFormed.withNullable (nullable : Bool) : (b.withNullable nullable).WellFormed :=
  ⟨h.named, h.inner⟩

theorem WellFormed.withMetadata (metadata : Bool) : (b.withMetadata metadata).WellFormed :=
  ⟨h.named, h.inner⟩

theorem WellFormed.withComment (comment : String) : (b.withComment comment).WellFormed :=
  ⟨h.named, h.inner⟩

theorem WellFormed.withDefault (value : Json) : (b.withDefault value).WellFormed :=
  ⟨h.named, h.inner⟩

theorem WellFormed.withProp (key value : String) : (b.withProp key value).WellFormed :=
  ⟨h.named, h.inner⟩

theorem WellFormed.withProps (pairs : List (String × String)) : (b.withProps pairs).WellFormed :=
  ⟨h.named, h.inner⟩

theorem WellFormed.elim {α : Type} {step : α → EntryBuilder} {a : Option α}
    (keeps : ∀ x ∈ a, (step x).WellFormed) : (a.elim b step).WellFormed := by
  cases a with
  | none => exact h
  | some x => exact keeps x rfl

theorem WellFormed.describedSchema {name : String} {kind : Kind} {s : Schema}
    (run : b.describedSchema name kind = .ok s) : s.WellFormed := by
  cases kind with
  | record =>
    cases given : b.element with
    | none => simp [EntryBuilder.describedSchema, given] at run
    | some element =>
      simp only [EntryBuilder.describedSchema, given] at run
      split at run
      · cases run
        exact h.inner s (.inl given)
      · cases run
  | array =>
    cases given : b.element with
    | none => simp [EntryBuilder.describedSchema, given] at run
    | some element =>
      simp only [EntryBuilder.describedSchema, given] at run
      cases run
      exact Schema.wellFormed_array.2 (h.inner element (.inl given))
  | scalar k =>
    simp only [EntryBuilder.describedSchema] at run
    split at run
    · cases run
    · cases run
      exact Schema.wellFormed_scalar k

theorem WellFormed.build {e : Entry} (run : b.build = .ok e) : e.WellFormed := by
  obtain ⟨named, -, given | ⟨kind, described⟩⟩ := of_build run
  · exact ⟨h.named _ named, h.inner _ (.inr given)⟩
  · exact ⟨h.named _ named, h.describedSchema described⟩

end

theorem wellFormed_toBuilder {e : Entry} (h : e.WellFormed) : e.toBuilder.WellFormed := by
  refine ⟨fun name hn => ?_, fun s hs => ?_⟩
  · cases hn
    exact h.valid
  · simp only [Entry.toBuilder, reduceCtorEq, Option.some.injEq, false_or] at hs
    exact hs ▸ h.schema

/-- Every entry with an identifier for a name can be built. -/
theorem build_eq_ok {name : String} (rawName : Option String) (schema : Schema)
    (nullable metadata : Bool) (comment : Option String) (default : Option Json) (props : Props)
    (valid : Identifier.isValid name) :
    let b := EntryBuilder.empty.withName name |>.withSchema schema |>.withNullable nullable
      |>.withMetadata metadata |>.withProps props.pairs
    let b := rawName.elim b b.withRawName
    let b := comment.elim b b.withComment
    (default.elim b b.withDefault).build =
      .ok ⟨name, rawName, schema, nullable, metadata, comment, default, props⟩ := by
  have named : empty.withName name = { empty with name := some name } := by
    simp [withName, empty, Identifier.sanitize_eq_self valid]
  rw [named]
  cases rawName <;> cases comment <;> cases default <;>
    simp [build, withSchema, EntryBuilder.withNullable, EntryBuilder.withMetadata,
      EntryBuilder.withProps, withRawName, withComment, withDefault, empty]

end EntryBuilder

namespace Descriptor

theorem wellFormed_buildRecord {name : Option String} {entries : List TypedRecords.Entry}
    {props : Props} {s : Schema} (own : ∀ e ∈ entries, e.WellFormed)
    (run : buildRecord name entries props = .ok s) : s.WellFormed := by
  obtain ⟨b, declared, run⟩ := bind_eq_ok.1 run
  have h : b.WellFormed := by
    cases name with
    | none =>
      have start : (SchemaBuilder.record.withProps (props.erase Canonical.orderKey).pairs
        ).WellFormed := SchemaBuilder.wellFormed_ofKind .record
      exact start.withEntries own declared
    | some name =>
      have start : ((SchemaBuilder.record.withProps (props.erase Canonical.orderKey).pairs
        ).withRecordName name).WellFormed := SchemaBuilder.wellFormed_ofKind .record
      exact start.withEntries own declared
  split at run
  · exact h.buildListed run
  · exact h.build run

theorem wellFormed_buildArray {element : Option Schema} {nullable : Bool} {props : Props}
    {s : Schema} (own : ∀ t ∈ element, t.WellFormed)
    (run : buildArray element nullable props = .ok s) : s.WellFormed := by
  cases element with
  | none => cases run
  | some element =>
    cases run
    exact Schema.wellFormed_array.2 (own element rfl)

theorem wellFormed_entryBuilder {name : String} {label : Option String} {kind : Kind}
    {element : Option Schema} {elementNullable nullable metadata : Bool}
    {comment : Option String} {default : Option Json} {props : Props}
    (own : ∀ t ∈ element, t.WellFormed) :
    (entryBuilder name label kind element elementNullable nullable metadata comment default
      props).WellFormed := by
  have start := ((((EntryBuilder.wellFormed_empty.withName name).withType kind
    ).withElementNullable elementNullable).withNullable nullable).withMetadata metadata
  have labelled := (start.withProps props.pairs).elim (a := label) fun l _ =>
    (start.withProps props.pairs).withRawName l
  have holding := labelled.elim (a := element) fun t ht => labelled.withElement (own t ht)
  have told := holding.elim (a := comment) fun c _ => holding.withComment c
  exact told.elim fun d _ => told.withDefault d

mutual
theorem wellFormed_build (d : Descriptor) {s : Schema} (run : d.build = .ok s) :
    s.WellFormed := by
  match d with
  | ⟨.record, name, entries, _, _, props⟩ =>
    obtain ⟨built, inner, run⟩ := bind_eq_ok.1 run
    exact wellFormed_buildRecord (wellFormed_buildEntries entries inner) run
  | ⟨.array, _, _, element, nullable, props⟩ =>
    obtain ⟨built, inner, run⟩ := bind_eq_ok.1 run
    exact wellFormed_buildArray (wellFormed_buildElement element inner) run
  | ⟨.scalar k, _, entries, element, _, _⟩ =>
    simp only [build] at run
    split at run
    · cases run
    · exact (SchemaBuilder.wellFormed_ofKind _).build run

theorem wellFormed_buildElement (d : Option Descriptor) {element : Option Schema}
    (run : buildElement d = .ok element) : ∀ t ∈ element, t.WellFormed := by
  match d with
  | none =>
    cases run
    simp
  | some d =>
    obtain ⟨s, inner, same⟩ := bind_eq_ok.1 run
    cases same
    intro t ht
    cases ht
    exact wellFormed_build d inner

theorem wellFormed_buildEntry (d : Entry) {e : TypedRecords.Entry}
    (run : buildEntry d = .ok e) : e.WellFormed := by
  match d with
  | ⟨name, label, kind, element, elementNullable, nullable, metadata, comment, default, props⟩ =>
    obtain ⟨built, inner, run⟩ := bind_eq_ok.1 run
    exact (wellFormed_entryBuilder (wellFormed_buildElement element inner)).build run

theorem wellFormed_buildEntries (ds : List Entry) {entries : List TypedRecords.Entry}
    (run : buildEntries ds = .ok entries) : ∀ e ∈ entries, e.WellFormed := by
  match ds with
  | [] =>
    cases run
    simp
  | d :: rest =>
    obtain ⟨e, first, run⟩ := bind_eq_ok.1 run
    obtain ⟨others, later, same⟩ := bind_eq_ok.1 run
    cases same
    exact List.forall_mem_cons.2 ⟨wellFormed_buildEntry d first, wellFormed_buildEntries rest later⟩
end

end Descriptor

end TypedRecords
