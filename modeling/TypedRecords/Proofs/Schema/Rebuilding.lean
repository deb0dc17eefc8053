import TypedRecords.Proofs.Obtainable
import TypedRecords.Proofs.Schema.Description
import TypedRecords.Proofs.Schema.Document

/-! Schemas that are rebuilt from their descriptions.
A schema comes back as it was exactly if there was nothing in it that a description leaves out:
its records have the names that their content gives them, and the array types of its entries have
no properties. What was built from a document without record names is of this kind. -/
namespace TypedRecords

open Result

namespace Schema

theorem bare_retold (s : Schema) : s.bare.retold = s.retold.bare := by
  cases s with
  | scalar k => rfl
  | emptyRecord => rfl
  | record name entries props => exact (bare_of_kind (kind_ofContent _ _)).symm
  | array element nullable props => rfl

theorem bare_bare (s : Schema) : s.bare.bare = s.bare := by
  cases s <;> rfl

theorem bare_of_plain {s t : Schema} (h : t.bare.plain = s.plain) : s.bare = s := by
  cases s with
  | array element nullable props =>
    cases t with
    | array => simp_all [bare, plain]
    | _ => simp [bare, plain] at h
  | _ => rfl

theorem retold_ofContent {entries : List Entry} (props : Props)
    (h : ∀ e ∈ entries, e.schema.retold.bare = e.schema) :
    (ofContent entries props).retold = ofContent entries props := by
  have same : retoldEntries entries = entries := by
    rw [retoldEntries_eq_map]
    refine (List.map_congr_left fun e he => ?_).trans (List.map_id entries)
    obtain ⟨⟩ := e
    simp [Entry.retold, h _ he]
  unfold ofContent
  split
  · rfl
  · rename_i some_
    rw [retold, same, ofContent, if_neg some_]

mutual
theorem retold_retold (s : Schema) : s.retold.retold = s.retold := by
  match s with
  | .scalar k => rfl
  | .emptyRecord => rfl
  | .record name entries props => exact retold_ofContent props (retold_retoldEntries entries)
  | .array element nullable props => simp only [retold, retold_retold element]

theorem retold_retoldEntries (entries : List Entry) :
    ∀ e ∈ retoldEntries entries, e.schema.retold.bare = e.schema := by
  match entries with
  | [] => simp [retoldEntries]
  | ⟨name, rawName, schema, nullable, metadata, comment, default, props⟩ :: rest =>
    rw [retoldEntries]
    refine List.forall_mem_cons.2 ⟨?_, retold_retoldEntries rest⟩
    calc schema.retold.bare.retold.bare
      _ = schema.retold.retold.bare.bare := by rw [bare_retold]
      _ = schema.retold.bare := by rw [retold_retold schema, bare_bare]
end

/-- A record of which a description leaves nothing out. -/
structure Unadorned (name : String) (entries : List Entry) (props : Props) : Prop where
  named : (ofContent entries props).recordName? = some name
  bare : ∀ e ∈ entries, e.schema.bare = e.schema

/-- A schema with nothing inside that a description leaves out. -/
def Tellable (s : Schema) : Prop :=
  ∀ name entries props, record name entries props ∈ s.nodes → Unadorned name entries props

theorem tellable_scalar (kind : ScalarKind) : (scalar kind).Tellable := by
  simp [Tellable, nodes]

theorem tellable_emptyRecord : emptyRecord.Tellable := by
  simp [Tellable, nodes]

theorem tellable_array {element : Schema} {nullable : Bool} {props : Props} :
    (array element nullable props).Tellable ↔ element.Tellable := by
  simp [Tellable, nodes]

theorem tellable_record {name : String} {entries : List Entry} {props : Props} :
    (record name entries props).Tellable ↔
      Unadorned name entries props ∧ ∀ e ∈ entries, e.schema.Tellable :=
  forall_record_mem_nodes

/-- Schemas that are equal and compile to the same, so that records with them get the same name. -/
structure Alike (s t : Schema) : Prop where
  plain : s.plain = t.plain
  compiled : s.compiled = t.compiled

theorem recordName?_ofContent_congr {entries entries' : List Entry} (props : Props)
    (same : compiledEntries entries = compiledEntries entries') :
    (ofContent entries props).recordName? = (ofContent entries' props).recordName? := by
  have sameEmpty : entries.isEmpty = entries'.isEmpty := by
    rw [← isEmpty_compiledEntries, same, isEmpty_compiledEntries]
  simp only [ofContent, sameEmpty]
  split
  · rfl
  · simp only [recordName?, contentName, same]

/-- A record with the name from its content is made from its content. Without entries it is like
the shared record. -/
theorem alike_ofContent {name : String} {entries : List Entry} {props : Props}
    (ordered : entries = [] → props.find? Canonical.orderKey = some "")
    (named : (ofContent entries props).recordName? = some name) :
    (ofContent entries props).Alike (record name entries props) := by
  unfold ofContent at named ⊢
  split at named
  · rename_i shared
    obtain ⟨none_, only⟩ := Bool.and_eq_true_iff.1 shared
    obtain rfl := List.isEmpty_iff.1 none_
    have erased : props.erase Canonical.orderKey = Props.empty :=
      Props.ext (List.isEmpty_iff.1 only)
    have same : props = emptyRecordProps := by
      rw [← Props.erase_insert (ordered rfl), erased, emptyRecordProps]
    cases named
    rw [if_pos shared, same]
    exact ⟨rfl, rfl⟩
  · rename_i own
    cases named
    rw [if_neg own]
    exact ⟨rfl, rfl⟩

mutual
theorem alike_retold (s : Schema) (h : s.WellFormed) (told : s.Tellable) : s.retold.Alike s := by
  match s with
  | .scalar k => exact ⟨rfl, rfl⟩
  | .emptyRecord => exact ⟨rfl, rfl⟩
  | .array element nullable props =>
    obtain ⟨same, sameCompiled⟩ :=
      alike_retold element (wellFormed_array.1 h) (tellable_array.1 told)
    exact ⟨by rw [retold, plain, plain, same], by rw [retold, compiled, compiled, sameCompiled]⟩
  | .record name entries props =>
    obtain ⟨arranged, inner⟩ := wellFormed_record.1 h
    obtain ⟨⟨named, bared⟩, others⟩ := tellable_record.1 told
    obtain ⟨same, sameCompiled⟩ := alike_retoldEntries entries fun e he =>
      ⟨inner e he, others e he, bared e he⟩
    have own : (ofContent (retoldEntries entries) props).recordName? = some name :=
      (recordName?_ofContent_congr props sameCompiled).trans named
    have ordered (none_ : retoldEntries entries = []) :
        props.find? Canonical.orderKey = some "" := by
      rw [retoldEntries_eq_map, List.map_eq_nil_iff] at none_
      exact Arranged.find?_of_nil (none_ ▸ arranged)
    obtain ⟨whole, wholeCompiled⟩ := alike_ofContent ordered own
    exact ⟨whole.trans (by rw [plain, plain, same]),
      wholeCompiled.trans (by rw [compiled, compiled, sameCompiled])⟩

theorem alike_retoldEntries (entries : List Entry)
    (each : ∀ e ∈ entries, e.schema.WellFormed ∧ e.schema.Tellable ∧ e.schema.bare = e.schema) :
    plainEntries (retoldEntries entries) = plainEntries entries ∧
      compiledEntries (retoldEntries entries) = compiledEntries entries := by
  match entries with
  | [] => exact ⟨rfl, rfl⟩
  | ⟨name, rawName, schema, nullable, metadata, comment, default, props⟩ :: rest =>
    obtain ⟨⟨sound, told, bared⟩, others⟩ := List.forall_mem_cons.1 each
    obtain ⟨same, sameCompiled⟩ := alike_retold schema sound told
    obtain ⟨sameRest, sameRest'⟩ := alike_retoldEntries rest others
    have kept : schema.retold.bare = schema.retold := by rw [← bare_retold, bared]
    simp only [retoldEntries, plainEntries, compiledEntries, kept, same, sameCompiled, sameRest,
      sameRest', and_self]
end

mutual
/-- What comes back equal from what is told of it can be told in full. -/
theorem tellable_of_retold (s : Schema) (h : s.WellFormed) (same : s.retold.plain = s.plain) :
    s.Tellable := by
  match s with
  | .scalar k => exact tellable_scalar k
  | .emptyRecord => exact tellable_emptyRecord
  | .array element nullable props =>
    have inner : element.retold.plain = element.plain := by simp_all [retold, plain]
    exact tellable_array.2 (tellable_of_retold element (wellFormed_array.1 h) inner)
  | .record name entries props =>
    obtain ⟨-, inner⟩ := wellFormed_record.1 h
    have listed : plainEntries (retoldEntries entries) = plainEntries entries := by
      rw [← entries_ofContent (retoldEntries entries) props]
      exact entries_of_plain same
    have each := tellable_of_retoldEntries entries inner listed
    obtain ⟨-, sameCompiled⟩ := alike_retoldEntries entries fun e he =>
      ⟨inner e he, (each e he).2, (each e he).1⟩
    have named : (ofContent (retoldEntries entries) props).recordName? = some name := by
      rw [← recordName?_plain, ← retold, same]
      rfl
    refine tellable_record.2 ⟨⟨?_, fun e he => (each e he).1⟩, fun e he => (each e he).2⟩
    rw [← recordName?_ofContent_congr props sameCompiled, named]

theorem tellable_of_retoldEntries (entries : List Entry)
    (h : ∀ e ∈ entries, e.schema.WellFormed)
    (same : plainEntries (retoldEntries entries) = plainEntries entries) :
    ∀ e ∈ entries, e.schema.bare = e.schema ∧ e.schema.Tellable := by
  match entries with
  | [] => simp
  | ⟨name, rawName, schema, nullable, metadata, comment, default, props⟩ :: rest =>
    obtain ⟨sound, others⟩ := List.forall_mem_cons.1 h
    simp only [retoldEntries, plainEntries, List.cons.injEq, Entry.mk.injEq, true_and,
      and_true] at same
    obtain ⟨own, later⟩ := same
    have bared : schema.bare = schema := bare_of_plain own
    rw [← bare_retold, bared] at own
    exact List.forall_mem_cons.2 ⟨⟨bared, tellable_of_retold schema sound own⟩,
      tellable_of_retoldEntries rest others later⟩
end

theorem retold_eq_iff_tellable {s : Schema} (h : s.WellFormed) :
    (s.retold == s) = true ↔ s.Tellable :=
  eq_iff_plain.trans ⟨tellable_of_retold s h, fun told => (alike_retold s h told).plain⟩

/-- A schema that was built from a description can be told in full, and it is the one that was
described exactly if that could be told in full. -/
theorem rebuilt_eq_iff_tellable {s t : Schema} (h : s.Obtainable) (run : s.describe.build = .ok t) :
    t = s.retold ∧ t.Tellable ∧ ((t == s) = true ↔ s.Tellable) := by
  have sound := obtainable_iff_wellFormed.1 h
  obtain ⟨sound', rfl⟩ := (Descriptor.build_ofSchema_iff s sound).1 run
  refine ⟨rfl, (retold_eq_iff_tellable sound').1 ?_, retold_eq_iff_tellable sound⟩
  rw [retold_retold, eq_self]

/-! A description is built unless a name stands for two records, so it is built where a record has
none inside. -/

theorem Flat.wellFormed {s : Schema} (h : s.Flat) : s.WellFormed := by
  match s with
  | .scalar k => exact wellFormed_scalar k
  | .array element nullable props =>
    have inner : element.Flat := h
    exact wellFormed_array.2 inner.wellFormed

theorem Flat.retold_eq {s : Schema} (h : s.Flat) : s.retold = s := by
  match s with
  | .scalar k => rfl
  | .array element nullable props =>
    have inner : element.Flat := h
    rw [retold, inner.retold_eq]

theorem Flat.bare {s : Schema} (h : s.Flat) : s.bare.Flat := by
  cases s <;> exact h

theorem wellFormed_ofContent_of_flat {entries : List Entry} {props : Props} {order : List String}
    (valid : ∀ e ∈ entries, Identifier.isValid e.name) (distinct : (entries.map Entry.name).Nodup)
    (perm : order.Perm (entries.map Entry.name))
    (stored : props.find? Canonical.orderKey = some (OrderText.join order))
    (flat : ∀ e ∈ entries, e.schema.Flat) : (ofContent entries props).WellFormed :=
  (wellFormed_ofContent_iff (fun e he => ⟨valid e he, (flat e he).wellFormed⟩) distinct
    ⟨order, perm, stored⟩).2 (Canonical.checkNames_ok_iff.1 (checkNames_ofContent flat props))

theorem build_describe_of_flat {name : String} {entries : List Entry} {props : Props}
    (h : (record name entries props).WellFormed) (flat : ∀ e ∈ entries, e.schema.Flat) :
    (record name entries props).describe.build = .ok (record name entries props).retold := by
  obtain ⟨own, -⟩ := wellFormed_record.1 h
  obtain ⟨order, perm, stored⟩ := own.ordered
  have names := map_name_retoldEntries entries
  refine (Descriptor.build_ofSchema_iff _ h).2 ⟨?_, rfl⟩
  refine wellFormed_ofContent_of_flat (fun e he => ?_) (names ▸ own.distinct) (names ▸ perm) stored
    fun e he => ?_
  · obtain ⟨e', mem, rfl⟩ := mem_retoldEntries.1 he
    exact own.valid e' mem
  · obtain ⟨e', mem, rfl⟩ := mem_retoldEntries.1 he
    have inner := flat e' mem
    rw [Entry.retold, inner.retold_eq]
    exact inner.bare

/-- A named record. Its description builds another record. -/
def customer : Schema :=
  .record "Customer" [⟨"id", none, .scalar .int, false, false, none, none, Props.empty⟩]
    (Props.ofList [(Canonical.orderKey, "id")])

theorem wellFormed_customer : customer.WellFormed := by
  have own : Arranged "Customer" customer.entries customer.props :=
    { valid := by decide
      distinct := by decide
      ordered := ⟨["id"], by decide, by decide⟩
      consistent := by decide }
  refine wellFormed_record.2 ⟨own, ?_⟩
  simp [wellFormed_scalar]

theorem exists_customer_renamed :
    customer.Obtainable ∧ ∃ t, customer.describe.build = .ok t ∧
      t.recordName? ≠ customer.recordName? ∧ (t == customer) = false := by
  have renamed : customer.retold.recordName? ≠ customer.recordName? := by
    intro same
    have name : contentName (retoldEntries customer.entries) customer.props = "Customer" :=
      Option.some.inj same
    have head := head?_contentName (retoldEntries customer.entries) customer.props
    rw [name] at head
    revert head
    decide
  refine ⟨wellFormed_customer.obtainable, customer.retold,
    build_describe_of_flat wellFormed_customer (by simp [Flat]), renamed, ?_⟩
  rw [Bool.eq_false_iff, ne_eq, eq_iff_plain]
  intro same
  rw [← recordName?_plain, same, recordName?_plain] at renamed
  exact renamed rfl

def scores : Entry :=
  ⟨"scores", none, .array (.scalar .int) false (Props.ofList [("unit", "points")]), false, false,
    none, none, Props.empty⟩

def scoreboard : Schema := ofContent [scores] (Props.ofList [(Canonical.orderKey, "scores")])

theorem wellFormed_scoreboard : scoreboard.WellFormed := by
  rw [scoreboard]
  exact wellFormed_ofContent_of_flat (by decide) (by decide) (.refl ["scores"])
    (by decide) (by simp [scores, Flat])

theorem not_tellable_scoreboard : ¬ scoreboard.Tellable := by
  intro told
  have bared := (told _ _ _ (self_mem_nodes scoreboard)).bare scores List.mem_cons_self
  have none_ : Props.empty = Props.ofList [("unit", "points")] := (array.inj bared).2.2
  exact absurd none_ (by decide)

theorem rebuilt_scoreboard :
    scoreboard.Obtainable ∧ ∃ t, scoreboard.describe.build = .ok t ∧ t = scoreboard.retold ∧
      t.Tellable ∧ ((t == scoreboard) = true ↔ scoreboard.Tellable) ∧ ¬ scoreboard.Tellable := by
  have obtainable := wellFormed_scoreboard.obtainable
  have built : scoreboard.describe.build = .ok scoreboard.retold :=
    build_describe_of_flat wellFormed_scoreboard (by simp [scores, Flat])
  obtain ⟨same, told, iff_⟩ := rebuilt_eq_iff_tellable obtainable built
  exact ⟨obtainable, _, built, same, told, iff_, not_tellable_scoreboard⟩

end Schema

/-! Schemas that were built without names. -/

namespace Descriptor

open Schema

mutual
def Unnamed : Descriptor → Prop
  | ⟨kind, name, entries, element, _, _⟩ =>
    (kind = .record → name = none) ∧ AllUnnamed entries ∧ ElementUnnamed element

def ElementUnnamed : Option Descriptor → Prop
  | none => True
  | some d => Unnamed d

def AllUnnamed : List Entry → Prop
  | [] => True
  | ⟨_, _, _, element, _, _, _, _, _, _⟩ :: rest => ElementUnnamed element ∧ AllUnnamed rest
end

theorem Told.element {d : Descriptor} (h : d.Told) : ElementTold d.element := by
  obtain ⟨⟩ := d
  exact h.2

/-- Telling changes nothing, and what is told can be written. -/
structure Faithful (s : Schema) : Prop where
  same : s.retold = s
  told : (ofSchema s).Told

structure FaithfulEntry (e : TypedRecords.Entry) : Prop where
  same : e.schema.retold.bare = e.schema
  told : (ofSchema e.schema).Told
  default : e.default ≠ some .null

theorem allTold_ofEntries {entries : List TypedRecords.Entry}
    (h : ∀ e ∈ entries, FaithfulEntry e) : AllTold (ofEntries entries) := by
  induction entries with
  | nil => trivial
  | cons e rest ih =>
    obtain ⟨own, others⟩ := List.forall_mem_cons.1 h
    rw [ofEntries_eq_map, List.map_cons, ← ofEntries_eq_map]
    refine ⟨own.default, ?_, ih others⟩
    split
    · exact own.told
    · exact own.told.element

theorem faithful_ofContent {entries : List TypedRecords.Entry} (props : Props)
    (h : ∀ e ∈ entries, FaithfulEntry e) : Faithful (ofContent entries props) := by
  refine ⟨retold_ofContent props fun e he => (h e he).same, ?_⟩
  unfold ofContent
  split
  · exact ⟨trivial, trivial⟩
  · exact ⟨allTold_ofEntries h, trivial⟩

theorem faithful_array {element : Schema} (h : Faithful element) (nullable : Bool) (props : Props) :
    Faithful (.array element nullable props) :=
  ⟨by rw [retold, h.same], trivial, h.told⟩

theorem faithful_scalar (k : ScalarKind) : Faithful (.scalar k) := ⟨rfl, trivial, trivial⟩

theorem faithful_describedSchema {b : EntryBuilder} {name : String} {kind : Kind} {s : Schema}
    (own : ∀ t ∈ b.element, Faithful t) (run : b.describedSchema name kind = .ok s) :
    s.retold.bare = s ∧ (ofSchema s).Told := by
  cases kind with
  | record =>
    cases given : b.element with
    | none => simp [EntryBuilder.describedSchema, given] at run
    | some inner =>
      simp only [EntryBuilder.describedSchema, given] at run
      split at run
      · rename_i kind
        cases run
        obtain ⟨same, told⟩ := own _ given
        exact ⟨by rw [same, bare_of_kind kind], told⟩
      · cases run
  | array =>
    cases given : b.element with
    | none => simp [EntryBuilder.describedSchema, given] at run
    | some inner =>
      simp only [EntryBuilder.describedSchema, given] at run
      cases run
      obtain ⟨same, told⟩ := faithful_array (own inner given) b.elementNullable Props.empty
      exact ⟨by rw [same, bare], told⟩
  | scalar k =>
    simp only [EntryBuilder.describedSchema] at run
    split at run
    · cases run
    · cases run
      exact ⟨rfl, trivial, trivial⟩

mutual
theorem faithful_build (d : Descriptor) (unnamed : d.Unnamed) (told : d.Told) {s : Schema}
    (run : d.build = .ok s) : Faithful s := by
  match d with
  | ⟨.record, name, entries, _, _, props⟩ =>
    obtain rfl : name = none := unnamed.1 rfl
    obtain ⟨es, inner, run⟩ := bind_eq_ok.1 run
    have each := faithful_buildEntries entries unnamed.2.1 told.1 inner
    obtain ⟨l, arrange, given, built⟩ := buildRecord_spec (wellFormed_buildEntries entries inner) run
    rw [SchemaBuilder.finish_unnamed arrange (by simp [Props.find?_erase]) rfl, bind_eq_ok] at built
    obtain ⟨_, -, same⟩ := built
    cases same
    refine faithful_ofContent _ fun e he => ?_
    obtain ⟨g, hg, other, rfl⟩ := given e he
    exact ⟨(each g hg).same, (each g hg).told, (each g hg).default⟩
  | ⟨.array, _, _, element, nullable, props⟩ =>
    obtain ⟨built, inner, run⟩ := bind_eq_ok.1 run
    have each := faithful_buildElement element unnamed.2.2 told.2 inner
    cases built with
    | none => cases run
    | some t =>
      cases run
      exact faithful_array (each t rfl) nullable _
  | ⟨.scalar k, _, entries, element, _, _⟩ =>
    simp only [build] at run
    split at run
    · cases run
    · cases run
      exact faithful_scalar k

theorem faithful_buildElement (d : Option Descriptor) (unnamed : ElementUnnamed d)
    (told : ElementTold d) {element : Option Schema} (run : buildElement d = .ok element) :
    ∀ t ∈ element, Faithful t := by
  match d with
  | none =>
    cases run
    simp
  | some d =>
    obtain ⟨s, inner, same⟩ := bind_eq_ok.1 run
    cases same
    intro t ht
    cases ht
    exact faithful_build d unnamed told inner

theorem faithful_buildEntries (ds : List Entry) (unnamed : AllUnnamed ds) (told : AllTold ds)
    {entries : List TypedRecords.Entry} (run : buildEntries ds = .ok entries) :
    ∀ e ∈ entries, FaithfulEntry e := by
  match ds with
  | [] =>
    cases run
    simp
  | ⟨name, label, kind, element, elementNullable, nullable, metadata, comment, default, props⟩
      :: rest =>
    obtain ⟨e, first, run⟩ := bind_eq_ok.1 run
    obtain ⟨others, later, same⟩ := bind_eq_ok.1 run
    cases same
    obtain ⟨built, inner, first⟩ := bind_eq_ok.1 first
    have each := faithful_buildElement element unnamed.1 told.2.1 inner
    rw [build_entryBuilder] at first
    obtain ⟨schema, described, same⟩ := bind_eq_ok.1 first
    cases same
    obtain ⟨same, toldSchema⟩ := faithful_describedSchema each described
    exact List.forall_mem_cons.2 ⟨⟨same, toldSchema, told.1⟩,
      faithful_buildEntries rest unnamed.2 told.2.2 later⟩
end

/-- What was built from a document without record names is described by a document that builds
the same again, with the names of all records made from their content. -/
theorem build_description {j : Json} {d : Descriptor} {s : Schema} (read : ofJson j = .ok d)
    (unnamed : d.Unnamed) (run : d.build = .ok s) :
    ∃ d', ofJson s.describe.toJson = .ok d' ∧ d'.build = .ok s ∧
      ∀ name entries props, .record name entries props ∈ s.nodes →
        (ofContent entries props).recordName? = some name := by
  obtain ⟨same, told⟩ := faithful_build d unnamed (told_of_ofJson read) run
  have sound := wellFormed_build d run
  have tellable : s.Tellable := (retold_eq_iff_tellable sound).1 (by rw [same, Schema.eq_self])
  refine ⟨s.describe, ofJson_of_told told, ?_, fun name entries props mem => ?_⟩
  · exact (build_ofSchema_iff s sound).2 ⟨same.symm ▸ sound, same.symm⟩
  · exact (tellable _ _ _ mem).named

def results : Descriptor :=
  { kind := .record, name := none
    entries :=
      [{ name := "first name", label := none, kind := .scalar .string, element := none
         elementNullable := true, nullable := true, metadata := false, comment := some "as given"
         default := none, props := Props.empty },
       { name := "scores", label := none, kind := .array
         element := some ⟨.scalar .int, none, [], none, true, Props.empty⟩
         elementNullable := false, nullable := false, metadata := false, comment := none
         default := some (.arr []), props := Props.empty }]
    element := none, elementNullable := true
    props := Props.ofList [(Canonical.orderKey, "scores,first_name"), ("owner", "club")] }

theorem exists_build_results : ∃ s, results.build = .ok s := by
  let es : List TypedRecords.Entry :=
    [⟨"first_name", some "first name", .scalar .string, true, false, some "as given", none,
        Props.empty⟩,
      ⟨"scores", none, .array (.scalar .int) false Props.empty, false, false, none,
        some (.arr []), Props.empty⟩]
  have built : buildEntries results.entries = .ok es := rfl
  have flat : ∀ e ∈ es, e.schema.Flat := by simp [es, Flat]
  have valid : ∀ e ∈ es, Identifier.isValid e.name := by decide
  have distinct : (es.map TypedRecords.Entry.name).Nodup := by decide
  have perm : ["scores", "first_name"].Perm (es.map TypedRecords.Entry.name) := by decide
  have stored : results.props.find? Canonical.orderKey =
      some (OrderText.join ["scores", "first_name"]) := by decide
  have whole := (buildRecord_told rfl (fun e he => ⟨valid e he, (flat e he).wellFormed⟩) distinct
    perm stored).2 ⟨wellFormed_ofContent_of_flat valid distinct perm stored flat, rfl⟩
  exact ⟨_, bind_eq_ok.2 ⟨es, built, whole⟩⟩

theorem build_description_results :
    ∃ s, ofJson results.toJson = .ok results ∧ results.Unnamed ∧ results.build = .ok s ∧
      ∃ d', ofJson s.describe.toJson = .ok d' ∧ d'.build = .ok s ∧
        ∀ name entries props, .record name entries props ∈ s.nodes →
          (ofContent entries props).recordName? = some name := by
  obtain ⟨s, run⟩ := exists_build_results
  have read : ofJson results.toJson = .ok results := ofJson_of_told (by simp [results, Told, AllTold, ElementTold])
  have unnamed : results.Unnamed := by simp [results, Unnamed, AllUnnamed, ElementUnnamed]
  exact ⟨s, read, unnamed, run, build_description read unnamed run⟩

end Descriptor

end TypedRecords
