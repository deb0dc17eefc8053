import TypedRecords.Proofs.Canonical.Document
import TypedRecords.Proofs.Schema.WellFormed

/-! Schemas that their documents tell all about.
A compiled record stands in a namespace, so its full name has a dot in it. That keeps it from
being taken for a primitive type, or for a record by its short name, as long as no short name
has a dot of its own. -/
namespace TypedRecords

namespace Text

theorem isPart_hexDigit (n : Nat) : Identifier.isPart (hexDigit n) = true := by
  have each : ∀ m < 16, Identifier.isPart ((Nat.toDigits 16 m).headD '0') = true := by decide
  exact each (n % 16) (Nat.mod_lt n (by decide))

theorem isPart_of_mem_hex {bytes : List UInt8} : ∀ c ∈ (hex bytes).toList, Identifier.isPart c := by
  have grows (text : String) (start : ∀ c ∈ text.toList, Identifier.isPart c) :
      ∀ c ∈ (bytes.foldl (fun text b => text ++ hexByte b) text).toList, Identifier.isPart c := by
    induction bytes generalizing text with
    | nil => exact start
    | cons b rest ih =>
      refine ih _ fun c hc => ?_
      rw [String.toList_append, List.mem_append] at hc
      rcases hc with old | new
      · exact start c old
      · have : c = hexDigit (b.toNat / 16) ∨ c = hexDigit b.toNat := by simpa [hexByte] using new
        rcases this with rfl | rfl <;> exact isPart_hexDigit _
  exact grows "" (by simp)

end Text

namespace Canonical

/-- A type that says nothing beyond the types inside it. -/
structure Silent (c : Canonical) : Prop where
  short : c.shortName? = none
  full : c.fullName? = none
  fields : c.ownFields = []
  props : c.ownProps = Props.empty

theorem silent_null : null.Silent := ⟨rfl, rfl, rfl, rfl⟩

theorem silent_union (branches : List Canonical) : (union branches).Silent := ⟨rfl, rfl, rfl, rfl⟩

theorem ofName?_eq_none_of_dot {name : String} (h : '.' ∈ name.toList) :
    Primitive.ofName? name = none := by
  cases found : Primitive.ofName? name with
  | none => rfl
  | some p =>
    have same : p.name = name := by simpa using List.find?_some found
    subst same
    cases p <;> simp [Primitive.name] at h

theorem dot_mem_fullName (name : String) : '.' ∈ (fullName recordSpace name).toList := by
  simp [fullName, recordSpace, String.isEmpty]

end Canonical

namespace Schema

open Canonical

def reservedKeys (s : Schema) : List String :=
  match s.kind with
  | .record => recordKeys
  | .array => arrayKeys
  | .scalar _ => []

/-- A schema whose properties hide no attributes, and whose records have names without dots. -/
structure Storable (s : Schema) : Prop where
  clear : ∀ t ∈ s.nodes, ∀ p ∈ t.props.pairs, p.1 ∉ t.reservedKeys
  clearEntries : ∀ t ∈ s.nodes, ∀ e ∈ t.entries, ∀ p ∈ e.props.pairs, p.1 ∉ fieldKeys
  undotted : ∀ t ∈ s.nodes, ∀ name, t.recordName? = some name → '.' ∉ name.toList

theorem Storable.of_mem {s t : Schema} (h : s.Storable) (mem : t ∈ s.nodes) : t.Storable :=
  ⟨fun u hu => h.clear u (nodes_subset_of_mem s mem u hu),
    fun u hu => h.clearEntries u (nodes_subset_of_mem s mem u hu),
    fun u hu => h.undotted u (nodes_subset_of_mem s mem u hu)⟩

theorem shortName?_compiled (s : Schema) : s.compiled.shortName? = s.recordName? := by
  cases s with
  | scalar kind => cases kind <;> rfl
  | _ => rfl

theorem fullName?_compiled (s : Schema) :
    s.compiled.fullName? = s.recordName?.map (fullName recordSpace) := by
  cases s with
  | scalar kind => cases kind <;> rfl
  | _ => rfl

theorem ownFields_compiled (s : Schema) : s.compiled.ownFields = compiledEntries s.entries := by
  cases s with
  | scalar kind => cases kind <;> rfl
  | _ => rfl

theorem ownProps_compiled (s : Schema) : s.compiled.ownProps = s.props := by
  cases s with
  | scalar kind => cases kind <;> rfl
  | _ => rfl

theorem ownKeys_compiled (s : Schema) : s.compiled.ownKeys = s.reservedKeys := by
  cases s with
  | scalar kind => cases kind <;> rfl
  | _ => rfl

theorem mem_compiledEntries {entries : List Entry} {f : Field} (h : f ∈ compiledEntries entries) :
    ∃ e ∈ entries, f.name = e.name ∧ f.default = e.default ∧
      f.props = fieldProps e.props e.rawName := by
  induction entries with
  | nil => simp [compiledEntries] at h
  | cons e rest ih =>
    obtain ⟨⟩ := e
    rcases List.mem_cons.1 h with rfl | later
    · exact ⟨_, List.mem_cons_self, rfl, rfl, rfl⟩
    · obtain ⟨e, he, same⟩ := ih later
      exact ⟨e, List.mem_cons_of_mem _ he, same⟩

theorem fieldProps_clear {props : Props} (rawName : Option String)
    (h : ∀ p ∈ props.pairs, p.1 ∉ fieldKeys) :
    ∀ p ∈ (fieldProps props rawName).pairs, p.1 ∉ fieldKeys := by
  cases rawName with
  | none => exact h
  | some label =>
    have label_clear : labelKey ∉ fieldKeys := by decide
    intro p hp
    rcases Assoc.mem_insert hp with rfl | old
    · exact label_clear
    · exact h p old

/-! The types inside a compiled schema. -/

/-- Besides some compiled schemas, there are only unions with null. -/
def Stems (ts : List Schema) (d : Canonical) : Prop := (∃ t ∈ ts, t.compiled = d) ∨ d.Silent

theorem Stems.mono {ts us : List Schema} {d : Canonical} (h : Stems ts d)
    (within : ∀ t ∈ ts, t ∈ us) : Stems us d := by
  rcases h with ⟨t, ht, same⟩ | silent
  · exact .inl ⟨t, within t ht, same⟩
  · exact .inr silent

theorem mem_nodes_nullableIf {nullable : Bool} {c d : Canonical}
    (h : d ∈ (nullableIf nullable c).nodes) : d ∈ c.nodes ∨ d.Silent := by
  cases nullable with
  | false => exact .inl h
  | true =>
    by_cases union : c.isUnion
    · exact .inl (by simpa [nullableIf, wrapNullable, union] using h)
    · simp only [nullableIf, wrapNullable, union, if_true, Bool.false_eq_true, if_false] at h
      rcases List.mem_cons.1 h with rfl | below
      · exact .inr (silent_union _)
      · rcases List.mem_cons.1 below with rfl | inside
        · exact .inr silent_null
        · exact .inl (by simpa [nodesOfBranches] using inside)

mutual
theorem stems_of_mem_nodes {d : Canonical} (s : Schema) (h : d ∈ s.compiled.nodes) :
    Stems s.nodes d := by
  match s with
  | .scalar kind =>
    refine .inl ⟨.scalar kind, self_mem_nodes _, ?_⟩
    cases kind <;> exact (List.mem_singleton.1 h).symm
  | .emptyRecord => exact .inl ⟨.emptyRecord, self_mem_nodes _, (List.mem_singleton.1 h).symm⟩
  | .array element nullable props =>
    rcases List.mem_cons.1 h with rfl | inside
    · exact .inl ⟨_, self_mem_nodes _, rfl⟩
    · rcases mem_nodes_nullableIf inside with inner | silent
      · exact (stems_of_mem_nodes element inner).mono fun t ht => List.mem_cons_of_mem _ ht
      · exact .inr silent
  | .record name entries props =>
    rcases List.mem_cons.1 h with rfl | inside
    · exact .inl ⟨_, self_mem_nodes _, rfl⟩
    · exact (stems_of_mem_nodesOfFields entries inside).mono
        fun t ht => List.mem_cons_of_mem _ ht

theorem stems_of_mem_nodesOfFields {d : Canonical} (entries : List Entry)
    (h : d ∈ nodesOfFields (compiledEntries entries)) : Stems (nodesOfEntries entries) d := by
  match entries with
  | [] => simp [compiledEntries, nodesOfFields] at h
  | ⟨_, _, schema, nullable, _, _, _, _⟩ :: rest =>
    rcases List.mem_append.1 h with first | later
    · rcases mem_nodes_nullableIf first with inner | silent
      · exact (stems_of_mem_nodes schema inner).mono fun t ht => List.mem_append_left _ ht
      · exact .inr silent
    · exact (stems_of_mem_nodesOfFields rest later).mono fun t ht => List.mem_append_right _ ht
end

theorem mem_nodes_nullableIf_of_mem {nullable : Bool} {c d : Canonical} (h : d ∈ c.nodes) :
    d ∈ (nullableIf nullable c).nodes := by
  cases nullable with
  | false => exact h
  | true =>
    by_cases union : c.isUnion
    · simpa [nullableIf, wrapNullable, union] using h
    · simp only [nullableIf, wrapNullable, union, if_true, Bool.false_eq_true, if_false]
      refine List.mem_cons_of_mem _ (List.mem_append_right _ ?_)
      simpa [nodesOfBranches] using h

mutual
theorem compiled_mem_nodes {t : Schema} (s : Schema) (h : t ∈ s.nodes) :
    t.compiled ∈ s.compiled.nodes := by
  match s with
  | .scalar kind | .emptyRecord =>
    rw [List.mem_singleton.1 h]
    exact Canonical.self_mem_nodes _
  | .array element nullable props =>
    rcases List.mem_cons.1 h with rfl | inner
    · exact Canonical.self_mem_nodes _
    · exact List.mem_cons_of_mem _ (mem_nodes_nullableIf_of_mem (compiled_mem_nodes element inner))
  | .record name entries props =>
    rcases List.mem_cons.1 h with rfl | inner
    · exact Canonical.self_mem_nodes _
    · exact List.mem_cons_of_mem _ (compiled_mem_nodesOfFields entries inner)

theorem compiled_mem_nodesOfFields {t : Schema} (entries : List Entry)
    (h : t ∈ nodesOfEntries entries) :
    t.compiled ∈ nodesOfFields (compiledEntries entries) := by
  match entries with
  | [] => simp [nodesOfEntries] at h
  | ⟨_, _, schema, _, _, _, _, _⟩ :: rest =>
    rcases List.mem_append.1 h with first | later
    · exact List.mem_append_left _ (mem_nodes_nullableIf_of_mem (compiled_mem_nodes schema first))
    · exact List.mem_append_right _ (compiled_mem_nodesOfFields rest later)
end

theorem dot_mem_of_fullName? {s : Schema} {d : Canonical} {full : String}
    (mem : d ∈ s.compiled.nodes) (named : d.fullName? = some full) : '.' ∈ full.toList := by
  rcases stems_of_mem_nodes s mem with ⟨t, -, rfl⟩ | silent
  · rw [fullName?_compiled] at named
    obtain ⟨name, -, rfl⟩ := Option.map_eq_some_iff.1 named
    exact dot_mem_fullName name
  · simp [silent.full] at named

theorem ofName?_fullName?_compiled {s : Schema} {d : Canonical} (mem : d ∈ s.compiled.nodes) :
    d.fullName?.bind Primitive.ofName? = none := by
  cases named : d.fullName? with
  | none => rfl
  | some full => exact ofName?_eq_none_of_dot (dot_mem_of_fullName? mem named)

theorem shortName?_ne_fullName? {s : Schema}
    (undotted : ∀ t ∈ s.nodes, ∀ name, t.recordName? = some name → '.' ∉ name.toList)
    {a b : Canonical} (ha : a ∈ s.compiled.nodes) (hb : b ∈ s.compiled.nodes)
    (named : a.shortName? ≠ none) : a.shortName? ≠ b.fullName? := by
  obtain ⟨name, short⟩ := Option.ne_none_iff_exists'.1 named
  intro share
  rcases stems_of_mem_nodes s ha with ⟨t, ht, rfl⟩ | silent
  · exact undotted t ht name (shortName?_compiled t ▸ short)
      (dot_mem_of_fullName? hb (share.symm.trans short))
  · simp [silent.short] at short

theorem isValid_of_mem_ownFields {s : Schema}
    (valid : ∀ t ∈ s.nodes, ∀ e ∈ t.entries, Identifier.isValid e.name) {a : Canonical}
    (ha : a ∈ s.compiled.nodes) {f : Field} (hf : f ∈ a.ownFields) : Identifier.isValid f.name := by
  rcases stems_of_mem_nodes s ha with ⟨t, ht, rfl⟩ | silent
  · obtain ⟨e, he, name, -⟩ := mem_compiledEntries (ownFields_compiled t ▸ hf)
    exact name ▸ valid t ht e he
  · simp [silent.fields] at hf

/-- The document of a schema tells all about its canonical form. -/
theorem Storable.writable {s : Schema} (h : s.Storable) (sound : s.WellFormed)
    (kind : s.kind = .record) : Writable s.compiled.nodes where
  agree := sound.consistent kind
  apart _ ha _ hb named share := absurd share (shortName?_ne_fullName? h.undotted ha hb named)
  named _ ha := ofName?_fullName?_compiled ha
  valid _ ha _ hf := isValid_of_mem_ownFields (fun _ ht _ he => sound.valid_of_mem ht he) ha hf
  clear := by
    intro a ha p hp
    rcases stems_of_mem_nodes s ha with ⟨t, ht, rfl⟩ | silent
    · rw [ownKeys_compiled]
      exact h.clear t ht p (ownProps_compiled t ▸ hp)
    · simp [silent.props, Props.empty] at hp
  clearFields := by
    intro a ha f hf p hp
    rcases stems_of_mem_nodes s ha with ⟨t, ht, rfl⟩ | silent
    · obtain ⟨e, he, -, -, props⟩ := mem_compiledEntries (ownFields_compiled t ▸ hf)
      exact fieldProps_clear e.rawName (h.clearEntries t ht e he) p (props ▸ hp)
    · simp [silent.fields] at hf

/-! Names that are made from documents. -/

theorem head?_contentName (entries : List Entry) (props : Props) :
    (contentName entries props).toList.head? = some 'R' := by
  simp [contentName, Fingerprint.recordName, Canonical.recordStem]

theorem isValid_contentName (entries : List Entry) (props : Props) :
    Identifier.isValid (contentName entries props) := by
  have stem : Identifier.isValid (recordStem ++ "_") := by decide +kernel
  refine Identifier.isValid_append stem fun c hc => ?_
  rw [String.toList_ofList] at hc
  exact Text.isPart_of_mem_hex c (List.mem_of_mem_take hc)

end Schema
end TypedRecords
