import TypedRecords.Proofs.Canonical.Names
import TypedRecords.Proofs.Schema.OrderText

/-! Well-formed schemas.
However a schema is made, its records have distinct identifiers for entries, a logical order
that lists every entry once, and no name that stands for two records. -/
namespace TypedRecords

namespace Schema

mutual
def nodes : Schema → List Schema
  | .scalar kind => [.scalar kind]
  | .emptyRecord => [.emptyRecord]
  | .record name entries props => .record name entries props :: nodesOfEntries entries
  | .array element nullable props => .array element nullable props :: nodes element

def nodesOfEntries : List Entry → List Schema
  | [] => []
  | ⟨_, _, schema, _, _, _, _, _⟩ :: rest => nodes schema ++ nodesOfEntries rest
end

/-- What all builders see to when they make a record. -/
structure Arranged (name : String) (entries : List Entry) (props : Props) : Prop where
  valid : ∀ e ∈ entries, Identifier.isValid e.name
  distinct : (entries.map Entry.name).Nodup
  ordered : ∃ order : List String, order.Perm (entries.map Entry.name) ∧
    props.find? Canonical.orderKey = some (OrderText.join order)
  consistent : (record name entries props).compiled.Consistent

theorem Arranged.find?_of_nil {name : String} {props : Props} (h : Arranged name [] props) :
    props.find? Canonical.orderKey = some "" := by
  obtain ⟨order, perm, stored⟩ := h.ordered
  have none_ : order = [] := by simpa using perm
  rw [stored, none_]
  rfl

def WellFormed (s : Schema) : Prop :=
  ∀ name entries props, record name entries props ∈ s.nodes → Arranged name entries props

theorem self_mem_nodes (s : Schema) : s ∈ s.nodes := by
  cases s <;> simp [nodes]

theorem nodesOfEntries_cons (e : Entry) (rest : List Entry) :
    nodesOfEntries (e :: rest) = e.schema.nodes ++ nodesOfEntries rest := by
  obtain ⟨⟩ := e
  rfl

theorem mem_nodesOfEntries {t : Schema} {entries : List Entry} :
    t ∈ nodesOfEntries entries ↔ ∃ e ∈ entries, t ∈ e.schema.nodes := by
  induction entries with
  | nil => simp [nodesOfEntries]
  | cons e rest ih => simp [nodesOfEntries_cons, ih]

mutual
theorem nodes_subset_of_mem {t : Schema} (s : Schema) (h : t ∈ s.nodes) :
    ∀ u ∈ t.nodes, u ∈ s.nodes := by
  match s with
  | .scalar kind | .emptyRecord =>
    rw [List.mem_singleton.1 h]
    exact fun u hu => hu
  | .array element nullable props =>
    rcases List.mem_cons.1 h with rfl | inner
    · exact fun u hu => hu
    · exact fun u hu => List.mem_cons_of_mem _ (nodes_subset_of_mem element inner u hu)
  | .record name entries props =>
    rcases List.mem_cons.1 h with rfl | inner
    · exact fun u hu => hu
    · exact fun u hu => List.mem_cons_of_mem _ (nodesOfEntries_subset_of_mem entries inner u hu)

theorem nodesOfEntries_subset_of_mem {t : Schema} (entries : List Entry)
    (h : t ∈ nodesOfEntries entries) : ∀ u ∈ t.nodes, u ∈ nodesOfEntries entries := by
  match entries with
  | [] => simp [nodesOfEntries] at h
  | ⟨_, _, schema, _, _, _, _, _⟩ :: rest =>
    rcases List.mem_append.1 h with first | later
    · exact fun u hu => List.mem_append_left _ (nodes_subset_of_mem schema first u hu)
    · exact fun u hu => List.mem_append_right _ (nodesOfEntries_subset_of_mem rest later u hu)
end

theorem compiled_of_kind {s : Schema} (h : s.kind = .record) :
    ∃ name, s.recordName? = some name ∧
      s.compiled = .record name Canonical.recordSpace (compiledEntries s.entries) s.props := by
  cases s with
  | scalar k => simp [kind] at h
  | emptyRecord => exact ⟨_, rfl, rfl⟩
  | record name entries props => exact ⟨name, rfl, rfl⟩
  | array element nullable props => simp [kind] at h

theorem wellFormed_scalar (kind : ScalarKind) : (scalar kind).WellFormed := by
  simp [WellFormed, nodes]

theorem wellFormed_emptyRecord : emptyRecord.WellFormed := by
  simp [WellFormed, nodes]

theorem wellFormed_array {element : Schema} {nullable : Bool} {props : Props} :
    (array element nullable props).WellFormed ↔ element.WellFormed := by
  simp [WellFormed, nodes]

/-- What is true of all records inside a record is true of the record and inside its entries. -/
theorem forall_record_mem_nodes {P : String → List Entry → Props → Prop} {name : String}
    {entries : List Entry} {props : Props} :
    (∀ n es p, record n es p ∈ (record name entries props).nodes → P n es p) ↔
      P name entries props ∧ ∀ e ∈ entries, ∀ n es p, record n es p ∈ e.schema.nodes → P n es p := by
  constructor
  · intro whole
    refine ⟨whole _ _ _ (self_mem_nodes _), fun e he n es p inner => whole n es p ?_⟩
    exact List.mem_cons_of_mem _ (mem_nodesOfEntries.2 ⟨e, he, inner⟩)
  · intro ⟨own, inner⟩ n es p mem
    rcases List.mem_cons.1 mem with same | below
    · cases same
      exact own
    · obtain ⟨e, he, mem⟩ := mem_nodesOfEntries.1 below
      exact inner e he n es p mem

theorem wellFormed_record {name : String} {entries : List Entry} {props : Props} :
    (record name entries props).WellFormed ↔
      Arranged name entries props ∧ ∀ e ∈ entries, e.schema.WellFormed :=
  forall_record_mem_nodes

theorem WellFormed.of_mem {s t : Schema} (h : s.WellFormed) (mem : t ∈ s.nodes) : t.WellFormed :=
  fun name entries props inner => h name entries props (nodes_subset_of_mem s mem _ inner)

theorem WellFormed.element {s element : Schema} (h : s.WellFormed)
    (inner : s.element? = some element) : element.WellFormed := by
  cases s <;> simp_all [element?, wellFormed_array]

theorem WellFormed.entry {s : Schema} (h : s.WellFormed) {e : Entry} (mem : e ∈ s.entries) :
    e.schema.WellFormed := by
  cases s with
  | record name entries props => exact (wellFormed_record.1 h).2 e mem
  | _ => simp [entries] at mem

theorem WellFormed.valid_of_mem {s t : Schema} (h : s.WellFormed) (inner : t ∈ s.nodes)
    {e : Entry} (mem : e ∈ t.entries) : Identifier.isValid e.name := by
  cases t with
  | record name entries props => exact (h _ _ _ inner).valid e mem
  | _ => simp [entries] at mem

theorem WellFormed.valid {s : Schema} (h : s.WellFormed) {e : Entry} (mem : e ∈ s.entries) :
    Identifier.isValid e.name :=
  h.valid_of_mem (self_mem_nodes s) mem

theorem WellFormed.distinct {s : Schema} (h : s.WellFormed) :
    (s.entries.map Entry.name).Nodup := by
  cases s with
  | record name entries props => exact (wellFormed_record.1 h).1.distinct
  | _ => simp [entries]

theorem WellFormed.consistent {s : Schema} (h : s.WellFormed) (kind : s.kind = .record) :
    s.compiled.Consistent := by
  cases s with
  | record name entries props => exact (wellFormed_record.1 h).1.consistent
  | emptyRecord => decide +kernel
  | _ => simp [Schema.kind] at kind

end Schema

structure Entry.WellFormed (e : Entry) : Prop where
  valid : Identifier.isValid e.name
  schema : e.schema.WellFormed

theorem Schema.WellFormed.wellFormed_entry {s : Schema} (h : s.WellFormed) {e : Entry}
    (mem : e ∈ s.entries) : e.WellFormed :=
  ⟨h.valid mem, h.entry mem⟩

end TypedRecords
