import TypedRecords.Proofs.Canonical.Decompile

/-! What a strict reader asks of a logical order.
A strict reader refuses nothing but stored orders, and of these it counts the names and looks
for each of them among the fields. An order that passes and lists no name twice lists every
field exactly once. One that lists a name twice can pass as well, with a field left out, and
the shared record without entries may carry any order. -/
namespace TypedRecords.Canonical

open Result

def listed (order : String) : List String :=
  (OrderText.split order).filter fun name => !name.isEmpty

def fieldNames : Canonical → List String
  | .record _ _ fields _ => fields.map Field.name
  | _ => []

def order? : Canonical → Option String
  | .record _ _ _ props => props.find? orderKey
  | _ => none

def isShared : Canonical → Bool
  | .record name _ fields _ => name == emptyRecordName && fields.isEmpty
  | _ => false

/-- As many names as there are fields, and each of them a field. -/
def Counts (order : String) (names : List String) : Prop :=
  (listed order).length = names.length ∧ ∀ name ∈ listed order, name ∈ names

def Counted (c : Canonical) : Prop :=
  ∀ order, c.order? = some order → c.isShared = false → Counts order c.fieldNames

theorem Counts.perm {order : String} {names : List String} (h : Counts order names)
    (distinct : names.Nodup) (single : (listed order).Nodup) : (listed order).Perm names := by
  obtain ⟨many, known⟩ := h
  refine (List.perm_ext_iff_of_nodup single distinct).2 fun name => ⟨known name, fun mem => ?_⟩
  apply Classical.byContradiction
  intro missing
  have more : (name :: listed order).Nodup := List.nodup_cons.2 ⟨missing, single⟩
  have within : name :: listed order ⊆ names := List.cons_subset.2 ⟨mem, known⟩
  have fits := more.length_le_of_subset within
  rw [List.length_cons] at fits
  omega

theorem listedNames_strict_iff {order record : String} {names found : List String} :
    listedNames order record names true = .ok found ↔
      listedNames order record names false = .ok found ∧ Counts order names := by
  let test := (listed order).length == names.length && (listed order).all names.contains
  have strict : listedNames order record names true =
      if !test then .error (.format (.orderMismatch order record)) else .ok (listed order) := by
    rw [listedNames, Bool.true_and]
    rfl
  have lenient : listedNames order record names false = .ok (listed order) := rfl
  have passed : test = true ↔ Counts order names := by simp [test, Counts]
  rw [strict, lenient, ← passed]
  cases test <;> simp

theorem rebuildRecord_strict_iff {name : String} {names : List String} {props : Props}
    {entries : List Entry} {s : Schema} :
    rebuildRecord name names props entries true = .ok s ↔
      rebuildRecord name names props entries false = .ok s ∧
        ∀ order, props.find? orderKey = some order → Counts order names := by
  unfold rebuildRecord
  cases props.find? orderKey with
  | none => simp
  | some order =>
    refine (bind_eq_ok_and_iff_right fun b =>
      bind_eq_ok_and_iff_left fun _ => listedNames_strict_iff).trans ?_
    simp

theorem forall_nodesOfBranches {p : Canonical → Prop} {branches : List Canonical} :
    (∀ d ∈ nodesOfBranches branches, p d) ↔ ∀ c ∈ branches, ∀ d ∈ c.nodes, p d := by
  induction branches with
  | nil => simp [nodesOfBranches]
  | cons c rest ih => simp [nodesOfBranches, List.mem_append, or_imp, forall_and, ih]

theorem eq_null_of_isNull {c : Canonical} (h : c.isNull = true) : c = null := by
  unfold isNull at h
  split at h
  · rfl
  · cases h

theorem of_splitNullable_union {branches : List Canonical} {base : Canonical} {nullable : Bool}
    (taken : (union branches).splitNullable = .ok (base, nullable)) :
    base ∈ branches ∧ ∀ b ∈ branches, b = base ∨ b = null := by
  simp only [splitNullable] at taken
  split at taken
  · rename_i branch present
    split at taken
    · cases taken
      have mem : base ∈ branches.filter fun b => !b.isNull := by simp [present]
      refine ⟨(List.mem_filter.1 mem).1, fun b hb => ?_⟩
      by_cases absent : b.isNull = true
      · exact .inr (eq_null_of_isNull absent)
      · have here : b ∈ branches.filter fun b => !b.isNull :=
          List.mem_filter.2 ⟨hb, by simpa using absent⟩
        rw [present] at here
        exact .inl (List.mem_singleton.1 here)
    · cases taken
  · cases taken

theorem counted_of_splitNullable {c base : Canonical} {nullable : Bool}
    (taken : c.splitNullable = .ok (base, nullable)) :
    (∀ d ∈ c.nodes, d.Counted) ↔ ∀ d ∈ base.nodes, d.Counted := by
  cases c with
  | union branches =>
    obtain ⟨mem, others⟩ := of_splitNullable_union taken
    rw [nodes, List.forall_mem_cons, forall_nodesOfBranches]
    constructor
    · rintro ⟨-, each⟩
      exact each base mem
    · intro inner
      refine ⟨by simp [Counted, order?], fun b hb => ?_⟩
      rcases others b hb with rfl | rfl
      · exact inner
      · simp [null, nodes, Counted, order?]
  | _ =>
    cases taken
    rfl

mutual
/-- Strictness adds the check of the orders, in all places, and nothing else. -/
theorem decompile_strict_iff (c : Canonical) {s : Schema} :
    decompile true c = .ok s ↔ decompile false c = .ok s ∧ ∀ d ∈ c.nodes, d.Counted := by
  match c with
  | .primitive p => simp [decompile, nodes, Counted, order?]
  | .timestampMillis => simp [decompile, nodes, Counted, order?]
  | .union branches => simp [decompile]
  | .array items props =>
    have own : (array items props).Counted := by simp [Counted, order?]
    rw [nodes, List.forall_mem_cons, decompile, decompile]
    split
    · simp
    · rename_i base nullable taken
      have smaller := sizeOf_splitNullable_le taken
      rw [counted_of_splitNullable taken]
      have more := bind_eq_ok_and_iff_left (f := fun element => do
        let b ← SchemaBuilder.array.withElement element
        let b ← b.withElementNullable nullable
        (b.withProps props.pairs).build) (b := s) fun _ => decompile_strict_iff base
      simpa [own] using more
  | .record name space fields props =>
    rw [nodes, List.forall_mem_cons, decompile, decompile]
    split
    -- The shared record is known before its order is looked at, so any order will do.
    · rename_i shared
      have own : (record name space fields props).Counted := by
        simp [Counted, isShared, shared]
      simp only [Bool.and_eq_true, List.isEmpty_iff] at shared
      obtain ⟨-, rfl⟩ := shared
      simp [own, nodesOfFields]
    · rename_i apart
      have own : (record name space fields props).Counted ↔
          ∀ order, props.find? orderKey = some order → Counts order (fields.map Field.name) := by
        simp [Counted, order?, isShared, fieldNames, apart]
      rw [own, and_comm (a := ∀ order, _)]
      exact bind_eq_ok_and_iff (fun _ => decompileFields_strict_iff fields)
        (fun _ => rebuildRecord_strict_iff)
termination_by sizeOf c
decreasing_by
  · simp only [Canonical.array.sizeOf_spec]
    omega
  · simp only [Canonical.record.sizeOf_spec]
    omega

theorem decompileFields_strict_iff (fields : List Field) {entries : List Entry} :
    decompileFields true fields = .ok entries ↔
      decompileFields false fields = .ok entries ∧ ∀ d ∈ nodesOfFields fields, d.Counted := by
  match fields with
  | [] => simp [decompileFields, nodesOfFields]
  | ⟨name, type, doc, default, aliases, props⟩ :: rest =>
    rw [nodesOfFields, List.forall_mem_append, decompileFields, decompileFields]
    split
    · simp
    · rename_i base nullable taken
      have smaller := sizeOf_splitNullable_le taken
      rw [counted_of_splitNullable taken]
      refine bind_eq_ok_and_iff (fun _ => decompile_strict_iff base) fun schema => ?_
      refine bind_eq_ok_and_iff_right fun e => ?_
      exact bind_eq_ok_and_iff_left fun _ => decompileFields_strict_iff rest
termination_by sizeOf fields
decreasing_by
  · simp only [List.cons.sizeOf_spec, Field.mk.sizeOf_spec]
    omega
  · simp only [List.cons.sizeOf_spec]
    omega
end

/-- A strict reader takes what any reader takes, where every stored order has as many names as
there are fields and no others. Where no name is listed twice, that is every field once. -/
theorem decompile_strict_spec {c : Canonical} {s : Schema}
    (distinct : ∀ d ∈ c.nodes, d.fieldNames.Nodup) :
    decompile true c = .ok s ↔ decompile false c = .ok s ∧
      ∀ d ∈ c.nodes, ∀ order, d.order? = some order → d.isShared = false →
        (listed order).length = d.fieldNames.length ∧
        (∀ name ∈ listed order, name ∈ d.fieldNames) ∧
        ((listed order).Nodup → (listed order).Perm d.fieldNames) := by
  rw [decompile_strict_iff]
  refine and_congr_right fun _ => forall_congr' fun d => forall_congr' fun hd => ?_
  refine forall_congr' fun order => forall_congr' fun _ => forall_congr' fun _ => ?_
  constructor
  · intro counts
    exact ⟨counts.1, counts.2, counts.perm (distinct d hd)⟩
  · rintro ⟨many, known, -⟩
    exact ⟨many, known⟩

/-! Two fields, of which the order lists one twice and the other not at all. -/

def numberField (name : String) : Field := ⟨name, .primitive .int, none, none, [], Props.empty⟩

def doubled : Canonical :=
  .record "R" recordSpace [numberField "a", numberField "b"] (Props.empty.insert orderKey "a,a")

theorem decompile_strict_spec_doubled :
    (∀ d ∈ doubled.nodes, d.fieldNames.Nodup) ∧ ∀ s,
      decompile true doubled = .ok s ↔ decompile false doubled = .ok s ∧
        ∀ d ∈ doubled.nodes, ∀ order, d.order? = some order → d.isShared = false →
          (listed order).length = d.fieldNames.length ∧
          (∀ name ∈ listed order, name ∈ d.fieldNames) ∧
          ((listed order).Nodup → (listed order).Perm d.fieldNames) := by
  have distinct : ∀ d ∈ doubled.nodes, d.fieldNames.Nodup := by decide
  exact ⟨distinct, fun _ => decompile_strict_spec distinct⟩

def number (name : String) : Entry :=
  ⟨name, none, .scalar .int, false, false, none, none, Props.empty⟩

theorem decompileFields_doubled :
    decompileFields true [numberField "a", numberField "b"] = .ok [number "a", number "b"] := by
  have first : rebuildEntry "a" (.scalar .int) false none none [] Props.empty =
      .ok (number "a") := rfl
  have second : rebuildEntry "b" (.scalar .int) false none none [] Props.empty =
      .ok (number "b") := rfl
  simp [decompileFields, numberField, splitNullable, decompile, scalarKind?, first, second]

theorem wellFormed_number {name : String} (valid : Identifier.isValid name) :
    (number name).WellFormed :=
  ⟨valid, Schema.wellFormed_scalar .int⟩

theorem exists_decompile_doubled : ∃ s, decompile true doubled = .ok s ∧
    doubled.order? = some "a,a" ∧ ¬ (listed "a,a").Perm doubled.fieldNames := by
  let props := Props.empty.insert orderKey "a,a"
  have own : ∀ e ∈ [number "a", number "b"], e.WellFormed := by
    simpa using ⟨wellFormed_number (by decide), wellFormed_number (by decide)⟩
  obtain ⟨l, declared, all⟩ := SchemaBuilder.foldlM_withEntry (props.erase orderKey) (some "R")
    EntryList.wellFormed_empty own (by decide)
  have flat : ∀ e ∈ l.entries, ∃ k, e.schema = .scalar k := by
    simp [all, EntryList.empty, number]
  obtain ⟨s, built⟩ := SchemaBuilder.exists_finish_of_flat "R" (props.erase orderKey)
    (fun entries => entries.mergeSort fun x y => (compare (OrderText.place ["a", "a"] x.name)
      (OrderText.place ["a", "a"] y.name)).isLE) flat
  have passed : listedNames "a,a" "R" ["a", "b"] true = .ok ["a", "a"] := rfl
  have rebuilt : rebuildRecord "R" ["a", "b"] props [number "a", number "b"] true = .ok s := by
    refine bind_eq_ok.2 ⟨_, declared, ?_⟩
    exact bind_eq_ok.2 ⟨_, passed, built⟩
  refine ⟨s, ?_, rfl, by decide⟩
  rw [doubled, decompile, if_neg (by decide), decompileFields_doubled, ok_bind]
  exact rebuilt

end TypedRecords.Canonical
