import TypedRecords.Proofs.Canonical.Names

/-! Types whose properties are changed.
A change that looks at nothing but the properties themselves, and at the name of their record,
leaves the tree as it is. So equal types stay equal, and a full name that stands for one record
does so afterwards. -/
namespace TypedRecords.Canonical

/-- What becomes of the properties of a record, an array or a field. Of a record, the name and
whether it is without fields are known. -/
structure Rewording where
  record : String → Bool → Props → Props
  array : Props → Props
  field : Props → Props

mutual
def reworded (w : Rewording) : Canonical → Canonical
  | .primitive p => .primitive p
  | .timestampMillis => .timestampMillis
  | .array items props => .array (reworded w items) (w.array props)
  | .record name space fields props =>
    .record name space (rewordedFields w fields) (w.record name fields.isEmpty props)
  | .union branches => .union (rewordedBranches w branches)

def rewordedBranches (w : Rewording) : List Canonical → List Canonical
  | [] => []
  | c :: rest => reworded w c :: rewordedBranches w rest

def rewordedFields (w : Rewording) : List Field → List Field
  | [] => []
  | ⟨name, type, doc, default, aliases, props⟩ :: rest =>
    ⟨name, reworded w type, doc, default, aliases, w.field props⟩ :: rewordedFields w rest
end

def Field.reworded (w : Rewording) (f : Field) : Field :=
  { f with type := f.type.reworded w, props := w.field f.props }

section

variable {w : Rewording}

theorem rewordedFields_eq_map (fields : List Field) :
    rewordedFields w fields = fields.map (Field.reworded w) := by
  induction fields with
  | nil => rfl
  | cons f rest ih =>
    obtain ⟨⟩ := f
    simp [rewordedFields, ih, Field.reworded]

theorem isEmpty_plainFields (fields : List Field) :
    (plainFields fields).isEmpty = fields.isEmpty := by
  simp [plainFields_eq_map]

mutual
theorem reworded_plain (c : Canonical) : c.plain.reworded w = (c.reworded w).plain := by
  match c with
  | .primitive _ | .timestampMillis => rfl
  | .array items _ => simp only [plain, reworded, reworded_plain items]
  | .record _ _ fields _ =>
    simp only [plain, reworded, rewordedFields_plain fields, isEmpty_plainFields]
  | .union branches => simp only [plain, reworded, rewordedBranches_plain branches]

theorem rewordedBranches_plain (branches : List Canonical) :
    rewordedBranches w (plainBranches branches) = plainBranches (rewordedBranches w branches) := by
  match branches with
  | [] => rfl
  | c :: rest =>
    simp only [plainBranches, rewordedBranches, reworded_plain c, rewordedBranches_plain rest]

theorem rewordedFields_plain (fields : List Field) :
    rewordedFields w (plainFields fields) = plainFields (rewordedFields w fields) := by
  match fields with
  | [] => rfl
  | ⟨_, type, _, _, _, _⟩ :: rest =>
    simp only [plainFields, rewordedFields, reworded_plain type, rewordedFields_plain rest]
end

theorem reworded_congr {c d : Canonical} (same : c.plain = d.plain) :
    (c.reworded w).plain = (d.reworded w).plain := by
  rw [← reworded_plain, same, reworded_plain]

mutual
theorem nodes_reworded (c : Canonical) : (c.reworded w).nodes = c.nodes.map (reworded w) := by
  match c with
  | .primitive _ | .timestampMillis => rfl
  | .array items _ => simp only [reworded, nodes, List.map_cons, nodes_reworded items]
  | .record _ _ fields _ =>
    simp only [reworded, nodes, List.map_cons, nodesOfFields_reworded fields]
  | .union branches =>
    simp only [reworded, nodes, List.map_cons, nodesOfBranches_reworded branches]

theorem nodesOfBranches_reworded (branches : List Canonical) :
    nodesOfBranches (rewordedBranches w branches) =
      (nodesOfBranches branches).map (reworded w) := by
  match branches with
  | [] => rfl
  | c :: rest =>
    simp only [rewordedBranches, nodesOfBranches, List.map_append, nodes_reworded c,
      nodesOfBranches_reworded rest]

theorem nodesOfFields_reworded (fields : List Field) :
    nodesOfFields (rewordedFields w fields) = (nodesOfFields fields).map (reworded w) := by
  match fields with
  | [] => rfl
  | ⟨_, type, _, _, _, _⟩ :: rest =>
    simp only [rewordedFields, nodesOfFields, List.map_append, nodes_reworded type,
      nodesOfFields_reworded rest]
end

theorem fullName?_reworded (c : Canonical) : (c.reworded w).fullName? = c.fullName? := by
  cases c <;> rfl

theorem Agree.reworded {ds : List Canonical} (h : Agree ds) :
    Agree (ds.map (Canonical.reworded w)) := by
  intro a ha b hb named share
  obtain ⟨c, hc, rfl⟩ := List.mem_map.1 ha
  obtain ⟨d, hd, rfl⟩ := List.mem_map.1 hb
  rw [fullName?_reworded] at named
  rw [fullName?_reworded, fullName?_reworded] at share
  exact eq_iff_plain.2 (reworded_congr (eq_iff_plain.1 (h c hc d hd named share)))

theorem Consistent.reworded {c : Canonical} (h : c.Consistent) : (c.reworded w).Consistent := by
  rw [Consistent, nodes_reworded]
  exact Agree.reworded h

end

end TypedRecords.Canonical
