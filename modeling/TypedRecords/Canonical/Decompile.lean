import TypedRecords.Schema.EntryBuilder

/-! Schemas from their canonical form.
A record is built again under the name it has, so compiling the result gives the same
form. A stored logical order is kept as far as it fits; a strict reader refuses one that
does not list the fields of the record. -/
namespace TypedRecords.Canonical

def scalarKind? : Primitive → Option ScalarKind
  | .null => none
  | .boolean => some .boolean
  | .int => some .int
  | .long => some .long
  | .float => some .float
  | .double => some .double
  | .bytes => some .bytes
  | .string => some .string

/-- The names in an order text, as far as a record with fields of the given names allows. -/
def listedNames (order record : String) (fieldNames : List String) (strict : Bool) :
    Result (List String) :=
  let listed := (OrderText.split order).filter fun name => !name.isEmpty
  if strict && !(listed.length == fieldNames.length && listed.all fieldNames.contains) then
    .error (.format (.orderMismatch order record))
  else .ok listed

def rebuildRecord (name : String) (fieldNames : List String) (props : Props)
    (entries : List Entry) (strict : Bool) : Result Schema := do
  let b := (SchemaBuilder.record.withRecordName name).withProps (props.erase orderKey).pairs
  let b ← entries.foldlM SchemaBuilder.withEntry b
  match props.find? orderKey with
  | none => b.build
  | some order => b.buildListed (← listedNames order name fieldNames strict)

def rebuildEntry (name : String) (schema : Schema) (nullable : Bool) (doc : Option String)
    (default : Option Json) (aliases : List String) (props : Props) : Result Entry :=
  let b := EntryBuilder.empty.withName name |>.withSchema schema |>.withNullable nullable
    |>.withMetadata (aliases.contains metadataAlias)
    |>.withProps (props.erase labelKey).pairs
  let b := (props.find? labelKey).elim b b.withRawName
  let b := doc.elim b b.withComment
  (default.elim b b.withDefault).build

theorem sizeOf_splitNullable_le {c base : Canonical} {nullable : Bool}
    (h : c.splitNullable = .ok (base, nullable)) : sizeOf base ≤ sizeOf c := by
  cases c with
  | union branches =>
    simp only [splitNullable] at h
    split at h
    · rename_i branch hb
      split at h
      · cases h
        have mem : base ∈ branches.filter fun b => !b.isNull := by simp [hb]
        have := List.sizeOf_lt_of_mem (List.mem_filter.1 mem).1
        simp only [Canonical.union.sizeOf_spec]
        omega
      · cases h
    · cases h
  | _ => cases h; exact Nat.le_refl _

mutual
def decompile (strict : Bool) (c : Canonical) : Result Schema :=
  match c with
  | .primitive p =>
    match scalarKind? p with
    | some k => .ok (.scalar k)
    | none => .error (.format (.standsAlone p.name))
  | .timestampMillis => .ok (.scalar .datetime)
  | .union branches => .error (.format (.standsAlone (Canonical.union branches).typeName))
  | .array items props =>
    match _h : items.splitNullable with
    | .error e => .error e
    | .ok (base, nullable) => do
      let element ← decompile strict base
      let b ← SchemaBuilder.array.withElement element
      let b ← b.withElementNullable nullable
      (b.withProps props.pairs).build
  | .record name _ fields props =>
    if name == emptyRecordName && fields.isEmpty then .ok .emptyRecord
    else do
      let entries ← decompileFields strict fields
      rebuildRecord name (fields.map Field.name) props entries strict
termination_by sizeOf c
decreasing_by
  · have := sizeOf_splitNullable_le _h
    simp only [Canonical.array.sizeOf_spec]
    omega
  · simp only [Canonical.record.sizeOf_spec]
    omega

def decompileFields (strict : Bool) (fields : List Field) : Result (List Entry) :=
  match fields with
  | [] => .ok []
  | ⟨name, type, doc, default, aliases, props⟩ :: rest =>
    match _h : type.splitNullable with
    | .error e => .error e
    | .ok (base, nullable) => do
      let schema ← decompile strict base
      let entry ← rebuildEntry name schema nullable doc default aliases props
      return entry :: (← decompileFields strict rest)
termination_by sizeOf fields
decreasing_by
  · have := sizeOf_splitNullable_le _h
    simp only [List.cons.sizeOf_spec, Field.mk.sizeOf_spec]
    omega
  · simp only [List.cons.sizeOf_spec]
    omega
end

end TypedRecords.Canonical

namespace TypedRecords.Schema

def ofCanonical (c : Canonical) (strict : Bool) : Result Schema := c.decompile strict

end TypedRecords.Schema
