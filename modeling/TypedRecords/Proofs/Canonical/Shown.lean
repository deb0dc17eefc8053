import TypedRecords.Proofs.Canonical.Document
import TypedRecords.Proofs.Canonical.Rewording
import TypedRecords.Proofs.Json

/-! What a document shows of a type.
A property that would hide an attribute is left out of the document, and all else is shown. So a
type has the same document without such properties, and two types with one document are equal
without them. The text of a document tells the document. -/
namespace TypedRecords

namespace Props

def without (props : Props) (keys : List String) : Props :=
  ⟨props.pairs.filter fun p => !keys.contains p.1, List.Pairwise.filter _ props.sorted⟩

theorem not_mem_of_mem_without {props : Props} {keys : List String} :
    ∀ p ∈ (props.without keys).pairs, p.1 ∉ keys := by
  simp [without]

theorem without_eq_self {props : Props} {keys : List String}
    (clear : ∀ p ∈ props.pairs, p.1 ∉ keys) : props.without keys = props :=
  Props.ext (List.filter_eq_self.2 fun p hp => by simpa using clear p hp)

end Props

namespace Canonical

/-- The type without the properties that its document leaves out. -/
def shown : Rewording where
  record _ _ props := props.without recordKeys
  array props := props.without arrayKeys
  field props := props.without fieldKeys

theorem withProps_without (attributes : List (String × Json)) (props : Props)
    (reserved : List String) :
    withProps attributes (props.without reserved) reserved = withProps attributes props reserved := by
  simp [withProps, Props.without, List.filter_filter]

mutual
theorem write_shown (defined : List String) (c : Canonical) :
    write defined (c.reworded shown) = write defined c := by
  match c with
  | .primitive _ | .timestampMillis => rfl
  | .array items props =>
    simp only [reworded, write, write_shown defined items]
    simp only [shown, withProps_without]
  | .record name space fields props =>
    simp only [reworded, write, writeFields_shown _ fields]
    simp only [shown, recordDocument, withProps_without]
  | .union branches => simp only [reworded, write, writeBranches_shown defined branches]

theorem writeBranches_shown (defined : List String) (branches : List Canonical) :
    writeBranches defined (rewordedBranches shown branches) = writeBranches defined branches := by
  match branches with
  | [] => rfl
  | c :: rest =>
    simp only [rewordedBranches, writeBranches, write_shown defined c, writeBranches_shown _ rest]

theorem writeFields_shown (defined : List String) (fields : List Field) :
    writeFields defined (rewordedFields shown fields) = writeFields defined fields := by
  match fields with
  | [] => rfl
  | ⟨name, type, doc, default, aliases, props⟩ :: rest =>
    simp only [rewordedFields, writeFields, write_shown defined type, writeFields_shown _ rest]
    simp only [shown, fieldDocument, withProps_without]
end

theorem toJson_shown (c : Canonical) : (c.reworded shown).toJson = c.toJson := by
  rw [toJson, write_shown, toJson]

/-- No property that is shown hides an attribute. So names are all that a document may be
mistaken in. -/
theorem writable_shown {ds : List Canonical} (agree : Agree (ds.map (reworded shown)))
    (apart : ∀ a ∈ ds, ∀ b ∈ ds, a.shortName? ≠ none → a.shortName? ≠ b.fullName?)
    (named : ∀ a ∈ ds, a.fullName?.bind Primitive.ofName? = none)
    (valid : ∀ a ∈ ds, ∀ f ∈ a.ownFields, Identifier.isValid f.name) :
    Writable (ds.map (reworded shown)) := by
  have short (c : Canonical) : (c.reworded shown).shortName? = c.shortName? := by cases c <;> rfl
  have fields (c : Canonical) : (c.reworded shown).ownFields = rewordedFields shown c.ownFields := by
    cases c <;> rfl
  refine ⟨agree, ?_, ?_, ?_, ?_, ?_⟩ <;> simp only [List.forall_mem_map]
  · intro a ha b hb isRecord share
    rw [short] at isRecord share
    exact absurd (share.trans (fullName?_reworded b)) (apart a ha b hb isRecord)
  · intro a ha
    rw [fullName?_reworded]
    exact named a ha
  · intro a ha f hf
    rw [fields, rewordedFields_eq_map] at hf
    obtain ⟨g, hg, rfl⟩ := List.mem_map.1 hf
    exact valid a ha g hg
  · intro a ha p hp
    cases a with
    | record | array => exact Props.not_mem_of_mem_without p hp
    | _ => simp [reworded, ownProps, Props.empty] at hp
  · intro a ha f hf p hp
    rw [fields, rewordedFields_eq_map] at hf
    obtain ⟨g, -, rfl⟩ := List.mem_map.1 hf
    exact Props.not_mem_of_mem_without p hp

/-- Types with one document are equal in all that it shows. -/
theorem plain_shown_of_toJson_eq {c d : Canonical} (hc : Writable (c.reworded shown).nodes)
    (hd : Writable (d.reworded shown).nodes) (same : c.toJson = d.toJson) :
    (c.reworded shown).plain = (d.reworded shown).plain := by
  obtain ⟨c', readC, sameC⟩ := exists_ofJson_toJson hc
  obtain ⟨d', readD, sameD⟩ := exists_ofJson_toJson hd
  rw [toJson_shown] at readC readD
  rw [same] at readC
  cases readC.symm.trans readD
  exact sameC.symm.trans sameD

/-! Documents are told by their texts. -/

theorem finite_ofFields {pairs : List (String × Json)} (h : ∀ p ∈ pairs, p.2.Finite) :
    (Json.ofFields pairs).Finite := by
  rw [Json.ofFields, Json.Finite, Json.finiteFields_iff]
  exact fun p mem => (Assoc.mem_insertAll mem).elim (h p) (by simp)

theorem finite_withProps {attributes : List (String × Json)} (h : ∀ p ∈ attributes, p.2.Finite)
    (props : Props) (reserved : List String) : (withProps attributes props reserved).Finite := by
  refine finite_ofFields fun p mem => ?_
  rcases List.mem_append.1 mem with own | kept
  · exact h p own
  · obtain ⟨q, -, rfl⟩ := List.mem_map.1 kept
    trivial

theorem finite_strings (items : List String) : (Json.strings items).Finite := by
  rw [Json.strings, Json.Finite, Json.finiteItems_iff]
  intro j mem
  obtain ⟨s, -, rfl⟩ := List.mem_map.1 mem
  trivial

theorem finite_fieldDocument {type : Json} {default : Option Json} (own : type.Finite)
    (given : ∀ j ∈ default, j.Finite) (name : String) (doc : Option String)
    (aliases : List String) (props : Props) :
    (fieldDocument name type doc default aliases props).Finite := by
  refine finite_withProps (fun p mem => ?_) props fieldKeys
  simp only [List.mem_append, List.mem_cons, List.not_mem_nil, or_false, Option.mem_toList,
    Option.map_eq_some_iff] at mem
  rcases mem with (((rfl | rfl) | ⟨d, -, rfl⟩) | mem) | ⟨j, mem, rfl⟩
  · trivial
  · exact own
  · trivial
  · split at mem
    · cases mem
    · rw [List.mem_singleton.1 mem]
      exact finite_strings aliases
  · exact given j mem

theorem finite_recordDocument {fields : List Json} (h : ∀ j ∈ fields, j.Finite)
    (name space : String) (props : Props) : (recordDocument name space fields props).Finite := by
  refine finite_withProps (fun p mem => ?_) props recordKeys
  simp only [List.mem_append, List.mem_cons, List.not_mem_nil, or_false] at mem
  rcases mem with ((rfl | rfl) | mem) | rfl
  · trivial
  · trivial
  · split at mem
    · cases mem
    · rw [List.mem_singleton.1 mem]
      trivial
  · exact Json.finiteItems_iff.2 h

def FiniteDefaults (ds : List Canonical) : Prop :=
  ∀ d ∈ ds, ∀ f ∈ d.ownFields, ∀ j ∈ f.default, j.Finite

mutual
theorem finite_write (defined : List String) (c : Canonical) (h : FiniteDefaults c.nodes) :
    (write defined c).1.Finite := by
  match c with
  | .primitive _ => trivial
  | .timestampMillis => exact finite_ofFields (by simp [Json.Finite])
  | .array items props =>
    have inner := finite_write defined items fun d hd => h d (List.mem_cons_of_mem _ hd)
    exact finite_withProps (by simpa [Json.Finite] using inner) props arrayKeys
  | .record name space fields props =>
    simp only [write]
    split
    · trivial
    · have own := h _ (self_mem_nodes _)
      exact finite_recordDocument (finite_writeFields _ fields own
        fun d hd => h d (List.mem_cons_of_mem _ hd)) name space props
  | .union branches =>
    exact Json.finiteItems_iff.2 (finite_writeBranches defined branches
      fun d hd => h d (List.mem_cons_of_mem _ hd))

theorem finite_writeBranches (defined : List String) (branches : List Canonical)
    (h : FiniteDefaults (nodesOfBranches branches)) :
    ∀ j ∈ (writeBranches defined branches).1, j.Finite := by
  match branches with
  | [] => simp [writeBranches]
  | c :: rest =>
    exact List.forall_mem_cons.2
      ⟨finite_write defined c fun d hd => h d (List.mem_append_left _ hd),
        finite_writeBranches _ rest fun d hd => h d (List.mem_append_right _ hd)⟩

theorem finite_writeFields (defined : List String) (fields : List Field)
    (own : ∀ f ∈ fields, ∀ j ∈ f.default, j.Finite)
    (h : FiniteDefaults (nodesOfFields fields)) :
    ∀ j ∈ (writeFields defined fields).1, j.Finite := by
  match fields with
  | [] => simp [writeFields]
  | ⟨name, type, doc, default, aliases, props⟩ :: rest =>
    obtain ⟨given, others⟩ := List.forall_mem_cons.1 own
    have inner := finite_write defined type fun d hd => h d (List.mem_append_left _ hd)
    exact List.forall_mem_cons.2 ⟨finite_fieldDocument inner given name doc aliases props,
      finite_writeFields _ rest others fun d hd => h d (List.mem_append_right _ hd)⟩
end

theorem toJson_eq_of_compact_eq {c d : Canonical} (hc : FiniteDefaults c.nodes)
    (hd : FiniteDefaults d.nodes) (same : c.toJson.compact = d.toJson.compact) :
    c.toJson = d.toJson :=
  Json.compact_injective (finite_write [] c hc) (finite_write [] d hd) same

mutual
theorem Writable.reworded_shown {ds : List Canonical} (h : Writable ds) (c : Canonical)
    (within : ∀ d ∈ c.nodes, d ∈ ds) : c.reworded shown = c := by
  match c with
  | .primitive _ | .timestampMillis => rfl
  | .array items props =>
    have clear := h.clear _ (within _ (self_mem_nodes _))
    rw [reworded, h.reworded_shown items fun d hd => within d (List.mem_cons_of_mem _ hd)]
    exact congrArg _ (Props.without_eq_self clear)
  | .record name space fields props =>
    have mem := within _ (self_mem_nodes _)
    rw [reworded, h.rewordedFields_shown fields (h.clearFields _ mem)
      fun d hd => within d (List.mem_cons_of_mem _ hd)]
    exact congrArg _ (Props.without_eq_self (h.clear _ mem))
  | .union branches =>
    rw [reworded, h.rewordedBranches_shown branches fun d hd => within d (List.mem_cons_of_mem _ hd)]

theorem Writable.rewordedBranches_shown {ds : List Canonical} (h : Writable ds)
    (branches : List Canonical) (within : ∀ d ∈ nodesOfBranches branches, d ∈ ds) :
    rewordedBranches shown branches = branches := by
  match branches with
  | [] => rfl
  | c :: rest =>
    rw [rewordedBranches, h.reworded_shown c fun d hd => within d (List.mem_append_left _ hd),
      h.rewordedBranches_shown rest fun d hd => within d (List.mem_append_right _ hd)]

theorem Writable.rewordedFields_shown {ds : List Canonical} (h : Writable ds) (fields : List Field)
    (clear : ∀ f ∈ fields, ∀ p ∈ f.props.pairs, p.1 ∉ fieldKeys)
    (within : ∀ d ∈ nodesOfFields fields, d ∈ ds) : rewordedFields shown fields = fields := by
  match fields with
  | [] => rfl
  | ⟨name, type, doc, default, aliases, props⟩ :: rest =>
    obtain ⟨own, others⟩ := List.forall_mem_cons.1 clear
    have kept : props.without fieldKeys = props := Props.without_eq_self own
    rw [rewordedFields, h.reworded_shown type fun d hd => within d (List.mem_append_left _ hd),
      h.rewordedFields_shown rest others fun d hd => within d (List.mem_append_right _ hd)]
    simp only [shown, kept]
end

end Canonical
end TypedRecords
