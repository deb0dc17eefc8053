import TypedRecords.Canonical.Document
import TypedRecords.Proofs.Assoc
import TypedRecords.Proofs.Canonical.Names
import TypedRecords.Proofs.Identifier

/-! Reading a written document.
A writer marks a record as defined before its fields are written; a reader enters the record,
under its short and its full name, only after they have been read. Both tables are tied
together along the walk: a full name that is marked and whose record is not still open has
been entered, and whatever is entered under the full name of a record is equal to it. So a
reference is always read as the record that it stands for. -/
namespace TypedRecords.Canonical

/-! The parts of a type that a document has attributes for. -/

def shortName? : Canonical → Option String
  | .record name _ _ _ => some name
  | _ => none

def ownFields : Canonical → List Field
  | .record _ _ fields _ => fields
  | _ => []

def ownProps : Canonical → Props
  | .record _ _ _ props => props
  | .array _ props => props
  | _ => Props.empty

def ownKeys : Canonical → List String
  | .record .. => recordKeys
  | .array .. => arrayKeys
  | _ => []

/-- What some types must be like for their document to tell all about them. -/
structure Writable (ds : List Canonical) : Prop where
  agree : Agree ds
  apart : ∀ a ∈ ds, ∀ b ∈ ds, a.shortName? ≠ none → a.shortName? = b.fullName? → a == b
  named : ∀ a ∈ ds, a.fullName?.bind Primitive.ofName? = none
  valid : ∀ a ∈ ds, ∀ f ∈ a.ownFields, Identifier.isValid f.name
  clear : ∀ a ∈ ds, ∀ p ∈ a.ownProps.pairs, p.1 ∉ a.ownKeys
  clearFields : ∀ a ∈ ds, ∀ f ∈ a.ownFields, ∀ p ∈ f.props.pairs, p.1 ∉ fieldKeys

/-! Attributes and properties in one object. -/

theorem find?_propsOf {fields : List (String × Json)} (sorted : Assoc.Sorted fields)
    (reserved : List String) (key : String) :
    (propsOf fields reserved).find? key =
      if key ∈ reserved then none
      else (Assoc.find? key fields).map fun j => j.str?.getD j.compact := by
  let text := fun j : Json => j.str?.getD j.compact
  let others := fields.filter fun p => !reserved.contains p.1
  have keys : (others.map fun p => (p.1, text p.2)).map Prod.fst = others.map Prod.fst := by
    simp
  have single : ((others.map fun p => (p.1, text p.2)).map Prod.fst).Nodup :=
    keys ▸ Assoc.nodup_of_sorted (List.Pairwise.filter _ sorted)
  calc
    _ = (Assoc.find? key (others.map fun p => (p.1, text p.2))).or
          (Assoc.find? key Props.empty.pairs) :=
      Assoc.find?_insertAll_of_nodup single _
    _ = (Assoc.find? key others).map text := by
      rw [Assoc.find?_map text]
      exact Option.or_none
    _ = _ := by
      rw [Assoc.find?_filter (fun key => !reserved.contains key)]
      by_cases h : key ∈ reserved <;> simp [h, text]

theorem withProps_spec {attributes : List (String × Json)} {props : Props}
    {reserved : List String} (own : ∀ p ∈ attributes, p.1 ∈ reserved)
    (distinct : (attributes.map Prod.fst).Nodup) (clear : ∀ p ∈ props.pairs, p.1 ∉ reserved) :
    ∃ fields, withProps attributes props reserved = .obj fields ∧
      (∀ key ∈ reserved, Assoc.find? key fields = Assoc.find? key attributes) ∧
      propsOf fields reserved = props := by
  have kept : (props.pairs.filter fun p => !reserved.contains p.1) = props.pairs :=
    List.filter_eq_self.2 fun p hp => by simpa using clear p hp
  let told := props.pairs.map fun p => (p.1, Json.str p.2)
  let fields := Assoc.insertAll [] (attributes ++ told)
  have toldKeys : told.map Prod.fst = props.pairs.map Prod.fst := by simp [told]
  have nodup : ((attributes ++ told).map Prod.fst).Nodup := by
    rw [List.map_append, toldKeys, List.nodup_append]
    refine ⟨distinct, Assoc.nodup_of_sorted props.sorted, ?_⟩
    rintro a ha b hb rfl
    obtain ⟨p, hp, rfl⟩ := List.mem_map.1 ha
    obtain ⟨q, hq, same⟩ := List.mem_map.1 hb
    exact clear q hq (same ▸ own p hp)
  have look (key : String) : Assoc.find? key fields =
      (Assoc.find? key attributes).or ((props.find? key).map Json.str) := by
    simp [fields, told, Assoc.find?_insertAll_of_nodup nodup, Assoc.find?_append,
      Assoc.find?_map, Props.find?, Assoc.find?]
  have unset {key : String} (h : key ∈ reserved) : props.find? key = none :=
    Props.find?_eq_none_iff.2 fun p hp same => clear p hp (same ▸ h)
  have unowned {key : String} (h : key ∉ reserved) : Assoc.find? key attributes = none :=
    Assoc.find?_eq_none_iff.2 fun p hp same => h (same ▸ own p hp)
  have sorted : Assoc.Sorted fields := Assoc.sorted_insertAll _ List.Pairwise.nil
  refine ⟨fields, ?_, fun key h => ?_, Props.ext_find? fun key => ?_⟩
  · rw [withProps, kept]
    rfl
  · simp [look, unset h]
  · rw [find?_propsOf sorted, look]
    by_cases h : key ∈ reserved
    · simp [h, unset h]
    · simp [h, unowned h, Option.map_map, Function.comp_def, Json.str?]

/-! Reading one document at a time. -/

theorem find_entered {known : Known} {full : String} {c : Canonical}
    (unlike : Primitive.ofName? full = none) (entered : known.lookup full = some c) :
    find known full = .ok c := by
  simp [find, unlike, entered]

theorem read_str {known : Known} {reference : String} {c : Canonical}
    (h : find known reference = .ok c) : read known (.str reference) = .ok (c, known) := by
  rw [read]
  simp [h]

theorem read_primitive (known : Known) (p : Primitive) :
    read known (.str p.name) = .ok (.primitive p, known) :=
  read_str (by simp [find, Primitive.ofName?_name])

theorem read_timestamp (known : Known) :
    read known timestampDocument = .ok (.timestampMillis, known) := by
  let attributes := Assoc.insertAll [] [("type", Json.str "long"),
    ("logicalType", .str "timestamp-millis"), (datetimeKey, .str "true")]
  have type : Assoc.find? "type" attributes = some (.str "long") := by
    simp [attributes, Assoc.find?_insertAll, Assoc.find?, datetimeKey]
  have meaning : isTimestamp attributes = true := by
    simp [attributes, isTimestamp, Assoc.find?_insertAll, Assoc.find?, datetimeKey, Json.str?]
  have document : timestampDocument = .obj attributes := rfl
  rw [document, read]
  split <;> simp_all

theorem read_array {known later : Known} {attributes : List (String × Json)} {items : Json}
    {c : Canonical} (type : Assoc.find? "type" attributes = some (.str "array"))
    (inner : Assoc.find? "items" attributes = some items)
    (run : read known items = .ok (c, later)) :
    read known (.obj attributes) = .ok (.array c (propsOf attributes arrayKeys), later) := by
  rw [read]
  split <;> simp_all
  split <;> simp_all

theorem read_record {known later : Known} {attributes : List (String × Json)}
    {name space : String} {js : List Json} {fields : List Field}
    (type : Assoc.find? "type" attributes = some (.str "record"))
    (named : Assoc.find? "name" attributes = some (.str name))
    (spaced : ((Assoc.find? "namespace" attributes).bind Json.str?).getD "" = space)
    (inner : Assoc.find? "fields" attributes = some (.arr js))
    (run : readFields known js = .ok (fields, later)) :
    read known (.obj attributes) =
      .ok (.record name space fields (propsOf attributes recordKeys),
        (fullName space name, .record name space fields (propsOf attributes recordKeys))
          :: (name, .record name space fields (propsOf attributes recordKeys)) :: later) := by
  have body : readRecord known attributes =
      .ok (.record name space fields (propsOf attributes recordKeys),
        (fullName space name, .record name space fields (propsOf attributes recordKeys))
          :: (name, .record name space fields (propsOf attributes recordKeys)) :: later) := by
    rw [readRecord]
    split
    · simp_all [Json.str?]
    · split <;> simp_all [Json.str?]
  rw [read]
  split <;> simp_all

theorem readFields_cons {known between later : Known} {attributes : List (String × Json)}
    {name : String} {type : Json} {c : Canonical} {js : List Json} {fields : List Field}
    (named : Assoc.find? "name" attributes = some (.str name))
    (typed : Assoc.find? "type" attributes = some type)
    (first : read known type = .ok (c, between))
    (others : readFields between js = .ok (fields, later)) :
    readFields known (.obj attributes :: js) =
      .ok ({ name := Identifier.sanitize name
             type := c
             doc := (Assoc.find? "doc" attributes).bind Json.str?
             default := (Assoc.find? defaultKey attributes).or
               (Assoc.find? "default" attributes)
             aliases := (((Assoc.find? "aliases" attributes).bind Json.items?).getD []).filterMap
               Json.str?
             props := propsOf attributes fieldKeys } :: fields, later) := by
  rw [readFields]
  split
  · simp_all [Json.str?]
  · split <;> simp_all [Json.str?]

theorem filterMap_str?_str (items : List String) :
    items.filterMap (Json.str? ∘ Json.str) = items := by
  have whole : Json.str? ∘ Json.str = some := by
    funext item
    rfl
  rw [whole, List.filterMap_some]

theorem readFields_fieldDocument {known between later : Known} {name : String} {type : Json}
    {doc : Option String} {default : Option Json} {aliases : List String} {props : Props}
    {c : Canonical} {js : List Json} {fields : List Field}
    (valid : Identifier.isValid name = true) (clear : ∀ p ∈ props.pairs, p.1 ∉ fieldKeys)
    (first : read known type = .ok (c, between))
    (others : readFields between js = .ok (fields, later)) :
    readFields known (fieldDocument name type doc default aliases props :: js) =
      .ok (⟨name, c, doc, default, aliases, props⟩ :: fields, later) := by
  let attributes := [("name", Json.str name), ("type", type)]
    ++ (doc.map fun d => ("doc", Json.str d)).toList
    ++ (if aliases.isEmpty then [] else [("aliases", Json.strings aliases)])
    ++ (default.map fun d => (defaultKey, d)).toList
  have own : ∀ p ∈ attributes, p.1 ∈ fieldKeys := by
    cases doc <;> cases default <;> cases aliases <;> simp [attributes, fieldKeys]
  have distinct : (attributes.map Prod.fst).Nodup := by
    cases doc <;> cases default <;> cases aliases <;> simp [attributes, defaultKey]
  obtain ⟨object, written, same, told⟩ := withProps_spec own distinct clear
  have look (key : String) (h : key ∈ fieldKeys) :
      Assoc.find? key object = Assoc.find? key attributes := same key h
  have named : Assoc.find? "name" object = some (.str name) := by
    rw [look _ (by decide)]
    rfl
  have typed : Assoc.find? "type" object = some type := by
    rw [look _ (by decide)]
    rfl
  have described : (Assoc.find? "doc" object).bind Json.str? = doc := by
    rw [look _ (by decide)]
    cases doc <;> cases default <;> cases aliases <;>
      simp [attributes, Assoc.find?, defaultKey, Json.str?]
  have fallback : (Assoc.find? defaultKey object).or (Assoc.find? "default" object) =
      default := by
    rw [look _ (by decide), look _ (by decide)]
    cases doc <;> cases default <;> cases aliases <;>
      simp [attributes, Assoc.find?, defaultKey]
  have called : (((Assoc.find? "aliases" object).bind Json.items?).getD []).filterMap
      Json.str? = aliases := by
    rw [look _ (by decide)]
    cases doc <;> cases default <;> cases aliases <;>
      simp [attributes, Assoc.find?, defaultKey, Json.strings, Json.items?, Json.str?,
        filterMap_str?_str]
  have document : fieldDocument name type doc default aliases props = .obj object := written
  rw [document, readFields_cons named typed first others, described, fallback, called, told,
    Identifier.sanitize_eq_self valid]

theorem read_recordDocument {known later : Known} {name space : String} {js : List Json}
    {fields : List Field} {props : Props} (clear : ∀ p ∈ props.pairs, p.1 ∉ recordKeys)
    (run : readFields known js = .ok (fields, later)) :
    read known (recordDocument name space js props) =
      .ok (.record name space fields props,
        (fullName space name, .record name space fields props)
          :: (name, .record name space fields props) :: later) := by
  let attributes := [("type", Json.str "record"), ("name", .str name)]
    ++ (if space.isEmpty then [] else [("namespace", Json.str space)])
    ++ [("fields", .arr js)]
  have own : ∀ p ∈ attributes, p.1 ∈ recordKeys := by
    by_cases empty : space = "" <;> simp [attributes, recordKeys, empty]
  have distinct : (attributes.map Prod.fst).Nodup := by
    by_cases empty : space = "" <;> simp [attributes, empty]
  obtain ⟨object, written, same, told⟩ := withProps_spec own distinct clear
  have look (key : String) (h : key ∈ recordKeys) :
      Assoc.find? key object = Assoc.find? key attributes := same key h
  have type : Assoc.find? "type" object = some (.str "record") := by
    rw [look _ (by decide)]
    rfl
  have named : Assoc.find? "name" object = some (.str name) := by
    rw [look _ (by decide)]
    rfl
  have spaced : ((Assoc.find? "namespace" object).bind Json.str?).getD "" = space := by
    rw [look _ (by decide)]
    by_cases empty : space = "" <;> simp [attributes, Assoc.find?, empty, Json.str?]
  have inner : Assoc.find? "fields" object = some (.arr js) := by
    rw [look _ (by decide)]
    by_cases empty : space = "" <;> simp [attributes, Assoc.find?, empty]
  have document : recordDocument name space js props = .obj object := written
  rw [document, read_record type named spaced inner run, told]

theorem read_arrayDocument {known later : Known} {items : Json} {c : Canonical} {props : Props}
    (clear : ∀ p ∈ props.pairs, p.1 ∉ arrayKeys) (run : read known items = .ok (c, later)) :
    read known (withProps [("type", .str "array"), ("items", items)] props arrayKeys) =
      .ok (.array c props, later) := by
  have own : ∀ p ∈ [("type", Json.str "array"), ("items", items)], p.1 ∈ arrayKeys := by
    simp [arrayKeys]
  obtain ⟨object, written, same, told⟩ := withProps_spec own (by simp) clear
  have type : Assoc.find? "type" object = some (.str "array") := by
    rw [same _ (by decide)]
    rfl
  have inner : Assoc.find? "items" object = some items := by
    rw [same _ (by decide)]
    rfl
  rw [written, read_array type inner run, told]

/-! Reading along the walk of the writer. -/

def Sound (ds : List Canonical) (known : Known) : Prop :=
  ∀ key c, known.lookup key = some c → ∀ d ∈ ds, d.fullName? = some key → c.plain = d.plain

/-- What has been marked as defined has been entered, unless it is still open. -/
def Entered (opened defined : List String) (known : Known) : Prop :=
  ∀ full ∈ defined, full ∉ opened → ∃ c, known.lookup full = some c

def Shut (opened : List String) (ds : List Canonical) : Prop :=
  ∀ full ∈ opened, ∀ d ∈ ds, d.fullName? ≠ some full

theorem Shut.of_subset {opened : List String} {ds es : List Canonical} (h : Shut opened ds)
    (within : ∀ d ∈ es, d ∈ ds) : Shut opened es :=
  fun full mem d hd => h full mem d (within d hd)

/-- What is known after some documents were read, and how it fits what was written. -/
structure Tied (ds : List Canonical) (opened defined : List String) (known : Known) : Prop where
  sound : Sound ds known
  entered : Entered opened defined known

theorem Sound.cons {ds : List Canonical} {known : Known} {key : String} {c : Canonical}
    (sound : Sound ds known)
    (own : ∀ d ∈ ds, d.fullName? = some key → c.plain = d.plain) :
    Sound ds ((key, c) :: known) := by
  intro other e entered d hd named
  by_cases same : other = key
  · subst same
    rw [List.lookup_cons_self, Option.some.injEq] at entered
    exact entered ▸ own d hd named
  · rw [lookup_cons_of_ne same] at entered
    exact sound other e entered d hd named

theorem Shut.enter {ds : List Canonical} {opened : List String} {name space : String}
    {fields : List Field} {props : Props} (writable : Writable ds)
    (within : ∀ d ∈ (record name space fields props).nodes, d ∈ ds)
    (shut : Shut opened (record name space fields props).nodes) :
    Shut (fullName space name :: opened) (nodesOfFields fields) := by
  intro full h d hd named
  rcases List.mem_cons.1 h with rfl | h
  · have equal := writable.agree _ (within _ (self_mem_nodes _)) d
      (within d (List.mem_cons_of_mem _ hd)) (by simp [fullName?]) named.symm
    exact plain_ne_of_mem_nodesOfFields hd (eq_iff_plain.1 equal)
  · exact shut full h d (List.mem_cons_of_mem _ hd) named

theorem Tied.enter {ds : List Canonical} {opened defined : List String} {known : Known}
    (full : String) (tied : Tied ds opened defined known) :
    Tied ds (full :: opened) (full :: defined) known := by
  refine ⟨tied.sound, fun other marked closed => ?_⟩
  simp only [List.mem_cons, not_or] at marked closed
  exact tied.entered other (marked.resolve_left closed.1) closed.2

theorem Tied.leave {ds : List Canonical} {opened defined : List String} {known : Known}
    {name space : String} {fields : List Field} {props : Props} {read : Canonical}
    (writable : Writable ds) (mem : record name space fields props ∈ ds)
    (same : read.plain = (record name space fields props).plain)
    (tied : Tied ds (fullName space name :: opened) defined known) :
    Tied ds opened defined ((fullName space name, read) :: (name, read) :: known) := by
  refine ⟨(tied.sound.cons fun d hd named => ?_).cons fun d hd named => ?_, ?_⟩
  · exact same.trans (eq_iff_plain.1 (writable.apart _ mem d hd (by simp [shortName?]) named.symm))
  · exact same.trans (eq_iff_plain.1 (writable.agree _ mem d hd (by simp [fullName?]) named.symm))
  · intro full marked shut
    by_cases own : full = fullName space name
    · exact ⟨read, by rw [own, List.lookup_cons_self]⟩
    · obtain ⟨c, entered⟩ := tied.entered full marked (by simp [own, shut])
      by_cases short : full = name
      · exact ⟨read, by rw [lookup_cons_of_ne own, short, List.lookup_cons_self]⟩
      · exact ⟨c, by rw [lookup_cons_of_ne own, lookup_cons_of_ne short, entered]⟩

mutual
theorem read_write {ds : List Canonical} {opened defined : List String} {known : Known}
    (writable : Writable ds) (c : Canonical) (within : ∀ d ∈ c.nodes, d ∈ ds)
    (shut : Shut opened c.nodes) (tied : Tied ds opened defined known) :
    ∃ c' later, read known (write defined c).1 = .ok (c', later) ∧ c'.plain = c.plain ∧
      Tied ds opened (write defined c).2 later := by
  match c with
  | .primitive p => exact ⟨_, known, read_primitive known p, rfl, tied⟩
  | .timestampMillis => exact ⟨_, known, read_timestamp known, rfl, tied⟩
  | .array items props =>
    have clear := writable.clear _ (within _ (self_mem_nodes _))
    obtain ⟨items', later, run, same, tied⟩ := read_write writable items
      (fun d hd => within d (List.mem_cons_of_mem _ hd))
      (shut.of_subset fun d hd => List.mem_cons_of_mem _ hd) tied
    exact ⟨_, later, read_arrayDocument clear run, by simp [plain, same], tied⟩
  | .union branches =>
    obtain ⟨branches', later, run, same, tied⟩ := readBranches_writeBranches writable branches
      (fun d hd => within d (List.mem_cons_of_mem _ hd))
      (shut.of_subset fun d hd => List.mem_cons_of_mem _ hd) tied
    refine ⟨.union branches', later, ?_, by simp [plain, same], tied⟩
    rw [write, read, run]
    rfl
  | .record name space fields props =>
    have mem := within _ (self_mem_nodes _)
    by_cases marked : (fullName space name) ∈ defined
    · -- A marked record is not open, so it has been entered, as an equal of this one.
      have closed : fullName space name ∉ opened := fun h => shut _ h _ (self_mem_nodes _) rfl
      obtain ⟨r, entered⟩ := tied.entered _ marked closed
      have found := find_entered (writable.named _ mem) entered
      refine ⟨r, known, ?_, tied.sound _ r entered _ mem rfl, ?_⟩
      · simp [write, marked, read_str found]
      · simpa [write, marked] using tied
    · obtain ⟨fields', later, run, same, tied⟩ := readFields_writeFields writable fields
        (fun d hd => within d (List.mem_cons_of_mem _ hd)) (shut.enter writable within)
        (fun f hf => ⟨writable.valid _ mem f hf, writable.clearFields _ mem f hf⟩)
        (tied.enter (fullName space name))
      have clear : ∀ p ∈ props.pairs, p.1 ∉ recordKeys := writable.clear _ mem
      let r := record name space fields' props
      have whole : r.plain = (record name space fields props).plain := by
        simp [r, plain, same]
      refine ⟨r, (fullName space name, r) :: (name, r) :: later, ?_, whole, ?_⟩
      · rw [write]
        simpa [marked] using read_recordDocument clear run
      · rw [write]
        simpa [marked] using tied.leave writable mem whole

theorem readBranches_writeBranches {ds : List Canonical} {opened defined : List String}
    {known : Known} (writable : Writable ds) (branches : List Canonical)
    (within : ∀ d ∈ nodesOfBranches branches, d ∈ ds)
    (shut : Shut opened (nodesOfBranches branches)) (tied : Tied ds opened defined known) :
    ∃ branches' later, readBranches known (writeBranches defined branches).1 =
        .ok (branches', later) ∧ plainBranches branches' = plainBranches branches ∧
      Tied ds opened (writeBranches defined branches).2 later := by
  match branches with
  | [] => exact ⟨[], known, by simp [writeBranches, readBranches], rfl, tied⟩
  | c :: rest =>
    obtain ⟨c', between, first, same, tied⟩ := read_write writable c
      (fun d hd => within d (List.mem_append_left _ hd))
      (shut.of_subset fun d hd => List.mem_append_left _ hd) tied
    obtain ⟨rest', later, others, sameRest, tied⟩ := readBranches_writeBranches writable rest
      (fun d hd => within d (List.mem_append_right _ hd))
      (shut.of_subset fun d hd => List.mem_append_right _ hd) tied
    refine ⟨c' :: rest', later, ?_, by simp [plainBranches, same, sameRest], tied⟩
    simp [writeBranches, readBranches, first, others]

theorem readFields_writeFields {ds : List Canonical} {opened defined : List String}
    {known : Known} (writable : Writable ds) (fields : List Field)
    (within : ∀ d ∈ nodesOfFields fields, d ∈ ds) (shut : Shut opened (nodesOfFields fields))
    (sound : ∀ f ∈ fields, Identifier.isValid f.name = true ∧
      ∀ p ∈ f.props.pairs, p.1 ∉ fieldKeys) (tied : Tied ds opened defined known) :
    ∃ fields' later, readFields known (writeFields defined fields).1 = .ok (fields', later) ∧
      plainFields fields' = plainFields fields ∧
      Tied ds opened (writeFields defined fields).2 later := by
  match fields with
  | [] => exact ⟨[], known, by simp [writeFields, readFields], rfl, tied⟩
  | ⟨name, type, doc, default, aliases, props⟩ :: rest =>
    obtain ⟨type', between, first, same, tied⟩ := read_write writable type
      (fun d hd => within d (List.mem_append_left _ hd))
      (shut.of_subset fun d hd => List.mem_append_left _ hd) tied
    obtain ⟨rest', later, others, sameRest, tied⟩ := readFields_writeFields writable rest
      (fun d hd => within d (List.mem_append_right _ hd))
      (shut.of_subset fun d hd => List.mem_append_right _ hd)
      (fun f hf => sound f (List.mem_cons_of_mem _ hf)) tied
    obtain ⟨valid, clear⟩ := sound _ List.mem_cons_self
    refine ⟨_, later, readFields_fieldDocument valid clear first others, ?_, tied⟩
    simp [plainFields, same, sameRest]
end

/-- The reader undoes the writer wherever the document can tell all about a type. -/
theorem exists_ofJson_toJson {c : Canonical} (writable : Writable c.nodes) :
    ∃ c', ofJson c.toJson = .ok c' ∧ c'.plain = c.plain := by
  have shut : Shut [] c.nodes := by simp [Shut]
  have tied : Tied c.nodes [] [] [] := ⟨by simp [Sound], by simp [Entered]⟩
  obtain ⟨c', later, run, same, -⟩ := read_write writable c (fun _ hd => hd) shut tied
  exact ⟨c', by simp [ofJson, toJson, run], same⟩

theorem ofJson_toJson {c : Canonical} (writable : Writable c.nodes) :
    ∃ c', ofJson c.toJson = .ok c' ∧ (c' == c) = true := by
  obtain ⟨c', run, same⟩ := exists_ofJson_toJson writable
  exact ⟨c', run, eq_iff_plain.2 same⟩

/-- A segment between two equal points, the second of which is written as a reference. -/
def segment : Canonical :=
  let coordinate : Field := ⟨"x", .primitive .double, some "in metres", some (.str "0"), [],
    Props.ofList [("unit", "m")]⟩
  let point := record "Point" "shapes" [coordinate] (Props.ofList [("dimension", "1")])
  let bare := record "Bare" "" [] Props.empty
  record "Segment" "shapes"
    [⟨"start", .union [null, point], none, none, ["from", metadataAlias], Props.empty⟩,
     ⟨"stops", .array (.array point (Props.ofList [("inner", "1")])) Props.empty, none,
      some (.arr []), [], Props.ofList [(labelKey, "Stops")]⟩,
     ⟨"drawn", .timestampMillis, none, none, [], Props.empty⟩,
     ⟨"bare", bare, none, none, [], Props.empty⟩,
     ⟨"again", .union [bare, .primitive .string, null], none, none, [], Props.empty⟩]
    (Props.ofList [(orderKey, "start,stops,drawn,bare,again")])

theorem ofJson_toJson_segment :
    Writable segment.nodes ∧ ∃ c', ofJson segment.toJson = .ok c' ∧ (c' == segment) = true := by
  have writable : Writable segment.nodes :=
    { agree := by decide +kernel
      apart := by decide +kernel
      named := by decide +kernel
      valid := by decide +kernel
      clear := by decide +kernel
      clearFields := by decide +kernel }
  exact ⟨writable, ofJson_toJson writable⟩

end TypedRecords.Canonical
