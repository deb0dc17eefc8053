import TypedRecords.Proofs.Assoc
import TypedRecords.Schema.DescriptorJson

/-! Descriptors come back from their JSON.
What has its usual value is left out when a descriptor is written, and filled in when it is read.
Nothing is lost on the way but a default that is null, which is read as no default; and no
descriptor that was read has such a default. -/
namespace TypedRecords.Descriptor

mutual
/-- No entry, at any depth, has null for its default. -/
def Told : Descriptor → Prop
  | ⟨_, _, entries, element, _, _⟩ => AllTold entries ∧ ElementTold element

def ElementTold : Option Descriptor → Prop
  | none => True
  | some d => Told d

def AllTold : List Entry → Prop
  | [] => True
  | ⟨_, _, _, element, _, _, _, _, default, _⟩ :: rest =>
    default ≠ some .null ∧ ElementTold element ∧ AllTold rest
end

/-! Attributes that may be left out. -/

def attributesOf (told : List (String × Option Json)) : List (String × Json) :=
  told.flatMap fun p => optional p.1 p.2

theorem find?_optional (key other : String) (value : Option Json) :
    Assoc.find? other (optional key value) = if key = other then value else none := by
  cases value <;> simp [optional, Assoc.find?]

theorem keys_attributesOf (told : List (String × Option Json)) :
    ((attributesOf told).map Prod.fst).Sublist (told.map Prod.fst) := by
  induction told with
  | nil => exact .slnil
  | cons p rest ih =>
    have own : ((optional p.1 p.2).map Prod.fst).Sublist [p.1] := by
      cases value : p.2 <;> simp [optional]
    simpa [attributesOf] using own.append ih

theorem find?_attributesOf {told : List (String × Option Json)}
    (distinct : (told.map Prod.fst).Nodup) {key : String} {value : Option Json}
    (mem : (key, value) ∈ told) : Assoc.find? key (attributesOf told) = value := by
  induction told with
  | nil => simp at mem
  | cons p rest ih =>
    obtain ⟨fresh, others⟩ := List.nodup_cons.1 (List.map_cons ▸ distinct)
    have split_ : attributesOf (p :: rest) = optional p.1 p.2 ++ attributesOf rest := rfl
    rw [split_, Assoc.find?_append, find?_optional]
    rcases List.mem_cons.1 mem with rfl | later
    · have absent : Assoc.find? key (attributesOf rest) = none :=
        Assoc.find?_eq_none_iff.2 fun q hq same =>
          fresh ((keys_attributesOf rest).subset (List.mem_map.2 ⟨q, hq, same⟩))
      simp [absent]
    · have other : p.1 ≠ key := fun same => fresh (List.mem_map.2 ⟨_, later, same.symm⟩)
      simp [other, ih others later]

/-- An object of distinct attributes answers for each of them. -/
theorem exists_object (told : List (String × Option Json)) (distinct : (told.map Prod.fst).Nodup) :
    ∃ object, Json.ofFields (attributesOf told) = .obj object ∧
      ∀ p ∈ told, Assoc.find? p.1 object = p.2 := by
  refine ⟨_, rfl, fun p hp => ?_⟩
  rw [Assoc.find?_insertAll_of_nodup ((keys_attributesOf told).nodup distinct),
    find?_attributesOf distinct hp]
  exact Option.or_none

theorem flag_eq_optional (key : String) (usual value : Bool) :
    flag key usual value = optional key (if value = usual then none else some (.bool value)) := by
  by_cases same : value = usual <;> simp [flag, optional, same]

def propsJson (props : Props) : Json := Json.ofFields (props.pairs.map fun p => (p.1, .str p.2))

theorem propsAttribute_eq_optional (props : Props) :
    propsAttribute props =
      optional "props" (if props.isEmpty then none else some (propsJson props)) := by
  cases bare : props.isEmpty <;> simp [propsAttribute, optional, bare, propsJson]

theorem entries_eq_optional (entries : List Entry) :
    (if entries.isEmpty then [] else [("entries", Json.arr (entriesToJson entries))]) =
      optional "entries" (if entries.isEmpty then none
        else some (.arr (entriesToJson entries))) := by
  cases entries <;> rfl

/-! What the attributes of an object are read as. -/

def entriesOf (attributes : List (String × Json)) : Option (List Entry) :=
  match Assoc.find? "entries" attributes with
  | none => some []
  | some (.arr items) => readEntries items
  | some _ => none

def elementOf (attributes : List (String × Json)) : Option (Option Descriptor) :=
  match Assoc.find? "element" attributes with
  | none | some .null => some none
  | some j => (read j).map some

theorem read_eq (j : Json) : read j = (do
    let attributes ← attributes? keys j
    let kind ← (Assoc.find? "type" attributes).bind readKind
    let name ← readText attributes "name"
    let entries ← entriesOf attributes
    let element ← elementOf attributes
    let elementNullable ← readFlag attributes "element_nullable" true
    let props ← readProps attributes
    return ⟨kind, name, entries, element, elementNullable, props⟩) := by
  rw [read]
  cases attributes? keys j with
  | none => rfl
  | some attributes =>
    simp only [Option.bind_eq_bind, Option.bind_some]
    refine Option.bind_congr fun kind _ => Option.bind_congr fun name _ => ?_
    rw [entriesOf, elementOf]
    split
    all_goals
      rename_i listed
      simp only [listed, Option.bind_some, Option.bind_none]
    · split
      all_goals
        rename_i inner
        simp only [inner, Option.bind_some]
    · refine Option.bind_congr fun entries _ => ?_
      split
      all_goals
        rename_i inner
        simp only [inner, Option.bind_some]

theorem readEntry_eq (j : Json) : readEntry j = (do
    let attributes ← attributes? Entry.keys j
    let name ← (Assoc.find? "name" attributes).bind Json.str?
    let label ← readText attributes "label"
    let kind ← (Assoc.find? "type" attributes).bind readKind
    let element ← elementOf attributes
    let elementNullable ← readFlag attributes "element_nullable" true
    let nullable ← readFlag attributes "nullable" false
    let metadata ← readFlag attributes "metadata" false
    let comment ← readText attributes "comment"
    let props ← readProps attributes
    return ⟨name, label, kind, element, elementNullable, nullable, metadata, comment,
      readDefault attributes, props⟩) := by
  rw [readEntry]
  cases attributes? Entry.keys j with
  | none => rfl
  | some attributes =>
    simp only [Option.bind_eq_bind, Option.bind_some]
    refine Option.bind_congr fun name _ => Option.bind_congr fun label _ =>
      Option.bind_congr fun kind _ => ?_
    rw [elementOf]
    split
    all_goals
      rename_i inner
      simp only [inner, Option.bind_some]

theorem readDefault_ne_null (attributes : List (String × Json)) :
    readDefault attributes ≠ some .null := by
  unfold readDefault
  split
  · simp
  · simp
  · rename_i j other _
    exact fun same => other (Option.some.inj same)

theorem told_of_elementOf {attributes : List (String × Json)} {element : Option Descriptor}
    (below : ∀ j d, Assoc.find? "element" attributes = some j → read j = some d → d.Told)
    (run : elementOf attributes = some element) : ElementTold element := by
  unfold elementOf at run
  split at run
  · cases run
    trivial
  · cases run
    trivial
  · rename_i j _ found
    obtain ⟨d, inner, rfl⟩ := Option.map_eq_some_iff.1 run
    exact below j d found inner

mutual
theorem told_of_read (j : Json) {d : Descriptor} (run : read j = some d) : d.Told := by
  rw [read_eq] at run
  simp only [Option.bind_eq_bind, Option.bind_eq_some_iff, Option.pure_def, Option.some.injEq]
    at run
  obtain ⟨attributes, given, kind, -, name, -, entries, listed, element, inner, -, -, -, -, rfl⟩ :=
    run
  refine ⟨?_, told_of_elementOf (fun i d found below => told_of_read i below) inner⟩
  unfold entriesOf at listed
  split at listed
  · cases listed
    trivial
  · rename_i items found
    exact told_of_readEntries items listed
  · cases listed
termination_by j.size
decreasing_by
  · have := sizeFields_attributes?_lt ‹_›
    have := Json.size_le_of_find? ‹_›
    simp only [Json.size] at this
    omega
  · have := sizeFields_attributes?_lt ‹_›
    have := Json.size_le_of_find? ‹_›
    omega

theorem told_of_readEntries (js : List Json) {entries : List Entry}
    (run : readEntries js = some entries) : AllTold entries := by
  match js with
  | [] =>
    rw [readEntries] at run
    cases run
    trivial
  | j :: rest =>
    rw [readEntries] at run
    simp only [Option.bind_eq_bind, Option.bind_eq_some_iff, Option.pure_def, Option.some.injEq]
      at run
    obtain ⟨e, first, others, later, rfl⟩ := run
    rw [readEntry_eq] at first
    simp only [Option.bind_eq_bind, Option.bind_eq_some_iff, Option.pure_def, Option.some.injEq]
      at first
    obtain ⟨attributes, given, _, -, _, -, _, -, element, inner, _, -, _, -, _, -, _, -, _, -,
      rfl⟩ := first
    exact ⟨readDefault_ne_null attributes,
      told_of_elementOf (fun i d found below => told_of_read i below) inner,
      told_of_readEntries rest later⟩
termination_by Json.sizeItems js
decreasing_by
  · have := sizeFields_attributes?_lt ‹_›
    have := Json.size_le_of_find? ‹_›
    simp only [Json.sizeItems]
    omega
  · simp only [Json.sizeItems]
    omega
end

/-! Reading what was written. -/

section

variable {attributes : List (String × Json)} {key : String}

theorem readText_eq {text : Option String}
    (h : Assoc.find? key attributes = text.map .str) : readText attributes key = some text := by
  rw [readText, h]
  cases text <;> rfl

theorem readFlag_eq {usual value : Bool}
    (h : Assoc.find? key attributes = if value = usual then none else some (.bool value)) :
    readFlag attributes key usual = some value := by
  rw [readFlag, h]
  by_cases same : value = usual
  · simp [same]
  · simp [same, Json.bool?]

theorem mapM_str (pairs : List (String × String)) :
    ((pairs.map fun p => (p.1, Json.str p.2)).mapM fun (key, j) =>
      j.str?.map fun s => (key, s)) = some pairs := by
  induction pairs with
  | nil => rfl
  | cons p rest ih =>
    rw [List.map_cons, List.mapM_cons, ih]
    rfl

theorem readProps_eq {props : Props} (h : Assoc.find? "props" attributes =
    if props.isEmpty then none else some (propsJson props)) : readProps attributes = some props := by
  rw [readProps, h]
  cases bare : props.isEmpty with
  | true =>
    have same : props = Props.empty := Props.ext (List.isEmpty_iff.1 bare)
    simp [same]
  | false =>
    have sorted : Assoc.Sorted (props.pairs.map fun p => (p.1, Json.str p.2)) := by
      simpa [Assoc.Sorted, List.pairwise_map] using props.sorted
    have object : propsJson props = .obj (props.pairs.map fun p => (p.1, Json.str p.2)) := by
      rw [propsJson, Json.ofFields, Assoc.insertAll_nil sorted]
    have back : (do
        let pairs ← (props.pairs.map fun p => (p.1, Json.str p.2)).mapM fun (key, j) =>
          j.str?.map fun s => (key, s)
        return Props.ofList pairs : Option Props) = some props := by
      rw [mapM_str]
      simp [Props.ofList]
    rw [object]
    exact back

theorem readDefault_eq {default : Option Json} (told : default ≠ some .null)
    (h : Assoc.find? "default" attributes = default) : readDefault attributes = default := by
  rw [readDefault, h]
  split
  · rfl
  · exact absurd rfl told
  · rfl

theorem toJson_ne_null (d : Descriptor) : d.toJson ≠ .null := by
  obtain ⟨⟩ := d
  simp [toJson, Json.ofFields]

theorem elementOf_eq {element : Option Descriptor}
    (h : Assoc.find? "element" attributes = elementToJson element)
    (below : ∀ d, element = some d → read d.toJson = some d) :
    elementOf attributes = some element := by
  cases element with
  | none => rw [elementOf, h, elementToJson]
  | some d =>
    rw [elementOf, h, elementToJson]
    split
    · contradiction
    · rename_i null
      exact absurd (Option.some.inj null) d.toJson_ne_null
    · rename_i j _ same
      rw [← Option.some.inj same, below d rfl]
      rfl

theorem entriesOf_eq {entries : List Entry} (h : Assoc.find? "entries" attributes =
      if entries.isEmpty then none else some (.arr (entriesToJson entries)))
    (below : readEntries (entriesToJson entries) = some entries) :
    entriesOf attributes = some entries := by
  rw [entriesOf, h]
  cases entries with
  | nil => rfl
  | cons e rest => exact below

end

mutual
/-- What is written of a descriptor is read as it. -/
theorem read_toJson (d : Descriptor) (told : d.Told) : read d.toJson = some d := by
  match d with
  | ⟨kind, name, entries, element, elementNullable, props⟩ =>
    obtain ⟨toldEntries, toldElement⟩ := told
    let attributes : List (String × Option Json) :=
      [("type", some (.str kind.name)), ("name", name.map .str),
        ("entries", if entries.isEmpty then none else some (.arr (entriesToJson entries))),
        ("element", elementToJson element),
        ("element_nullable", if elementNullable = true then none else some (.bool elementNullable)),
        ("props", if props.isEmpty then none else some (propsJson props))]
    have same : toJson ⟨kind, name, entries, element, elementNullable, props⟩ =
        Json.ofFields (attributesOf attributes) := by
      rw [toJson, entries_eq_optional, flag_eq_optional, propsAttribute_eq_optional]
      simp [attributes, attributesOf, optional]
    obtain ⟨object, written, look⟩ := exists_object attributes (by simp [attributes])
    simp only [attributes, List.forall_mem_cons, List.not_mem_nil, false_implies, implies_true,
      and_true] at look
    obtain ⟨typed, named, listed, inner, flagged, told⟩ := look
    have entriesRead := entriesOf_eq listed (readEntries_entriesToJson entries toldEntries)
    have elementRead := elementOf_eq inner (read_elementToJson element toldElement)
    rw [same, written, read_eq, attributes?]
    simp [typed, readKind, Kind.ofName?_name, readText_eq named, entriesRead, elementRead,
      readFlag_eq flagged, readProps_eq told]

theorem read_elementToJson (element : Option Descriptor) (told : ElementTold element) :
    ∀ d, element = some d → read d.toJson = some d := by
  match element with
  | none => simp
  | some d =>
    rintro _ ⟨⟩
    exact read_toJson d told

theorem readEntries_entriesToJson (entries : List Entry) (told : AllTold entries) :
    readEntries (entriesToJson entries) = some entries := by
  match entries with
  | [] => rw [entriesToJson, readEntries]
  | ⟨name, label, kind, element, elementNullable, nullable, metadata, comment, default,
      props⟩ :: rest =>
    obtain ⟨toldDefault, toldElement, toldRest⟩ := told
    let attributes : List (String × Option Json) :=
      [("name", some (.str name)), ("label", label.map .str), ("type", some (.str kind.name)),
        ("element", elementToJson element),
        ("element_nullable", if elementNullable = true then none else some (.bool elementNullable)),
        ("nullable", if nullable = false then none else some (.bool nullable)),
        ("metadata", if metadata = false then none else some (.bool metadata)),
        ("comment", comment.map .str), ("default", default),
        ("props", if props.isEmpty then none else some (propsJson props))]
    have same : entriesToJson (⟨name, label, kind, element, elementNullable, nullable, metadata,
          comment, default, props⟩ :: rest) =
        Json.ofFields (attributesOf attributes) :: entriesToJson rest := by
      rw [entriesToJson, flag_eq_optional, flag_eq_optional, flag_eq_optional,
        propsAttribute_eq_optional]
      simp [attributes, attributesOf, optional]
    obtain ⟨object, written, look⟩ := exists_object attributes (by simp [attributes])
    simp only [attributes, List.forall_mem_cons, List.not_mem_nil, false_implies, implies_true,
      and_true] at look
    obtain ⟨named, labelled, typed, inner, flagged, flagged', flagged'', commented, defaulted,
      told⟩ := look
    have elementRead := elementOf_eq inner (read_elementToJson element toldElement)
    rw [same, written, readEntries, readEntry_eq, attributes?,
      readEntries_entriesToJson rest toldRest]
    simp [named, Json.str?, readText_eq labelled, typed, readKind, Kind.ofName?_name, elementRead,
      readFlag_eq flagged, readFlag_eq flagged', readFlag_eq flagged'', readText_eq commented,
      readDefault_eq toldDefault defaulted, readProps_eq told]
end

theorem ofJson_of_told {d : Descriptor} (told : d.Told) : ofJson d.toJson = .ok d := by
  rw [ofJson, read_toJson d told]

theorem told_of_ofJson {j : Json} {d : Descriptor} (run : ofJson j = .ok d) : d.Told := by
  unfold ofJson at run
  split at run
  · rename_i known
    cases run
    exact told_of_read j known
  · cases run

end TypedRecords.Descriptor
