import Mathlib.Data.Set.Basic
import TypedRecords.Proofs.Canonical.Shown
import TypedRecords.Proofs.Schema.Rebuilding

/-! Names that come from the content.
A record without a name of its own gets one from its document, and a document does not show every
property. So one name stands for one definition as far as documents show it: two records of one
name can differ in hidden properties only, and nothing else can keep a record of such records from
being built. -/
namespace TypedRecords

open Result Canonical

namespace Canonical

theorem fullName_injective {a b : String} (same : fullName recordSpace a = fullName recordSpace b) :
    a = b := by
  simpa [fullName, recordSpace, String.isEmpty] using same

end Canonical

namespace Schema

/-- Different texts of the documents of some records give different names. -/
def Distinguished (ts : Set Schema) : Prop :=
  ∀ n es p m fs q, record n es p ∈ ts → record m fs q ∈ ts →
    contentName es p = contentName fs q →
    (record "" es p).toCanonicalJson.compact = (record "" fs q).toCanonicalJson.compact

def FiniteDefaults (s : Schema) : Prop :=
  ∀ t ∈ s.nodes, ∀ e ∈ t.entries, ∀ j ∈ e.default, j.Finite

theorem FiniteDefaults.compiled {s : Schema} (h : s.FiniteDefaults) :
    Canonical.FiniteDefaults s.compiled.nodes := by
  intro d hd f hf
  rcases stems_of_mem_nodes s hd with ⟨t, ht, rfl⟩ | silent
  · obtain ⟨e, he, -, default, -⟩ := mem_compiledEntries (ownFields_compiled t ▸ hf)
    exact default ▸ h t ht e he
  · simp [silent.fields] at hf

theorem FiniteDefaults.content {name : String} {entries : List Entry} {props : Props}
    (h : (record name entries props).FiniteDefaults) : (record "" entries props).FiniteDefaults :=
  List.forall_mem_cons.2 ⟨h (record name entries props) (self_mem_nodes _),
    fun t ht => h t (List.mem_cons_of_mem _ ht)⟩

def ToldApart (ts : Set Schema) : Prop :=
  ∀ n es p m fs q, record n es p ∈ ts → record m fs q ∈ ts →
    contentName es p = contentName fs q →
    (record "" es p).toCanonicalJson = (record "" fs q).toCanonicalJson

theorem Distinguished.toldApart {ts : Set Schema} (apart : Distinguished ts)
    (finite : ∀ t ∈ ts, t.FiniteDefaults) : ToldApart ts :=
  fun n es p m fs q left right same =>
    toJson_eq_of_compact_eq (finite _ left).content.compiled (finite _ right).content.compiled
      (apart n es p m fs q left right same)

/-- Every record inside has the name that its content gives it. -/
def ContentNamed (s : Schema) : Prop :=
  ∀ name entries props, record name entries props ∈ s.nodes → name = contentName entries props

structure Nameless (s : Schema) : Prop where
  sound : s.WellFormed
  named : s.ContentNamed

theorem Nameless.of_mem {s t : Schema} (h : s.Nameless) (mem : t ∈ s.nodes) : t.Nameless :=
  ⟨h.sound.of_mem mem, fun name entries props inner =>
    h.named name entries props (nodes_subset_of_mem s mem _ inner)⟩

theorem contentName_ne_emptyRecordName (entries : List Entry) (props : Props) :
    contentName entries props ≠ emptyRecordName := by
  intro same
  have head := head?_contentName entries props
  rw [same] at head
  revert head
  decide

theorem Nameless.isValid {s : Schema} (h : s.Nameless) {name : String}
    (named : s.recordName? = some name) : Identifier.isValid name := by
  cases s with
  | emptyRecord =>
    cases named
    decide
  | record n entries props =>
    cases named
    rw [h.named _ _ _ (self_mem_nodes _)]
    exact isValid_contentName entries props
  | _ => cases named

theorem Nameless.eq_emptyRecord {s : Schema} (h : s.Nameless)
    (named : s.recordName? = some emptyRecordName) : s = .emptyRecord := by
  cases s with
  | emptyRecord => rfl
  | record n entries props =>
    cases named
    exact absurd (h.named _ _ _ (self_mem_nodes _)).symm (contentName_ne_emptyRecordName _ _)
  | _ => cases named

/-! The content of a record, read from its document. -/

section

variable {entries : List Entry} (own : ∀ e ∈ entries, Identifier.isValid e.name)
  (inner : ∀ t ∈ nodesOfEntries entries, t.Nameless)
include own inner

/-- The content of a record can be read back, if the records inside are told apart by their
names. -/
theorem writable_content (props : Props)
    (agree : Agree ((nodesOfFields (compiledEntries entries)).map (reworded shown))) :
    Writable ((record "" entries props).compiled.reworded shown).nodes := by
  have undotted : ∀ t ∈ (record "" entries props).nodes, ∀ name, t.recordName? = some name →
      '.' ∉ name.toList := by
    refine List.forall_mem_cons.2 ⟨fun name named => ?_, fun t ht name named => ?_⟩
    · cases named
      simp
    · exact Identifier.not_mem_of_isValid ((inner t ht).isValid named) (by decide)
  have valid : ∀ t ∈ (record "" entries props).nodes, ∀ e ∈ t.entries,
      Identifier.isValid e.name :=
    List.forall_mem_cons.2 ⟨own, fun t ht e he => (inner t ht).sound.valid he⟩
  rw [nodes_reworded]
  refine writable_shown ?_ (fun a ha b hb => shortName?_ne_fullName? undotted ha hb)
    (fun a ha => ofName?_fullName?_compiled ha) (fun a ha f hf => isValid_of_mem_ownFields valid ha hf)
  refine agree.cons ?_
  -- Names that are made are identifiers, so none of them is the empty one.
  simp only [List.forall_mem_map, fullName?_reworded]
  intro d hd named share
  rcases stems_of_mem_nodesOfFields entries hd with ⟨t, ht, rfl⟩ | silent
  · rw [fullName?_compiled] at named share
    obtain ⟨name, given⟩ := Option.ne_none_iff_exists'.1 (mt Option.map_eq_none_iff.2 named)
    rw [given] at share
    have empty : "" = name := fullName_injective (Option.some.inj share)
    exact Identifier.ne_empty_of_isValid ((inner t ht).isValid given) empty.symm
  · exact named silent.full

end

theorem Nameless.writable_content {name : String} {entries : List Entry} {props : Props}
    (h : (record name entries props).Nameless) :
    Writable ((record "" entries props).compiled.reworded shown).nodes := by
  obtain ⟨own, -⟩ := wellFormed_record.1 h.sound
  have inner : Agree (nodesOfFields (compiledEntries entries)) :=
    Agree.of_subset own.consistent fun d hd => List.mem_cons_of_mem _ hd
  exact Schema.writable_content own.valid (fun t ht => h.of_mem (List.mem_cons_of_mem _ ht)) props
    inner.reworded

theorem plain_shown_congr {entries others : List Entry} {props props' : Props}
    (same : ((record "" entries props).compiled.reworded shown).plain =
      ((record "" others props').compiled.reworded shown).plain) (name : String) :
    ((record name entries props).compiled.reworded shown).plain =
      ((record name others props').compiled.reworded shown).plain := by
  simp only [compiled, reworded, Canonical.plain, Canonical.record.injEq, true_and] at same ⊢
  exact same

section

variable {ts : Set Schema} (apart : ToldApart ts)
include apart

theorem ToldApart.plain_shown_eq {t u : Schema} (ht : t ∈ ts) (hu : u ∈ ts) (first : t.Nameless)
    (second : u.Nameless) {name : String} (named : t.recordName? = some name)
    (same : u.recordName? = some name) :
    (t.compiled.reworded shown).plain = (u.compiled.reworded shown).plain := by
  cases t with
  | emptyRecord =>
    cases named
    rw [second.eq_emptyRecord same]
  | record n es p =>
    cases u with
    | emptyRecord =>
      cases same
      rw [first.eq_emptyRecord named]
    | record m fs q =>
      cases named
      cases same
      have names := (first.named _ _ _ (self_mem_nodes _)).symm.trans
        (second.named _ _ _ (self_mem_nodes _))
      have documents := apart _ es p _ fs q ht hu names
      exact plain_shown_congr (plain_shown_of_toJson_eq first.writable_content
        second.writable_content documents) _
    | _ => cases same
  | _ => cases named

end

/-- Two records of one name of which documents show the same, but which are different. -/
def HiddenClash (ts : List Schema) (full : String) : Prop :=
  ∃ t ∈ ts, ∃ u ∈ ts, t.compiled.fullName? = some full ∧ u.compiled.fullName? = some full ∧
    (t.compiled.reworded shown == u.compiled.reworded shown) = true ∧
    (t.compiled == u.compiled) = false

theorem HiddenClash.ne_nil {entries : List Entry} {full : String}
    (clash : HiddenClash (nodesOfEntries entries) full) : entries ≠ [] := by
  rintro rfl
  simp [HiddenClash, nodesOfEntries] at clash

theorem HiddenClash.not_consistent {entries : List Entry} {full : String}
    (clash : HiddenClash (nodesOfEntries entries) full) (name : String) (props : Props) :
    ¬ (record name entries props).compiled.Consistent := by
  obtain ⟨t, ht, u, hu, named, same, -, differ⟩ := clash
  have within {v : Schema} (hv : v ∈ nodesOfEntries entries) :
      v.compiled ∈ (record name entries props).compiled.nodes :=
    compiled_mem_nodes _ (List.mem_cons_of_mem _ hv)
  intro consistent
  have equal := consistent _ (within ht) _ (within hu) (by simp [named]) (named.trans same.symm)
  rw [differ] at equal
  cases equal

section

variable {entries : List Entry} {props : Props} (own : ∀ e ∈ entries, Identifier.isValid e.name)
  (inner : ∀ t ∈ nodesOfEntries entries, t.Nameless)
  {ts : Set Schema} (apart : ToldApart ts)
  (within : ∀ t ∈ (record "" entries props).nodes, t ∈ ts)
include inner apart within

theorem plain_shown_eq_of_mem {a b : Canonical} {full : String}
    (ha : a ∈ nodesOfFields (compiledEntries entries))
    (hb : b ∈ nodesOfFields (compiledEntries entries)) (named : a.fullName? = some full)
    (same : b.fullName? = some full) :
    ∃ t ∈ nodesOfEntries entries, ∃ u ∈ nodesOfEntries entries, t.compiled = a ∧ u.compiled = b ∧
      (a.reworded shown).plain = (b.reworded shown).plain := by
  rcases stems_of_mem_nodesOfFields entries ha with ⟨t, ht, rfl⟩ | silent
  · rcases stems_of_mem_nodesOfFields entries hb with ⟨u, hu, rfl⟩ | silent
    · rw [fullName?_compiled] at named same
      obtain ⟨n, first, whole⟩ := Option.map_eq_some_iff.1 named
      obtain ⟨m, second, again⟩ := Option.map_eq_some_iff.1 same
      obtain rfl : n = m := fullName_injective (whole.trans again.symm)
      exact ⟨t, ht, u, hu, rfl, rfl, apart.plain_shown_eq (within t (List.mem_cons_of_mem _ ht))
        (within u (List.mem_cons_of_mem _ hu)) (inner t ht) (inner u hu) first second⟩
    · simp [silent.full] at same
  · simp [silent.full] at named

theorem agree_shown :
    Agree ((nodesOfFields (compiledEntries entries)).map (reworded shown)) := by
  intro a ha b hb named share
  obtain ⟨c, hc, rfl⟩ := List.mem_map.1 ha
  obtain ⟨d, hd, rfl⟩ := List.mem_map.1 hb
  rw [fullName?_reworded] at named
  rw [fullName?_reworded, fullName?_reworded] at share
  obtain ⟨full, first⟩ := Option.ne_none_iff_exists'.1 named
  obtain ⟨-, -, -, -, -, -, equal⟩ :=
    plain_shown_eq_of_mem inner apart within hc hd first (share ▸ first)
  exact Canonical.eq_iff_plain.2 equal

include own

/-- No record inside a record has the name that the content of the whole gives. -/
theorem recordName?_ne_contentName {t : Schema} (ht : t ∈ nodesOfEntries entries) :
    t.recordName? ≠ some (contentName entries props) := by
  intro named
  have nameless := inner t ht
  cases t with
  | emptyRecord =>
    exact contentName_ne_emptyRecordName entries props (Option.some.inj named).symm
  | record m fs q =>
    have names := (nameless.named _ _ _ (self_mem_nodes _)).symm.trans (Option.some.inj named)
    have documents := apart _ _ _ _ fs q (within _ (self_mem_nodes _))
      (within _ (List.mem_cons_of_mem _ ht)) names.symm
    have equal := plain_shown_of_toJson_eq
      (writable_content own inner props (agree_shown inner apart within)) nameless.writable_content documents
    have inside : (record m fs q).compiled.reworded shown ∈
        nodesOfFields (rewordedFields shown (compiledEntries entries)) := by
      rw [nodesOfFields_reworded]
      exact List.mem_map_of_mem (compiled_mem_nodesOfFields entries ht)
    exact plain_ne_of_mem_nodesOfFields inside (plain_shown_congr equal m)
  | _ => cases named

/-- The check of a record that is named by its content can only meet a hidden difference. -/
theorem hiddenClash_of_clash {full : String}
    (clash : Clash (record (contentName entries props) entries props).compiled.nodes full) :
    HiddenClash (nodesOfEntries entries) full := by
  obtain ⟨a, ha, b, hb, named, same, differ⟩ := clash
  -- No part bears the name of the whole, so the clash lies between two parts.
  have whole {c : Canonical} (hc : c ∈ nodesOfFields (compiledEntries entries)) :
      c.fullName? ≠ (record (contentName entries props) entries props).compiled.fullName? := by
    intro share
    rcases stems_of_mem_nodesOfFields entries hc with ⟨t, ht, rfl⟩ | silent
    · rw [fullName?_compiled, fullName?_compiled] at share
      obtain ⟨n, first, again⟩ := Option.map_eq_some_iff.1 share
      exact recordName?_ne_contentName own inner apart within ht (first.trans (congrArg some
        (fullName_injective again)))
    · rw [silent.full] at share
      cases share
  rcases List.mem_cons.1 ha with rfl | ha
  · rcases List.mem_cons.1 hb with rfl | hb
    · simp at differ
    · exact absurd (same.trans named.symm) (whole hb)
  · rcases List.mem_cons.1 hb with rfl | hb
    · exact absurd (named.trans same.symm) (whole ha)
    · obtain ⟨t, ht, u, hu, rfl, rfl, equal⟩ := plain_shown_eq_of_mem inner apart within ha hb named same
      exact ⟨t, ht, u, hu, named, same, Canonical.eq_iff_plain.2 equal, differ⟩

end

end Schema

namespace SchemaBuilder

def draft (b : SchemaBuilder) (arrange : List Entry → List Entry) : Schema :=
  .record "" b.entries
    (b.props.insert orderKey (OrderText.join ((arrange b.entries).map Entry.name)))

theorem finish_nameless {b : SchemaBuilder} {arrange : List Entry → List Entry} (h : b.WellFormed)
    (kind : b.shape.kind? = some .record) (unnamed : b.recordName = none)
    (named : ∀ e ∈ b.entries, e.schema.ContentNamed)
    {ts : Set Schema} (apart : Schema.ToldApart ts)
    (within : ∀ t ∈ (b.draft arrange).nodes, t ∈ ts) :
    (∃ s, b.finish arrange = .ok s ∧ s.ContentNamed ∧
      ∀ full, ¬ Schema.HiddenClash (Schema.nodesOfEntries b.entries) full) ∨
      ∃ full, b.finish arrange = .error (.format (.definedTwice full)) ∧
        Schema.HiddenClash (Schema.nodesOfEntries b.entries) full := by
  have own : ∀ e ∈ b.entries, Identifier.isValid e.name := fun e he => (h.entries he).valid
  have inner : ∀ t ∈ Schema.nodesOfEntries b.entries, t.Nameless := fun t ht => by
    obtain ⟨e, he, mem⟩ := Schema.mem_nodesOfEntries.1 ht
    exact Schema.Nameless.of_mem ⟨(h.entries he).schema, named e he⟩ mem
  obtain ⟨shape, props, recordName⟩ := b
  cases shape with
  | record l =>
    obtain rfl : recordName = none := unnamed
    simp only [finish]
    split
    · rename_i bare
      obtain ⟨none_, -⟩ : l.entries = [] ∧ props.isEmpty = true := by
        simpa [EntryList.isEmpty] using bare
      refine .inl ⟨.emptyRecord, rfl, by simp [Schema.ContentNamed, Schema.nodes], ?_⟩
      exact fun full clash => clash.ne_nil none_
    · let whole := props.insert orderKey (OrderText.join ((arrange l.entries).map Entry.name))
      let s := Schema.record (Schema.contentName l.entries whole) l.entries whole
      have run : finishRecord none l.entries props (arrange l.entries) =
          (checkNames [] s.compiled >>= fun _ => .ok s) := rfl
      rw [run]
      rcases checkNames_nil_ends s.compiled with ⟨seen, checked⟩ | ⟨full, failed, clash⟩
      · refine .inl ⟨s, by rw [checked]; rfl, Schema.forall_record_mem_nodes.2 ⟨rfl, named⟩, ?_⟩
        exact fun full clash => clash.not_consistent _ _ (consistent_of_checkNames checked)
      · exact .inr ⟨full, by rw [failed]; rfl, Schema.hiddenClash_of_clash own inner apart within clash⟩
  | _ => cases kind

theorem build_ofEntries_of_hiddenClash {l : EntryList} {full : String}
    (clash : Schema.HiddenClash (Schema.nodesOfEntries l.entries) full) :
    ∃ full', (ofEntries l).build = .error (.format (.definedTwice full')) := by
  rcases build_ofEntries_ends l with ⟨s, run⟩ | ⟨full', failed, -⟩
  · rw [build_ofEntries_eq, bind_eq_ok] at run
    obtain ⟨seen, checked, -⟩ := run
    have consistent := consistent_of_checkNames checked
    unfold Schema.listed Schema.ofContent at consistent
    split at consistent
    · rename_i bare
      obtain ⟨none_, -⟩ : l.entries = [] ∧ _ := by simpa using bare
      exact absurd none_ clash.ne_nil
    · exact absurd consistent (clash.not_consistent _ _)
  · exact ⟨full', failed⟩

end SchemaBuilder

namespace Schema

/-! Names do not tell hidden properties apart. -/

theorem toCanonicalJson_congr {props props' : Props}
    (same : props.without recordKeys = props'.without recordKeys) (name : String)
    (entries : List Entry) :
    (record name entries props).toCanonicalJson = (record name entries props').toCanonicalJson := by
  have equal : (record name entries props).compiled.reworded shown =
      (record name entries props').compiled.reworded shown := by
    simp only [compiled, reworded, shown, same]
  exact (toJson_shown _).symm.trans ((congrArg Canonical.toJson equal).trans (toJson_shown _))

theorem contentName_congr {props props' : Props}
    (same : props.without recordKeys = props'.without recordKeys) (entries : List Entry) :
    contentName entries props = contentName entries props' :=
  congrArg (fun document => (Fingerprint.ofJson document).recordName recordStem)
    (toCanonicalJson_congr same "" entries)

theorem contentNamed_record {entries : List Entry} {props : Props}
    (inner : ∀ e ∈ entries, e.schema.ContentNamed) :
    (record (contentName entries props) entries props).ContentNamed :=
  forall_record_mem_nodes.2 ⟨rfl, inner⟩

/-! Where documents tell all. -/

theorem Storable.reworded_shown {s : Schema} (h : s.Storable) (sound : s.WellFormed)
    (kind : s.kind = .record) : s.compiled.reworded shown = s.compiled :=
  (h.writable sound kind).reworded_shown _ fun _ hd => hd

theorem not_hiddenClash {ts : List Schema} (sound : ∀ t ∈ ts, t.WellFormed)
    (clear : ∀ t ∈ ts, t.Storable) (full : String) : ¬ HiddenClash ts full := by
  have visible {t : Schema} (ht : t ∈ ts) (named : t.compiled.fullName? = some full) :
      t.compiled.reworded shown = t.compiled := by
    refine (clear t ht).reworded_shown (sound t ht) ?_
    cases t with
    | emptyRecord | record => rfl
    | _ => simp [fullName?_compiled, recordName?] at named
  rintro ⟨t, ht, u, hu, named, same, equal, differ⟩
  rw [visible ht named, visible hu same, differ] at equal
  cases equal

/-- A name that is made from the content stands for one definition, as far as documents show it. -/
theorem contentName_stands_for_one {ts : Set Schema} (apart : Distinguished ts)
    (finite : ∀ t ∈ ts, t.FiniteDefaults) :
    (∀ s t : Schema, s.Obtainable → t.Obtainable → s.kind = .record → t.kind = .record →
      s.ContentNamed → t.ContentNamed → (∀ u ∈ s.nodes ++ t.nodes, u ∈ ts) →
      s.recordName? = t.recordName? →
      (s.compiled.reworded shown == t.compiled.reworded shown) = true ∧
        (s.Storable → t.Storable → (s.compiled == t.compiled) = true)) ∧
    ∀ (b : SchemaBuilder) (arrange : List Entry → List Entry), b.Obtainable →
      b.shape.kind? = some .record → b.recordName = none →
      (∀ e ∈ b.entries, e.schema.ContentNamed) → (∀ u ∈ (b.draft arrange).nodes, u ∈ ts) →
      ((∃ s, b.finish arrange = .ok s ∧ s.ContentNamed ∧
          ∀ full, ¬ HiddenClash (nodesOfEntries b.entries) full) ∨
        ∃ full, b.finish arrange = .error (.format (.definedTwice full)) ∧
          HiddenClash (nodesOfEntries b.entries) full) ∧
      ((∀ e ∈ b.entries, e.schema.Storable) → ∃ s, b.finish arrange = .ok s ∧ s.ContentNamed) := by
  have apart := apart.toldApart finite
  constructor
  · intro s t hs ht kind kind' named named' within same
    obtain ⟨name, own, -⟩ := compiled_of_kind kind
    have equal := apart.plain_shown_eq (within s (List.mem_append_left _ (self_mem_nodes s)))
      (within t (List.mem_append_right _ (self_mem_nodes t))) ⟨hs.wellFormed, named⟩
      ⟨ht.wellFormed, named'⟩ own (same ▸ own)
    refine ⟨Canonical.eq_iff_plain.2 equal, fun clear clear' => Canonical.eq_iff_plain.2 ?_⟩
    rwa [clear.reworded_shown hs.wellFormed kind, clear'.reworded_shown ht.wellFormed kind'] at equal
  · intro b arrange h kind unnamed named within
    have ends := SchemaBuilder.finish_nameless h.wellFormed kind unnamed named apart within
    refine ⟨ends, fun clear => ?_⟩
    rcases ends with ⟨s, run, given, -⟩ | ⟨full, -, clash⟩
    · exact ⟨s, run, given⟩
    · refine absurd clash (not_hiddenClash (fun t ht => ?_) (fun t ht => ?_) full)
      · obtain ⟨e, he, mem⟩ := mem_nodesOfEntries.1 ht
        exact (h.wellFormed.entries he).schema.of_mem mem
      · obtain ⟨e, he, mem⟩ := mem_nodesOfEntries.1 ht
        exact (clear e he).of_mem mem

def axis : List Entry := [⟨"x", none, .scalar .int, false, false, none, none, Props.empty⟩]

def pointProps : Props := Props.ofList [(orderKey, "x")]

def remarkedProps : Props := Props.ofList [(orderKey, "x"), ("doc", "one")]

def point : Schema := .record (contentName axis pointProps) axis pointProps

/-- The same with a remark, which its document does not show. -/
def remarked : Schema := .record (contentName axis remarkedProps) axis remarkedProps

theorem without_remark : remarkedProps.without recordKeys = pointProps.without recordKeys := by
  decide

theorem wellFormed_axis {props : Props} (stored : props.find? orderKey = some "x") :
    (record (contentName axis props) axis props).WellFormed := by
  have whole : ofContent axis props = record (contentName axis props) axis props := rfl
  rw [← whole]
  exact wellFormed_ofContent_of_flat (by decide) (by decide) (.refl ["x"]) stored
    (by simp [axis, Flat])

theorem obtainable_point : point.Obtainable := (wellFormed_axis (by decide)).obtainable

theorem obtainable_remarked : remarked.Obtainable :=
  (wellFormed_axis (by decide)).obtainable

theorem contentNamed_axis (props : Props) :
    (record (contentName axis props) axis props).ContentNamed :=
  contentNamed_record (by simp [axis, ContentNamed, nodes])

theorem recordName?_remarked : remarked.recordName? = point.recordName? :=
  congrArg some (contentName_congr without_remark axis)

def points : Set Schema := {t | t ∈ remarked.nodes ++ point.nodes}

theorem distinguished_points : Distinguished points := by
  have place {name entries props} (mem : record name entries props ∈ points) :
      (record "" entries props).toCanonicalJson = (record "" axis pointProps).toCanonicalJson := by
    have either : record name entries props = remarked ∨ record name entries props = point := by
      simpa [points, remarked, point, axis, nodes, nodesOfEntries] using mem
    rcases either with same | same
    · cases same
      exact toCanonicalJson_congr without_remark "" axis
    · cases same
      rfl
  intro n es p m fs q left right _
  exact congrArg Json.compact ((place left).trans (place right).symm)

theorem finiteDefaults_points : ∀ t ∈ points, t.FiniteDefaults := by
  simp [points, FiniteDefaults, remarked, point, axis, nodes, nodesOfEntries, entries]

theorem compiled_remarked_ne : (remarked.compiled == point.compiled) = false := by
  rw [Bool.eq_false_iff, ne_eq, Canonical.eq_iff_plain]
  intro same
  have props : remarkedProps = pointProps := by
    simp_all [remarked, point, compiled, Canonical.plain]
  exact absurd props (by decide)

/-! The names of two records, digit by digit. -/

theorem contentName_of_digits {entries : List Entry} {props : Props} {text : String}
    {digits : List Char} (told : (record "" entries props).toCanonicalJson.compact = text)
    (run : (Text.hexDigits (Sha256.digest (Text.utf8 text))).take Fingerprint.nameDigits = digits) :
    contentName entries props = recordStem ++ "_" ++ String.ofList digits := by
  have whole : contentName entries props =
      (Fingerprint.ofBytes (Text.utf8 text)).recordName recordStem :=
    congrArg (fun text => (Fingerprint.ofBytes (Text.utf8 text)).recordName recordStem) told
  rw [whole, Fingerprint.recordName, Fingerprint.ofBytes, Text.toList_hex, run]

def pointText : String :=
  "\x7b\"familiar.entries.order\":\"x\",\"fields\":[\x7b\"name\":\"x\",\"type\":\"int\"\x7d],"
    ++ "\"name\":\"\",\"namespace\":\"familiar.records\",\"type\":\"record\"\x7d"

theorem compact_point : (record "" axis pointProps).toCanonicalJson.compact = pointText := by
  have document : (record "" axis pointProps).toCanonicalJson =
      .obj [(orderKey, .str "x"), ("fields", .arr [.obj [("name", .str "x"), ("type", .str "int")]]),
        ("name", .str ""), ("namespace", .str recordSpace), ("type", .str "record")] := rfl
  rw [document]
  simp [Json.compact, Json.compactFields, Json.compactItems, Json.atom, Json.quote]
  decide +kernel

theorem contentName_point : contentName axis pointProps = "Record_e61f560415f0bde2" := by
  -- The kernel computes the digest, as it does for `way` below.
  have digits : (Text.hexDigits (Sha256.digest (Text.utf8 pointText))).take
      Fingerprint.nameDigits =
        ['e', '6', '1', 'f', '5', '6', '0', '4', '1', '5', 'f', '0', 'b', 'd', 'e', '2'] := by
    decide +kernel
  rw [contentName_of_digits compact_point digits]
  decide +kernel

/-- Two records of one name. -/
def way : List Entry :=
  [⟨"from_", none, point, false, false, none, none, Props.empty⟩,
   ⟨"to_", none, point, false, false, none, none, Props.empty⟩]

def wayProps : Props := Props.ofList [(orderKey, "from_,to_")]

def wayText : String :=
  "\x7b\"familiar.entries.order\":\"from_,to_\",\"fields\":["
    ++ "\x7b\"name\":\"from_\",\"type\":\x7b\"familiar.entries.order\":\"x\","
    ++ "\"fields\":[\x7b\"name\":\"x\",\"type\":\"int\"\x7d],"
    ++ "\"name\":\"Record_e61f560415f0bde2\",\"namespace\":\"familiar.records\","
    ++ "\"type\":\"record\"\x7d\x7d,"
    ++ "\x7b\"name\":\"to_\",\"type\":\"familiar.records.Record_e61f560415f0bde2\"\x7d],"
    ++ "\"name\":\"\",\"namespace\":\"familiar.records\",\"type\":\"record\"\x7d"

theorem compact_way : (record "" way wayProps).toCanonicalJson.compact = wayText := by
  have document : (record "" way wayProps).toCanonicalJson =
      .obj [(orderKey, .str "from_,to_"),
        ("fields", .arr [
          .obj [("name", .str "from_"), ("type", .obj [(orderKey, .str "x"),
            ("fields", .arr [.obj [("name", .str "x"), ("type", .str "int")]]),
            ("name", .str "Record_e61f560415f0bde2"), ("namespace", .str recordSpace),
            ("type", .str "record")])],
          .obj [("name", .str "to_"),
            ("type", .str "familiar.records.Record_e61f560415f0bde2")]]),
        ("name", .str ""), ("namespace", .str recordSpace), ("type", .str "record")] := by
    rw [way, point, contentName_point]
    rfl
  rw [document]
  simp [Json.compact, Json.compactFields, Json.compactItems, Json.atom, Json.quote]
  decide +kernel

theorem contentName_way : contentName way wayProps = "Record_c567121b3a42eaa0" := by
  have digits : (Text.hexDigits (Sha256.digest (Text.utf8 wayText))).take
      Fingerprint.nameDigits =
        ['c', '5', '6', '7', '1', '2', '1', 'b', '3', 'a', '4', '2', 'e', 'a', 'a', '0'] := by
    decide +kernel
  rw [contentName_of_digits compact_way digits]
  decide +kernel

def ways : Set Schema := {t | t ∈ (record "" way wayProps).nodes}

theorem distinguished_ways : Distinguished ways := by
  have differ : contentName way wayProps ≠ contentName axis pointProps := by
    rw [contentName_way, contentName_point]
    decide
  have either {name entries props} (mem : record name entries props ∈ ways) :
      (entries = way ∧ props = wayProps) ∨ (entries = axis ∧ props = pointProps) := by
    have found : record name entries props = record "" way wayProps ∨
        record name entries props = point := by
      simpa [ways, way, point, axis, nodes, nodesOfEntries] using mem
    rcases found with same | same <;> cases same <;> simp
  intro n es p m fs q left right same
  rcases either left with ⟨rfl, rfl⟩ | ⟨rfl, rfl⟩ <;>
    rcases either right with ⟨rfl, rfl⟩ | ⟨rfl, rfl⟩
  · rfl
  · exact absurd same differ
  · exact absurd same.symm differ
  · rfl

theorem finiteDefaults_ways : ∀ t ∈ ways, t.FiniteDefaults := by
  simp [ways, way, point, axis, FiniteDefaults, nodes, nodesOfEntries, entries]

theorem wellFormed_way : ∀ e ∈ way, e.WellFormed :=
  List.forall_mem_cons.2 ⟨⟨by decide, obtainable_point.wellFormed⟩,
    List.forall_mem_cons.2 ⟨⟨by decide, obtainable_point.wellFormed⟩, by simp⟩⟩

theorem storable_point : point.Storable := by
  rw [point, contentName_point]
  exact ⟨by decide +kernel, by decide +kernel, by simp [axis, nodes, nodesOfEntries, recordName?]⟩

/-- Two records of one name that documents do not tell apart, and a record in which one name comes
twice, for the same record. -/
theorem contentName_stands_for_one_points :
    (Distinguished points ∧ (∀ t ∈ points, t.FiniteDefaults) ∧
        remarked.recordName? = point.recordName? ∧
        (remarked.compiled.reworded shown == point.compiled.reworded shown) = true) ∧
      Distinguished ways ∧ (∀ t ∈ ways, t.FiniteDefaults) ∧
      ∃ b : SchemaBuilder, b.Obtainable ∧ b.entries = way ∧ b.recordName = none ∧
        ∃ s, b.finish id = .ok s ∧ s.ContentNamed := by
  constructor
  · obtain ⟨one, -⟩ := contentName_stands_for_one distinguished_points finiteDefaults_points
    exact ⟨distinguished_points, finiteDefaults_points, recordName?_remarked,
      (one remarked point obtainable_remarked obtainable_point rfl rfl (contentNamed_axis _)
        (contentNamed_axis _) (fun _ mem => mem) recordName?_remarked).1⟩
  · obtain ⟨l, obtainable, given⟩ := SchemaBuilder.exists_obtainable_ofEntries wellFormed_way
      (by decide)
    obtain ⟨-, build⟩ := contentName_stands_for_one distinguished_ways finiteDefaults_ways
    have named : ∀ e ∈ l.entries, e.schema.ContentNamed := by
      simp [given, way, point, contentNamed_axis]
    have clear : ∀ e ∈ l.entries, e.schema.Storable := by
      simp [given, way, storable_point]
    have draft : (SchemaBuilder.ofEntries l).draft id = record "" way wayProps := by
      rw [SchemaBuilder.draft, show (SchemaBuilder.ofEntries l).entries = way from given]
      rfl
    have within : ∀ u ∈ ((SchemaBuilder.ofEntries l).draft id).nodes, u ∈ ways := by
      rw [draft]
      exact fun _ mem => mem
    exact ⟨distinguished_ways, finiteDefaults_ways, .ofEntries l, obtainable, given, rfl,
      (build (.ofEntries l) id obtainable rfl rfl named within).2 clear⟩

def ends : List Entry :=
  [⟨"from_", none, remarked, false, false, none, none, Props.empty⟩,
   ⟨"to_", none, point, false, false, none, none, Props.empty⟩]

theorem hiddenClash_ends :
    HiddenClash (nodesOfEntries ends) (fullName recordSpace (contentName axis pointProps)) := by
  refine ⟨remarked, by simp [ends, nodesOfEntries, self_mem_nodes], point,
    by simp [ends, nodesOfEntries, self_mem_nodes], ?_, rfl, ?_, compiled_remarked_ne⟩
  · rw [fullName?_compiled, recordName?_remarked]
    rfl
  · have name : contentName axis remarkedProps = contentName axis pointProps :=
      contentName_congr without_remark axis
    simp only [remarked, point, compiled, reworded, shown, without_remark, name]
    exact Canonical.eq_self _

theorem wellFormed_ends : ∀ e ∈ ends, e.WellFormed :=
  List.forall_mem_cons.2 ⟨⟨by decide, obtainable_remarked.wellFormed⟩,
    List.forall_mem_cons.2 ⟨⟨by decide, obtainable_point.wellFormed⟩, by simp⟩⟩

/-- Two records with one name that are different, and a record with both that cannot be built. -/
theorem exists_ends_refused :
    remarked.Obtainable ∧ point.Obtainable ∧ remarked.ContentNamed ∧ point.ContentNamed ∧
      Distinguished points ∧ remarked.recordName? = point.recordName? ∧
      (remarked.compiled == point.compiled) = false ∧
      ∃ b : SchemaBuilder, b.Obtainable ∧ b.recordName = none ∧ b.entries = ends ∧
        ∃ full, b.build = .error (.format (.definedTwice full)) := by
  obtain ⟨l, declared, all⟩ := SchemaBuilder.exists_obtainable_ofEntries wellFormed_ends
    (by decide)
  refine ⟨obtainable_remarked, obtainable_point, contentNamed_axis _, contentNamed_axis _,
    distinguished_points, recordName?_remarked, compiled_remarked_ne, .ofEntries l, declared, rfl,
    all, ?_⟩
  have clash := hiddenClash_ends
  rw [← all] at clash
  exact SchemaBuilder.build_ofEntries_of_hiddenClash clash

end Schema
end TypedRecords
