import TypedRecords.Proofs.Record.Unbound

/-! The last write wins.
Where all labels are identifiers, every label is the name of its entry. A label that is written
again with another type takes its name from the older entry, which goes on under the first
numbered name that is free and keeps its place and its value. So a record reads under every
label what was written to it last, also where a label looks like a numbered name. -/
namespace TypedRecords.RecordBuilder

open Result

/-- What a write of a value of type `s` to the name `x` does to entries and values. -/
inductive Rewrites (x : String) (s : Schema) (v : Value) (l : EntryList) (written : Written)
    (l' : EntryList) (written' : Written) : Prop
  | fresh (free : x ∉ l.names) (entries : l'.entries = l.entries ++ [labelEntry x s])
      (values : ∀ y, Assoc.find? y written' = if x = y then some v else Assoc.find? y written)
  | again {i : Nat} {old : Entry} (here : l.entries[i]? = some old) (named : old.name = x)
      (same : old.sameDeclaration (labelEntry x s) = true) (entries : l'.entries = l.entries)
      (values : ∀ y, Assoc.find? y written' = if x = y then some v else Assoc.find? y written)
  /-- Any other declaration keeps its place and takes its value to the first free name. -/
  | displaced {i n : Nat} {old : Entry} (here : l.entries[i]? = some old) (named : old.name = x)
      (differs : old.sameDeclaration (labelEntry x s) = false) (number : LeastFree l.names x n)
      (entries : l'.entries =
        l.entries.set i (old.renamed (Identifier.suffixed x (n + 1))) ++ [labelEntry x s])
      (values : ∀ y, Assoc.find? y written' =
        if x = y then some v
        else if Identifier.suffixed x (n + 1) = y then Assoc.find? x written
        else Assoc.find? y written)

theorem labelEntry_name {x : String} (valid : Identifier.isValid x) (s : Schema) :
    (labelEntry x s).name = x :=
  Identifier.sanitize_eq_self valid

theorem labelEntry_rawName {x : String} (valid : Identifier.isValid x) (s : Schema) :
    (labelEntry x s).rawName = none := by
  simp [labelEntry, Identifier.sanitize_eq_self valid]

section

variable {x y : String} {s : Schema} {v : Value} {l l' : EntryList} {written written' : Written}
  (h : Rewrites x s v l written l' written')
include h

theorem Rewrites.holds (valid : Identifier.isValid x) :
    (∃ e ∈ l'.entries, e.name = x ∧ (e.schema == s) = true) ∧
      Assoc.find? x written' = some v := by
  have name := labelEntry_name valid s
  have own : ((labelEntry x s).schema == s) = true := Schema.eq_self s
  cases h with
  | fresh free entries values =>
    exact ⟨⟨labelEntry x s, by simp [entries], name, own⟩, by simp [values]⟩
  | @again i old here named same entries values =>
    simp only [Entry.sameDeclaration, Bool.and_eq_true] at same
    exact ⟨⟨old, entries ▸ List.mem_of_getElem? here, named, same.2⟩, by simp [values]⟩
  | displaced here named differs number entries values =>
    exact ⟨⟨labelEntry x s, by simp [entries], name, own⟩, by simp [values]⟩

theorem Rewrites.find?_of_ne (other : y ≠ x) (used : y ∈ l.names) :
    Assoc.find? y written' = Assoc.find? y written := by
  cases h with
  | fresh free entries values => rw [values, if_neg other.symm]
  | again here named same entries values => rw [values, if_neg other.symm]
  | displaced here named differs number entries values =>
    have apart : Identifier.suffixed x _ ≠ y := fun same => number.free (same ▸ used)
    rw [values, if_neg other.symm, if_neg apart]

theorem Rewrites.forall_entries {p : Entry → Prop} (renamed : ∀ e name, p e → p (e.renamed name))
    (own : p (labelEntry x s)) (all : ∀ e ∈ l.entries, p e) : ∀ e ∈ l'.entries, p e := by
  intro e he
  cases h with
  | fresh free entries values =>
    rw [entries] at he
    rcases List.mem_append.1 he with old | new
    · exact all e old
    · exact List.mem_singleton.1 new ▸ own
  | again here named same entries values => exact all e (entries ▸ he)
  | displaced here named differs number entries values =>
    rw [entries] at he
    rcases List.mem_append.1 he with old | new
    · rcases List.mem_or_eq_of_mem_set old with old | rfl
      · exact all e old
      · exact renamed _ _ (all _ (List.mem_of_getElem? here))
    · exact List.mem_singleton.1 new ▸ own

end

/-- A balanced list whose entries are all known by their names alone. -/
structure ByName (l : EntryList) (written : Written) : Prop extends Balanced l written where
  plain : ∀ e ∈ l.entries, e.rawName = none

section

variable {x : String} {v : Value} {l : EntryList} {written : Written} {b : RecordBuilder}
  (h : ByName l written) (valid : Identifier.isValid x)
include h valid

theorem ByName.rewrites (run : RecordBuilder.write ⟨.unbound l, written⟩ (.label x) v = .ok b) :
    ∃ s l' written', inferSchema v = .ok s ∧ b = ⟨.unbound l', written'⟩ ∧
      Rewrites x s v l written l' written' := by
  obtain ⟨⟨stored, l', written₁⟩, declared, run⟩ := bind_eq_ok.1 run
  obtain ⟨written', wrote, same⟩ := bind_eq_ok.1 run
  obtain ⟨-, rfl⟩ := Written.write_eq_ok_iff.1 wrote
  cases same
  obtain ⟨s, inferred, -⟩ := bind_eq_ok.1 declared
  refine ⟨s, l', _, inferred, rfl, ?_⟩
  have name := labelEntry_name valid s
  have raw := labelEntry_rawName valid s
  have declared : declareLabel l written x v = .ok (stored, l', written₁) := declared
  cases found : l.get? x with
  | none =>
    have free : x ∉ l.names := h.list.get?_eq_none_iff.1 found
    rw [declareLabel_of_stays inferred fun old known => ?_,
      h.list.add_of_not_mem (name.symm ▸ free)] at declared
    · cases declared
      exact .fresh free rfl fun y => by rw [name, Assoc.find?_insert]
    · rw [Identifier.sanitize_eq_self valid, found] at known
      cases known
  | some old =>
    obtain ⟨mem, named⟩ := h.list.of_get? found
    obtain ⟨i, here⟩ := List.mem_iff_getElem?.1 mem
    have moves : displaces (labelEntry x s) old = !old.sameDeclaration (labelEntry x s) := by
      simp [displaces, h.plain old mem, raw]
    cases same : old.sameDeclaration (labelEntry x s) with
    | true =>
      rw [declareLabel_of_stays inferred fun other known => ?_,
        EntryList.add_of_sameDeclaration (name.symm ▸ found) same] at declared
      · cases declared
        exact .again here named same rfl fun y => by rw [named, Assoc.find?_insert]
      · rw [Identifier.sanitize_eq_self valid, found] at known
        cases known
        rw [moves, same]
        rfl
    | false =>
      obtain ⟨n, u, number, held, -, -, moved⟩ := h.declareLabel_of_displaces inferred here
        (named.trans (Identifier.sanitize_eq_self valid).symm) (by rw [moves, same]; rfl)
      cases moved.symm.trans declared
      refine .displaced here named same (named ▸ number) (by rw [← named]; rfl) fun y => ?_
      rw [named] at held
      simp only [name, numberedValue, Assoc.find?_insert, Assoc.find?_erase, named, held]
      by_cases own : x = y <;> simp only [own, if_true, if_false]

end

/-! Runs of writes to identifiers. -/

def Write.ByIdentifier (w : Write) : Prop := ∃ x, w.key = .label x ∧ Identifier.isValid x

theorem ByName.run {l : EntryList} {written : Written} {w : Write} {b : RecordBuilder}
    (h : ByName l written) (label : w.ByIdentifier) (given : w.Obtainable)
    (run : w.run ⟨.unbound l, written⟩ = .ok b) :
    ∃ x v s l' written', w.key = .label x ∧ Identifier.isValid x ∧ w.value? = some v ∧
      inferSchema v = .ok s ∧ b = ⟨.unbound l', written'⟩ ∧ ByName l' written' ∧
      Rewrites x s v l written l' written' := by
  obtain ⟨x, key, valid⟩ := label
  obtain ⟨v, stored, wrote⟩ := Write.run_eq_ok_iff.1 run
  rw [key] at wrote
  obtain ⟨s, l', written', inferred, rfl, rewrites⟩ := h.rewrites valid wrote
  obtain ⟨_, _, same, balanced⟩ :=
    h.toBalanced.write (by simp) (given.value v stored).wellFormed wrote
  cases same
  have plain := rewrites.forall_entries (p := fun e => e.rawName = none) (fun _ _ raw => raw)
    (labelEntry_rawName valid s) h.plain
  exact ⟨x, v, s, l', written', key, valid, stored, inferred, rfl, ⟨balanced, plain⟩, rewrites⟩

def HasNames (b : RecordBuilder) : Prop :=
  ∃ l written, b = ⟨.unbound l, written⟩ ∧ ByName l written

def Holds (x : String) (v : Value) (b : RecordBuilder) : Prop :=
  ∃ l written, b = ⟨.unbound l, written⟩ ∧ ByName l written ∧ Assoc.find? x written = some v

def IsFlat (b : RecordBuilder) : Prop :=
  ∃ l written, b = ⟨.unbound l, written⟩ ∧ ByName l written ∧
    ∀ e ∈ l.entries, e.schema.Flat

section

variable {ws : List Write} {b b' : RecordBuilder} (labels : ∀ w ∈ ws, w.ByIdentifier)
  (given : ∀ w ∈ ws, w.Obtainable) (run : b.writeAll ws = .ok b')
include labels given run

theorem HasNames.writeAll (h : b.HasNames) : b'.HasNames := by
  refine foldlM_keeps (fun c c' w hw names step => ?_) h run
  obtain ⟨l, written, rfl, byName⟩ := names
  obtain ⟨x, v, s, l', written', -, -, -, -, same, byName', -⟩ :=
    byName.run (labels w hw) (given w hw) step
  exact ⟨l', written', same, byName'⟩

theorem Holds.writeAll {x : String} {v : Value} (h : Holds x v b)
    (others : ∀ w ∈ ws, w.key ≠ .label x) : Holds x v b' := by
  refine foldlM_keeps (fun c c' w hw holds step => ?_) h run
  obtain ⟨l, written, rfl, byName, found⟩ := holds
  obtain ⟨y, u, s, l', written', key, -, -, -, same, byName', rewrites⟩ :=
    byName.run (labels w hw) (given w hw) step
  have apart : x ≠ y := fun same => others w hw (same ▸ key)
  have used : x ∈ l.names := byName.keys _ (Assoc.mem_of_find? found)
  exact ⟨l', written', same, byName', (rewrites.find?_of_ne apart used).trans found⟩

theorem IsFlat.writeAll (h : b.IsFlat)
    (flat : ∀ w ∈ ws, ∀ v s, w.value? = some v → inferSchema v = .ok s → s.Flat) :
    b'.IsFlat := by
  refine foldlM_keeps (fun c c' w hw known step => ?_) h run
  obtain ⟨l, written, rfl, byName, all⟩ := known
  obtain ⟨x, v, s, l', written', -, -, stored, inferred, same, byName', rewrites⟩ :=
    byName.run (labels w hw) (given w hw) step
  have own : (labelEntry x s).schema.Flat := flat w hw v s stored inferred
  exact ⟨l', written', same, byName', rewrites.forall_entries (fun _ _ flat => flat) own all⟩

end

theorem Holds.get {b : RecordBuilder} {x : String} {v : Value} {r : Record} (h : Holds x v b)
    (built : b.build = .ok r) : r.get x = .ok v := by
  obtain ⟨l, written, rfl, byName, found⟩ := h
  obtain ⟨s, known, -⟩ := bind_eq_ok.1 built
  obtain ⟨r', built', rfl, same, values⟩ := byName.build_eq_ok known
  cases built'.symm.trans built
  have used : x ∈ l.names := byName.keys _ (Assoc.mem_of_find? found)
  obtain ⟨e, mem, rfl⟩ := List.mem_map.1 used
  obtain ⟨i, here⟩ := List.mem_iff_getElem?.1 mem
  have index : r.schema.entryIndex? e.name = some i :=
    Schema.entryIndex?_of_name (same ▸ byName.list.distinct) (same ▸ here)
  have value : r.values[i]? = some v := by
    have place := congrArg (·[i]?) values
    simpa [here, found] using place
  simp [Record.get, index, value]

theorem IsFlat.exists_build {b : RecordBuilder} (h : b.IsFlat) : ∃ r, b.build = .ok r := by
  obtain ⟨l, written, rfl, byName, flat⟩ := h
  obtain ⟨s, known⟩ := SchemaBuilder.exists_build_of_flat flat
  obtain ⟨r, built, -⟩ := byName.build_eq_ok known
  exact ⟨r, built⟩

theorem byName_empty : ByName EntryList.empty [] :=
  ⟨balanced_empty, by simp [EntryList.empty]⟩

/-- In a run of writes to identifiers, every write rewrites its name, and what is written to a
name last is what the record reads under it. -/
theorem last_write_wins {before after : List Write} {w : Write} {x : String} {b : RecordBuilder}
    (labels : ∀ w' ∈ before ++ w :: after, w'.ByIdentifier)
    (given : ∀ w' ∈ before ++ w :: after, w'.Obtainable) (here : w.key = .label x)
    (run : unbound.writeAll (before ++ w :: after) = .ok b) :
    ∃ l₁ written₁ l₂ written₂ s v,
      unbound.writeAll before = .ok ⟨.unbound l₁, written₁⟩ ∧
      w.run ⟨.unbound l₁, written₁⟩ = .ok ⟨.unbound l₂, written₂⟩ ∧
      w.value? = some v ∧ inferSchema v = .ok s ∧
      Rewrites x s v l₁ written₁ l₂ written₂ ∧
      (∃ e ∈ l₂.entries, e.name = x ∧ (e.schema == s) = true) ∧
      Assoc.find? x written₂ = some v ∧
      ((∀ w' ∈ after, w'.key ≠ .label x) → ∀ r, b.build = .ok r → r.get x = .ok v) := by
  rw [writeAll, List.foldlM_append] at run
  obtain ⟨b₁, first, later⟩ := bind_eq_ok.1 run
  obtain ⟨b₂, middle, last⟩ := bind_eq_ok.1 later
  obtain ⟨labelsBefore, label, labelsAfter⟩ := by
    simpa only [List.forall_mem_append, List.forall_mem_cons] using labels
  obtain ⟨givenBefore, own, givenAfter⟩ := by
    simpa only [List.forall_mem_append, List.forall_mem_cons] using given
  -- The run up to the write, the write, and the rest of the run.
  obtain ⟨l₁, written₁, rfl, byName⟩ :=
    HasNames.writeAll labelsBefore givenBefore first ⟨_, _, rfl, byName_empty⟩
  obtain ⟨y, v, s, l₂, written₂, key, valid, stored, inferred, rfl, byName', rewrites⟩ :=
    byName.run label own middle
  cases here.symm.trans key
  obtain ⟨entry, held⟩ := rewrites.holds valid
  refine ⟨l₁, written₁, l₂, written₂, s, v, first, middle, stored, inferred, rewrites, entry, held,
    fun others r built => ?_⟩
  have holds : Holds x v ⟨.unbound l₂, written₂⟩ := ⟨l₂, written₂, rfl, byName', held⟩
  exact (holds.writeAll labelsAfter givenAfter last others).get built

/-! A name that is written as a text, then as a number, beside a label that looks like the name
to which the text would move. -/

namespace Write

def texts : List Write :=
  [.value (.label "field") (.string "a"), .value (.label "field_1") (.string "b")]

def number : Write := .value (.label "field") (.int 1)

theorem last_write_wins_number : ∃ b r, unbound.writeAll (texts ++ number :: []) = .ok b ∧
    b.build = .ok r ∧ r.get "field" = .ok (.int 1) := by
  have labels : ∀ w ∈ texts ++ number :: [], w.ByIdentifier := by
    have label (x : String) (v : Value) (valid : Identifier.isValid x) :
        (value (.label x) v).ByIdentifier := ⟨x, rfl, valid⟩
    have first := label "field" (.string "a") (by decide)
    have second := label "field_1" (.string "b") (by decide)
    have last := label "field" (.int 1) (by decide)
    simp [texts, number, first, second, last]
  have given : ∀ w ∈ texts ++ number :: [], w.Obtainable := by
    simp [texts, number, obtainable_value, Value.Obtainable.string, Value.Obtainable.int]
  have accepted : ∀ w ∈ texts ++ number :: [], w.Accepted := by
    have text (x t : String) : (value (.label x) (.string t)).Accepted :=
      ⟨.string t, labelEntry x (.scalar .string), rfl, rfl, rfl⟩
    have last : number.Accepted := ⟨.int 1, labelEntry "field" (.scalar .int), rfl, rfl, rfl⟩
    simp [texts, text, last]
  obtain ⟨b, run⟩ := (inBalance_unbound.exists_writeAll_iff given).2 accepted
  have flat : b.IsFlat := by
    have start : unbound.IsFlat := ⟨_, _, rfl, byName_empty, by simp [EntryList.empty]⟩
    refine start.writeAll labels given run fun w hw v s stored inferred => ?_
    simp only [texts, number, List.cons_append, List.nil_append, List.mem_cons, List.not_mem_nil,
      or_false] at hw
    obtain rfl | rfl | rfl := hw <;> cases stored <;> cases inferred <;> trivial
  obtain ⟨r, built⟩ := flat.exists_build
  obtain ⟨l₁, written₁, l₂, written₂, s, v, -, -, stored, -, -, -, -, reads⟩ :=
    last_write_wins labels given rfl run
  cases stored
  exact ⟨b, r, run, built, reads (by simp) r built⟩

end Write

end TypedRecords.RecordBuilder
