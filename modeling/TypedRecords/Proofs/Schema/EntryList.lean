import TypedRecords.Schema.EntryList
import TypedRecords.Proofs.Identifier
import TypedRecords.Proofs.Result
import TypedRecords.Proofs.Schema.Lookup
import TypedRecords.Proofs.Schema.WellFormed

/-! Lists of entries keep their names apart.
The index of a list tells the place of every name, and no operation lets two entries meet
under one name. -/
namespace TypedRecords

theorem Entry.renamed_name (e : Entry) : e.renamed e.name = e := by
  cases e
  rfl

namespace EntryList

/-- The names are distinct, the index is that of the entries, and the entries are sound. -/
structure WellFormed (l : EntryList) : Prop where
  distinct : l.names.Nodup
  indexed : ∀ name, l.position? name = l.entries.findIdx? fun e => e.name == name
  inner : ∀ e ∈ l.entries, e.WellFormed

theorem getElem?_indexFrom {entries : List Entry} (distinct : (entries.map Entry.name).Nodup)
    (start : Nat) (index : Std.HashMap String Nat) (name : String) :
    (indexFrom start entries index)[name]? =
      ((entries.findIdx? fun e => e.name == name).map (· + start)).or index[name]? := by
  induction entries generalizing start index with
  | nil => simp [indexFrom]
  | cons e rest ih =>
    obtain ⟨fresh, others⟩ := List.nodup_cons.1 (List.map_cons ▸ distinct)
    rw [indexFrom, ih others, List.findIdx?_cons]
    by_cases same : e.name = name
    · have later : (rest.findIdx? fun f => f.name == name) = none := by
        rw [List.findIdx?_eq_none_iff]
        intro f hf
        simp only [beq_eq_false_iff_ne]
        exact fun meet => fresh (List.mem_map.2 ⟨f, hf, meet.trans same.symm⟩)
      simp [later, same]
    · cases rest.findIdx? fun f => f.name == name with
      | none => simp [same, Std.HashMap.getElem?_insert]
      | some i =>
        simp only [beq_iff_eq, same, if_false, Option.map_some, Option.some_or, Option.some.injEq]
        omega

theorem WellFormed.ofEntries {entries : List Entry}
    (distinct : (entries.map Entry.name).Nodup) (inner : ∀ e ∈ entries, e.WellFormed) :
    (ofEntries entries).WellFormed := by
  refine ⟨distinct, fun name => ?_, inner⟩
  change (indexFrom 0 entries ∅)[name]? = entries.findIdx? fun e => e.name == name
  simp [getElem?_indexFrom distinct]

theorem nodup_set {names : List String} (distinct : names.Nodup) {i : Nat}
    (inside : i < names.length) {name : String} (unused : name ∈ names → name = names[i]) :
    (names.set i name).Nodup := by
  have apart {m : Nat} (hm : m < names.length) (other : m ≠ i) : name ≠ names[m] := by
    intro same
    have here := unused (same ▸ List.getElem_mem hm)
    exact other ((List.getElem_inj distinct).1 (same.symm.trans here))
  refine List.pairwise_iff_getElem.2 fun j k hj hk lt => ?_
  rw [List.length_set] at hj hk
  rw [List.getElem_set, List.getElem_set]
  by_cases first : i = j
  · rw [if_pos first, if_neg (by omega)]
    exact apart hk (by omega)
  · rw [if_neg first]
    split
    · exact (apart hj (Ne.symm first)).symm
    · exact List.pairwise_iff_getElem.1 distinct j k hj hk lt

theorem wellFormed_empty : empty.WellFormed :=
  ⟨List.Pairwise.nil, fun name => by simp [position?, empty], by simp [empty]⟩

section

variable {l : EntryList} {name : String} (h : l.WellFormed)
include h

theorem WellFormed.of_position? {i : Nat} (found : l.position? name = some i) :
    ∃ inside : i < l.entries.length, l.entries[i].name = name := by
  rw [h.indexed, List.findIdx?_eq_some_iff_getElem] at found
  obtain ⟨inside, here, -⟩ := found
  exact ⟨inside, by simpa using here⟩

theorem WellFormed.position?_eq_none_iff : l.position? name = none ↔ name ∉ l.names := by
  rw [h.indexed, List.findIdx?_eq_none_iff]
  simp [names]

theorem WellFormed.get?_eq_none_iff : l.get? name = none ↔ name ∉ l.names := by
  rw [← h.position?_eq_none_iff]
  cases found : l.position? name with
  | none => simp [get?, found]
  | some i =>
    obtain ⟨inside, -⟩ := h.of_position? found
    simp [get?, found, inside]

theorem WellFormed.contains_iff : l.contains name = true ↔ name ∈ l.names := by
  have whole : l.contains name = (l.position? name).isSome :=
    Std.HashMap.contains_eq_isSome_getElem?
  rw [whole, Option.isSome_iff_ne_none, Ne, h.position?_eq_none_iff, Decidable.not_not]

theorem WellFormed.of_get? {e : Entry} (found : l.get? name = some e) :
    e ∈ l.entries ∧ e.name = name := by
  obtain ⟨i, at_i, here⟩ := Option.bind_eq_some_iff.1 found
  obtain ⟨inside, named⟩ := h.of_position? at_i
  obtain ⟨-, rfl⟩ := List.getElem?_eq_some_iff.1 here
  exact ⟨List.getElem_mem inside, named⟩

theorem WellFormed.position?_eq_some {i : Nat} {e : Entry} (here : l.entries[i]? = some e) :
    l.position? e.name = some i := by
  obtain ⟨inside, rfl⟩ := List.getElem?_eq_some_iff.1 here
  rw [h.indexed]
  refine List.findIdx?_eq_some_iff_getElem.2 ⟨inside, by simp, fun j earlier same => ?_⟩
  have before := List.getElem?_eq_getElem (Nat.lt_trans earlier inside)
  have place := Schema.place_eq_of_name_eq h.distinct before here (by simpa using same)
  omega

theorem WellFormed.get?_eq_some {i : Nat} {e : Entry} (here : l.entries[i]? = some e) :
    l.get? e.name = some e := by
  rw [get?, h.position?_eq_some here, Option.bind_some, here]

theorem WellFormed.valid_of_mem_names (used : name ∈ l.names) : Identifier.isValid name := by
  obtain ⟨e, mem, rfl⟩ := List.mem_map.1 used
  exact (h.inner e mem).valid

omit h in
theorem names_push (e : Entry) : (l.push e).names = l.names ++ [e.name] := by
  simp [names, EntryList.push]

theorem WellFormed.push {e : Entry} (own : e.WellFormed) (fresh : e.name ∉ l.names) :
    (l.push e).WellFormed := by
  refine ⟨?_, fun name => ?_, ?_⟩
  · have apart : ∀ a ∈ l.names, a ≠ e.name := fun a ha same => fresh (same ▸ ha)
    simpa [names, EntryList.push, List.nodup_append] using
      ⟨h.distinct, fun f hf => apart _ (List.mem_map_of_mem hf)⟩
  · change (l.index.insert e.name l.entries.length)[name]? = _
    rw [Std.HashMap.getElem?_insert]
    have old : l.index[name]? = _ := h.indexed name
    by_cases same : e.name = name
    · have absent : l.index[name]? = none := h.position?_eq_none_iff.2 (same ▸ fresh)
      simp [EntryList.push, List.findIdx?_append, ← old, absent, same]
    · simp [EntryList.push, List.findIdx?_append, ← old, same]
  · intro f hf
    rcases List.mem_append.1 hf with hf | hf
    · exact h.inner f hf
    · rw [List.mem_singleton.1 hf]
      exact own

omit h in
theorem settledName_of_settles {e : Entry} (own : l.settles e e.name = true) :
    l.settledName e = e.name := by
  have first : Identifier.firstFrom (fun k => l.settles e (Identifier.suffixed e.name k))
      l.entries.length 0 = 0 := by
    cases l.entries.length <;> simp [Identifier.firstFrom, Identifier.suffixed, own]
  rw [settledName, first, Identifier.suffixed]

theorem WellFormed.settles_of_not_mem (e : Entry) (free : name ∉ l.names) :
    l.settles e name = true := by
  simp [settles, h.get?_eq_none_iff.2 free]

theorem WellFormed.add_of_not_mem {e : Entry} (fresh : e.name ∉ l.names) :
    l.add e = (e, l.push e) := by
  have settled := settledName_of_settles (h.settles_of_not_mem e fresh)
  simp only [EntryList.add, settled, h.get?_eq_none_iff.2 fresh, e.renamed_name]

omit h in
theorem add_of_sameDeclaration {e stored : Entry} (found : l.get? e.name = some stored)
    (same : stored.sameDeclaration e = true) : l.add e = (stored, l) := by
  have own : l.settles e e.name = true := by simp [settles, found, same]
  simp only [EntryList.add, settledName_of_settles own, found]

/-- The search for a name ends at one that is free or holds the same declaration. -/
theorem WellFormed.settles_settledName (e : Entry) : l.settles e (l.settledName e) = true := by
  obtain ⟨k, small, free⟩ := Identifier.exists_suffixed_not_mem e.name l.names
  have within : k ≤ 0 + l.entries.length := by simpa [names] using small
  let stop := fun k => l.settles e (Identifier.suffixed e.name k)
  have found : stop k = true := h.settles_of_not_mem e free
  exact (Identifier.firstFrom_spec (Nat.zero_le k) within found).1

/-- An entry meets its own declaration, or it comes last under a name that was free. -/
theorem WellFormed.add_cases (e : Entry) :
    (∃ stored ∈ l.entries, stored.sameDeclaration e = true ∧ l.add e = (stored, l)) ∨
      l.settledName e ∉ l.names ∧
        l.add e = (e.renamed (l.settledName e), l.push (e.renamed (l.settledName e))) := by
  cases found : l.get? (l.settledName e) with
  | some stored =>
    have same := h.settles_settledName e
    simp only [settles, found] at same
    exact .inl ⟨stored, (h.of_get? found).1, same, by simp [EntryList.add, found]⟩
  | none => exact .inr ⟨h.get?_eq_none_iff.1 found, by simp [EntryList.add, found]⟩

theorem WellFormed.add {e : Entry} (own : e.WellFormed) :
    (l.add e).1 ∈ (l.add e).2.entries ∧ (l.add e).2.WellFormed := by
  rcases h.add_cases e with ⟨stored, mem, -, added⟩ | ⟨free, added⟩
  · rw [added]
    exact ⟨mem, h⟩
  · rw [added]
    have valid : Identifier.isValid (l.settledName e) := Identifier.isValid_suffixed own.valid _
    exact ⟨by simp [EntryList.push], h.push ⟨valid, own.schema⟩ free⟩

theorem WellFormed.add_entries (e : Entry) :
    (l.add e).2.entries = l.entries ∨
      (l.add e).2.entries = l.entries ++ [(l.add e).1] ∧ (l.add e).1.name ∉ l.names := by
  rcases h.add_cases e with ⟨stored, -, -, added⟩ | ⟨free, added⟩
  · exact .inl (by rw [added])
  · rw [added]
    exact .inr ⟨rfl, free⟩

theorem WellFormed.prefix_add (e : Entry) : l.entries <+: (l.add e).2.entries := by
  rcases h.add_entries e with same | ⟨more, -⟩
  · exact same ▸ List.prefix_refl _
  · exact more ▸ List.prefix_append _ _

theorem WellFormed.of_perm {entries : List Entry} (perm : entries.Perm l.entries) :
    (EntryList.ofEntries entries).WellFormed := by
  refine .ofEntries ?_ fun e he => h.inner e (perm.mem_iff.1 he)
  exact (perm.map Entry.name).nodup_iff.2 h.distinct

theorem WellFormed.remove : (l.remove name).2.WellFormed := by
  cases found : l.position? name with
  | none => simpa [EntryList.remove, found] using h
  | some i =>
    have fewer := List.eraseIdx_sublist l.entries i
    simp only [EntryList.remove, found]
    refine .ofEntries ((fewer.map Entry.name).nodup h.distinct) fun e he => ?_
    exact h.inner e (fewer.mem he)

theorem WellFormed.replace_spec {e : Entry} {l' : EntryList} (run : l.replace name e = .ok l') :
    ∃ i, ∃ inside : i < l.entries.length, l.entries[i].name = name ∧
      (e.name ∈ l.names → e.name = name) ∧ l' = EntryList.ofEntries (l.entries.set i e) := by
  cases found : l.position? name with
  | none => simp [EntryList.replace, found] at run
  | some i =>
    obtain ⟨inside, named⟩ := h.of_position? found
    simp only [EntryList.replace, found] at run
    split at run
    · cases run
    · rename_i unused
      cases run
      simp only [Bool.and_eq_true, bne_iff_ne, not_and, h.contains_iff] at unused
      exact ⟨i, inside, named, fun used => Decidable.byContradiction fun other =>
        unused other used, rfl⟩

theorem WellFormed.replace {e : Entry} {l' : EntryList} (own : e.WellFormed)
    (run : l.replace name e = .ok l') : l'.WellFormed := by
  obtain ⟨i, inside, named, unused, rfl⟩ := h.replace_spec run
  refine .ofEntries ?_ fun f hf => ?_
  · rw [List.map_set]
    refine nodup_set h.distinct (by simpa [names] using inside) fun used => ?_
    simpa [names, named] using unused used
  · rcases List.mem_or_eq_of_mem_set hf with hf | rfl
    · exact h.inner f hf
    · exact own

theorem WellFormed.places {pivot : String} {source target : Nat}
    (run : l.places pivot name = .ok (source, target)) :
    source < l.entries.length ∧ target < l.entries.length := by
  unfold EntryList.places at run
  split at run
  · cases run
  · rename_i i first
    split at run
    · cases run
    · rename_i j second
      cases run
      exact ⟨(h.of_position? first).1, (h.of_position? second).1⟩

end

theorem relocate_perm {entries : List Entry} {source target : Nat}
    (hs : source < entries.length) (ht : target < entries.length) :
    (relocate entries source target).Perm entries := by
  have whole : (entries[source] :: entries.eraseIdx source).Perm entries := by
    have middle : (entries.take source ++ entries[source] :: entries.drop (source + 1)).Perm
        (entries[source] :: (entries.take source ++ entries.drop (source + 1))) :=
      List.perm_middle
    rw [List.getElem_cons_drop, List.take_append_drop] at middle
    rw [List.eraseIdx_eq_take_drop_succ]
    exact middle.symm
  rw [relocate, List.getElem?_eq_getElem hs]
  refine (List.perm_insertIdx _ _ ?_).trans whole
  rw [List.length_eraseIdx_of_lt hs]
  omega

theorem exchange_perm (entries : List Entry) (i j : Nat) :
    (exchange entries i j).Perm entries := by
  unfold exchange
  split
  · rename_i a b first second
    obtain ⟨hi, rfl⟩ := List.getElem?_eq_some_iff.1 first
    obtain ⟨hj, rfl⟩ := List.getElem?_eq_some_iff.1 second
    exact List.set_set_perm hi hj
  · exact .refl _

section

variable {l l' : EntryList} {pivot name : String} (h : l.WellFormed)
include h

theorem WellFormed.moveBefore (run : l.moveBefore pivot name = .ok l') : l'.WellFormed := by
  obtain ⟨⟨source, target⟩, at_, run⟩ := Result.bind_eq_ok.1 run
  obtain ⟨hs, ht⟩ := h.places at_
  simp only at run
  split at run
  · cases run
    exact h
  · cases run
    exact h.of_perm (relocate_perm hs (by split <;> omega))

theorem WellFormed.moveAfter (run : l.moveAfter pivot name = .ok l') : l'.WellFormed := by
  obtain ⟨⟨source, target⟩, at_, run⟩ := Result.bind_eq_ok.1 run
  obtain ⟨hs, ht⟩ := h.places at_
  simp only at run
  split at run
  · cases run
    exact h
  · cases run
    exact h.of_perm (relocate_perm hs (by split <;> omega))

theorem WellFormed.swap {first second : String} (run : l.swap first second = .ok l') :
    l'.WellFormed := by
  obtain ⟨⟨i, j⟩, -, run⟩ := Result.bind_eq_ok.1 run
  cases run
  exact h.of_perm (exchange_perm _ i j)

end

end EntryList
end TypedRecords
