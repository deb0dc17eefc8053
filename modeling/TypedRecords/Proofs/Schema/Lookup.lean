import TypedRecords.Schema.Basic

/-! Finding entries.
A look-up ends at an entry of that name, or of that label where no entry has the name, or of the
name that the label would get where no entry has the label either. -/
namespace TypedRecords.Schema

variable {s : Schema} {name : String} {i : Nat} {e : Entry}

/-- What a look-up found, and what it did not find before. -/
theorem of_entryIndex? (found : s.entryIndex? name = some i) :
    ∃ e, s.entries[i]? = some e ∧ (e.name = name ∨ name ∉ s.entries.map Entry.name ∧
      (e.rawName = some name ∨
        (∀ f ∈ s.entries, f.rawName ≠ some name) ∧ e.name = Identifier.sanitize name)) := by
  have named {n : String} {j : Nat} (here : (s.entries.findIdx? fun e => e.name == n) = some j) :
      ∃ e, s.entries[j]? = some e ∧ e.name = n := by
    obtain ⟨inside, same, -⟩ := List.findIdx?_eq_some_iff_getElem.1 here
    exact ⟨_, List.getElem?_eq_getElem inside, by simpa using same⟩
  unfold entryIndex? at found
  cases first : s.entries.findIdx? fun e => e.name == name with
  | some j =>
    simp only [first, Option.some_or, Option.some.injEq] at found
    obtain ⟨e, here, same⟩ := named (found ▸ first)
    exact ⟨e, here, .inl same⟩
  | none =>
    have unused : name ∉ s.entries.map Entry.name := by
      simpa using List.findIdx?_eq_none_iff.1 first
    cases second : s.entries.findIdx? fun e => e.rawName == some name with
    | some j =>
      simp only [first, second, Option.none_or, Option.some_or, Option.some.injEq] at found
      obtain ⟨inside, same, -⟩ := List.findIdx?_eq_some_iff_getElem.1 (found ▸ second)
      exact ⟨_, List.getElem?_eq_getElem inside, .inr ⟨unused, .inl (by simpa using same)⟩⟩
    | none =>
      simp only [first, second, Option.none_or] at found
      obtain ⟨e, here, same⟩ := named found
      have unlabelled : ∀ f ∈ s.entries, f.rawName ≠ some name := by
        simpa using List.findIdx?_eq_none_iff.1 second
      exact ⟨e, here, .inr ⟨unused, .inr ⟨unlabelled, same⟩⟩⟩

theorem entry?_of_entryIndex? (found : s.entryIndex? name = some i)
    (here : s.entries[i]? = some e) : s.entry? name = some e := by
  unfold entry?
  rw [found, Option.bind_some, here]

theorem place_eq_of_name_eq {entries : List Entry} (distinct : (entries.map Entry.name).Nodup)
    {i j : Nat} {e f : Entry} (first : entries[i]? = some e) (second : entries[j]? = some f)
    (same : e.name = f.name) : i = j := by
  obtain ⟨inside, -⟩ := List.getElem?_eq_some_iff.1 first
  refine (List.getElem?_inj (by simpa using inside) distinct).1 ?_
  simp [first, second, same]

theorem entryIndex?_of_name (distinct : (s.entries.map Entry.name).Nodup)
    (here : s.entries[i]? = some e) : s.entryIndex? e.name = some i := by
  obtain ⟨inside, rfl⟩ := List.getElem?_eq_some_iff.1 here
  have first : (s.entries.findIdx? fun f => f.name == s.entries[i].name) = some i := by
    refine List.findIdx?_eq_some_iff_getElem.2 ⟨inside, by simp, fun j earlier same => ?_⟩
    have before := List.getElem?_eq_getElem (Nat.lt_trans earlier inside)
    have place := place_eq_of_name_eq distinct before here (by simpa using same)
    omega
  simp [entryIndex?, first]

theorem entryIndex?_of_rawName (unused : name ∉ s.entries.map Entry.name)
    (here : s.entries[i]? = some e) (labelled : e.rawName = some name)
    (first : ∀ f ∈ s.entries.take i, f.rawName ≠ some name) : s.entryIndex? name = some i := by
  obtain ⟨inside, rfl⟩ := List.getElem?_eq_some_iff.1 here
  have unnamed : (s.entries.findIdx? fun f => f.name == name) = none := by
    rw [List.findIdx?_eq_none_iff]
    simpa using unused
  have found : (s.entries.findIdx? fun f => f.rawName == some name) = some i := by
    refine List.findIdx?_eq_some_iff_getElem.2
      ⟨inside, by simp [labelled], fun j earlier same => ?_⟩
    have before : s.entries[j] ∈ s.entries.take i :=
      List.mem_take_iff_getElem.2 ⟨j, by omega, rfl⟩
    exact first _ before (by simpa using same)
  simp [entryIndex?, unnamed, found]

end TypedRecords.Schema
