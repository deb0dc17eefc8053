import Mathlib.Logic.Equiv.Basic
import TypedRecords.Proofs.Schema.Adding

/-! Entries at the places that are asked for.
A move takes one entry out and puts it back beside its pivot, whose place without that entry is
one less if the entry stood before it. The rest of the list is what it was without the entry, so
neither the ends of a list nor the side from which an entry comes are special. -/
namespace TypedRecords.EntryList

inductive Side where
  | before
  | after

def Side.move (l : EntryList) (pivot name : String) : Side → Result EntryList
  | .before => l.moveBefore pivot name
  | .after => l.moveAfter pivot name

def Side.declare (b : SchemaBuilder) (pivot : String) (e : Entry) : Side → Result SchemaBuilder
  | .before => b.withEntryBefore pivot e
  | .after => b.withEntryAfter pivot e

def Adjacent (entries : List Entry) (first second : String) : Prop :=
  ∃ xs a b ys, entries = xs ++ a :: b :: ys ∧ a.name = first ∧ b.name = second

def Side.Beside (entries : List Entry) (pivot name : String) : Side → Prop
  | .before => Adjacent entries name pivot
  | .after => Adjacent entries pivot name

def without (name : String) (entries : List Entry) : List Entry :=
  entries.filter fun e => e.name != name

theorem without_append_cons {xs ys : List Entry} {e : Entry}
    (distinct : ((xs ++ e :: ys).map Entry.name).Nodup) :
    without e.name (xs ++ e :: ys) = xs ++ ys := by
  rw [List.map_append, List.map_cons, List.perm_middle.nodup_iff] at distinct
  have apart : ∀ f ∈ xs ++ ys, (f.name != e.name) = true := by
    intro f hf
    rw [bne_iff_ne]
    intro meet
    refine (List.nodup_cons.1 distinct).1 (meet ▸ ?_)
    rw [← List.map_append]
    exact List.mem_map_of_mem hf
  have rest : (xs ++ ys).filter (fun f => f.name != e.name) = xs ++ ys :=
    List.filter_eq_self.2 apart
  simpa [without] using rest

theorem insertIdx_append (xs ys : List Entry) (e : Entry) :
    (xs ++ ys).insertIdx xs.length e = xs ++ e :: ys := by
  induction xs with
  | nil => simp
  | cons x xs ih => simp [ih]

theorem without_eq_eraseIdx {entries : List Entry} (distinct : (entries.map Entry.name).Nodup)
    {i : Nat} {e : Entry} (here : entries[i]? = some e) :
    without e.name entries = entries.eraseIdx i := by
  obtain ⟨inside, rfl⟩ := List.getElem?_eq_some_iff.1 here
  have split : entries.take i ++ entries[i] :: entries.drop (i + 1) = entries := by
    rw [List.getElem_cons_drop, List.take_append_drop]
  have taken := without_append_cons (split.symm ▸ distinct)
  rw [split] at taken
  rw [taken, List.eraseIdx_eq_take_drop_succ]

/-- Where an entry goes when it is put before another, and where when it is put after it. -/
theorem relocate_spec {entries : List Entry} (distinct : (entries.map Entry.name).Nodup)
    {i j : Nat} {e p : Entry} (here : entries[i]? = some e) (there : entries[j]? = some p)
    (apart : i ≠ j) :
    ∃ xs ys, without e.name entries = xs ++ p :: ys ∧
      relocate entries i (if i < j then j - 1 else j) = xs ++ e :: p :: ys ∧
      relocate entries i (if i < j then j else j + 1) = xs ++ p :: e :: ys := by
  let others := entries.eraseIdx i
  -- Without the entry at `i` the pivot stands at `k`.
  let k := if i < j then j - 1 else j
  have at_ : others[k]? = some p := by
    rw [List.getElem?_eraseIdx]
    by_cases less : i < j
    · have next : j - 1 + 1 = j := by omega
      rw [show k = j - 1 from if_pos less, if_neg (by omega), next, there]
    · rw [show k = j from if_neg less, if_pos (by omega), there]
  obtain ⟨inside, rfl⟩ := List.getElem?_eq_some_iff.1 at_
  let xs := others.take k
  let ys := others.drop (k + 1)
  have split : others = xs ++ others[k] :: ys := by
    rw [List.getElem_cons_drop, List.take_append_drop]
  have reached : xs.length = k := List.length_take_of_le (Nat.le_of_lt inside)
  have after : (if i < j then j else j + 1) = k + 1 := by
    by_cases less : i < j
    · rw [if_pos less, show k = j - 1 from if_pos less]
      omega
    · rw [if_neg less, show k = j from if_neg less]
  refine ⟨xs, ys, (without_eq_eraseIdx distinct here).trans split, ?_, ?_⟩
  · calc relocate entries i k
      _ = (xs ++ others[k] :: ys).insertIdx xs.length e := by
        rw [relocate, here, ← split, reached]
      _ = xs ++ e :: others[k] :: ys := insertIdx_append xs _ e
  · rw [after]
    calc relocate entries i (k + 1)
      _ = ((xs ++ [others[k]]) ++ ys).insertIdx (xs ++ [others[k]]).length e := by
        rw [relocate, here, List.length_append, reached, List.append_assoc, List.singleton_append,
          ← split]
        rfl
      _ = (xs ++ [others[k]]) ++ e :: ys := insertIdx_append _ _ e
      _ = xs ++ others[k] :: e :: ys := by simp

/-- One entry went to a side of the pivot, and no other entry moved. -/
structure Moved (l l' : EntryList) (side : Side) (pivot name : String) : Prop where
  beside : side.Beside l'.entries pivot name
  others : without name l'.entries = without name l.entries
  perm : l'.entries.Perm l.entries

/-- The same entries at the same places. The index may have been made anew. -/
structure Same (l l' : EntryList) : Prop where
  entries : l'.entries = l.entries
  position : ∀ name, l'.position? name = l.position? name

def Exchanged (l l' : EntryList) (i j : Nat) : Prop :=
  ∀ k, l'.entries[k]? = l.entries[Equiv.swap i j k]?

theorem getElem?_exchange {entries : List Entry} {i j : Nat} (hi : i < entries.length)
    (hj : j < entries.length) (k : Nat) :
    (exchange entries i j)[k]? = entries[Equiv.swap i j k]? := by
  rw [exchange, List.getElem?_eq_getElem hi, List.getElem?_eq_getElem hj, Equiv.swap_apply_def]
  simp only [List.getElem?_set, List.length_set]
  by_cases second : k = j
  · subst second
    by_cases first : k = i
    · simp [← first, hj]
    · simp [first, hi, hj]
  · by_cases first : k = i
    · simp [first, Ne.symm (first ▸ second), hj, hi]
    · simp [first, second, Ne.symm first, Ne.symm second]

theorem WellFormed.same {l l' : EntryList} (h : l.WellFormed) (h' : l'.WellFormed)
    (entries : l'.entries = l.entries) : l.Same l' :=
  ⟨entries, fun name => by rw [h'.indexed, h.indexed, entries]⟩

theorem without_of_entries {l l' : EntryList} (h' : l'.WellFormed) {xs ys : List Entry} {e : Entry}
    (rest : without e.name l.entries = xs ++ ys) (entries : l'.entries = xs ++ e :: ys) :
    without e.name l'.entries = without e.name l.entries := by
  have distinct : ((xs ++ e :: ys).map Entry.name).Nodup := entries ▸ h'.distinct
  rw [entries, without_append_cons distinct, rest]

section

variable {l : EntryList} {pivot name : String} (h : l.WellFormed) (there : pivot ∈ l.names)
include h there

theorem WellFormed.exists_place :
    ∃ i e, l.entries[i]? = some e ∧ e.name = pivot ∧ l.position? pivot = some i := by
  obtain ⟨e, mem, rfl⟩ := List.mem_map.1 there
  obtain ⟨i, here⟩ := List.mem_iff_getElem?.1 mem
  exact ⟨i, e, here, rfl, h.position?_eq_some here⟩

theorem WellFormed.move_self (side : Side) : side.move l pivot pivot = .ok l := by
  obtain ⟨i, -, -, -, at_⟩ := h.exists_place there
  cases side <;> simp [Side.move, EntryList.moveBefore, EntryList.moveAfter, EntryList.places, at_]

variable (here : name ∈ l.names)
include here

theorem WellFormed.exists_places (apart : name ≠ pivot) :
    ∃ i j e p, l.entries[i]? = some e ∧ e.name = name ∧ l.entries[j]? = some p ∧
      p.name = pivot ∧ l.places pivot name = .ok (i, j) ∧ i ≠ j := by
  obtain ⟨i, e, at_i, rfl, first⟩ := h.exists_place here
  obtain ⟨j, p, at_j, rfl, second⟩ := h.exists_place there
  refine ⟨i, j, e, p, at_i, rfl, at_j, rfl, by simp [EntryList.places, first, second], ?_⟩
  rintro rfl
  exact apart (congrArg Entry.name (Option.some.inj (at_i.symm.trans at_j)))

theorem WellFormed.exists_moved (side : Side) (apart : name ≠ pivot) :
    ∃ l', side.move l pivot name = .ok l' ∧ l.Moved l' side pivot name := by
  obtain ⟨i, j, e, p, at_i, rfl, at_j, rfl, found, differ⟩ := h.exists_places there here apart
  obtain ⟨xs, ys, rest, before, after⟩ := relocate_spec h.distinct at_i at_j differ
  obtain ⟨first, second⟩ := h.places found
  cases side with
  | before =>
    have run : l.moveBefore p.name e.name =
        .ok (EntryList.ofEntries (relocate l.entries i (if i < j then j - 1 else j))) := by
      simp [EntryList.moveBefore, found, differ]
    exact ⟨_, run, ⟨xs, e, p, ys, before, rfl, rfl⟩,
      without_of_entries (h.moveBefore run) rest before,
      relocate_perm first (by split <;> omega)⟩
  | after =>
    have run : l.moveAfter p.name e.name =
        .ok (EntryList.ofEntries (relocate l.entries i (if i < j then j else j + 1))) := by
      simp [EntryList.moveAfter, found, differ]
    have split : without e.name l.entries = (xs ++ [p]) ++ ys := by simp [rest]
    exact ⟨_, run, ⟨xs, p, e, ys, after, rfl, rfl⟩,
      without_of_entries (h.moveAfter run) split (after.trans (by simp)),
      relocate_perm first (by split <;> omega)⟩

end

theorem WellFormed.exists_exchanged {l : EntryList} {first second : String} (h : l.WellFormed)
    (one : first ∈ l.names) (two : second ∈ l.names) :
    ∃ i j l', l.position? first = some i ∧ l.position? second = some j ∧
      l.swap first second = .ok l' ∧ l'.WellFormed ∧ l.Exchanged l' i j ∧
      l'.position? first = some j ∧ l'.position? second = some i := by
  obtain ⟨i, e, at_i, rfl, found⟩ := h.exists_place one
  obtain ⟨j, p, at_j, rfl, there⟩ := h.exists_place two
  obtain ⟨hi, -⟩ := List.getElem?_eq_some_iff.1 at_i
  obtain ⟨hj, -⟩ := List.getElem?_eq_some_iff.1 at_j
  have run : l.swap e.name p.name = .ok (EntryList.ofEntries (exchange l.entries j i)) := by
    simp [EntryList.swap, EntryList.places, found, there]
  have moved : l.Exchanged (EntryList.ofEntries (exchange l.entries j i)) i j := by
    intro k
    rw [Equiv.swap_comm]
    exact getElem?_exchange hj hi k
  have sound := h.swap run
  refine ⟨i, j, _, found, there, run, sound, moved, ?_, ?_⟩
  · exact sound.position?_eq_some ((moved j).trans (by rw [Equiv.swap_apply_right, at_i]))
  · exact sound.position?_eq_some ((moved i).trans (by rw [Equiv.swap_apply_left, at_j]))

/-- Exchanging two entries twice gives back the list that was there. -/
theorem WellFormed.swapped {l : EntryList} {first second : String} (h : l.WellFormed)
    (one : first ∈ l.names) (two : second ∈ l.names) :
    ∃ i j l' l'', l.position? first = some i ∧ l.position? second = some j ∧
      l.swap first second = .ok l' ∧ l.Exchanged l' i j ∧
      l'.swap first second = .ok l'' ∧ l.Same l'' := by
  obtain ⟨i, j, l', found, there, run, sound, moved, at_j, at_i⟩ := h.exists_exchanged one two
  have present {name : String} {k : Nat} (here : l'.position? name = some k) : name ∈ l'.names :=
    Decidable.byContradiction fun free => by
      simp [sound.position?_eq_none_iff.2 free] at here
  obtain ⟨j', i', l'', found', there', run', sound', back, -⟩ :=
    sound.exists_exchanged (present at_j) (present at_i)
  cases at_j.symm.trans found'
  cases at_i.symm.trans there'
  refine ⟨i, j, l', l'', found, there, run, moved, run', h.same sound' ?_⟩
  refine List.ext_getElem? fun k => ?_
  rw [back, moved, Equiv.swap_comm j i, Equiv.swap_apply_self]

theorem WellFormed.swap_self {l : EntryList} {name : String} (h : l.WellFormed)
    (here : name ∈ l.names) : ∃ l', l.swap name name = .ok l' ∧ l.Same l' := by
  obtain ⟨i, j, l', found, there, run, sound, moved, -⟩ := h.exists_exchanged here here
  cases found.symm.trans there
  refine ⟨l', run, h.same sound (List.ext_getElem? fun k => ?_)⟩
  rw [moved, Equiv.swap_self, Equiv.refl_apply]

structure Movable (l : EntryList) : Prop where
  move : ∀ pivot ∈ l.names, ∀ name ∈ l.names, name ≠ pivot → ∀ side : Side,
    ∃ l', side.move l pivot name = .ok l' ∧ l.Moved l' side pivot name
  swap : ∀ first ∈ l.names, ∀ second ∈ l.names,
    ∃ i j l' l'', l.position? first = some i ∧ l.position? second = some j ∧
      l.swap first second = .ok l' ∧ l.Exchanged l' i j ∧
      l'.swap first second = .ok l'' ∧ l.Same l''
  self : ∀ name ∈ l.names, (∀ side : Side, side.move l name name = .ok l) ∧
    ∃ l', l.swap name name = .ok l' ∧ l.Same l'

theorem WellFormed.movable {l : EntryList} (h : l.WellFormed) : l.Movable where
  move _ there _ here apart side := h.exists_moved there here side apart
  swap _ one _ two := h.swapped one two
  self _ here := ⟨h.move_self here, h.swap_self here⟩

/-! Declaring an entry beside a pivot. -/

/-- What is stored for an entry stands beside the pivot, wherever it may have stood before. -/
structure Inserted (l l' : EntryList) (side : Side) (pivot : String) (e : Entry) : Prop where
  stored : (l.add e).1 ∈ l'.entries
  declared : (l.add e).1.sameDeclaration e = true
  beside : (l.add e).1.name ≠ pivot → side.Beside l'.entries pivot (l.add e).1.name
  itself : (l.add e).1.name = pivot → l' = l
  others : without (l.add e).1.name l'.entries = without (l.add e).1.name l.entries
  perm : l'.entries.Perm (l.add e).2.entries

section

variable {l : EntryList} (h : l.WellFormed) {e : Entry}
include h

theorem WellFormed.sameDeclaration_add : (l.add e).1.sameDeclaration e = true := by
  rcases h.add_cases e with ⟨stored, -, same, added⟩ | ⟨-, added⟩
  · rwa [added]
  · rw [added]
    exact sameDeclaration_renamed e _

theorem WellFormed.without_add :
    without (l.add e).1.name (l.add e).2.entries = without (l.add e).1.name l.entries := by
  rcases h.add_entries e with same | ⟨more, -⟩
  · rw [same]
  · simp [more, without]

theorem WellFormed.add_eq_self (used : (l.add e).1.name ∈ l.names) : (l.add e).2 = l := by
  rcases h.add_cases e with ⟨stored, -, -, added⟩ | ⟨free, added⟩
  · rw [added]
  · rw [added] at used
    exact absurd used free

theorem WellFormed.exists_inserted (own : e.WellFormed) {pivot : String} (there : pivot ∈ l.names)
    (side : Side) :
    ∃ l', SchemaBuilder.placed e pivot (fun l name => side.move l pivot name) l = .ok l' ∧
      l.Inserted l' side pivot e := by
  obtain ⟨mem, grown⟩ := h.add own
  have still : pivot ∈ (l.add e).2.names :=
    List.map_subset Entry.name (h.prefix_add e).subset there
  have start : SchemaBuilder.placed e pivot (fun l name => side.move l pivot name) l =
      side.move (l.add e).2 pivot (l.add e).1.name := by
    rw [SchemaBuilder.placed, if_pos (h.contains_iff.2 there)]
  rw [start]
  by_cases itself : (l.add e).1.name = pivot
  · have known : (l.add e).2 = l := h.add_eq_self (itself ▸ there)
    rw [known] at mem
    refine ⟨l, ?_, mem, h.sameDeclaration_add, fun other => (other itself).elim,
      fun _ => rfl, rfl, by rw [known]⟩
    rw [itself, known, h.move_self there]
  · obtain ⟨l', run, moved⟩ :=
      grown.exists_moved still (List.mem_map_of_mem mem) side itself
    refine ⟨l', run, moved.perm.mem_iff.2 mem, h.sameDeclaration_add, fun _ => moved.beside,
      fun same => (itself same).elim, moved.others.trans h.without_add, moved.perm⟩

end

theorem Side.declare_record (side : Side) {b : SchemaBuilder} {l : EntryList}
    (kind : b.shape = .record l) (pivot : String) (e : Entry) :
    side.declare b pivot e = (do
      let l' ← SchemaBuilder.placed e pivot (fun l name => side.move l pivot name) l
      return { b with shape := .record l' }) := by
  obtain ⟨shape, props, recordName⟩ := b
  subst kind
  cases side <;> rfl

/-- A call that places an entry moves that entry only, in a list as in a builder of records. -/
theorem movable_and_inserted :
    (∀ l : EntryList, l.Obtainable → l.Movable) ∧
      ∀ (b : SchemaBuilder) (l : EntryList), b.Obtainable → b.shape = .record l →
        ∀ e : Entry, e.Obtainable → ∀ (pivot : String) (side : Side),
          (pivot ∈ l.names → ∃ l', side.declare b pivot e = .ok { b with shape := .record l' } ∧
            l.Inserted l' side pivot e) ∧
          (pivot ∉ l.names → side.declare b pivot e = .error (.notInSchema pivot)) := by
  refine ⟨fun l h => h.wellFormed.movable, fun b l hb kind e own pivot side => ⟨?_, ?_⟩⟩
  all_goals
    have sound : l.WellFormed := by
      simpa [SchemaBuilder.WellFormed, kind, SchemaBuilder.Shape.WellFormed] using hb.wellFormed
    rw [side.declare_record kind]
  · intro there
    obtain ⟨l', run, inserted⟩ := sound.exists_inserted own.wellFormed there side
    exact ⟨l', by simp [run], inserted⟩
  · intro absent
    have free : ¬ l.contains pivot = true := fun used => absent (sound.contains_iff.1 used)
    simp [SchemaBuilder.placed, free]

def threeTexts : EntryList :=
  ((oneText.add (plainEntry "b" .string)).2.add (plainEntry "c" .string)).2

theorem WellFormed.names_add {l : EntryList} {e : Entry} (h : l.WellFormed)
    (fresh : e.name ∉ l.names) : (l.add e).2.names = l.names ++ [e.name] := by
  rw [h.add_of_not_mem fresh, names_push]

theorem obtainable_threeTexts : threeTexts.Obtainable :=
  .add (.add obtainable_oneText (obtainable_plainEntry (by decide) .string))
    (obtainable_plainEntry (by decide) .string)

theorem names_threeTexts : threeTexts.names = ["a", "b", "c"] := by
  have one : oneText.names = ["a"] := wellFormed_empty.names_add (by simp [names, empty])
  have two : (oneText.add (plainEntry "b" .string)).2.names = ["a", "b"] := by
    rw [obtainable_oneText.wellFormed.names_add (by rw [one]; decide), one]
    rfl
  have sound : (oneText.add (plainEntry "b" .string)).2.Obtainable :=
    .add obtainable_oneText (obtainable_plainEntry (by decide) .string)
  rw [threeTexts, sound.wellFormed.names_add (by rw [two]; decide), two]
  rfl

theorem obtainable_ofEntries_threeTexts : (SchemaBuilder.ofEntries threeTexts).Obtainable := by
  have declared (l : EntryList) (e : Entry) :
      (SchemaBuilder.ofEntries l).withEntry e = .ok (.ofEntries (l.add e).2) := rfl
  have start : (SchemaBuilder.ofEntries empty).Obtainable := .withType .record .empty
  have one : (SchemaBuilder.ofEntries oneText).Obtainable :=
    start.withEntry (obtainable_plainEntry (by decide) .string) (declared empty _)
  have two := one.withEntry (e := plainEntry "b" .string)
    (obtainable_plainEntry (by decide) .string) (declared oneText _)
  exact two.withEntry (obtainable_plainEntry (by decide) .string) (declared _ _)

/-- The last of three entries is moved to the front and the outer two are exchanged. A number is
declared before the first entry, under a name that is in use, and the first entry is declared
again, after the last. -/
theorem movable_and_inserted_threeTexts :
    (∃ l', threeTexts.moveBefore "a" "c" = .ok l' ∧ threeTexts.Moved l' .before "a" "c") ∧
      (∃ i j l' l'', threeTexts.position? "a" = some i ∧ threeTexts.position? "c" = some j ∧
        threeTexts.swap "a" "c" = .ok l' ∧ threeTexts.Exchanged l' i j ∧
        l'.swap "a" "c" = .ok l'' ∧ threeTexts.Same l'') ∧
      (∃ l', Side.before.declare (.ofEntries threeTexts) "a" (plainEntry "b" .int) =
          .ok (.ofEntries l') ∧ threeTexts.Inserted l' .before "a" (plainEntry "b" .int)) ∧
      (∃ l', Side.after.declare (.ofEntries threeTexts) "c" (plainEntry "a" .string) =
          .ok (.ofEntries l') ∧ threeTexts.Inserted l' .after "c" (plainEntry "a" .string)) ∧
      Side.after.declare (.ofEntries threeTexts) "z" (plainEntry "b" .int) =
        .error (.notInSchema "z") := by
  have a : "a" ∈ threeTexts.names := by simp [names_threeTexts]
  have c : "c" ∈ threeTexts.names := by simp [names_threeTexts]
  have text : (plainEntry "a" .string).Obtainable := obtainable_plainEntry (by decide) .string
  have number : (plainEntry "b" .int).Obtainable := obtainable_plainEntry (by decide) .int
  obtain ⟨lists, builders⟩ := movable_and_inserted
  have movable := lists threeTexts obtainable_threeTexts
  have own := builders _ threeTexts obtainable_ofEntries_threeTexts rfl
  exact ⟨movable.move "a" a "c" c (by decide) .before, movable.swap "a" a "c" c,
    (own _ number "a" .before).1 a, (own _ text "c" .after).1 c,
    (own _ number "z" .after).2 (by simp [names_threeTexts])⟩

end TypedRecords.EntryList
