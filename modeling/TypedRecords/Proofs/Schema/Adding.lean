import Mathlib.Order.Bounds.Basic
import TypedRecords.Proofs.Schema.EntryCalls

/-! Adding an entry.
The search for a name goes through the numbered names of the entry in turn. It ends at the least
number whose name is open, since there are more numbered names than entries. Later calls that
neither remove nor replace an entry leave every name that was passed over as it was, so the same
entry is found when it is added again. -/
namespace TypedRecords.EntryList

/-- A name is open to an entry if it is free or holds the same declaration. -/
def Open (l : EntryList) (e : Entry) (name : String) : Prop :=
  name ∉ l.names ∨ ∃ stored ∈ l.entries, stored.name = name ∧ stored.sameDeclaration e = true

def Settles (l : EntryList) (e : Entry) (k : Nat) : Prop :=
  IsLeast {k | l.Open e (Identifier.suffixed e.name k)} k

def addAs (l : EntryList) (e : Entry) (name : String) : Entry × EntryList :=
  match l.get? name with
  | some stored => (stored, l)
  | none => (e.renamed name, l.push (e.renamed name))

theorem add_eq_addAs (l : EntryList) (e : Entry) : l.add e = l.addAs e (l.settledName e) := rfl

/-- The search as a loop, from a number on; nothing where it has not ended after so many
rounds. -/
def addWithin (l : EntryList) (e : Entry) : (rounds number : Nat) → Option (Entry × EntryList)
  | 0, _ => none
  | rounds + 1, number =>
    let name := Identifier.suffixed e.name number
    match l.get? name with
    | none =>
      let stored := if number = 0 then e else e.renamed name
      some (stored, l.push stored)
    | some stored =>
      if stored.sameDeclaration e then some (stored, l) else l.addWithin e rounds (number + 1)

section

variable {l : EntryList} (h : l.WellFormed)
include h

theorem WellFormed.get?_eq_some_iff {name : String} {e : Entry} :
    l.get? name = some e ↔ e ∈ l.entries ∧ e.name = name := by
  refine ⟨h.of_get?, ?_⟩
  rintro ⟨mem, rfl⟩
  obtain ⟨i, here⟩ := List.mem_iff_getElem?.1 mem
  exact h.get?_eq_some here

theorem WellFormed.settles_iff {e : Entry} {name : String} :
    l.settles e name = true ↔ l.Open e name := by
  unfold settles Open
  cases found : l.get? name with
  | none => simp [h.get?_eq_none_iff.1 found]
  | some stored =>
    obtain ⟨mem, named⟩ := h.of_get? found
    have used : name ∈ l.names := named ▸ List.mem_map_of_mem mem
    simp only [used, not_true_eq_false, false_or]
    refine ⟨fun same => ⟨stored, mem, named, same⟩, ?_⟩
    rintro ⟨other, there, meet, same⟩
    have one := h.get?_eq_some_iff.2 ⟨there, meet⟩
    rw [found] at one
    exact Option.some.inj one ▸ same

theorem WellFormed.exists_settles (e : Entry) :
    ∃ k, l.Settles e k ∧ k ≤ l.length ∧ l.settledName e = Identifier.suffixed e.name k := by
  obtain ⟨k, small, free⟩ := Identifier.exists_suffixed_not_mem e.name l.names
  have within : k ≤ 0 + l.entries.length := by simpa [names] using small
  let stop := fun k => l.settles e (Identifier.suffixed e.name k)
  have found : stop k = true := h.settles_of_not_mem e free
  obtain ⟨stops, least, before⟩ := Identifier.firstFrom_spec (Nat.zero_le k) within found
  refine ⟨_, ⟨h.settles_iff.1 stops, fun j open_ => ?_⟩, ?_, rfl⟩
  · by_contra earlier
    have passed := before j (Nat.zero_le j) (Nat.lt_of_not_le earlier)
    have stopped : stop j = true := h.settles_iff.2 open_
    rw [passed] at stopped
    cases stopped
  · exact least.trans (by simpa [length] using within)

theorem WellFormed.add_of_settles {e : Entry} {k : Nat} (least : l.Settles e k) :
    l.add e = l.addAs e (Identifier.suffixed e.name k) := by
  obtain ⟨j, other, -, settled⟩ := h.exists_settles e
  rw [add_eq_addAs, settled, other.unique least]

theorem WellFormed.addWithin_of_settles {e : Entry} {k : Nat} (least : l.Settles e k)
    (rounds number : Nat) (reached : number ≤ k) :
    l.addWithin e rounds number =
      if k < number + rounds then some (l.addAs e (Identifier.suffixed e.name k)) else none := by
  induction rounds generalizing number with
  | zero => rw [addWithin, if_neg (by omega)]
  | succ rounds ih =>
    rcases reached.eq_or_lt with rfl | later
    · have open_ := h.settles_iff.2 least.1
      rw [if_pos (by omega), addWithin, addAs]
      cases found : l.get? (Identifier.suffixed e.name number) with
      | none =>
        cases number with
        | zero => simp [Identifier.suffixed, e.renamed_name]
        | succ n => simp
      | some stored =>
        simp only [settles, found] at open_
        simp [open_]
    · have closed : ¬ l.settles e (Identifier.suffixed e.name number) = true := fun open_ =>
        absurd (least.2 (h.settles_iff.1 open_)) (Nat.not_le.2 later)
      rw [addWithin]
      cases found : l.get? (Identifier.suffixed e.name number) with
      | none => simp [settles, found] at closed
      | some stored =>
        simp only [settles, found, Bool.not_eq_true] at closed
        simp only [closed, Bool.false_eq_true, if_false]
        rw [ih (number + 1) later]
        simp only [Nat.add_right_comm number 1 rounds, Nat.add_assoc]

theorem WellFormed.get?_of_subset {l' : EntryList} (h' : l'.WellFormed)
    (more : l.entries ⊆ l'.entries) {name : String} (used : name ∈ l.names) :
    l'.get? name = l.get? name := by
  obtain ⟨f, mem, rfl⟩ := List.mem_map.1 used
  rw [h'.get?_eq_some_iff.2 ⟨more mem, rfl⟩, h.get?_eq_some_iff.2 ⟨mem, rfl⟩]

theorem WellFormed.position?_of_prefix {l' : EntryList} (h' : l'.WellFormed)
    (more : l.entries <+: l'.entries) {name : String} (used : name ∈ l.names) :
    l'.position? name = l.position? name := by
  obtain ⟨f, mem, rfl⟩ := List.mem_map.1 used
  obtain ⟨i, here⟩ := List.mem_iff_getElem?.1 mem
  obtain ⟨inside, rfl⟩ := List.getElem?_eq_some_iff.1 here
  have there := List.prefix_iff_getElem?.1 more i inside
  rw [h'.position?_eq_some there, h.position?_eq_some here]

end

/-! Calls that keep every entry. -/

def Call.Keeps : Call → Prop
  | .remove _ | .replace _ _ => False
  | _ => True

theorem subset_relocating {l : EntryList} (h : l.WellFormed) (pivot name : String)
    (target : Nat → Nat → Nat)
    (inside : ∀ source place size, source < size → place < size → source ≠ place →
      target source place < size) :
    l.entries ⊆ ((Call.relocating pivot name target).on l).2.entries := by
  rw [Call.relocating_on]
  cases at_ : l.places pivot name with
  | error fault => exact List.Subset.refl _
  | ok places =>
    obtain ⟨source, place⟩ := places
    obtain ⟨first, second⟩ := h.places at_
    simp only
    split
    · exact List.Subset.refl _
    · rename_i apart
      exact (relocate_perm first (inside _ _ _ first second apart)).symm.subset

theorem Call.Keeps.subset_on {c : Call} (keeps : c.Keeps) {l : EntryList} (h : l.WellFormed) :
    l.entries ⊆ (c.perform.on l).2.entries := by
  cases c with
  | remove name => exact keeps.elim
  | replace name e => exact keeps.elim
  | add e =>
    rw [perform_on]
    simp only [result]
    exact (h.prefix_add e).subset
  | moveBefore pivot name =>
    rw [perform]
    exact subset_relocating h pivot name _ fun source place size _ _ _ => by split <;> omega
  | moveAfter pivot name =>
    rw [perform]
    exact subset_relocating h pivot name _ fun source place size _ _ _ => by split <;> omega
  | swap first second =>
    rw [perform_on]
    cases at_ : l.places first second with
    | error fault => simp [result, EntryList.swap, at_]
    | ok places =>
      simp only [result, EntryList.swap, at_, Result.ok_bind, Result.pure_eq_ok]
      exact (exchange_perm _ _ _).symm.subset

theorem subset_after {calls : List Call} (made : ∀ c ∈ calls, c.Made ∧ c.Keeps) {l : EntryList}
    (h : l.Obtainable) : l.entries ⊆ (after calls l).entries := by
  induction calls generalizing l with
  | nil => exact List.Subset.refl _
  | cons c rest ih =>
    obtain ⟨⟨own, keeps⟩, others⟩ := List.forall_mem_cons.1 made
    have first := keeps.subset_on h.wellFormed
    exact List.Subset.trans first (ih others (Call.obtainable_on own h))

theorem sameDeclaration_renamed (e : Entry) (name : String) :
    (e.renamed name).sameDeclaration e = true := by
  simp [Entry.sameDeclaration, Entry.renamed, Json.eq_option_iff_plain]

/-- The least number stays the least in a list that still has all entries, if by then its name
holds the declaration. -/
theorem Settles.of_subset {l l' : EntryList} {e stored : Entry} {k : Nat} (least : l.Settles e k)
    (h' : l'.WellFormed) (more : l.entries ⊆ l'.entries) (mem : stored ∈ l'.entries)
    (named : stored.name = Identifier.suffixed e.name k)
    (same : stored.sameDeclaration e = true) : l'.Settles e k := by
  refine ⟨.inr ⟨stored, mem, named, same⟩, fun j open_ => ?_⟩
  by_contra earlier
  have closed : ¬ l.Open e (Identifier.suffixed e.name j) := fun now => earlier (least.2 now)
  -- A name that was passed over holds another declaration, and still does.
  simp only [Open, not_or, Decidable.not_not, not_exists, not_and] at closed
  obtain ⟨used, other⟩ := closed
  obtain ⟨f, hf, meet⟩ := List.mem_map.1 used
  rcases open_ with free | ⟨g, hg, here, equal⟩
  · exact free (meet ▸ List.mem_map_of_mem (more hf))
  · have one : f = g := Written.eq_of_name_eq h'.distinct (more hf) hg (meet.trans here.symm)
    exact other f hf meet (one ▸ equal)

structure Added (l : EntryList) (e : Entry) (k : Nat) : Prop where
  least : l.Settles e k
  within : k ≤ l.length
  ends : ∀ rounds, k < rounds → l.addWithin e rounds 0 = some (l.add e)
  returned : (l.add e).2.get? (Identifier.suffixed e.name k) = some (l.add e).1
  fresh : Identifier.suffixed e.name k ∉ l.names →
    (l.add e).1 = e.renamed (Identifier.suffixed e.name k) ∧
      (l.add e).2.entries = l.entries ++ [(l.add e).1] ∧
      ∀ name ∈ l.names, (l.add e).2.get? name = l.get? name ∧
        (l.add e).2.position? name = l.position? name
  known : Identifier.suffixed e.name k ∈ l.names → (l.add e).2 = l
  /-- Adding the entry again finds what was stored, also after other calls. -/
  again : ∀ calls : List Call, (∀ c ∈ calls, c.Made ∧ c.Keeps) →
    (after calls (l.add e).2).add e = ((l.add e).1, after calls (l.add e).2)

section

variable {l : EntryList} {e : Entry} {name : String}

theorem WellFormed.addAs_of_not_mem (h : l.WellFormed) (free : name ∉ l.names) :
    l.addAs e name = (e.renamed name, l.push (e.renamed name)) := by
  rw [addAs, h.get?_eq_none_iff.2 free]

theorem addAs_of_get? {stored : Entry} (found : l.get? name = some stored) :
    l.addAs e name = (stored, l) := by
  rw [addAs, found]

theorem WellFormed.addAs_spec (h : l.WellFormed) (open_ : l.Open e name) :
    (l.addAs e name).1 ∈ (l.addAs e name).2.entries ∧ (l.addAs e name).1.name = name ∧
      (l.addAs e name).1.sameDeclaration e = true := by
  rcases open_ with free | ⟨stored, mem, named, same⟩
  · rw [h.addAs_of_not_mem free]
    exact ⟨by simp [EntryList.push], rfl, sameDeclaration_renamed e name⟩
  · rw [addAs_of_get? (h.get?_eq_some_iff.2 ⟨mem, named⟩)]
    exact ⟨mem, named, same⟩

end

/-- Adding an entry stores it under the first of its names that is open, and only once. -/
theorem exists_added {l : EntryList} {e : Entry} (h : l.Obtainable) (own : e.Obtainable) :
    ∃ k, l.Added e k := by
  have sound := h.wellFormed
  have grown : (l.add e).2.Obtainable := .add h own
  obtain ⟨k, least, within, -⟩ := sound.exists_settles e
  have added := sound.add_of_settles least
  have stored := sound.addAs_spec least.1
  rw [← added] at stored
  obtain ⟨mem, named, same⟩ := stored
  refine ⟨k, least, within, ?_, ?_, ?_, ?_, ?_⟩
  · intro rounds enough
    rw [sound.addWithin_of_settles least rounds 0 (Nat.zero_le k), if_pos (by omega), added]
  · exact grown.wellFormed.get?_eq_some_iff.2 ⟨mem, named⟩
  · intro free
    rw [sound.addAs_of_not_mem free] at added
    refine ⟨congrArg Prod.fst added, ?_, fun name used => ⟨?_, ?_⟩⟩
    · rw [added, push]
    · exact sound.get?_of_subset grown.wellFormed (sound.prefix_add e).subset used
    · exact sound.position?_of_prefix grown.wellFormed (sound.prefix_add e) used
  · intro used
    obtain ⟨f, hf, here⟩ := List.mem_map.1 used
    rw [addAs_of_get? (sound.get?_eq_some_iff.2 ⟨hf, here⟩)] at added
    exact congrArg Prod.snd added
  · intro calls made
    have later := (obtainable_after (fun c hc => (made c hc).1) grown).wellFormed
    have kept := subset_after made grown
    have all := List.Subset.trans (sound.prefix_add e).subset kept
    rw [later.add_of_settles (least.of_subset later all (kept mem) named same)]
    exact addAs_of_get? (later.get?_eq_some_iff.2 ⟨kept mem, named⟩)

def oneText : EntryList := (empty.add (plainEntry "a" .string)).2

theorem obtainable_oneText : oneText.Obtainable :=
  .add .empty (obtainable_plainEntry (by decide) .string)

theorem exists_added_pair :
    oneText.Obtainable ∧ (plainEntry "a" .int).Obtainable ∧
      ∃ k, oneText.Added (plainEntry "a" .int) k ∧
        let calls := [.add (plainEntry "a" .long), .moveBefore "a" "a_2", .swap "a_1" "a"]
        let l := after calls (oneText.add (plainEntry "a" .int)).2
        l.add (plainEntry "a" .int) = ((oneText.add (plainEntry "a" .int)).1, l) := by
  have own : (plainEntry "a" .int).Obtainable := obtainable_plainEntry (by decide) .int
  obtain ⟨k, added⟩ := exists_added obtainable_oneText own
  refine ⟨obtainable_oneText, own, k, added, added.again _ fun c mem => ?_⟩
  simp only [List.mem_cons, List.not_mem_nil, or_false] at mem
  rcases mem with rfl | rfl | rfl
  · refine ⟨fun e came => ?_, trivial⟩
    cases came
    exact obtainable_plainEntry (by decide) .long
  · exact ⟨Call.made_of_entry?_eq_none rfl, trivial⟩
  · exact ⟨Call.made_of_entry?_eq_none rfl, trivial⟩

end TypedRecords.EntryList
