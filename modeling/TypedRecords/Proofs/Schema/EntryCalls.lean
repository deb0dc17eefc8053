import TypedRecords.Proofs.Obtainable

/-! Calls on a list of entries.
A call changes the entries and the index of a list in place, one after the other, and it may end
early. All checks of a call come before its first change, so a call that fails leaves the list as
it was. A call that succeeds leaves an index that tells the place of every name and of no other,
which it can since names stay distinct. -/
namespace TypedRecords.EntryList

open Result

inductive Call where
  | add (e : Entry)
  | remove (name : String)
  | replace (name : String) (e : Entry)
  | moveBefore (pivot name : String)
  | moveAfter (pivot name : String)
  | swap (first second : String)

/-- A change in place. What was changed before a failure stays changed. -/
abbrev Change (α : Type) : Type := ExceptT SchemaError (StateM EntryList) α

namespace Change

def entries (change : List Entry → List Entry) : Change Unit :=
  modify fun l => { l with entries := change l.entries }

def reindex : Change Unit := modify fun l => { l with index := indexFrom 0 l.entries ∅ }

def check {α : Type} (r : Result α) : Change α := ExceptT.mk (pure r)

def on {α : Type} (change : Change α) (l : EntryList) : Result α × EntryList :=
  change.run.run l

section

variable {α β : Type} (l : EntryList)

@[simp] theorem on_pure (a : α) : on (pure a) l = (.ok a, l) := rfl

@[simp] theorem on_bind (x : Change α) (f : α → Change β) :
    on (x >>= f) l = match x.on l with
      | (.ok a, l') => (f a).on l'
      | (.error fault, l') => (.error fault, l') := by
  simp only [on, ExceptT.run_bind, StateT.run_bind]
  change (match x.run.run l with | (r, l') => _) = _
  rcases x.run.run l with ⟨_ | _, _⟩ <;> rfl

@[simp] theorem on_map (f : α → β) (x : Change α) :
    on (f <$> x) l = match x.on l with
      | (.ok a, l') => (.ok (f a), l')
      | (.error fault, l') => (.error fault, l') := by
  rw [map_eq_pure_bind, on_bind]
  rfl

@[simp] theorem on_get : on get l = (.ok l, l) := rfl

@[simp] theorem on_modify (f : EntryList → EntryList) : on (modify f) l = (.ok ⟨⟩, f l) := rfl

@[simp] theorem on_throw (fault : SchemaError) : on (throw fault : Change α) l = (.error fault, l) :=
  rfl

@[simp] theorem on_check (r : Result α) : on (check r) l = (r, l) := rfl

@[simp] theorem on_entries (change : List Entry → List Entry) :
    on (Change.entries change) l = (.ok ⟨⟩, { l with entries := change l.entries }) := rfl

@[simp] theorem on_reindex : on reindex l = (.ok ⟨⟩, ofEntries l.entries) := rfl

end

end Change

namespace Call

open Change

def relocating (pivot name : String) (target : Nat → Nat → Nat) : Change (Option Entry) := do
  let l ← get
  let (source, place) ← check (l.places pivot name)
  if source = place then return none
  if let some e := l.entries[source]? then
    Change.entries fun entries => entries.eraseIdx source
    Change.entries fun entries => entries.insertIdx (target source place) e
  reindex
  return none

/-- The call, change by change. It gives back an entry that was stored or removed. -/
def perform : Call → Change (Option Entry)
  | .add e => do
    let l ← get
    let name := l.settledName e
    match l.get? name with
    | some stored => return some stored
    | none =>
      modify fun l => { l with index := l.index.insert name l.entries.length }
      Change.entries fun entries => entries ++ [e.renamed name]
      return some (e.renamed name)
  | .remove name => do
    let l ← get
    match l.position? name with
    | none => return none
    | some i =>
      Change.entries fun entries => entries.eraseIdx i
      reindex
      return l.entries[i]?
  | .replace name e => do
    let l ← get
    match l.position? name with
    | none => throw (.notInSchema name)
    | some i =>
      if e.name != name && l.contains e.name then throw (.format (.nameInUse name e.name))
      Change.entries fun entries => entries.set i e
      reindex
      return none
  | .moveBefore pivot name =>
    relocating pivot name fun source place => if source < place then place - 1 else place
  | .moveAfter pivot name =>
    relocating pivot name fun source place => if source < place then place else place + 1
  | .swap first second => do
    let l ← get
    let (i, j) ← check (l.places first second)
    Change.entries fun entries => exchange entries i j
    reindex
    return none

def result (l : EntryList) : Call → Result (Option Entry × EntryList)
  | .add e => .ok (some (l.add e).1, (l.add e).2)
  | .remove name => .ok (l.remove name)
  | .replace name e => return (none, ← l.replace name e)
  | .moveBefore pivot name => return (none, ← l.moveBefore pivot name)
  | .moveAfter pivot name => return (none, ← l.moveAfter pivot name)
  | .swap first second => return (none, ← l.swap first second)

theorem relocating_on (pivot name : String) (target : Nat → Nat → Nat) (l : EntryList) :
    (relocating pivot name target).on l =
      match l.places pivot name with
      | .ok (source, place) => (.ok none, if source = place then l
          else ofEntries (relocate l.entries source (target source place)))
      | .error fault => (.error fault, l) := by
  unfold relocating relocate
  cases at_ : l.places pivot name with
  | error fault => simp [at_]
  | ok places =>
    obtain ⟨source, place⟩ := places
    by_cases same : source = place
    · simp [at_, same]
    · cases here : l.entries[source]? <;> simp [at_, same, here]

theorem perform_on (c : Call) (l : EntryList) :
    c.perform.on l = match c.result l with
      | .ok (given, l') => (.ok given, l')
      | .error fault => (.error fault, l) := by
  cases c with
  | add e =>
    cases found : l.get? (l.settledName e) <;>
      simp [perform, result, EntryList.add, found, EntryList.push, Entry.renamed]
  | remove name =>
    cases found : l.position? name <;> simp [perform, result, EntryList.remove, found]
  | replace name e =>
    cases found : l.position? name with
    | none => simp [perform, result, EntryList.replace, found]
    | some i =>
      by_cases used : e.name ≠ name ∧ l.contains e.name = true <;>
        simp [perform, result, EntryList.replace, found, used]
  | moveBefore pivot name =>
    rw [perform, relocating_on]
    cases at_ : l.places pivot name <;> simp [result, EntryList.moveBefore, at_]
    split <;> rfl
  | moveAfter pivot name =>
    rw [perform, relocating_on]
    cases at_ : l.places pivot name <;> simp [result, EntryList.moveAfter, at_]
    split <;> rfl
  | swap first second =>
    cases at_ : l.places first second <;> simp [perform, result, EntryList.swap, at_]

theorem on_of_error {c : Call} {l : EntryList} {fault : SchemaError}
    (failed : (c.perform.on l).1 = .error fault) : (c.perform.on l).2 = l := by
  rw [perform_on] at failed ⊢
  cases run : c.result l with
  | error fault => rfl
  | ok given => simp [run] at failed

def entry? : Call → Option Entry
  | .add e => some e
  | .replace _ e => some e
  | _ => none

def Made (c : Call) : Prop := ∀ e, c.entry? = some e → e.Obtainable

theorem made_of_entry?_eq_none {c : Call} (alone : c.entry? = none) : c.Made := by
  intro e came
  rw [alone] at came
  cases came

theorem obtainable_of_result {c : Call} {l l' : EntryList} {given : Option Entry}
    (made : c.Made) (h : l.Obtainable) (run : c.result l = .ok (given, l')) :
    l'.Obtainable := by
  -- What a change of the list alone gives back.
  have changed {change : Result EntryList}
      (run : (do return (none, ← change) : Result (Option Entry × EntryList)) = .ok (given, l')) :
      change = .ok l' := by
    obtain ⟨_, done, same⟩ := bind_eq_ok.1 run
    cases same
    exact done
  cases c with
  | add e =>
    have same : (l.add e).2 = l' := congrArg Prod.snd (Except.ok.inj run)
    exact same ▸ .add h (made e rfl)
  | remove name =>
    have same : (l.remove name).2 = l' := congrArg Prod.snd (Except.ok.inj run)
    exact same ▸ .remove name h
  | replace name e => exact .replace h (made e rfl) (changed run)
  | moveBefore pivot name => exact .moveBefore h (changed run)
  | moveAfter pivot name => exact .moveAfter h (changed run)
  | swap first second => exact .swap h (changed run)

theorem obtainable_on {c : Call} {l : EntryList} (made : c.Made) (h : l.Obtainable) :
    (c.perform.on l).2.Obtainable := by
  rw [perform_on]
  cases run : c.result l with
  | error fault => exact h
  | ok given => exact obtainable_of_result made h run

end Call

/-- The list after calls in a row. A call that fails does not end the row. -/
def after (calls : List Call) (l : EntryList) : EntryList :=
  calls.foldl (fun l c => (c.perform.on l).2) l

theorem obtainable_after {calls : List Call} (made : ∀ c ∈ calls, c.Made) {l : EntryList}
    (h : l.Obtainable) : (after calls l).Obtainable := by
  induction calls generalizing l with
  | nil => exact h
  | cons c rest ih =>
    obtain ⟨first, others⟩ := List.forall_mem_cons.1 made
    exact ih others (Call.obtainable_on first h)

/-- Names are distinct identifiers, and looking up a name in the index finds what a walk along
the entries finds. -/
structure Indexed (l : EntryList) : Prop where
  distinct : l.names.Nodup
  valid : ∀ name ∈ l.names, Identifier.isValid name
  places : ∀ (name : String) (i : Nat), l.index[name]? = some i ↔ l.names[i]? = some name
  contains : ∀ name, l.contains name = l.entries.any fun e => e.name == name
  position : ∀ name, l.position? name = l.entries.findIdx? fun e => e.name == name
  get : ∀ name, l.get? name = l.entries.find? fun e => e.name == name

theorem WellFormed.to_indexed {l : EntryList} (h : l.WellFormed) : l.Indexed where
  distinct := h.distinct
  valid _ used := h.valid_of_mem_names used
  places name i := by
    change l.position? name = some i ↔ _
    constructor
    · intro found
      obtain ⟨inside, rfl⟩ := h.of_position? found
      simp [names, inside]
    · intro here
      obtain ⟨e, there, rfl⟩ := Option.map_eq_some_iff.1 (List.getElem?_map .. ▸ here)
      exact h.position?_eq_some there
  contains name := by
    rw [Bool.eq_iff_iff, h.contains_iff, List.any_eq_true]
    simp [names]
  position := h.indexed
  get name := by
    rw [get?, h.indexed, List.find?_eq_bind_findIdx?_getElem?]

/-- After any calls the index is that of the entries, and a call that fails changes neither. -/
theorem indexed_after {calls : List Call} (made : ∀ c ∈ calls, c.Made) :
    (after calls empty).Indexed ∧
      ∀ (c : Call) (fault : SchemaError), (c.perform.on (after calls empty)).1 = .error fault →
        (c.perform.on (after calls empty)).2 = after calls empty :=
  ⟨(obtainable_after made .empty).wellFormed.to_indexed, fun _ _ => Call.on_of_error⟩

def plainEntry (name : String) (kind : ScalarKind) : Entry :=
  ⟨name, none, .scalar kind, false, false, none, none, Props.empty⟩

theorem obtainable_plainEntry {name : String} (valid : Identifier.isValid name = true)
    (kind : ScalarKind) : (plainEntry name kind).Obtainable :=
  Entry.obtainable_of_schema valid (.scalar kind)

/-- Two entries of one name, the second of which then cannot take the name of a third. -/
def rowOfCalls : List Call :=
  [.add (plainEntry "a" .string), .add (plainEntry "a" .int), .add (plainEntry "b" .long),
    .replace "a_1" (plainEntry "b" .int), .moveBefore "a" "b", .swap "a" "z", .remove "a",
    .replace "a_1" (plainEntry "a" .double), .moveAfter "b" "a"]

theorem indexed_after_row :
    (∀ c ∈ rowOfCalls, c.Made) ∧ (after rowOfCalls empty).Indexed ∧
      ((Call.swap "a" "").perform.on (after rowOfCalls empty)).1 = .error (.notInSchema "") ∧
      ((Call.swap "a" "").perform.on (after rowOfCalls empty)).2 = after rowOfCalls empty := by
  have made : ∀ c ∈ rowOfCalls, c.Made := by
    intro c mem e came
    simp only [rowOfCalls, List.mem_cons, List.not_mem_nil, or_false] at mem
    rcases mem with rfl | rfl | rfl | rfl | rfl | rfl | rfl | rfl | rfl <;> cases came <;>
      exact obtainable_plainEntry (by decide) _
  have nameless : (after rowOfCalls empty).position? "" = none := by
    have sound := (obtainable_after made .empty).wellFormed
    refine sound.position?_eq_none_iff.2 fun used => ?_
    exact Identifier.ne_empty_of_isValid (sound.valid_of_mem_names used) rfl
  have failed : ((Call.swap "a" "").perform.on (after rowOfCalls empty)).1 =
      .error (.notInSchema "") := by
    simp [Call.perform_on, Call.result, EntryList.swap, EntryList.places, nameless]
  exact ⟨made, (indexed_after made).1, failed, (indexed_after made).2 _ _ failed⟩

end TypedRecords.EntryList
