import TypedRecords.Schema.Basic
import Std.Data.HashMap

/-! Growing lists of entries with unique names.
An entry whose name is in use is stored under the next free numbered name, unless the same
declaration stands there already. An index from names to places makes lookups direct; it
is rebuilt whenever places change. -/
namespace TypedRecords

structure EntryList where
  entries : List Entry
  index : Std.HashMap String Nat

namespace EntryList

def indexFrom (start : Nat) : List Entry → Std.HashMap String Nat → Std.HashMap String Nat
  | [], index => index
  | e :: rest, index => indexFrom (start + 1) rest (index.insert e.name start)

def ofEntries (entries : List Entry) : EntryList := ⟨entries, indexFrom 0 entries ∅⟩

def empty : EntryList := ⟨[], ∅⟩

def length (l : EntryList) : Nat := l.entries.length

def isEmpty (l : EntryList) : Bool := l.entries.isEmpty

def position? (l : EntryList) (name : String) : Option Nat := l.index[name]?

def contains (l : EntryList) (name : String) : Bool := l.index.contains name

def get? (l : EntryList) (name : String) : Option Entry :=
  (l.position? name).bind fun i => l.entries[i]?

def names (l : EntryList) : List String := l.entries.map Entry.name

def beq (a b : EntryList) : Bool := Schema.beqEntries a.entries b.entries

instance : BEq EntryList := ⟨beq⟩

def push (l : EntryList) (e : Entry) : EntryList :=
  ⟨l.entries ++ [e], l.index.insert e.name l.entries.length⟩

/-- Whether an entry may settle under a name: it is free, or holds the same declaration. -/
def settles (l : EntryList) (e : Entry) (name : String) : Bool :=
  match l.get? name with
  | some stored => stored.sameDeclaration e
  | none => true

/-- The name under which an entry settles. Numbered names are pairwise distinct, so one
of the first `length + 1` will do. -/
def settledName (l : EntryList) (e : Entry) : String :=
  let number := Identifier.firstFrom
    (fun k => l.settles e (Identifier.suffixed e.name k)) l.entries.length 0
  Identifier.suffixed e.name number

def add (l : EntryList) (e : Entry) : Entry × EntryList :=
  let name := l.settledName e
  match l.get? name with
  | some stored => (stored, l)
  | none => (e.renamed name, l.push (e.renamed name))

/-- Names that are absent are ignored. -/
def remove (l : EntryList) (name : String) : Option Entry × EntryList :=
  match l.position? name with
  | none => (none, l)
  | some i => (l.entries[i]?, ofEntries (l.entries.eraseIdx i))

def replace (l : EntryList) (name : String) (e : Entry) : Result EntryList :=
  match l.position? name with
  | none => .error (.notInSchema name)
  | some i =>
    if e.name != name && l.contains e.name then .error (.format (.nameInUse name e.name))
    else .ok (ofEntries (l.entries.set i e))

def places (l : EntryList) (pivot name : String) : Result (Nat × Nat) :=
  match l.position? name with
  | none => .error (.notInSchema name)
  | some source =>
    match l.position? pivot with
    | none => .error (.notInSchema pivot)
    | some target => .ok (source, target)

/-- Takes the item at `source` out and puts it back at `target`, counted without it. -/
def relocate (entries : List Entry) (source target : Nat) : List Entry :=
  match entries[source]? with
  | some e => (entries.eraseIdx source).insertIdx target e
  | none => entries

def moveBefore (l : EntryList) (pivot name : String) : Result EntryList := do
  let (source, target) ← l.places pivot name
  if source = target then return l
  let target := if source < target then target - 1 else target
  return ofEntries (relocate l.entries source target)

def moveAfter (l : EntryList) (pivot name : String) : Result EntryList := do
  let (source, target) ← l.places pivot name
  if source = target then return l
  let target := if source < target then target else target + 1
  return ofEntries (relocate l.entries source target)

def exchange (entries : List Entry) (i j : Nat) : List Entry :=
  match entries[i]?, entries[j]? with
  | some a, some b => (entries.set i b).set j a
  | _, _ => entries

def swap (l : EntryList) (first second : String) : Result EntryList := do
  let (i, j) ← l.places first second
  return ofEntries (exchange l.entries i j)

end EntryList
end TypedRecords
