import TypedRecords.Assoc

/-! Properties of a schema or of an entry: text values under text keys, in key order. -/
namespace TypedRecords

structure Props where
  pairs : List (String × String)
  sorted : Assoc.Sorted pairs

namespace Props

@[ext] theorem ext {a b : Props} (h : a.pairs = b.pairs) : a = b := by
  obtain ⟨_, _⟩ := a
  obtain ⟨_, _⟩ := b
  simp_all

instance : DecidableEq Props := fun a b =>
  decidable_of_iff (a.pairs = b.pairs) ⟨ext, fun h => h ▸ rfl⟩

def empty : Props := ⟨[], List.Pairwise.nil⟩

instance : Inhabited Props := ⟨empty⟩

def isEmpty (props : Props) : Bool := props.pairs.isEmpty

def find? (props : Props) (key : String) : Option String := Assoc.find? key props.pairs

def insert (props : Props) (key value : String) : Props :=
  ⟨Assoc.insert key value props.pairs, Assoc.sorted_insert key value props.sorted⟩

def erase (props : Props) (key : String) : Props :=
  ⟨Assoc.erase key props.pairs, Assoc.sorted_erase key props.sorted⟩

def insertAll (props : Props) (new : List (String × String)) : Props :=
  ⟨Assoc.insertAll props.pairs new, Assoc.sorted_insertAll new props.sorted⟩

def ofList (pairs : List (String × String)) : Props := empty.insertAll pairs

end Props
end TypedRecords
