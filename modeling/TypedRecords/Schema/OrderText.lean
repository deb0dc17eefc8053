import TypedRecords.Text.Parts

/-! The text of a logical order: names with commas between them.
Reading is total. A name that the text lists more than once counts where it stands last,
and a name that it does not list comes after all that it does. -/
namespace TypedRecords.OrderText

def split (text : String) : List String := Text.parts ',' text

def join (names : List String) : String := String.intercalate "," names

/-- The last place of a name, or the number of places if there is none. -/
def place (listed : List String) (name : String) : Nat :=
  match listed.reverse.idxOf? name with
  | some fromEnd => listed.length - 1 - fromEnd
  | none => listed.length

def arrange {α : Type} (name : α → String) (listed : List String) (items : List α) : List α :=
  items.mergeSort fun a b => place listed (name a) ≤ place listed (name b)

end TypedRecords.OrderText
