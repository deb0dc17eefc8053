import TypedRecords.Assoc

/-! Tables of settings, as TOML has them.
How a table came about decides who may add to it. A table with a header of its own is
opened by that header alone; one that a dotted key began takes further dotted keys; one
between braces is closed; and one that only a longer header has named may still get its own
header. No key is given a value twice. -/
namespace TypedRecords.Toml

inductive Origin where
  | header | implied | dotted | braces
  deriving DecidableEq, Repr

inductive Value where
  | bool (b : Bool)
  | int (n : Int)
  | text (s : String)
  | table (origin : Origin) (entries : List (String × Value))

abbrev Entries := List (String × Value)

namespace Entries

def assign (entries : Entries) (key : String) (v : Value) : Option Entries :=
  if Assoc.contains key entries then none else some (Assoc.insert key v entries)

/-- Whether a dotted key may lead into the table; its last step must end in a table that
dotted keys have made. -/
def admitsDotted (origin : Origin) (last : Bool) : Bool :=
  origin == .dotted || origin == .implied && !last

def assignDotted (key : String) (v : Value) : List String → Entries → Option Entries
  | [], entries => assign entries key v
  | step :: path, entries =>
    match Assoc.find? step entries with
    | none => do
      return Assoc.insert step (.table .dotted (← assignDotted key v path [])) entries
    | some (.table origin inner) =>
      if admitsDotted origin path.isEmpty then do
        return Assoc.insert step (.table origin (← assignDotted key v path inner)) entries
      else none
    | some _ => none

def openTable (key : String) : List String → Entries → Option Entries
  | [], entries =>
    match Assoc.find? key entries with
    | none => some (Assoc.insert key (.table .header []) entries)
    | some (.table .implied inner) => some (Assoc.insert key (.table .header inner) entries)
    | some _ => none
  | step :: path, entries =>
    match Assoc.find? step entries with
    | none => do
      return Assoc.insert step (.table .implied (← openTable key path [])) entries
    | some (.table origin inner) =>
      if origin = .braces then none
      else do
        return Assoc.insert step (.table origin (← openTable key path inner)) entries
    | some _ => none

def within (change : Entries → Option Entries) : List String → Entries → Option Entries
  | [], entries => change entries
  | step :: path, entries =>
    match Assoc.find? step entries with
    | some (.table origin inner) => do
      return Assoc.insert step (.table origin (← within change path inner)) entries
    | _ => none

end Entries
end TypedRecords.Toml
