import TypedRecords.Powers
import TypedRecords.Text.Digits

/-! Paths of settings.
The name of a setting is a path: keys with dots between them, where a number in brackets
goes into a list. A name that cannot be read as a path is a key by itself. -/
namespace TypedRecords.Setting

inductive Step where
  | key (name : String)
  /-- A place in a list, which counts from its end if it is negative. -/
  | item (place : Int)
  deriving DecidableEq, Repr

abbrev Path := List Step

namespace Path

def isKeyChar (c : Char) : Bool := c.isAlphanum || c == '_' || c == '-' || c == ' '

def isBlank (c : Char) : Bool := c == ' ' || c == '\t'

def readKey (cs : List Char) : Option (Step × List Char) :=
  let name := cs.takeWhile isKeyChar
  if name.isEmpty then none else some (.key (String.ofList name), cs.dropWhile isKeyChar)

def readItem (cs : List Char) : Option (Step × List Char) := do
  let cs := cs.dropWhile isBlank
  let negative := cs.head? == some '-'
  let cs := if negative then cs.drop 1 else cs
  let digits := cs.takeWhile Char.isDigit
  let n : Int := Text.decimalValue digits
  let place := if negative then -n else n
  match (cs.dropWhile Char.isDigit).dropWhile isBlank with
  | ']' :: rest =>
    if digits.isEmpty || !fitsSigned 64 place then none else return (.item place, rest)
  | _ => none

def readSteps : (fuel : Nat) → List Char → Option Path
  | _, [] => some []
  | 0, _ => none
  | fuel + 1, c :: cs => do
    let (step, rest) ←
      if c == '.' then readKey cs else if c == '[' then readItem cs else none
    return step :: (← readSteps fuel rest)

def read? (name : String) : Option Path := do
  let (step, rest) ← readKey name.toList
  return step :: (← readSteps rest.length rest)

def ofName (name : String) : Path := (read? name).getD [.key name]

end Path
end TypedRecords.Setting
