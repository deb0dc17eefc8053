import TypedRecords.Text.Digits

/-! Texts of universally unique identifiers: thirty-two hexadecimal digits, which are
written in groups of eight, four, four, four and twelve. -/
namespace TypedRecords.Avro.Uuid

def grouped : List Nat → List Char → List Char
  | [], _ => []
  | [size], cs => cs.take size
  | size :: sizes, cs => cs.take size ++ '-' :: grouped sizes (cs.drop size)

def ungrouped? : List Nat → List Char → Option (List Char)
  | [], cs => if cs.isEmpty then some [] else none
  | [size], cs => if cs.length = size then some cs else none
  | size :: sizes, cs =>
    match cs.drop size with
    | '-' :: rest => (ungrouped? sizes rest).map (cs.take size ++ ·)
    | _ => none

def groupSizes : List Nat := [8, 4, 4, 4, 12]

/-- The text within braces or after the words of the name space, if it has any of them. The
case of the words does not count. -/
def bare (cs : List Char) : List Char :=
  let words := "urn:uuid:".toList
  if cs.length = 38 && cs.head? == some '\x7b' && cs.getLast? == some '\x7d' then
    (cs.drop 1).dropLast
  else if cs.length = 45 && words.isPrefixOf (cs.map Char.toLower) then cs.drop words.length
  else cs

def ofText? (text : String) : Option String := do
  let cs := text.toList
  let digits ← if cs.length = 32 then some cs else ungrouped? groupSizes (bare cs)
  if digits.all fun c => (Text.hexValue? c).isSome then
    return String.ofList (grouped groupSizes (digits.map Char.toLower))
  else none

end TypedRecords.Avro.Uuid
