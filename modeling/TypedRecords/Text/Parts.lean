/-! Texts cut at every place where a separator stands. -/
namespace TypedRecords.Text

def splitChars (separator : Char) : List Char → List (List Char)
  | [] => [[]]
  | c :: cs =>
    if c == separator then [] :: splitChars separator cs
    else match splitChars separator cs with
      | [] => [[c]]
      | part :: parts => (c :: part) :: parts

/-- The parts of a text, which may be empty; there is at least one. -/
def parts (separator : Char) (text : String) : List String :=
  (splitChars separator text.toList).map String.ofList

end TypedRecords.Text
