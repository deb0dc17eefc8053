import TypedRecords.Json.Basic
import TypedRecords.Decimal.Text
import TypedRecords.Text.Digits

/-! The written forms of JSON values.
The compact form has no blanks. The indented form puts every item and field on a line of
its own, two blanks deeper than what holds it, and keeps empty lists and objects closed. -/
namespace TypedRecords.Json

/-- From 1e-5 up to below 1e16 numbers are written positionally, others as in 1.5e-7 or 1e+16.
Of two equally near numbers the one with an even last digit is written. -/
def numberLayout : Decimal.Layout := ⟨-5, 15, true, .toEven⟩

def escape (c : Char) : String :=
  if c == '"' then "\\\""
  else if c == '\\' then "\\\\"
  else if c == '\x08' then "\\b"
  else if c == '\x0c' then "\\f"
  else if c == '\n' then "\\n"
  else if c == '\r' then "\\r"
  else if c == '\t' then "\\t"
  else if c.toNat < 32 then "\\u00" ++ Text.hexByte (UInt8.ofNat c.toNat)
  else c.toString

def quote (s : String) : String :=
  s.foldl (fun text c => text ++ escape c) "\"" ++ "\""

/-- What is no finite number has no written form and becomes `null`. -/
def floatText (x : Binary64) : String :=
  if x.isFinite then numberLayout.binary64 x else "null"

def atom : Json → String
  | .bool true => "true"
  | .bool false => "false"
  | .int n => toString n
  | .float x => floatText x
  | .str s => quote s
  | _ => "null"

mutual
def compact : Json → String
  | .arr items => "[" ++ String.intercalate "," (compactItems items) ++ "]"
  | .obj fields => "\x7b" ++ String.intercalate "," (compactFields fields) ++ "\x7d"
  | j => atom j

def compactItems : List Json → List String
  | [] => []
  | j :: rest => compact j :: compactItems rest

def compactFields : List (String × Json) → List String
  | [] => []
  | (key, j) :: rest => (quote key ++ ":" ++ compact j) :: compactFields rest
end

def newline (depth : Nat) : String := "\n" ++ String.ofList (List.replicate (2 * depth) ' ')

def block (depth : Nat) (opening closing : String) (parts : List String) : String :=
  if parts.isEmpty then opening ++ closing
  else opening ++ newline (depth + 1) ++ String.intercalate ("," ++ newline (depth + 1)) parts
    ++ newline depth ++ closing

mutual
def indented (depth : Nat) : Json → String
  | .arr items => block depth "[" "]" (indentedItems (depth + 1) items)
  | .obj fields => block depth "\x7b" "\x7d" (indentedFields (depth + 1) fields)
  | j => atom j

def indentedItems (depth : Nat) : List Json → List String
  | [] => []
  | j :: rest => indented depth j :: indentedItems depth rest

def indentedFields (depth : Nat) : List (String × Json) → List String
  | [] => []
  | (key, j) :: rest =>
    (quote key ++ ": " ++ indented depth j) :: indentedFields depth rest
end

def pretty (j : Json) : String := indented 0 j

end TypedRecords.Json
