import TypedRecords.Text.Hidden

/-! Texts in quotes, as messages show them.
Quotes and backslashes are escaped, and so is every character that could not be told by
its looks. -/
namespace TypedRecords.Text

def hexNumber (n : Nat) : String := String.ofList (Nat.toDigits 16 n)

def shownChar (c : Char) : String :=
  if c == '"' then "\\\""
  else if c == '\\' then "\\\\"
  else if c == '\n' then "\\n"
  else if c == '\r' then "\\r"
  else if c == '\t' then "\\t"
  else if c == '\x00' then "\\0"
  else if isHidden c then "\\u\x7b" ++ hexNumber c.toNat ++ "\x7d"
  else c.toString

def quoted (s : String) : String := s.foldl (fun text c => text ++ shownChar c) "\"" ++ "\""

end TypedRecords.Text
