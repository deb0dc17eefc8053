import TypedRecords.Json.Number

/-! Reading JSON text.
Lists and objects may stand inside each other up to a given depth. Of two fields with one
key the later one counts. The text must hold one value and nothing but blanks around it. -/
namespace TypedRecords.Json

def documentDepth : Nat := 127

def isBlank (c : Char) : Bool := c == ' ' || c == '\n' || c == '\t' || c == '\r'

def skipBlanks (cs : List Char) : List Char := cs.dropWhile isBlank

def readUnit : List Char → Option (Nat × List Char)
  | a :: b :: c :: d :: rest => do
    let a ← Text.hexValue? a
    let b ← Text.hexValue? b
    let c ← Text.hexValue? c
    let d ← Text.hexValue? d
    return (((a * 16 + b) * 16 + c) * 16 + d, rest)
  | _ => none

/-- The character of an escape, after the backslash. A character beyond the sixteen-bit
units is written as a pair of units, and half a pair is no character. -/
def readEscape : List Char → Option (Char × List Char)
  | '"' :: rest => some ('"', rest)
  | '\\' :: rest => some ('\\', rest)
  | '/' :: rest => some ('/', rest)
  | 'b' :: rest => some ('\x08', rest)
  | 'f' :: rest => some ('\x0c', rest)
  | 'n' :: rest => some ('\n', rest)
  | 'r' :: rest => some ('\r', rest)
  | 't' :: rest => some ('\t', rest)
  | 'u' :: rest => do
    let (high, rest) ← readUnit rest
    if 0xD800 ≤ high && high < 0xDC00 then
      match rest with
      | '\\' :: 'u' :: rest => do
        let (low, rest) ← readUnit rest
        if 0xDC00 ≤ low && low < 0xE000 then
          return (Char.ofNat (0x10000 + (high - 0xD800) * 0x400 + (low - 0xDC00)), rest)
        else none
      | _ => none
    else if 0xDC00 ≤ high && high < 0xE000 then none
    else return (Char.ofNat high, rest)
  | _ => none

def readString : (fuel : Nat) → (done : List Char) → List Char → Option (String × List Char)
  | 0, _, _ => none
  | fuel + 1, done, cs =>
    match cs with
    | '"' :: rest => some (String.ofList done.reverse, rest)
    | '\\' :: rest =>
      match readEscape rest with
      | some (c, rest) => readString fuel (c :: done) rest
      | none => none
    | c :: rest => if c.toNat < 32 then none else readString fuel (c :: done) rest
    | [] => none

def readLiteral (word : String) (value : Json) (cs : List Char) : Option (Json × List Char) :=
  if word.toList.isPrefixOf cs then some (value, cs.drop word.length) else none

mutual
def readValue : (fuel depth : Nat) → List Char → Option (Json × List Char)
  | 0, _, _ => none
  | fuel + 1, depth, cs =>
    match skipBlanks cs with
    | '[' :: rest =>
      match depth with
      | 0 => none
      | depth + 1 =>
        match skipBlanks rest with
        | ']' :: rest => some (.arr [], rest)
        | rest => readItems fuel depth [] rest
    | '\x7b' :: rest =>
      match depth with
      | 0 => none
      | depth + 1 =>
        match skipBlanks rest with
        | '\x7d' :: rest => some (.obj [], rest)
        | rest => readFields fuel depth [] rest
    | '"' :: rest => (readString (rest.length + 1) [] rest).map fun (s, rest) => (.str s, rest)
    | 'n' :: rest => readLiteral "null" .null ('n' :: rest)
    | 't' :: rest => readLiteral "true" (.bool true) ('t' :: rest)
    | 'f' :: rest => readLiteral "false" (.bool false) ('f' :: rest)
    | cs => do
      let (numeral, rest) ← readNumeral cs
      let value ← numeral.value?
      return (value, rest)

def readItems : (fuel depth : Nat) → (done : List Json) → List Char → Option (Json × List Char)
  | 0, _, _, _ => none
  | fuel + 1, depth, done, cs =>
    match readValue fuel depth cs with
    | none => none
    | some (item, rest) =>
      match skipBlanks rest with
      | ',' :: rest => readItems fuel depth (item :: done) rest
      | ']' :: rest => some (.arr (item :: done).reverse, rest)
      | _ => none

def readFields : (fuel depth : Nat) → (done : List (String × Json)) → List Char →
    Option (Json × List Char)
  | 0, _, _, _ => none
  | fuel + 1, depth, done, cs =>
    match skipBlanks cs with
    | '"' :: rest =>
      match readString (rest.length + 1) [] rest with
      | none => none
      | some (key, rest) =>
        match skipBlanks rest with
        | ':' :: rest =>
          match readValue fuel depth rest with
          | none => none
          | some (value, rest) =>
            match skipBlanks rest with
            | ',' :: rest => readFields fuel depth ((key, value) :: done) rest
            | '\x7d' :: rest => some (ofFields ((key, value) :: done).reverse, rest)
            | _ => none
        | _ => none
    | _ => none
end

/-- Every call reads at least one character or is followed by one that does. -/
def parseTo (depth : Nat) (text : String) : Option Json := do
  let cs := text.toList
  let (value, rest) ← readValue (2 * cs.length + 2) depth cs
  if (skipBlanks rest).isEmpty then return value else none

def parse (text : String) : Option Json := parseTo documentDepth text

end TypedRecords.Json
