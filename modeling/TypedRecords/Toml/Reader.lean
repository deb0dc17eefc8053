import TypedRecords.Powers
import TypedRecords.Text.Digits
import TypedRecords.Toml.Basic

/-! Reading TOML text.
A text is a row of lines, each with a header, a key and its value, or nothing. Values are
truth values, whole numbers, texts and tables between braces. -/
namespace TypedRecords.Toml

def isBlank (c : Char) : Bool := c == ' ' || c == '\t'

def skipBlanks (cs : List Char) : List Char := cs.dropWhile isBlank

def isPlain (c : Char) : Bool := c == '\t' || 32 ≤ c.toNat && c.toNat ≠ 127

def afterBreak? : List Char → Option (List Char)
  | '\n' :: rest => some rest
  | '\r' :: '\n' :: rest => some rest
  | _ => none

/-- What follows the blanks and the comment that may end a line, and the break after it. -/
def endLine? (cs : List Char) : Option (List Char) :=
  let cs := match skipBlanks cs with
    | '#' :: rest => rest.dropWhile isPlain
    | cs => cs
  if cs.isEmpty then some [] else afterBreak? cs

/-! Texts. -/

def digitsValue? (cs : List Char) : Option Nat :=
  cs.foldlM (fun n c => (Text.hexValue? c).map (16 * n + ·)) 0

def numbered? (count : Nat) (cs : List Char) : Option (Char × List Char) := do
  let digits := cs.take count
  let n ← digitsValue? digits
  if digits.length = count && n.isValidChar then return (Char.ofNat n, cs.drop count) else none

def escape? : List Char → Option (Char × List Char)
  | 'b' :: rest => some ('\x08', rest)
  | 't' :: rest => some ('\t', rest)
  | 'n' :: rest => some ('\n', rest)
  | 'f' :: rest => some ('\x0c', rest)
  | 'r' :: rest => some ('\r', rest)
  | '"' :: rest => some ('"', rest)
  | '\\' :: rest => some ('\\', rest)
  | 'u' :: rest => numbered? 4 rest
  | 'U' :: rest => numbered? 8 rest
  | _ => none

/-- The rest of a text on one line, up to the quote; only some quotes know escapes. -/
def readLine (quote : Char) (escapes : Bool) : (fuel : Nat) → List Char →
    Option (List Char × List Char)
  | 0, _ => none
  | fuel + 1, cs =>
    match cs with
    | [] => none
    | c :: rest =>
      if c == quote then some ([], rest)
      else if c == '\\' && escapes then do
        let (d, rest) ← escape? rest
        let (text, rest) ← readLine quote escapes fuel rest
        return (d :: text, rest)
      else if isPlain c then do
        let (text, rest) ← readLine quote escapes fuel rest
        return (c :: text, rest)
      else none

def skipLines : List Char → List Char
  | '\n' :: rest => skipLines rest
  | '\r' :: '\n' :: rest => skipLines rest
  | c :: rest => if isBlank c then skipLines rest else c :: rest
  | [] => []

def joinLines? (cs : List Char) : Option (List Char) :=
  (afterBreak? (skipBlanks cs)).map skipLines

/-- The quotes that end a text of several lines: three, and up to two that belong to it. -/
def closing? (quote : Char) (cs : List Char) : Option (List Char × List Char) :=
  let count := (cs.takeWhile (· == quote)).length
  if count < 3 then none
  else
    let own := min (count - 3) 2
    some (List.replicate own quote, cs.drop (own + 3))

def readLines (quote : Char) (escapes : Bool) : (fuel : Nat) → List Char →
    Option (List Char × List Char)
  | 0, _ => none
  | fuel + 1, cs =>
    match closing? quote cs with
    | some done => some done
    | none =>
      match cs with
      | [] => none
      | c :: rest =>
        match afterBreak? cs with
        | some rest => do
          let (text, rest) ← readLines quote escapes fuel rest
          return ('\n' :: text, rest)
        | none =>
          if c == '\\' && escapes then
            match joinLines? rest with
            | some rest => readLines quote escapes fuel rest
            | none => do
              let (d, rest) ← escape? rest
              let (text, rest) ← readLines quote escapes fuel rest
              return (d :: text, rest)
          else if isPlain c then do
            let (text, rest) ← readLines quote escapes fuel rest
            return (c :: text, rest)
          else none

def readText (quote : Char) (escapes : Bool) (cs : List Char) : Option (String × List Char) := do
  let (text, rest) ← match cs with
    | a :: b :: rest =>
      if a == quote && b == quote then
        let rest := (afterBreak? rest).getD rest
        readLines quote escapes (rest.length + 1) rest
      else readLine quote escapes (cs.length + 1) cs
    | cs => readLine quote escapes (cs.length + 1) cs
  return (String.ofList text, rest)

/-! Keys. -/

def isBare (c : Char) : Bool := c.isAlphanum || c == '_' || c == '-'

def readKeyPart (cs : List Char) : Option (String × List Char) :=
  match cs with
  | '"' :: rest => do
    let (text, rest) ← readLine '"' true (rest.length + 1) rest
    return (String.ofList text, rest)
  | '\x27' :: rest => do
    let (text, rest) ← readLine '\x27' false (rest.length + 1) rest
    return (String.ofList text, rest)
  | cs =>
    let key := cs.takeWhile isBare
    if key.isEmpty then none else some (String.ofList key, cs.dropWhile isBare)

def readKeyParts : (fuel : Nat) → List Char → Option (List String × List Char)
  | 0, _ => none
  | fuel + 1, cs => do
    let (part, rest) ← readKeyPart (skipBlanks cs)
    match skipBlanks rest with
    | '.' :: rest =>
      let (parts, rest) ← readKeyParts fuel rest
      return (part :: parts, rest)
    | rest => return ([part], rest)

/-- No key has more parts, and no value lies within more braces. -/
def maxDepth : Nat := 79

def readKey (cs : List Char) : Option (List String × String × List Char) := do
  let (parts, rest) ← readKeyParts (cs.length + 1) cs
  if maxDepth < parts.length then none else return (parts.dropLast, ← parts.getLast?, rest)

/-! Values. -/

/-- Digits of a base, where a line may stand between any two of them. -/
def readDigits (base : Nat) : (n : Nat) → List Char → Option Nat
  | _, [] => none
  | n, [c] => do
    let d ← Text.hexValue? c
    if d < base then return n * base + d else none
  | n, c :: '_' :: rest => do
    let d ← Text.hexValue? c
    if d < base then readDigits base (n * base + d) rest else none
  | n, c :: rest => do
    let d ← Text.hexValue? c
    if d < base then readDigits base (n * base + d) rest else none

def readDecimal : List Char → Option Nat
  | ['0'] => some 0
  | '0' :: _ => none
  | cs => readDigits 10 0 cs

def readInt (cs : List Char) : Option Int := do
  let n : Int ← match cs with
    | '-' :: rest => (readDecimal rest).map fun n => -(n : Int)
    | '+' :: rest => (readDecimal rest).map Int.ofNat
    | '0' :: 'x' :: rest => (readDigits 16 0 rest).map Int.ofNat
    | '0' :: 'o' :: rest => (readDigits 8 0 rest).map Int.ofNat
    | '0' :: 'b' :: rest => (readDigits 2 0 rest).map Int.ofNat
    | cs => (readDecimal cs).map Int.ofNat
  if fitsSigned 64 n then return n else none

def readWord (word : List Char) : Option Value :=
  if word = "true".toList then some (.bool true)
  else if word = "false".toList then some (.bool false)
  else (readInt word).map .int

def isWordChar (c : Char) : Bool := c.isAlphanum || c == '_' || c == '-' || c == '+'

mutual
def readValue (depth : Nat) : (fuel : Nat) → List Char → Option (Value × List Char)
  | 0, _ => none
  | fuel + 1, cs =>
    match cs with
    | '"' :: rest => (readText '"' true rest).map fun (s, rest) => (.text s, rest)
    | '\x27' :: rest => (readText '\x27' false rest).map fun (s, rest) => (.text s, rest)
    | '\x7b' :: rest =>
      match depth, skipBlanks rest with
      | 0, _ => none
      | _ + 1, '\x7d' :: rest => some (.table .braces [], rest)
      | depth + 1, rest => do
        let (entries, rest) ← readEntries depth fuel [] rest
        return (.table .braces entries, rest)
    | cs => (readWord (cs.takeWhile isWordChar)).map fun v => (v, cs.dropWhile isWordChar)

def readEntries (depth : Nat) : (fuel : Nat) → Entries → List Char → Option (Entries × List Char)
  | 0, _, _ => none
  | fuel + 1, entries, cs => do
    let (path, key, rest) ← readKey cs
    match rest with
    | '=' :: rest =>
      let (v, rest) ← readValue depth fuel (skipBlanks rest)
      let entries ← entries.assignDotted key v path
      match skipBlanks rest with
      | ',' :: rest => readEntries depth fuel entries rest
      | '\x7d' :: rest => return (entries, rest)
      | _ => none
    | _ => none
end

/-! Lines. -/

structure Document where
  current : List String
  entries : Entries

def readHeader (d : Document) (cs : List Char) : Option (Document × List Char) := do
  let (path, key, rest) ← readKey cs
  match rest with
  | ']' :: rest =>
    let entries ← d.entries.openTable key path
    return (⟨path ++ [key], entries⟩, ← endLine? rest)
  | _ => none

def readAssignment (d : Document) (cs : List Char) : Option (Document × List Char) := do
  let (path, key, rest) ← readKey cs
  match rest with
  | '=' :: rest =>
    let (v, rest) ← readValue maxDepth (rest.length + 1) (skipBlanks rest)
    let entries ← d.entries.within (fun es => es.assignDotted key v path) d.current
    return (⟨d.current, entries⟩, ← endLine? rest)
  | _ => none

def readDocument : (fuel : Nat) → Document → List Char → Option Entries
  | 0, _, _ => none
  | fuel + 1, d, cs =>
    match skipBlanks cs with
    | [] => some d.entries
    | '[' :: rest => do
      let (d, rest) ← readHeader d rest
      readDocument fuel d rest
    | cs =>
      match endLine? cs with
      | some rest => readDocument fuel d rest
      | none => do
        let (d, rest) ← readAssignment d cs
        readDocument fuel d rest

/-- The entries of a text, which a mark of the byte order may open. -/
def parse (text : String) : Option Entries :=
  let cs := text.toList
  let cs := if cs.head? == some '\uFEFF' then cs.drop 1 else cs
  readDocument (cs.length + 1) ⟨[], []⟩ cs

end TypedRecords.Toml
