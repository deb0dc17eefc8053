import TypedRecords.Binary
import TypedRecords.Config.Path
import TypedRecords.Toml.Reader

/-! Settings from several sources.
Tables are merged key by key, and any other setting takes the place of what was there. The
case of keys does not count. In the environment a name is a path of keys, and its value is
taken for a truth value or a number wherever it reads as one. -/
namespace TypedRecords

inductive Setting where
  | missing
  | bool (b : Bool)
  | int (n : Int)
  | float (x : Binary64)
  | text (s : String)
  /-- A list of some length; where no item is given, the list holds a missing one. -/
  | list (count : Nat) (items : List (Nat × Setting))
  | table (entries : List (String × Setting))

namespace Setting

mutual
def ofToml : Toml.Value → Setting
  | .bool b => .bool b
  | .int n => .int n
  | .text s => .text s
  | .table _ entries => .table (entriesOfToml entries)

def entriesOfToml : Toml.Entries → List (String × Setting)
  | [] => []
  | (key, v) :: rest => (key, ofToml v) :: entriesOfToml rest
end

def entries : Setting → List (String × Setting)
  | .table entries => entries
  | _ => []

def count : Setting → Nat
  | .list count _ => count
  | _ => 0

def items : Setting → List (Nat × Setting)
  | .list _ items => items
  | _ => []

def item (s : Setting) (place : Nat) : Setting := (s.items.lookup place).getD .missing

def find? (s : Setting) (key : String) : Option Setting := Assoc.find? key s.entries

mutual
def place (key : String) (v : Setting) (root : Setting) : Setting :=
  match v with
  | .table incoming =>
    let old := (root.find? key.toLower).getD (.table [])
    .table (Assoc.insert key.toLower (placeAll incoming old) root.entries)
  | v => .table (Assoc.insert key.toLower v root.entries)

def placeAll (incoming : List (String × Setting)) (root : Setting) : Setting :=
  match incoming with
  | [] => root
  | (key, v) :: rest => placeAll rest (place key v root)
end

def maxCount : Nat := twoTo 56

/-- The place of an item from the start of a list; there is none before the first, and none
after the last that a list can hold. -/
def itemPlace? (count : Nat) (place : Int) : Option Nat :=
  if 0 ≤ place then if place < maxCount then some place.toNat else none
  else if place.natAbs ≤ count then some (count - place.natAbs)
  else none

def withItem (place : Nat) (v root : Setting) : Setting :=
  .list (max root.count (place + 1)) ((place, v) :: root.items.filter fun p => p.1 != place)

/-- Puts a setting at the end of a path. What is no table or list becomes one where the path
needs it. -/
def placeAt (v root : Setting) : Path → Option Setting
  | [] => some v
  | [.key key] => some (place key v root)
  | .key key :: path => do
    let inner ← placeAt v ((root.find? key.toLower).getD .missing) path
    return .table (Assoc.insert key.toLower inner root.entries)
  | .item n :: path => do
    let n ← itemPlace? root.count n
    return withItem n (← placeAt v (root.item n) path) root

def addSource (root : Setting) (source : List (String × Setting)) : Option Setting :=
  source.foldlM (fun root p => placeAt p.2 root (Path.ofName p.1)) root

/-! The environment. -/

def signed? (read : List Char → Option α) (apply : Bool → α → β) : List Char → Option β
  | '-' :: rest => (read rest).map (apply true)
  | '+' :: rest => (read rest).map (apply false)
  | cs => (read cs).map (apply false)

def digits? (cs : List Char) : Option Nat :=
  if !cs.isEmpty && cs.all Char.isDigit then some (Text.decimalValue cs) else none

def int? (cs : List Char) : Option Int := do
  let n ← signed? digits? (fun negative n => if negative then -(n : Int) else n) cs
  if fitsSigned 64 n then return n else none

/-- The magnitude nearest to `n * 10 ^ exponent`. Four hundred places of either sign are
more than any finite number but zero has. -/
def scaledMagnitude (n : Nat) (exponent : Int) : Nat :=
  let leading := exponent + (toString n).length
  if n = 0 || leading < -400 then 0
  else if 400 < leading then BinaryFormat.binary64.infinity
  else BinaryFormat.binary64.round (n * tenTo exponent.toNat) (tenTo (-exponent).toNat)

def decimal? (cs : List Char) : Option Nat := do
  let (mantissa, tail) := cs.span fun c => c != 'e' && c != 'E'
  let (whole, point) := mantissa.span fun c => c != '.'
  let fraction := point.drop 1
  let exponent ← match tail with
    | [] => some 0
    | _ :: rest => signed? digits? (fun negative n => if negative then -(n : Int) else n) rest
  let n ← digits? (whole ++ fraction)
  return scaledMagnitude n (exponent - fraction.length)

def magnitude? (cs : List Char) : Option Nat :=
  let word := String.ofList (cs.map Char.toLower)
  if word == "inf" || word == "infinity" then some BinaryFormat.binary64.infinity
  else if word == "nan" then some (BinaryFormat.binary64.infinity + 1)
  else decimal? cs

def float? (cs : List Char) : Option Binary64 := signed? magnitude? Binary64.ofParts cs

def ofText (s : String) : Setting :=
  if s.toLower == "true" then .bool true
  else if s.toLower == "false" then .bool false
  else
    match int? s.toList with
    | some n => .int n
    | none =>
      match float? s.toList with
      | some x => .float x
      | none => .text s

def variableStem : String := "records__"

def ofVariable? (name value : String) : Option (String × Setting) :=
  let name := name.toLower
  if name.startsWith variableStem then
    let key := String.ofList (name.toList.drop variableStem.length)
    some (".".intercalate (key.splitOn "__"), ofText value)
  else none

end Setting
end TypedRecords
