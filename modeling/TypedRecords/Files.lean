import TypedRecords.Text.Parts
import TypedRecords.Text.Utf8

/-! The files that a program works with, by their paths.
A path is walked step by step, so that different spellings of one path lead to one file.
Every step but the last must come to a directory, and a path that ends in a slash or a dot
leads to a directory itself. A file can be written where there is a directory for it. -/
namespace TypedRecords

abbrev Place := List String

namespace Place

def top : Place := ["/"]

def steps (path : String) : Place × List String :=
  (if path.startsWith "/" then top else [], Text.parts '/' path)

def parent (place : Place) : Place :=
  if place == top then top
  else if place.isEmpty || place.getLast? == some ".." then place ++ [".."]
  else place.dropLast

def next (place : Place) (step : String) : Place :=
  if step.isEmpty || step == "." then place
  else if step == ".." then place.parent
  else place ++ [step]

def maxNameLength : Nat := 255

def maxPathLength : Nat := 4095

end Place

/-- The files, and the directories that are there besides those above the start. -/
structure Files where
  directories : List Place
  contents : List (Place × List UInt8)

namespace Files

def empty : Files := ⟨[], []⟩

def isDirectory (files : Files) (place : Place) : Bool :=
  place.all (· == "..") || files.directories.contains place

def step? (files : Files) (place : Place) (step : String) : Option Place :=
  if files.isDirectory place && step.utf8ByteSize ≤ Place.maxNameLength then
    some (place.next step)
  else none

def place? (files : Files) (path : String) : Option Place :=
  if path.isEmpty || Place.maxPathLength < path.utf8ByteSize then none
  else
    let (start, steps) := Place.steps path
    steps.foldlM files.step? start

def read? (files : Files) (path : String) : Option (List UInt8) :=
  (files.place? path).bind fun place => files.contents.lookup place

def isThere (files : Files) (path : String) : Bool :=
  (files.place? path).any fun place =>
    files.isDirectory place || (files.contents.lookup place).isSome

def put (files : Files) (place : Place) (bytes : List UInt8) : Files :=
  { files with contents := (place, bytes) :: files.contents.filter fun p => p.1 != place }

def insert (files : Files) (path : String) (bytes : List UInt8) : Files :=
  let (start, steps) := Place.steps path
  let (files, place) := steps.foldl (fun (files, place) step =>
    (({ files with directories := place :: files.directories } : Files), place.next step))
    (files, start)
  files.put place bytes

def write? (files : Files) (path : String) (bytes : List UInt8) : Option Files := do
  let place ← files.place? path
  if files.isDirectory place then none else some (files.put place bytes)

end Files

/-- The ending of a path after the last dot of its last step; a dot that opens the step
does not count. -/
def pathExtension? (path : String) : Option String :=
  match (Text.parts '.' ((Text.parts '/' path).getLastD "")).reverse with
  | extension :: stem :: more => if stem.isEmpty && more.isEmpty then none else some extension
  | _ => none

/-- The path with an ending added to its last name; what follows the name is left out. -/
def withExtension? (path extension : String) : Option String :=
  match (Text.parts '/' path).reverse.dropWhile fun step => step.isEmpty || step == "." with
  | [] => none
  | name :: steps =>
    if name == ".." then none
    else some ("/".intercalate (((name ++ "." ++ extension) :: steps).reverse))

end TypedRecords
