import TypedRecords.CommandLine.Arguments
import TypedRecords.Config.Basic
import TypedRecords.Schema.DescriptorJson

/-! What the program does.
It reads its configuration, then the files that the request names, and answers with a text;
writing a container also leaves a file. Any fault ends the run. -/
namespace TypedRecords.CommandLine

open Config

structure Outcome where
  status : Nat
  output : String
  deriving DecidableEq, Repr

/-- The answer to a request, with the file that it leaves. -/
structure Answer where
  output : String
  file : Option (String × List UInt8)

def usageStatus : Nat := 2

/-- Any fault but those that end the program at once has the same status. -/
def faultStatus : SchemaError → Nat
  | .abort _ => 101
  | _ => 1

def readBytes (files : Files) (path : String) : Result (List UInt8) :=
  match files.read? path with
  | some bytes => .ok bytes
  | none => .error .io

def readJson (files : Files) (path : String) : Result Json := do
  match Text.ofUtf8? (← readBytes files path) with
  | none => .error .io
  | some text =>
    match Json.parse text with
    | some j => return j
    | none => .error .json

def readSchema (files : Files) (path : String) : Result Schema := do
  (← Descriptor.ofJson (← readJson files path)).build

def recordsOf (s : Schema) : Json → Result (List Record)
  | .arr items => items.mapM (Record.ofJson s)
  | j => do return [← Record.ofJson s j]

def report (s : Schema) (records : List Record) : Json :=
  Json.ofFields [("schema", s.describe.toJson), ("records", .arr (records.map Record.toJson))]

def writtenNotice (count size : Nat) (path : String) : String :=
  s!"✅ Wrote {count} record(s), {size} bytes to {Text.quoted path}"

def perform (files : Files) (c : Config) : Request → Result Answer
  | .compile descriptor => do
    let s ← readSchema files descriptor
    return ⟨c.format.render s.toCanonicalJson, none⟩
  | .decode container => do
    let (s, records) ← c.codec.decodeAll (← readBytes files container)
    return ⟨c.format.render (report s records), none⟩
  | .encode descriptor records output => do
    let s ← readSchema files descriptor
    let records ← recordsOf s (← readJson files records)
    let bytes ← c.codec.encodeAll s records
    return ⟨writtenNotice records.length bytes.length output, some (output, bytes)⟩

def answer (files : Files) (home : Option String) (environment : List (String × String))
    (i : Invocation) : Result Answer := do
  perform files (← Config.load files home environment i.config) i.request

def Stop.outcome : Stop → Outcome
  | .help page => ⟨0, page⟩
  | .usage => ⟨usageStatus, ""⟩

def Answer.save (a : Answer) (files : Files) : Result Files :=
  match a.file with
  | none => .ok files
  | some (path, bytes) =>
    match files.write? path bytes with
    | some files => .ok files
    | none => .error .io

def run (files : Files) (home : Option String) (environment : List (String × String))
    (args : List String) : Outcome × Files :=
  match read args with
  | .error stop => (stop.outcome, files)
  | .ok i =>
    let result := do
      let a ← answer files home environment i
      return (a.output, ← a.save files)
    match result with
    | .ok (output, files) => (⟨0, output ++ "\n"⟩, files)
    | .error e => (⟨faultStatus e, ""⟩, files)

/-! Files of a run. -/

def Request.inputs : Request → List String
  | .compile descriptor => [descriptor]
  | .decode container => [container]
  | .encode descriptor records _ => [descriptor, records]

def Invocation.inputs (i : Invocation) (home : Option String) : List String :=
  let sources := Config.places ++ (home.map Config.homePlace).toList ++ i.config.toList
  sources.flatMap (fun path => path :: (withExtension? path Config.extension).toList)
    ++ i.request.inputs

end TypedRecords.CommandLine
