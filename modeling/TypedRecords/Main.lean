import TypedRecords.CommandLine.Run

/-! The program `record-inspect`: reads the files that the arguments name, runs on them and
leaves the file and the text of the answer. -/
namespace TypedRecords.CommandLine

def configHome : IO (Option String) := do
  match ← IO.getEnv "XDG_CONFIG_HOME" with
  | some home => if home.startsWith "/" then return some home else fallback
  | none => fallback
where
  fallback : IO (Option String) := do
    return (← IO.getEnv "HOME").map fun home => home ++ "/.config"

def settingNames : List String :=
  ["RECORDS__CODEC", "RECORDS__CODEC__COMPRESSION", "RECORDS__CODEC__STRICT_ORDER",
    "RECORDS__OUTPUT", "RECORDS__OUTPUT__FORMAT"]

def namedVariables : IO (List (String × String)) :=
  settingNames.filterMapM fun name => do
    return (← IO.getEnv name).map fun value => (name, value)

def assignment? (text : String) : Option (String × String) :=
  match Text.parts '=' text with
  | name :: value => some (name, "=".intercalate value)
  | [] => none

/-- All variables, where the system lists them, and otherwise those with known names. -/
def readVariables : IO (List (String × String)) := do
  try
    let bytes ← IO.FS.readBinFile "/proc/self/environ"
    return (Text.parts '\x00' (Text.repaired bytes.toList)).filterMap assignment?
  catch _ => namedVariables

def readFiles (paths : List String) : IO Files :=
  paths.foldlM (fun files (path : String) => do
    try return files.insert path (← IO.FS.readBinFile path).toList
    catch _ => return files) Files.empty

def fail (e : SchemaError) : IO UInt32 := do
  IO.eprintln s!"Error: {e.message}"
  return UInt32.ofNat (faultStatus e)

def finish (a : Answer) : IO UInt32 := do
  match a.file with
  | none => pure ()
  | some (path, bytes) => IO.FS.writeBinFile path ⟨bytes.toArray⟩
  IO.println a.output
  return 0

def start (i : Invocation) : IO UInt32 := do
  let home ← configHome
  let files ← readFiles (i.inputs home)
  match answer files home (← readVariables) i with
  | .error e => fail e
  | .ok a =>
    try finish a
    catch _ => fail .io

end TypedRecords.CommandLine

def main (args : List String) : IO UInt32 := do
  match TypedRecords.CommandLine.read args with
  | .error stop =>
    IO.print stop.outcome.output
    return UInt32.ofNat stop.outcome.status
  | .ok i => TypedRecords.CommandLine.start i
