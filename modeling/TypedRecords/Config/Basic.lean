import TypedRecords.Codec
import TypedRecords.Config.Setting
import TypedRecords.Files

/-! The configuration of the program.
Settings are gathered from files in fixed places, from a file that is asked for and from
the environment, in this order; the later ones win. Settings that are not known do no harm,
but known ones must be sound. -/
namespace TypedRecords

inductive OutputFormat where
  | pretty | compact
  deriving DecidableEq, Repr

namespace OutputFormat

def all : List OutputFormat := [.pretty, .compact]

def name : OutputFormat → String
  | .pretty => "pretty"
  | .compact => "compact"

def ofName? (name : String) : Option OutputFormat := all.find? fun f => f.name == name

def render : OutputFormat → Json → String
  | .pretty => Json.pretty
  | .compact => Json.compact

end OutputFormat

structure Config where
  codec : Codec
  format : OutputFormat
  deriving DecidableEq, Repr

namespace Config

def default : Config := ⟨Codec.default, .pretty⟩

/-! Settings. -/

/-- One of several names, as a text or as the only key of a table; its case does not count. -/
def readName {α : Type} (ofName? : String → Option α) : Setting → Option α
  | .text s => ofName? s.toLower
  | .table [(key, _)] => ofName? key.toLower
  | _ => none

def trueWords : List String := ["1", "true", "on", "yes"]

def falseWords : List String := ["0", "false", "off", "no"]

def readBool : Setting → Option Bool
  | .bool b => some b
  | .int n => some (n != 0)
  | .float x => some (x.magnitude != 0)
  | .text s =>
    if trueWords.contains s.toLower then some true
    else if falseWords.contains s.toLower then some false
    else none
  | _ => none

def parts? (keys : List String) : Setting → Option (List (String × Setting))
  | .table entries => some entries
  | s@(.list count _) =>
    some ((keys.take count).zipIdx.map fun (key, place) => (key, s.item place))
  | _ => none

def setting {α : Type} (parts : List (String × Setting)) (key : String)
    (read : Setting → Option α) (default : α) : Result α :=
  match parts.lookup key with
  | none => .ok default
  | some s =>
    match read s with
    | some a => .ok a
    | none => .error .config

def ofSetting (root : Setting) : Result Config := do
  let codec ← setting root.entries "codec" (parts? ["compression", "strict_order"]) []
  let output ← setting root.entries "output" (parts? ["format"]) []
  return {
    codec := {
      compression := ← setting codec "compression" (readName Compression.ofName?)
        Codec.default.compression
      strictOrder := ← setting codec "strict_order" readBool Codec.default.strictOrder }
    format := ← setting output "format" (readName OutputFormat.ofName?) Config.default.format }

def toText (c : Config) : String :=
  "[codec]\ncompression = \"" ++ c.codec.compression.name
    ++ "\"\nstrict_order = " ++ (if c.codec.strictOrder then "true" else "false")
    ++ "\n\n[output]\nformat = \"" ++ c.format.name ++ "\"\n"

/-! Sources. -/

def extension : String := "toml"

/-- The file that a path means: the very file, if its kind is known, or else the one that
has the ending added. -/
def locate? (files : Files) (path : String) : Option (List UInt8) :=
  match files.read? path with
  | some bytes => if pathExtension? path == some extension then some bytes else none
  | none => (withExtension? path extension).bind files.read?

def places : List String := ["records.toml", ".records.toml", "config/records.toml"]

def homePlace (home : String) : String := home ++ "/records/records.toml"

def byteOrderMark : List UInt8 := [0xef, 0xbb, 0xbf]

/-- The settings of a file. A mark of the byte order may open it, and bytes that are no text
are no fault by themselves. -/
def readSource (bytes : List UInt8) : Result (List (String × Setting)) :=
  let bytes := if byteOrderMark.isPrefixOf bytes then bytes.drop byteOrderMark.length else bytes
  match Toml.parse (Text.repaired bytes) with
  | some entries => .ok (Setting.entriesOfToml entries)
  | none => .error .config

def addSource (root : Setting) (source : List (String × Setting)) : Result Setting :=
  match root.addSource source with
  | some root => .ok root
  | none => .error (.abort .place)

def addFile (required : Bool) (files : Files) (root : Setting) (path : String) :
    Result Setting :=
  match locate? files path with
  | some bytes => do addSource root (← readSource bytes)
  | none => if required then .error .config else .ok root

def addVariables (root : Setting) (environment : List (String × String)) : Result Setting :=
  addSource root (environment.filterMap fun p => Setting.ofVariable? p.1 p.2)

/-- The configuration that files and variables give; the directory of the user's own
configuration is `home`, and a file that is asked for must be there. -/
def load (files : Files) (home : Option String) (environment : List (String × String))
    (path : Option String) : Result Config := do
  let own := (home.map homePlace).toList.filter files.isThere
  let root ← (places ++ own).foldlM (addFile false files) (.table [])
  let root ← path.toList.foldlM (addFile true files) root
  ofSetting (← addVariables root environment)

def save (c : Config) (files : Files) (path : String) : Result Files :=
  match files.write? path (Text.utf8 c.toText) with
  | some files => .ok files
  | none => .error .io

end Config
end TypedRecords
