/-! The arguments of the program.
Options come with their values, in one argument or in two, and each of them once at most.
A command follows the options that belong to all commands. Asking for help ends the reading
of the arguments, and so does the first fault. -/
namespace TypedRecords.CommandLine

inductive Request where
  | compile (descriptor : String)
  | decode (container : String)
  | encode (descriptor records output : String)
  deriving DecidableEq, Repr

structure Invocation where
  config : Option String
  request : Request
  deriving DecidableEq, Repr

/-- Why there is nothing to do: a page of help was asked for, or the usage is wrong. -/
inductive Stop where
  | help (page : String)
  | usage
  deriving DecidableEq, Repr

structure Flag where
  short : Char
  long : String
  mayBeEmpty : Bool

/-! Pages of help. -/

def helpOption : String := "  -h, --help  Print help\n"

def overviewPage : String :=
  "Compile schemas and inspect encoded records

Usage: record-inspect [OPTIONS] <COMMAND>

Commands:
  compile  Print the canonical Avro schema of a descriptor
  decode   Print the schema and records of a container
  encode   Encode JSON records into a container
  help     Print this message or the help of the given subcommand(s)

Options:
  -c, --config <CONFIG>  Configuration file (records.toml)
  -h, --help             Print help
"

def compilePage : String :=
  "Print the canonical Avro schema of a descriptor

Usage: record-inspect compile <DESCRIPTOR>

Arguments:
  <DESCRIPTOR>  Schema descriptor (JSON)

Options:
" ++ helpOption

def decodePage : String :=
  "Print the schema and records of a container

Usage: record-inspect decode <FILE>

Arguments:
  <FILE>  Encoded container file

Options:
" ++ helpOption

def encodePage : String :=
  "Encode JSON records into a container

Usage: record-inspect encode --schema <SCHEMA> --records <RECORDS> --output <OUTPUT>

Options:
  -s, --schema <SCHEMA>    Schema descriptor (JSON)
  -r, --records <RECORDS>  Records as a JSON object or array of objects
  -o, --output <OUTPUT>    Output container file
  -h, --help               Print help
"

def helpPage : String :=
  "Print this message or the help of the given subcommand(s)

Usage: record-inspect help [COMMAND]...

Arguments:
  [COMMAND]...  Print help for the subcommand(s)
"

def pages : List (String × String) :=
  [("compile", compilePage), ("decode", decodePage), ("encode", encodePage), ("help", helpPage)]

/-! Reading. -/

abbrev Options := List (String × String)

def isOption (arg : String) : Bool := arg.startsWith "-" && arg != "-"

def store (options : Options) (f : Flag) (value : String) : Except Stop Options :=
  if (options.lookup f.long).isSome || value.isEmpty && !f.mayBeEmpty then .error .usage
  else .ok (options ++ [(f.long, value)])

def valueOf : Option String → List String → Except Stop (String × List String)
  | some value, rest => .ok (value, rest)
  | none, [] => .error .usage
  | none, next :: rest => if isOption next then .error .usage else .ok (next, rest)

/-- An option with two hyphens, which has its value after an equals sign or in the next
argument. -/
def splitLong (arg : String) : String × Option String :=
  let (name, tail) := (arg.toList.drop 2).span fun c => c != '='
  (String.ofList name, if tail.isEmpty then none else some (String.ofList (tail.drop 1)))

def attached : List Char → Option String
  | [] => none
  | '=' :: rest => some (String.ofList rest)
  | cs => some (String.ofList cs)

def readOption (page : String) (flags : List Flag) (arg : String) :
    Except Stop (Flag × Option String) :=
  match arg.toList with
  | '-' :: '-' :: _ =>
    let (name, value) := splitLong arg
    if name == "help" then .error (if value.isNone then .help page else .usage)
    else
      match flags.find? fun f => f.long == name with
      | some f => .ok (f, value)
      | none => .error .usage
  | _ :: c :: rest =>
    if c == 'h' then .error (.help page)
    else
      match flags.find? fun f => f.short == c with
      | some f => .ok (f, attached rest)
      | none => .error .usage
  | _ => .error .usage

/-- The options and the other arguments of a command, at most `free` of the latter. Every
step takes at least one argument. -/
def readArguments (page : String) (flags : List Flag) : (fuel free : Nat) → Options →
    List String → Except Stop (Options × List String)
  | 0, _, _, _ => .error .usage
  | _ + 1, _, options, [] => .ok (options, [])
  | fuel + 1, free, options, arg :: rest =>
    if arg == "--" then
      if rest.length ≤ free && !rest.contains "" then .ok (options, rest) else .error .usage
    else if isOption arg then do
      let (f, value) ← readOption page flags arg
      let (value, rest) ← valueOf value rest
      readArguments page flags fuel free (← store options f value) rest
    else
      match free with
      | 0 => .error .usage
      | free + 1 =>
        if arg.isEmpty then .error .usage
        else do
          let (options, others) ← readArguments page flags fuel free options rest
          return (options, arg :: others)

def readCommand (flags : List Flag) : (fuel : Nat) → Options → List String →
    Except Stop (Options × String × List String)
  | 0, _, _ => .error .usage
  | _ + 1, _, [] => .error .usage
  | fuel + 1, options, arg :: rest =>
    if arg == "--" then .error .usage
    else if isOption arg then do
      let (f, value) ← readOption overviewPage flags arg
      let (value, rest) ← valueOf value rest
      readCommand flags fuel (← store options f value) rest
    else .ok (options, arg, rest)

def commonFlags : List Flag := [⟨'c', "config", true⟩]

def encodeFlags : List Flag := [⟨'s', "schema", false⟩, ⟨'r', "records", false⟩, ⟨'o', "output", false⟩]

def readHelp : List String → Stop
  | [] => .help overviewPage
  | [name] =>
    match pages.lookup name with
    | some page => .help page
    | none => .usage
  | _ => .usage

def readRequest (command : String) (args : List String) : Except Stop Request := do
  let fuel := args.length + 1
  if command == "compile" then
    match ← readArguments compilePage [] fuel 1 [] args with
    | (_, [descriptor]) => return .compile descriptor
    | _ => .error .usage
  else if command == "decode" then
    match ← readArguments decodePage [] fuel 1 [] args with
    | (_, [container]) => return .decode container
    | _ => .error .usage
  else if command == "encode" then
    let (options, _) ← readArguments encodePage encodeFlags fuel 0 [] args
    match options.lookup "schema", options.lookup "records", options.lookup "output" with
    | some descriptor, some records, some output => return .encode descriptor records output
    | _, _, _ => .error .usage
  else if command == "help" then .error (readHelp args)
  else .error .usage

def read (args : List String) : Except Stop Invocation := do
  let (options, command, rest) ← readCommand commonFlags (args.length + 1) [] args
  return ⟨options.lookup "config", ← readRequest command rest⟩

end TypedRecords.CommandLine
