import QueryShape.Table

/-!
# Arguments of the command

The command takes a subcommand with options and paths. Options have long names behind
two dashes and some have a letter behind one dash; letters can be joined. A value stands
behind its option, or is attached to it.

## What this module delivers

- `Request`: what the arguments ask for.
- `UsageError`: what can be wrong with arguments. Asking for help or for the version
  ends the reading of arguments in the same way.
- `Request.ofArguments`: reads arguments.

A value is checked when the next option is met or the arguments end. An option that is
not known is reported without looking at the value before it.
-/

set_option autoImplicit false

namespace QueryShape.CommandLine

/-- Where to look for schemas and documents. -/
structure Inputs where
  schemas : List String
  /-- File extensions as written. -/
  extensions : List String
  paths : List String
deriving DecidableEq, Repr, Inhabited

/-- What the arguments ask for. -/
inductive Request where
  /-- No subcommand: show what there is. -/
  | overview
  | compile (inputs : Inputs) (mergeSpreads : Bool)
  | manifest (inputs : Inputs) (output : Option String)
deriving DecidableEq, Repr, Inhabited

/-- Why arguments ask for nothing that can be done. -/
inductive UsageError where
  | missingArgument
  | invalidValue
  | unknownArgument
  | invalidSubcommand
  | unexpectedValue
  | repeatedArgument
  | helpWanted
  | versionWanted
deriving DecidableEq, Repr

/-! ## Options -/

/-- Options without a value. -/
inductive Switch where
  | verbose
  | help
  | version
  | keepSpreads
deriving DecidableEq, Repr

/-- Options with a value. -/
inductive Setting where
  | schema
  | extensions
  | output
deriving DecidableEq, Repr

/-- An option. -/
inductive Flag where
  | switch (switch : Switch)
  | setting (setting : Setting)
deriving DecidableEq, Repr

/-- The subcommands. -/
inductive Subcommand where
  | compile
  | manifest
deriving DecidableEq, Repr

namespace Subcommand

/-- The subcommand with a name. -/
def ofName? (name : String) : Option Subcommand :=
  if name = "compile" then some compile
  else if name = "manifest" then some manifest
  else none

end Subcommand

/-- The options that are known in front of a subcommand (`none`) or behind it, by their
long names and letters. -/
def flags : Option Subcommand → List (String × Option Char × Flag)
  | none => shared ++ [("version", some 'V', .switch .version)]
  | some .compile => shared ++ reading ++ [("no-merge-fragment-spreads", none, .switch .keepSpreads)]
  | some .manifest => shared ++ reading ++ [("output", some 'o', .setting .output)]
where
  /-- Options that are known everywhere. -/
  shared := [("verbose", some 'v', .switch .verbose), ("help", some 'h', .switch .help)]
  /-- Options of the subcommands that read files. -/
  reading := [("schema", none, .setting .schema),
    ("graphql-file-exts", none, .setting .extensions)]

/-- The option with a long name. -/
def flagNamed? (place : Option Subcommand) (name : String) : Option Flag :=
  ((flags place).find? (fun entry => entry.1 == name)).map (fun entry => entry.2.2)

/-- The option with a letter. -/
def flagLettered? (place : Option Subcommand) (letter : Char) : Option Flag :=
  ((flags place).find? (fun entry => entry.2.1 == some letter)).map (fun entry => entry.2.2)

/-! ## Reading -/

/-- What has been read and not been checked yet. -/
inductive Pending where
  | nothing
  /-- An option whose value is to come. -/
  | awaited (setting : Setting)
  | value (setting : Setting) (text : String)
  | paths (paths : List String)
deriving DecidableEq, Repr, Inhabited

/-- What has been read. -/
structure Reading where
  switches : List Switch
  schemas : List String
  extensions : List String
  output : Option String
  paths : List String
  pending : Pending
  /-- Whether two dashes alone have been met: only paths follow. -/
  pathsOnly : Bool
deriving Inhabited

namespace Reading

/-- Before the first argument. -/
def start : Reading := ⟨[], [], [], none, [], .nothing, false⟩

/-- Records a value of an option. A path must not be empty, and there is only one output.
Extensions are separated by commas. -/
def assign (reading : Reading) (setting : Setting) (text : String) : Except UsageError Reading :=
  match setting with
  | .extensions => .ok { reading with extensions := reading.extensions ++ text.splitOn "," }
  | .schema =>
      if text.isEmpty then .error .invalidValue
      else .ok { reading with schemas := reading.schemas ++ [text] }
  | .output =>
      if reading.output.isSome then .error .repeatedArgument
      else if text.isEmpty then .error .invalidValue
      else .ok { reading with output := some text }

/-- Records what is pending. -/
def settle (reading : Reading) : Except UsageError Reading :=
  let settled := { reading with pending := .nothing }
  match reading.pending with
  | .nothing => .ok settled
  | .awaited _ => .error .invalidValue
  | .value setting text => settled.assign setting text
  | .paths paths =>
      if paths.any String.isEmpty then .error .invalidValue
      else .ok { settled with paths := settled.paths ++ paths }

/-- Meets an option without a value, which may come only once. -/
def turnOn (reading : Reading) (switch : Switch) : Except UsageError Reading := do
  let reading ← reading.settle
  match switch with
  | .help => .error .helpWanted
  | .version => .error .versionWanted
  | switch =>
      if reading.switches.contains switch then .error .repeatedArgument
      else .ok { reading with switches := reading.switches ++ [switch] }

/-- Meets an option whose value is to come. -/
def await (reading : Reading) (setting : Setting) : Except UsageError Reading := do
  .ok { ← reading.settle with pending := .awaited setting }

/-- Meets an option with an attached value. -/
def attach (reading : Reading) (setting : Setting) (text : String) : Except UsageError Reading := do
  (← reading.settle).assign setting text

/-- Meets an argument behind two dashes. -/
def readLong (place : Option Subcommand) (reading : Reading) (argument : String) :
    Except UsageError Reading :=
  let (name, value) := match argument.splitOn "=" with
    | [] => (argument, none)
    | [name] => (name, none)
    | name :: rest => (name, some ("=".intercalate rest))
  match flagNamed? place name, value with
  | none, _ => .error .unknownArgument
  | some (.switch _), some _ => .error .unexpectedValue
  | some (.switch switch), none => reading.turnOn switch
  | some (.setting setting), some value => reading.attach setting value
  | some (.setting setting), none => reading.await setting

/-- Meets letters behind one dash. What follows the letter of an option with a value is
the value, less an equals sign in front. -/
def readLetters (place : Option Subcommand) (reading : Reading) :
    List Char → Except UsageError Reading
  | [] => .ok reading
  | letter :: rest =>
      match flagLettered? place letter with
      | none => .error .unknownArgument
      | some (.switch switch) => do readLetters place (← reading.turnOn switch) rest
      | some (.setting setting) =>
          match rest with
          | [] => reading.await setting
          | '=' :: value => reading.attach setting (String.ofList value)
          | value => reading.attach setting (String.ofList value)

/-- Meets a word that is no option: a value if one is awaited, otherwise a path. -/
def readWord (reading : Reading) (word : String) : Except UsageError Reading :=
  match reading.pending, reading.pathsOnly with
  | .awaited setting, false => .ok { reading with pending := .value setting word }
  | .paths paths, _ => .ok { reading with pending := .paths (paths ++ [word]) }
  | _, _ => do .ok { ← reading.settle with pending := .paths [word] }

/-- What an argument looks like: the two dashes alone, a long option, letters, or a
word. A single dash is a word. -/
inductive Look where
  | dashes
  | long (text : String)
  | letters (letters : List Char)
  | word
deriving DecidableEq, Repr

/-- Classifies an argument. -/
def look (argument : String) : Look :=
  match argument.toList with
  | ['-', '-'] => .dashes
  | '-' :: '-' :: text => .long (String.ofList text)
  | '-' :: letter :: rest => .letters (letter :: rest)
  | _ => .word

/-- Reads the arguments behind a subcommand. -/
def readAll (place : Subcommand) (reading : Reading) : List String → Except UsageError Reading
  | [] => reading.settle
  | argument :: rest => do
      let next ← if reading.pathsOnly then reading.readWord argument
        else match look argument with
          | .dashes => .ok { reading with pathsOnly := true }
          | .long text => reading.readLong (some place) text
          | .letters letters => reading.readLetters (some place) letters
          | .word => reading.readWord argument
      next.readAll place rest

/-- The file extensions that documents have unless others are asked for. -/
def usualExtensions : List String :=
  ["graphql", "gql"]

/-- The inputs that have been read; there must be a schema and a path. -/
def inputs (reading : Reading) : Except UsageError Inputs :=
  if reading.schemas.isEmpty || reading.paths.isEmpty then .error .missingArgument
  else
    let extensions := if reading.extensions.isEmpty then usualExtensions else reading.extensions
    .ok ⟨reading.schemas, extensions, reading.paths⟩

end Reading

/-! ## Requests -/

/-- Reads the arguments behind a subcommand into a request. -/
def Request.ofSubcommand (subcommand : Subcommand) (arguments : List String) :
    Except UsageError Request := do
  let reading ← Reading.start.readAll subcommand arguments
  let inputs ← reading.inputs
  match subcommand with
  | .compile => .ok (.compile inputs (!reading.switches.contains .keepSpreads))
  | .manifest => .ok (.manifest inputs reading.output)

/-- Asks for help with a subcommand, which has to exist and has no subcommands. -/
def helpOn (arguments : List String) : UsageError :=
  match arguments with
  | [] => .helpWanted
  | [name] => if name = "help" || (Subcommand.ofName? name).isSome then .helpWanted
      else .invalidSubcommand
  | _ => .invalidSubcommand

/-- Reads arguments from a point in front of the subcommand on. -/
def Request.read (reading : Reading) : List String → Except UsageError Request
  | [] => .ok .overview
  | argument :: rest =>
      if reading.pathsOnly then
        if argument = "help" || (Subcommand.ofName? argument).isSome then .error .unknownArgument
        else .error .invalidSubcommand
      else
        match Subcommand.ofName? argument, Reading.look argument with
        | some subcommand, _ => Request.ofSubcommand subcommand rest
        | none, .dashes => Request.read { reading with pathsOnly := true } rest
        | none, .long text => do Request.read (← reading.readLong none text) rest
        | none, .letters letters => do Request.read (← reading.readLetters none letters) rest
        | none, .word =>
            if argument = "help" then .error (helpOn rest) else .error .invalidSubcommand

/-- What arguments ask for. -/
def Request.ofArguments (arguments : List String) : Except UsageError Request :=
  Request.read Reading.start arguments

end QueryShape.CommandLine
