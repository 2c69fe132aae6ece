import QueryShape.CommandLine.InputFiles
import QueryShape.CommandLine.Summary
import QueryShape.Executable.Compile
import QueryShape.Executable.Manifest
import QueryShape.Schema.Draft
import QueryShape.Text.Quotation

/-!
# Running the command

## What this module delivers

- `CommandError`: why a command fails, with the wording of the report.
- `Warning`: what a command remarks on the way.
- `Outcome`: what a command leaves behind.
- `Request.run`: carries out a request on a tree of files.
-/

set_option autoImplicit false

namespace QueryShape.CommandLine

/-! ## Errors and warnings -/

/-- Why a command fails. -/
inductive CommandError where
  | schemaNotLoaded (error : SchemaError)
  | schemaNotBuilt (error : SchemaError)
  | notScanned (error : ScanError)
  | noDocuments
  | notText (path : List String)
  | notParsed (path : List String)
  | notCompiled (error : CompileError)
  | noManifest (conflict : ManifestConflict)
  | noShape (error : InvariantError)
  | notWritten (path : String) (fault : PathFault)

/-- The report of a schema error. A text that cannot be parsed is reported without the
parser's own words. -/
def schemaReport (error : SchemaError) : String :=
  match error with
  | .unparsable _ => error.message ++ "schema parse error: "
  | _ => error.message

/-- The wording of the report, from what was attempted to the cause. -/
def CommandError.message : CommandError → String
  | schemaNotLoaded error => "Failed to load schema: " ++ schemaReport error
  | schemaNotBuilt error => "Failed to build schema: " ++ schemaReport error
  | notScanned error => error.message
  | noDocuments => "No GraphQL documents found in the given paths"
  | notText path =>
      "Failed to read `" ++ FileTree.pathText path ++ "`: stream did not contain valid UTF-8"
  | notParsed path => "Failed to parse `" ++ FileTree.pathText path ++ "`: query parse error: "
  | notCompiled error => "Failed to compile documents: " ++ error.message
  | noManifest conflict => "Failed to build persisted-query manifest: " ++ conflict.message
  | noShape error => error.message
  | notWritten path fault => "Failed to write `" ++ path ++ "`: " ++ fault.message

/-- What a command remarks on the way. -/
inductive Warning where
  | proceeding (path : List String) (extensions : List String)
  | unusedFragment (fragment : String)
deriving DecidableEq, Repr

/-- The wording of a warning. -/
def Warning.message : Warning → String
  | proceeding path extensions =>
      "Proceeding to compile " ++ Text.quotation (FileTree.pathText path) ++
        " even though it doesn't match any of the --graphql-file-exts (" ++
        ", ".intercalate (extensions.map (fun extension => "`." ++ extension ++ "`")) ++ ")."
  | unusedFragment fragment => "Fragment `" ++ fragment ++ "` is never spread by any operation."

/-- A command that may fail after some remarks. -/
abbrev CommandM := ExceptT CommandError (StateM (List Warning))

namespace CommandM

/-- Remarks something. -/
def warn (warning : Warning) : CommandM Unit :=
  modify (· ++ [warning])

/-- A result whose failure is a cause of the command's failure. -/
def because {ε α : Type} (cause : ε → CommandError) (result : Except ε α) : CommandM α :=
  match result with
  | .ok value => pure value
  | .error error => throw (cause error)

end CommandM

open CommandM

/-! ## Steps -/

/-- The schema in the schema files. -/
def loadSchema (tree : FileTree) (inputs : Inputs) : CommandM Schema := do
  let draft ← because .schemaNotLoaded (SchemaDraft.empty.loadFiles tree inputs.schemas)
  because .schemaNotBuilt draft.build

/-- Reads and parses a document. -/
def readDocument (tree : FileTree) (path : List String) : Except CommandError SourceText :=
  let file := FileTree.pathText path
  match tree.readText file with
  | .error _ => .error (.notText path)
  | .ok text =>
      match Source.Document.parse? text with
      | none => .error (.notParsed path)
      | some document => .ok ⟨some ⟨file⟩, document⟩

/-- Compiles all documents that the inputs name. -/
def compileInputs (tree : FileTree) (schema : Schema) (inputs : Inputs) :
    CommandM CompiledDocument := do
  let scan ← because .notScanned (inputs.scan tree.view)
  if scan.proceeded then
    scan.paths.forM (fun path => warn (.proceeding path inputs.fileExtensions))
  if scan.paths.isEmpty then throw .noDocuments
  let texts ← because id (scan.paths.mapM (readDocument tree))
  because .notCompiled (schema.compile texts)

/-- The mark in front of good news. -/
def successMark : String := "\u2705"

/-- The mark in front of a report of failure. -/
def failureMark : String := "\u274c"

/-- Summarises all operations of the inputs. -/
def summarize (tree : FileTree) (inputs : Inputs) (mergeSpreads : Bool) : CommandM String := do
  let schema ← loadSchema tree inputs
  let document ← compileInputs tree schema inputs
  document.unusedFragments.forM (fun fragment => warn (.unusedFragment fragment.name))
  let summaries ← because .noShape (document.operations.mapM
    (fun operation => operation.summary schema document.fragments ⟨mergeSpreads⟩))
  let last := successMark ++ " Compiled " ++ counted document.operations.length "operation" ++
    " and " ++ counted document.fragments.size "fragment" ++ "."
  pure ("\n".intercalate (summaries.flatten ++ [last]))

/-- The manifest of all operations of the inputs. -/
def buildManifest (tree : FileTree) (inputs : Inputs) : CommandM Manifest := do
  let schema ← loadSchema tree inputs
  let document ← compileInputs tree schema inputs
  because .noManifest (Manifest.ofDocument document)

/-- Writes the manifest into a file, or shows it. -/
def writeManifest (tree : FileTree) (inputs : Inputs) (output : Option String) :
    CommandM (String × FileTree) := do
  let manifest ← buildManifest tree inputs
  match output with
  | none => pure (manifest.toJson, tree)
  | some path => do
      let written ← because (.notWritten path)
        (tree.write path (Text.Utf8.encode (manifest.toJson ++ "\n")))
      pure (successMark ++ " Wrote " ++ counted manifest.size "operation" ++ " to `" ++ path ++ "`.",
        written)

/-! ## Outcomes -/

/-- What is shown when no subcommand is given. -/
def overviewText : String :=
  "\n".intercalate [
    "Compile GraphQL operations into client codegen IR.",
    "",
    "Usage: graphql-ir [OPTIONS] [COMMAND]",
    "",
    "Commands:",
    "  compile   Compile operations and print a summary of each one's IR",
    "  manifest  Write a persisted-query manifest for every operation",
    "  help      Print this message or the help of the given subcommand(s)",
    "",
    "Options:",
    "  -v, --verbose  Enable verbose output.",
    "  -h, --help     Print help",
    "  -V, --version  Print version",
    ""]

/-- What a command leaves behind: its output or its report of failure, its remarks and
the files. -/
structure Outcome where
  output : Except String String
  warnings : List Warning
  tree : FileTree

/-- The outcome of a command on a tree. -/
def Outcome.of (tree : FileTree) (command : CommandM (String × FileTree)) : Outcome :=
  match command.run.run [] with
  | (.ok (output, changed), warnings) => ⟨.ok output, warnings, changed⟩
  | (.error error, warnings) => ⟨.error (failureMark ++ " " ++ error.message), warnings, tree⟩

/-- Carries out a request. -/
def Request.run (tree : FileTree) : Request → Outcome
  | .overview => ⟨.ok overviewText, [], tree⟩
  | .compile inputs mergeSpreads => Outcome.of tree do
      pure (← summarize tree inputs mergeSpreads, tree)
  | .manifest inputs output => Outcome.of tree (writeManifest tree inputs output)

end QueryShape.CommandLine
