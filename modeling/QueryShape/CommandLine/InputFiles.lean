import QueryShape.CommandLine.Arguments
import QueryShape.FileView
import QueryShape.Text.Line

/-!
# Finding documents

Documents are looked for at and under the given paths. A file counts if it has one of
the extensions and is none of the schema files. The extension is that of the name under which a walk
meets the file; whether it is a schema file is asked of its canonical path. The two differ for a
symbolic link, which has a name of its own.

## What this module delivers

- `extension?`: the extension of a file name.
- `Inputs.fileExtensions`: the extensions to look for.
- `Inputs.document?`: what a scan makes of one thing that it meets.
- `Inputs.scan`: the canonical paths of all documents, each once and in the order of
  finding. A single path that names a file stands for itself if nothing else is found.
- `ScanError`: why a scan ends without a result. The first fault on the way counts.
-/

set_option autoImplicit false

namespace QueryShape.CommandLine

/-- The extension of a file name: what follows its last point, unless there is nothing in
front of that point. -/
def extension? (name : String) : Option String :=
  let reversed := name.toList.reverse
  match reversed.dropWhile (· != '.') with
  | _ :: _ :: _ => some (String.ofList (reversed.takeWhile (· != '.')).reverse)
  | _ => none

/-- An extension as asked for, without surrounding blanks and without points in front. -/
def normalizeExtension (text : String) : String :=
  String.ofList ((Text.trim text).toList.dropWhile (· == '.'))

namespace Inputs

/-- The extensions to look for. -/
def fileExtensions (inputs : Inputs) : List String :=
  (inputs.extensions.map normalizeExtension).filter (fun text => !text.isEmpty)

/-- Whether the name that a path ends in has an extension to look for. -/
def hasExtension (inputs : Inputs) (name : Option String) : Bool :=
  match name.bind extension? with
  | some extension => inputs.fileExtensions.contains extension
  | none => false

/-- The canonical paths of the schema files. -/
def excluded (inputs : Inputs) (view : FileView) : List (List String) :=
  inputs.schemas.filterMap (fun path => (view.canonicalize ⟨path, []⟩).toOption)

end Inputs

/-- Why a scan ends without a result. -/
inductive ScanError where
  /-- The walk from a path cannot go on. -/
  | notWalked (given : String) (fault : WalkFault)
  /-- A file has no canonical path. -/
  | notResolved (path : String) (fault : PathFault)
deriving DecidableEq, Repr

/-- The wording of the report. -/
def ScanError.message : ScanError → String
  | notWalked given fault =>
      "Failed to scan `" ++ given ++ "`: IO error for operation on " ++ fault.place ++ ": " ++
        fault.fault.message ++ ": " ++ fault.fault.message
  | notResolved path fault => "Failed to resolve `" ++ path ++ "`: " ++ fault.message

/-- Adds a path to paths that have been found, unless it is there. -/
def addPath (found : List (List String)) (path : List String) : List (List String) :=
  if found.contains path then found else found ++ [path]

/-- What a scan finds. -/
structure Scan where
  paths : List (List String)
  /-- Whether the only path was taken although it does not have an extension to look
  for. -/
  proceeded : Bool
deriving Inhabited

namespace Inputs

/-- The canonical path of what a walk meets, if it is a document. Nothing but a file with an
extension to look for needs a canonical path. -/
def document? (inputs : Inputs) (view : FileView) (entry : WalkEntry) :
    Except ScanError (Option (List String)) :=
  if entry.isFile && inputs.hasExtension entry.path.name? then
    match view.canonicalize entry.path with
    | .error fault => .error (.notResolved entry.path.text fault)
    | .ok path => .ok (if (inputs.excluded view).contains path then none else some path)
  else .ok none

/-- Goes on with the next of the things that a walk from a path meets. -/
def meet (inputs : Inputs) (view : FileView) (given : String) (found : List (List String)) :
    Except WalkFault WalkEntry → Except ScanError (List (List String))
  | .error fault => .error (.notWalked given fault)
  | .ok entry => do
      match ← inputs.document? view entry with
      | none => .ok found
      | some path => .ok (addPath found path)

/-- The documents at and under all paths. -/
def documents (inputs : Inputs) (view : FileView) : Except ScanError (List (List String)) :=
  inputs.paths.foldlM (fun found given => (view.walk given).foldlM (inputs.meet view given) found) []

/-- All documents to compile. -/
def scan (inputs : Inputs) (view : FileView) : Except ScanError Scan := do
  match ← inputs.documents view, inputs.paths with
  | [], [given] =>
      if view.isFile given then
        match view.canonicalize ⟨given, []⟩ with
        | .error fault => .error (.notResolved given fault)
        | .ok path => .ok ⟨[path], true⟩
      else .ok ⟨[], false⟩
  | found, _ => .ok ⟨found, false⟩

end Inputs

end QueryShape.CommandLine
