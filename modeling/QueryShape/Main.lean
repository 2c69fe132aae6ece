import QueryShape.CommandLine.Run

/-!
# The command

The command itself runs on a picture of the file system. This module takes that picture
of everything that the arguments name, and puts the result back.

## What this module delivers

- `main`: reads the arguments, runs the command, and shows its output, its remarks and
  its report of failure.
-/

set_option autoImplicit false

namespace QueryShape.CommandLine

/-- The paths that a request reads or writes. -/
def Request.mentioned : Request → List String
  | .overview => []
  | .compile inputs _ => inputs.schemas ++ inputs.paths
  | .manifest inputs output => inputs.schemas ++ inputs.paths ++ output.toList

/-- The canonical paths that lie on the way along a path. -/
def waypoints (tree : FileTree) (path : String) : List (List String) :=
  match tree.start path with
  | .error _ => []
  | .ok (here, components) =>
      (components.foldl
        (fun (visited, here) component =>
          let next :=
            if component = "" || component = "." then here
            else if component = ".." then here.dropLast
            else here ++ [component]
          (visited ++ [next], next))
        ([here], here)).1

/-- A file, or a directory with all that it contains. A symbolic link is taken for a copy of what it
leads to. What cannot be read is passed over. -/
partial def takeNode (path : List String) : IO (Option FileNode) := do
  try
    let real ← IO.FS.realPath (FileTree.pathText path)
    if ← real.isDir then
      let mut entries := []
      for entry in ← real.readDir do
        match ← takeNode (path ++ [entry.fileName]) with
        | some node => entries := insertSorted entry.fileName node entries
        | none => pure ()
      return some (.directory entries)
    else return some (.file (← IO.FS.readBinFile real).toList)
  catch _ => return none

/-- Adds what a path denotes to a tree, with the directories on the way to it. -/
def takePath (tree : FileTree) (path : String) : IO FileTree := do
  let mut root := tree.root
  for waypoint in waypoints tree path do
    let real := FileTree.pathText waypoint
    if (root.at? waypoint).isNone && (← try (← IO.FS.realPath real).isDir catch _ => pure false) then
      root := root.put (.directory []) waypoint
  match (waypoints tree path).getLast? with
  | none => pure ()
  | some last =>
      match ← takeNode last with
      | some node => root := root.put node last
      | none => pure ()
  return { tree with root }

/-- The part of the file system that a request is about. -/
def takeTree (request : Request) : IO FileTree := do
  let here := ((← IO.currentDir).toString.splitOn "/").filter (fun name => !name.isEmpty)
  let start : FileTree := ⟨(FileNode.directory []).put (.directory []) here, here⟩
  request.mentioned.foldlM takePath start

/-- Puts the file that a request has written in its place. -/
def putBack (request : Request) (outcome : Outcome) : IO Unit := do
  match request, outcome.output with
  | .manifest _ (some path), .ok _ =>
      match outcome.tree.readText path with
      | .ok text => IO.FS.writeFile path text
      | .error _ => pure ()
  | _, _ => pure ()

/-- What is said about arguments that ask for nothing that can be done. -/
def UsageError.message : UsageError → String
  | missingArgument => "error: a required argument was not provided"
  | invalidValue => "error: a value is required for an argument but none was supplied"
  | unknownArgument => "error: unexpected argument found"
  | invalidSubcommand => "error: unrecognized subcommand"
  | unexpectedValue => "error: unexpected value for an argument"
  | repeatedArgument => "error: an argument cannot be used multiple times"
  | helpWanted => overviewText
  | versionWanted => "graphql-ir"

/-- Whether asking in this way is a mistake. -/
def UsageError.isMistake : UsageError → Bool
  | helpWanted => false
  | versionWanted => false
  | _ => true

/-- Runs a request and shows what comes of it. -/
def perform (request : Request) : IO UInt32 := do
  let outcome := request.run (← takeTree request)
  for warning in outcome.warnings do
    IO.eprintln ("WARN " ++ warning.message)
  putBack request outcome
  match outcome.output with
  | .ok text => IO.println text; return 0
  | .error text => IO.eprintln text; return 1

end QueryShape.CommandLine

open QueryShape.CommandLine in
/-- Runs the command on its arguments. -/
def main (arguments : List String) : IO UInt32 := do
  match Request.ofArguments arguments with
  | .ok request => perform request
  | .error error =>
      if error.isMistake then IO.eprintln error.message; return 2
      else IO.println error.message; return 0
