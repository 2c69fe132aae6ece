import QueryShape.FileName

/-!
# Files as a scan sees them

A scan asks three things of a file system: what a walk from a path meets, which canonical path a
path has, and whether a path denotes a file. How the answers come about is left open here, so what is
said about scans holds of every file system. One with symbolic links meets a link under its own name
and answers with the canonical path of what the link leads to.

## What this module delivers

- `PathFault`: why a path cannot be used.
- `fileName?`: the name that a path ends in.
- `WalkedPath`: a path as a walk comes by it.
- `WalkEntry`, `WalkFault`: what a walk meets.
- `FileView`: the answers of a file system.
-/

set_option autoImplicit false

namespace QueryShape

/-- Why a path cannot be used. -/
inductive PathFault where
  | missing
  | notADirectory
  | isADirectory
  | tooLong
  | nulCharacter
deriving DecidableEq, Repr

/-- The wording of the operating system for a fault. -/
def PathFault.message : PathFault → String
  | missing => "No such file or directory (os error 2)"
  | notADirectory => "Not a directory (os error 20)"
  | isADirectory => "Is a directory (os error 21)"
  | tooLong => "File name too long (os error 36)"
  | nulCharacter => "file name contained an unexpected NUL byte"

/-! ## Paths -/

/-- The name that a path ends in. Parts that take no step do not count, and double points are no
name. -/
def fileName? (path : String) : Option String :=
  ((path.splitOn "/").filter FileName.isStep).getLast?.filter (· != "..")

/-- The path of an entry of the directory that a path denotes. -/
def entryPath (directory name : String) : String :=
  if directory.endsWith "/" then directory ++ name else directory ++ "/" ++ name

/-- A path as a walk comes by it: the path that the walk starts from, and the names of the entries
that lead down from there. -/
structure WalkedPath where
  given : String
  below : List String
deriving DecidableEq, Repr

namespace WalkedPath

/-- The words of a path. -/
def text (path : WalkedPath) : String :=
  path.below.foldl entryPath path.given

/-- The name that a path ends in. -/
def name? (path : WalkedPath) : Option String :=
  match path.below.getLast? with
  | some name => some name
  | none => fileName? path.given

end WalkedPath

/-! ## Walks -/

/-- What a walk meets. -/
structure WalkEntry where
  path : WalkedPath
  /-- Whether it is a regular file, or a link that leads to one. -/
  isFile : Bool
deriving DecidableEq, Repr

/-- A place where a walk cannot go on. -/
structure WalkFault where
  place : String
  fault : PathFault
deriving DecidableEq, Repr

/-- The answers of a file system. -/
structure FileView where
  /-- What a walk from a path meets, in order. -/
  walk : String → List (Except WalkFault WalkEntry)
  /-- The canonical path of a path, as the names that lead to it from the root. -/
  canonicalize : WalkedPath → Except PathFault (List String)
  /-- Whether a path denotes a file. -/
  isFile : String → Bool

end QueryShape
