import QueryShape.FileView
import QueryShape.Table
import QueryShape.Text.Utf8

/-!
# Trees of files

The commands work on a picture of the file system: directories, files with their
bytes, and a working directory. Paths are resolved in it as an operating system
resolves them. There are no symbolic links in a tree; a file system that has them is another
`FileView`.

## What this module delivers

- `FileNode`: a file or a directory; entries are kept in the order of their names.
- `FileTree`: a root and a working directory.
- `FileTree.resolve`: the canonical path that a path denotes, or a `PathFault`.
- `FileTree.lookup`, `FileTree.readText`, `FileTree.write`.
- `FileNode.walk`: what a walk meets at and under a node, depth first.
- `FileTree.view`: a tree as a scan sees it.
-/

set_option autoImplicit false

namespace QueryShape

/-- Why a file gives no text. -/
inductive FileFault where
  | notAFile (path : String)
  | notText (path : String) (fault : Text.Utf8.Fault)
deriving DecidableEq, Repr

/-- The wording of a file fault. -/
def FileFault.message : FileFault → String
  | notAFile path => "`" ++ path ++ "` is not a file"
  | notText path fault => "`" ++ path ++ "` is not valid UTF-8: " ++ fault.message

/-- The greatest number of bytes in a component of a path. -/
def maxComponentSize : Nat := 255

/-- The greatest number of bytes in a path. -/
def maxPathSize : Nat := 4095

/-- A file with its bytes, or a directory whose entries stand in the order of their
names. -/
inductive FileNode where
  | file (bytes : List UInt8)
  | directory (entries : List (String × FileNode))
deriving Inhabited

namespace FileNode

/-- The entries of a directory; a file has none. -/
def entries : FileNode → List (String × FileNode)
  | file _ => []
  | directory entries => entries

/-- The node at a canonical path below a node. -/
def at? (node : FileNode) : List String → Option FileNode
  | [] => some node
  | name :: rest => do at? (← node.entries.lookup name) rest

/-- Puts a node at a canonical path and creates the directories on the way. -/
def put (node : FileNode) (new : FileNode) : List String → FileNode
  | [] => new
  | name :: rest =>
      let child := (node.entries.lookup name).getD (directory [])
      directory (insertSorted name (child.put new rest) node.entries)

/-- Whether a node is a file. -/
def isFile : FileNode → Bool
  | file _ => true
  | directory _ => false

mutual

/-- What a walk from a path meets at and under a node, depth first and in the order of names, when
it comes to the node by some names. A directory is met before it is opened. It is opened by the whole
path, which grows by a name with every directory on the way down, however short the canonical path
is. Files are not opened on the way. -/
def walk (given : String) (below : List String) : FileNode → List (Except WalkFault WalkEntry)
  | file _ => [.ok ⟨⟨given, below⟩, true⟩]
  | directory entries =>
      let text := (WalkedPath.mk given below).text
      .ok ⟨⟨given, below⟩, false⟩ ::
        if text.utf8ByteSize > maxPathSize then [.error ⟨text, .tooLong⟩]
        else walkEntries given below entries

/-- What a walk meets at and under the entries of a directory. -/
def walkEntries (given : String) (below : List String) :
    List (String × FileNode) → List (Except WalkFault WalkEntry)
  | [] => []
  | (name, node) :: rest => node.walk given (below ++ [name]) ++ walkEntries given below rest

end

end FileNode

/-- A file system seen from a working directory. -/
structure FileTree where
  root : FileNode
  workingDirectory : List String
deriving Inhabited

namespace FileTree

/-- The text of a canonical path. -/
def pathText (path : List String) : String :=
  "/" ++ String.intercalate "/" path

/-- Follows the components of a path from a canonical path. Empty components and
single points stay, double points go up, and all of them demand a directory. A component
that is too long is noticed when its turn comes. -/
def follow (root : FileNode) (here : List String) : List String → Except PathFault (List String)
  | [] => .ok here
  | component :: rest =>
      match root.at? here with
      | none => .error .missing
      | some (.file _) => .error .notADirectory
      | some (.directory entries) =>
          if component = "" || component = "." then follow root here rest
          else if component = ".." then follow root here.dropLast rest
          else if component.utf8ByteSize > maxComponentSize then .error .tooLong
          else if (entries.lookup component).isSome then follow root (here ++ [component]) rest
          else .error .missing

/-- Where a path starts, and its components. The empty path leads nowhere, and some
texts are no paths at all. -/
def origin (tree : FileTree) (path : String) : Except PathFault (List String × List String) :=
  if path.contains '\x00' then .error .nulCharacter
  else if path.isEmpty then .error .missing
  else
    match path.splitOn "/" with
    | [] => .error .missing
    | "" :: component :: rest => .ok ([], component :: rest)
    | components => .ok (tree.workingDirectory, components)

/-- The same for a path that is handed over as a whole, which must not be too long. -/
def start (tree : FileTree) (path : String) : Except PathFault (List String × List String) := do
  let found ← tree.origin path
  if path.utf8ByteSize > maxPathSize then .error .tooLong else .ok found

/-- The canonical path that a path denotes. -/
def resolve (tree : FileTree) (path : String) : Except PathFault (List String) := do
  let (here, components) ← tree.start path
  follow tree.root here components

/-- The node that a path denotes, with its canonical path. -/
def lookup (tree : FileTree) (path : String) : Except PathFault (List String × FileNode) := do
  let canonical ← tree.resolve path
  match tree.root.at? canonical with
  | some node => .ok (canonical, node)
  | none => .error .missing

/-- Whether a path denotes a file. -/
def isFile (tree : FileTree) (path : String) : Bool :=
  match tree.lookup path with
  | .ok (_, .file _) => true
  | _ => false

/-- The canonical path of a path that a walk comes by. It is found name by name, so the path may be
of any length; only the canonical path itself must not be too long. -/
def canonicalize (tree : FileTree) (path : WalkedPath) : Except PathFault (List String) := do
  let (here, components) ← tree.origin path.given
  let found ← follow tree.root here components
  let canonical := found ++ path.below
  if (pathText canonical).utf8ByteSize > maxPathSize then .error .tooLong else .ok canonical

/-- What a walk from a path meets. -/
def walk (tree : FileTree) (given : String) : List (Except WalkFault WalkEntry) :=
  match tree.lookup given with
  | .error fault => [.error ⟨given, fault⟩]
  | .ok (_, node) => node.walk given []

/-- A tree as a scan sees it. -/
def view (tree : FileTree) : FileView where
  walk := tree.walk
  canonicalize := tree.canonicalize
  isFile := tree.isFile

/-- The text of the file that a path denotes. -/
def readText (tree : FileTree) (path : String) : Except FileFault String :=
  match tree.lookup path with
  | .ok (_, .file bytes) =>
      match Text.Utf8.decode bytes with
      | .ok text => .ok text
      | .error fault => .error (.notText path fault)
  | _ => .error (.notAFile path)

/-- The canonical path of a file that may be created: the directory has to exist, and a
path that ends with a slash denotes no file. -/
def target (tree : FileTree) (path : String) : Except PathFault (List String) := do
  let (here, components) ← tree.start path
  let names := (components.reverse.dropWhile (· = "")).reverse
  let parent ← follow tree.root here names.dropLast
  match tree.root.at? parent, names.getLast? with
  | some (.file _), _ => .error .notADirectory
  | some (.directory _), some name =>
      if path.endsWith "/" || name = "." || name = ".." then .error .isADirectory
      else if name.utf8ByteSize > maxComponentSize then .error .tooLong
      else .ok (parent ++ [name])
  | _, _ => .error .missing

/-- Writes a file. A file that exists is replaced, a directory is not. -/
def write (tree : FileTree) (path : String) (bytes : List UInt8) : Except PathFault FileTree :=
  let put (canonical : List String) : FileTree :=
    { tree with root := tree.root.put (.file bytes) canonical }
  match tree.lookup path with
  | .ok (canonical, .file _) => .ok (put canonical)
  | .ok (_, .directory _) => .error .isADirectory
  | .error _ => do .ok (put (← tree.target path))

end FileTree

end QueryShape
