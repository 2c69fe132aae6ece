import QueryShape.Executable.Identity
import QueryShape.Text.Json

/-!
# Manifests of operations

A manifest tells a server which operations it may be asked for by identifier. It binds
identifiers to the names and canonical texts of operations, in the order of insertion.

## What this module delivers

- `ManifestEntry`, `Manifest`, `ManifestError` with its `message`.
- `Manifest.insert`, `Manifest.extend`: entries that are present are never changed.
- `Manifest.ofDocument`: the manifest of a compiled document.
- `Manifest.ofJson?` and `Manifest.toJson`: reading and writing.
-/

set_option autoImplicit false

namespace QueryShape

/-- An operation as a manifest holds it. -/
structure ManifestEntry where
  name : String
  source : String
deriving DecidableEq, Repr, Inhabited

/-- Identifiers bound to operations. -/
structure Manifest where
  entries : Table ManifestEntry
deriving Inhabited

/-- Operations with different names under one identifier. -/
structure ManifestConflict where
  id : String
  present : String
  added : String
deriving DecidableEq, Repr

/-- The wording of a conflict. -/
def ManifestConflict.message (conflict : ManifestConflict) : String :=
  "Operations `" ++ conflict.present ++ "` and `" ++ conflict.added ++
    "` have the same persisted-query id `" ++ conflict.id ++ "`"

namespace Manifest

/-- The manifest without entries. -/
def empty : Manifest := ⟨.empty⟩

/-- Agreement without regard to order. -/
instance : BEq Manifest := ⟨fun left right => left.entries == right.entries⟩

/-- The entry with an identifier. -/
def get? (manifest : Manifest) (id : String) : Option ManifestEntry :=
  manifest.entries.get? id

/-- The number of entries. -/
def size (manifest : Manifest) : Nat :=
  manifest.entries.size

/-- Adds an entry. Nothing happens if the identifier is bound to an operation of the same
name; another name is a conflict. -/
def insert (manifest : Manifest) (id : String) (entry : ManifestEntry) :
    Except ManifestConflict Manifest :=
  match manifest.get? id with
  | none => .ok ⟨manifest.entries.insert id entry⟩
  | some present =>
      if present.name = entry.name then .ok manifest
      else .error ⟨id, present.name, entry.name⟩

/-- Adds entries until there is a conflict. What was added before the conflict stays. -/
def insertAll (manifest : Manifest) :
    List (String × ManifestEntry) → Manifest × Option ManifestConflict
  | [] => (manifest, none)
  | (id, entry) :: rest =>
      match manifest.insert id entry with
      | .ok extended => extended.insertAll rest
      | .error conflict => (manifest, some conflict)

/-- Adds the entries of another manifest, in their order, until there is a conflict. -/
def extend (manifest other : Manifest) : Manifest × Option ManifestConflict :=
  manifest.insertAll other.entries.entries

/-- The entry of an operation. -/
def entryOf (table : FragmentTable) (operation : Operation) : String × ManifestEntry :=
  (operation.identifier table, ⟨operation.name, operation.canonicalSource table⟩)

/-- The manifest of all operations of a document. -/
def ofDocument (document : CompiledDocument) : Except ManifestConflict Manifest :=
  match empty.insertAll (document.operations.map (entryOf document.fragments)) with
  | (manifest, none) => .ok manifest
  | (_, some conflict) => .error conflict

/-! ## JSON -/

/-- The entry that JSON states: an object with a name and a source, in which other keys
mean nothing, or a list of the two. -/
def entryOfJson? : Text.Json → Option ManifestEntry
  | .object members => do
      let name ← (← Text.Json.member? members "name").bind Text.Json.text?
      let source ← (← Text.Json.member? members "source").bind Text.Json.text?
      some ⟨name, source⟩
  | .array [name, source] => do some ⟨← name.text?, ← source.text?⟩
  | _ => none

/-- The manifest that JSON states: an object with an entry for each identifier. An
identifier that is repeated keeps its first place and has the last entry. -/
def ofJson? : Text.Json → Option Manifest
  | .object members => do
      let entries ← members.mapM fun (id, json) => do some (← id, ← entryOfJson? json)
      some ⟨Table.ofEntries entries⟩
  | _ => none

/-- The manifest that a JSON text states. -/
def ofJsonText? (text : String) : Option Manifest := do
  ofJson? (← Text.Json.parse? text)

/-- The lines of an entry without a comma behind them. -/
def entryToJson (id : String) (entry : ManifestEntry) : String :=
  "  " ++ Text.Json.quote id ++ ": \x7b\n    \"name\": " ++ Text.Json.quote entry.name ++
    ",\n    \"source\": " ++ Text.Json.quote entry.source ++ "\n  \x7d"

/-- The manifest as an indented JSON text, without a newline at the end. -/
def toJson (manifest : Manifest) : String :=
  if manifest.entries.isEmpty then "\x7b\x7d"
  else
    "\x7b\n" ++
      ",\n".intercalate (manifest.entries.entries.map (fun (id, entry) => entryToJson id entry)) ++
      "\n\x7d"

end Manifest

end QueryShape
