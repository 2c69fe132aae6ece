import QueryShape.FileName

/-!
# Locations in source texts

Everything the library reads out of a text remembers where it stood, and every
complaint about a text names such a place.

## What this module delivers

- `Position`: a line and a column, both counted from one.
- `Location`: a position inside a named or unnamed text, or the marker for
  things that no text defines because the query language itself defines them.
- `Location.agrees`: equality (`==`) of locations up to the wording of file names.
- `Location.render`: the form in which messages quote a location.
-/

set_option autoImplicit false

namespace QueryShape

/-- A place in a text: line and column, both counted from one. -/
structure Position where
  line : Nat
  column : Nat
deriving DecidableEq, Repr, Inhabited

/-- Where a definition or a selection came from. Built-in scalars, built-in
directives and introspection types come from no text. -/
inductive Location where
  | builtIn
  | source (file : Option FileName) (position : Position)
deriving DecidableEq, Repr, Inhabited

namespace Location

/-- The name of the file that a location points into, if it points into one. -/
def file? : Location → Option FileName
  | builtIn => none
  | source file _ => file

/-- Whether two locations are one place in files whose names agree. -/
def agrees : Location → Location → Bool
  | builtIn, builtIn => true
  | source file position, source file' position' => file == file' && position == position'
  | _, _ => false

instance : BEq Location := ⟨agrees⟩

/-- The form in which messages quote a location: `FILE:LINE:COLUMN`, with
`<unknown>` for a text that has no file name. -/
def render : Location → String
  | builtIn => "<graphql built-in>"
  | source file position =>
      (file.map FileName.text).getD "<unknown>" ++ ":" ++ toString position.line ++ ":" ++ toString position.column

end Location

end QueryShape
