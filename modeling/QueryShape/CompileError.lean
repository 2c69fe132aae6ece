import QueryShape.InvariantError
import QueryShape.Location
import QueryShape.Source.Document

/-!
# What can be wrong with a document

Compiling a document stops at the first thing that is wrong with it.

## What this module delivers

- `ReferenceError`: the document uses a name that is not defined.
- `StructureError`: the document has a shape that no compiled form can have.
- `CompileError`: either of these, a text that cannot be parsed, or a fault that a
  valid document cannot cause.
- `message`: the wording of each. A text that cannot be parsed is reported without
  the parser's own words.
-/

set_option autoImplicit false

namespace QueryShape

/-- Use of a name that is not defined. -/
inductive ReferenceError where
  | undefinedDirective (directive : String) (location : Location)
  | undefinedDirectiveArgument (directive argument : String) (location : Location)
  | undefinedField (type field : String) (location : Location)
  | undefinedFragment (fragment : String) (location : Location)
  | undefinedRoot (kind : OperationKind) (location : Location)
  | undefinedType (type : String) (location : Location)
deriving DecidableEq, Repr

/-- The wording of a reference error. -/
def ReferenceError.message : ReferenceError → String
  | undefinedDirective directive location =>
      "Unknown directive `@" ++ directive ++ "` at " ++ location.render
  | undefinedDirectiveArgument directive argument location =>
      "The `@" ++ directive ++ "` directive does not declare an argument named `" ++ argument ++
        "` (at " ++ location.render ++ ")"
  | undefinedField type field location =>
      "Attempted to select a field named `" ++ field ++ "` on the `" ++ type ++ "` type, but `" ++
        type ++ "` has no such field defined (at " ++ location.render ++ ")"
  | undefinedFragment fragment location =>
      "Unknown fragment `" ++ fragment ++ "` spread at " ++ location.render
  | undefinedRoot kind location =>
      "The schema defines no root type for " ++ kind.title ++ " operations (at " ++
        location.render ++ ")"
  | undefinedType type location =>
      "Unknown type `" ++ type ++ "` referenced at " ++ location.render

/-- A shape that no compiled document can have. -/
inductive StructureError where
  | duplicateFragment (fragment : String) (first second : Location)
  | duplicateOperation (operation : String) (first second : Location)
  | fragmentCycle (fragment : String) (location : Location)
  | missingSelections (type field fieldType : String) (location : Location)
  | notComposite (type : String) (location : Location)
  | selectionsOnLeaf (field fieldType : String) (location : Location)
  | unnamedOperation (location : Location)
deriving DecidableEq, Repr

/-- The wording of a structure error. -/
def StructureError.message : StructureError → String
  | duplicateFragment fragment first second =>
      "Fragment `" ++ fragment ++ "` is defined more than once: " ++ first.render ++ " and " ++
        second.render
  | duplicateOperation operation first second =>
      "Operation `" ++ operation ++ "` is defined more than once: " ++ first.render ++ " and " ++
        second.render
  | fragmentCycle fragment location =>
      "Fragment `" ++ fragment ++ "` spreads itself (at " ++ location.render ++ ")"
  | missingSelections type field fieldType location =>
      "Field `" ++ type ++ "." ++ field ++ "` has composite type `" ++ fieldType ++
        "` and requires a selection set (at " ++ location.render ++ ")"
  | notComposite type location =>
      "Type condition `" ++ type ++ "` must name an object, interface, or union type (at " ++
        location.render ++ ")"
  | selectionsOnLeaf field fieldType location =>
      "Field `" ++ field ++ "` has leaf type `" ++ fieldType ++
        "` and cannot have a selection set (at " ++ location.render ++ ")"
  | unnamedOperation location => "Operations must be named (at " ++ location.render ++ ")"

/-- Why documents do not compile. -/
inductive CompileError where
  | invariant (error : InvariantError)
  | unparsable
  | reference (error : ReferenceError)
  | malformed (error : StructureError)
deriving DecidableEq, Repr

/-- The wording of a compile error. -/
def CompileError.message : CompileError → String
  | invariant error => error.message
  | unparsable => "Failed to parse executable document: "
  | reference error => error.message
  | malformed error => error.message

end QueryShape
