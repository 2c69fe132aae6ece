import QueryShape.Location
import QueryShape.TypeRef
import QueryShape.Source.Value

/-!
# Executable documents as written

A document holds operations and fragments. Its types keep what was written and
where, and refer to no schema.

## What this module delivers

- `OperationKind`: the three kinds of operation and the keywords that begin them.
- `Source.Directive`, `Source.VariableDefinition`.
- `Source.Selection`: a field, a fragment spread or an inline fragment, with nested
  selections. A field without nested selections has the empty list.
- `Source.Operation`, `Source.Fragment`, `Source.Definition`, `Source.Document`.
-/

set_option autoImplicit false

namespace QueryShape

/-- The kinds of operation. -/
inductive OperationKind where
  | query
  | mutation
  | subscription
deriving DecidableEq, Repr, Inhabited

namespace OperationKind

/-- The keyword that begins an operation of a kind. -/
def keyword : OperationKind → String
  | query => "query"
  | mutation => "mutation"
  | subscription => "subscription"

/-- The kind as a noun, which is how messages about root types name it. -/
def title : OperationKind → String
  | query => "Query"
  | mutation => "Mutation"
  | subscription => "Subscription"

/-- The kind that a keyword begins. -/
def ofKeyword? (word : String) : Option OperationKind :=
  [query, mutation, subscription].find? (fun kind => kind.keyword == word)

end OperationKind

namespace Source

/-- A directive applied to something, located at its `@`. -/
structure Directive where
  position : Position
  name : String
  arguments : List (String × Value)
deriving Inhabited

/-- A variable that an operation declares, located at its `$`. -/
structure VariableDefinition where
  position : Position
  name : String
  type : TypeRef
  defaultValue : Option Value
deriving Inhabited

/-- A selected field without its nested selections, located at its first token. -/
structure Field where
  position : Position
  givenKey : Option String
  name : String
  arguments : List (String × Value)
  directives : List Directive
deriving Inhabited

/-- A fragment spread, located at the token behind its points. -/
structure Spread where
  position : Position
  name : String
  directives : List Directive
deriving Inhabited

/-- An inline fragment without its selections, located at the token behind its
points. -/
structure InlineFragment where
  position : Position
  typeCondition : Option String
  directives : List Directive
deriving Inhabited

/-- A selection as written. -/
inductive Selection where
  | field (field : Field) (selections : List Selection)
  | spread (spread : Spread)
  | inline (fragment : InlineFragment) (selections : List Selection)
deriving Inhabited

/-- An operation that begins with a keyword, located there. -/
structure Operation where
  position : Position
  kind : OperationKind
  name : Option String
  declared : List VariableDefinition
  directives : List Directive
  selections : List Selection
deriving Inhabited

/-- A named fragment, located at its keyword. -/
structure Fragment where
  position : Position
  name : String
  typeCondition : String
  directives : List Directive
  selections : List Selection
deriving Inhabited

/-- A definition of a document. -/
inductive Definition where
  /-- A query that consists of its selections alone, located at the brace. -/
  | anonymous (position : Position) (selections : List Selection)
  | operation (operation : Operation)
  | fragment (fragment : Fragment)
deriving Inhabited

/-- A document: its definitions in order. -/
structure Document where
  definitions : List Definition
deriving Inhabited

/-- The fragments that a document defines, in order. -/
def Document.fragments (document : Document) : List Fragment :=
  document.definitions.filterMap fun
    | .fragment fragment => some fragment
    | _ => none

end Source

end QueryShape
