/-!
# References to types

Fields, parameters and variables refer to a type by name, possibly through lists,
and say at every level whether null is allowed.

## What this module delivers

- `TypeRef`: a named type or a list of a type reference, nullable or not.
- `TypeRef.typeName`: the name at the centre of all lists.
- `TypeRef.render`: the notation, `Name`, `[Name]`, with `!` where null is not
  allowed.
-/

set_option autoImplicit false

namespace QueryShape

/-- A reference to a type. -/
inductive TypeRef where
  | named (name : String) (nullable : Bool)
  | list (item : TypeRef) (nullable : Bool)
deriving DecidableEq, Repr, Inhabited

namespace TypeRef

/-- The name of the type at the centre of all lists. -/
def typeName : TypeRef → String
  | named name _ => name
  | list item _ => item.typeName

/-- Whether the outermost level allows null. -/
def nullable : TypeRef → Bool
  | named _ nullable => nullable
  | list _ nullable => nullable

/-- The mark behind a reference. -/
def mark (nullable : Bool) : String :=
  if nullable then "" else "!"

/-- The reference as it is written in a schema. -/
def render : TypeRef → String
  | named name nullable => name ++ mark nullable
  | list item nullable => "[" ++ item.render ++ "]" ++ mark nullable

end TypeRef

end QueryShape
