import QueryShape.FileTree
import QueryShape.InvariantError
import QueryShape.Location
import QueryShape.Source.TypeSystem

/-!
# What can be wrong with a schema

## What this module delivers

- `SchemaError`: the reasons for which definitions form no schema.
- `SchemaError.message`: the wording of each. A text that cannot be parsed is
  reported without the parser's own words.
-/

set_option autoImplicit false

namespace QueryShape

/-- Why definitions form no schema. -/
inductive SchemaError where
  | unparsable (file : Option FileName)
  | unreadable (fault : FileFault)
  /-- A default value holds a literal that does not fit. -/
  | invalidValue (fault : InvariantError)
  | duplicateType (type : String) (first second : Location)
  | duplicateField (type field : String) (first second : Location)
  | duplicateDirective (directive : String) (first second : Location)
  | duplicateRoot (kind : OperationKind) (first second : Location)
  | reservedTypeName (type : String) (location : Location)
  | reservedDirectiveName (directive : String) (location : Location)
  | redefinedBuiltIn (directive : String) (location : Location)
  | extensionOfUndefined (type : String) (location : Location)
  | extensionOfWrongKind (type : String) (kind extension : TypeKind) (location : Location)
  | noQueryRoot
  | undefinedRoot (kind : OperationKind) (type : String) (location : Location)
  | rootNotObject (kind : OperationKind) (type : String) (typeKind : TypeKind)
      (location : Location)
  | undefinedType (type : String) (location : Location)
  | implementsNonInterface (type interface : String) (location : Location)
  | unionMemberNotObject (union member : String) (location : Location)
deriving DecidableEq, Repr

namespace SchemaError

/-- Two places, as messages about repeated definitions name them. -/
def places (first second : Location) : String :=
  first.render ++ " and " ++ second.render

/-- A place in parentheses, as it ends most messages. -/
def placed (location : Location) : String :=
  " (at " ++ location.render ++ ")"

/-- The wording of a schema error. -/
def message : SchemaError → String
  | unparsable none => "Error parsing schema: "
  | unparsable (some file) => "Error parsing schema `" ++ file.text ++ "`: "
  | unreadable fault =>
      "Failure while trying to read a schema file from disk: " ++ fault.message
  | invalidValue fault => fault.message
  | duplicateType type first second =>
      "Type `" ++ type ++ "` is defined more than once: " ++ places first second
  | duplicateField type field first second =>
      "Field `" ++ type ++ "." ++ field ++ "` is defined more than once: " ++ places first second
  | duplicateDirective directive first second =>
      "The `@" ++ directive ++ "` directive is defined more than once: " ++ places first second
  | duplicateRoot kind first second =>
      "The " ++ kind.title ++ " root type is declared more than once: " ++ places first second
  | reservedTypeName _ location => "Type names must not start with `__`" ++ placed location
  | reservedDirectiveName _ location =>
      "Custom directive names must not start with `__`" ++ placed location
  | redefinedBuiltIn directive location =>
      "Attempted to redefine builtin directive `@" ++ directive ++ "`" ++ placed location
  | extensionOfUndefined type location =>
      "Attempted to extend undefined type `" ++ type ++ "`" ++ placed location
  | extensionOfWrongKind type kind extension location =>
      "Attempted to extend " ++ kind.label ++ " type `" ++ type ++ "` with a " ++
        extension.label ++ " extension" ++ placed location
  | noQueryRoot => "Attempted to build a schema that has no Query operation type defined"
  | undefinedRoot kind type location =>
      "The " ++ kind.title ++ " root type is declared as `" ++ type ++
        "`, but no such type is defined" ++ placed location
  | rootNotObject kind type typeKind location =>
      "The " ++ kind.title ++ " root type `" ++ type ++ "` is a " ++ typeKind.label ++
        " type, but root types must be object types" ++ placed location
  | undefinedType type location =>
      "Reference to undefined type `" ++ type ++ "`" ++ placed location
  | implementsNonInterface type interface location =>
      "Type `" ++ type ++ "` declares that it implements `" ++ interface ++
        "`, which is not an interface type" ++ placed location
  | unionMemberNotObject union member location =>
      "Union `" ++ union ++ "` includes `" ++ member ++ "`, which is not an object type" ++
        placed location

end SchemaError

end QueryShape
