import QueryShape.Executable.Identity
import QueryShape.TypeCase.ResponseShape

/-!
# Summaries of operations

## What this module delivers

- `ResponseShape.lines`: one line for each variant, naming its object types and the keys
  of its fields, with the shapes of the fields indented below.
- `Operation.summary`: an operation with its identifier and the shape of its response.
- `counted`: a number with a noun.
-/

set_option autoImplicit false

namespace QueryShape

/-- A number with a noun in the right form. -/
def counted (count : Nat) (noun : String) : String :=
  toString count ++ " " ++ noun ++ (if count = 1 then "" else "s")

/-- The space in front of a line. -/
def indentation (depth : Nat) : String :=
  String.ofList (List.replicate (2 * depth) ' ')

/-- The key of a merged field, with a mark if the field may be absent. -/
def MergedField.label (merged : MergedField) : String :=
  merged.responseKey ++ (if merged.isConditional then "?" else "")

/-- The line of a variant. -/
def Variant.line (schema : Schema) (depth : Nat) (variant : Variant) (fields : List FieldShape) :
    String :=
  indentation depth ++ "[" ++ "|".intercalate (schema.possibleNames variant.possible) ++ "] " ++
    ", ".intercalate (fields.map (fun field => field.merged.label))

mutual

/-- The lines of variants. -/
def ResponseShape.lines (schema : Schema) (depth : Nat) :
    List (Variant × List FieldShape) → List String
  | [] => []
  | (variant, fields) :: rest =>
      variant.line schema depth fields ::
        (FieldShape.lines schema depth fields ++ ResponseShape.lines schema depth rest)

/-- The lines below a variant: the shapes of its fields. -/
def FieldShape.lines (schema : Schema) (depth : Nat) : List FieldShape → List String
  | [] => []
  | .leaf _ :: rest => FieldShape.lines schema depth rest
  | .composite merged variants :: rest =>
      (indentation (depth + 1) ++ merged.responseKey ++ ":") ::
        (ResponseShape.lines schema (depth + 2) variants ++ FieldShape.lines schema depth rest)

end

/-- The lines that describe an operation. -/
def Operation.summary (operation : Operation) (schema : Schema) (table : FragmentTable)
    (options : TypeCaseOptions) : Except InvariantError (List String) := do
  let shape ← table.responseShape schema options operation.selections
  .ok ((operation.kind.keyword ++ " " ++ operation.name ++ " (" ++ operation.identifier table ++
    ")") :: ResponseShape.lines schema 1 shape)

end QueryShape
