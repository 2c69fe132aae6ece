import QueryShape.TypeCase.MergedField
import QueryShape.TypeCase.Partition

/-!
# Shapes of responses

The shape of a response follows from its selection set by taking turns: partition the
selection set, merge the fields of every variant, and go on with the selections of every
merged field.

## What this module delivers

- `FieldShape`: a merged field with the shape of its value.
- `ResponseShape`: the variants of a selection set with the shapes of their fields.
- `Selection.height`: how deep fields are nested, fragments not looked through.
- `FragmentTable.responseShape`: the shape that a selection set selects.

A way down through nested fields passes through each fragment at most once. The heights
of the selection set and of all fragments together therefore bound the depth of a shape.
-/

set_option autoImplicit false

namespace QueryShape

/-- A merged field with the shape of its value. -/
inductive FieldShape where
  | leaf (merged : MergedField)
  | composite (merged : MergedField) (variants : List (Variant × List FieldShape))

/-- The merged field of a field shape. -/
def FieldShape.merged : FieldShape → MergedField
  | leaf merged => merged
  | composite merged _ => merged

/-- The exhaustive variants of a selection set, each with its fields. -/
abbrev ResponseShape := List (Variant × List FieldShape)

mutual

/-- The number of fields with selections that lie above each other at or under a
selection. -/
def Selection.height : Selection → Nat
  | .field _ none => 0
  | .field _ (some ⟨_, _, selections⟩) => Selection.heightIn selections + 1
  | .spread _ => 0
  | .inline _ ⟨_, _, selections⟩ => Selection.heightIn selections

/-- The greatest height of some selections. -/
def Selection.heightIn : List Selection → Nat
  | [] => 0
  | selection :: rest => max selection.height (Selection.heightIn rest)

end

namespace FragmentTable

/-- The shape of a selection set down to a depth. -/
def shapeWithin (table : FragmentTable) (schema : Schema) (options : TypeCaseOptions) :
    Nat → SelectionSet → Except InvariantError ResponseShape
  | 0, _ => .ok []
  | depth + 1, set => do
      let typeCase ← table.partition options set
      typeCase.exhaustive.mapM fun variant => do
        let merged ← table.mergeFields schema options variant.toSelectionSet
        let fields ← merged.mapM fun field =>
          match field.nested with
          | none => .ok (.leaf field)
          | some nested => do .ok (.composite field (← shapeWithin table schema options depth nested))
        .ok (variant, fields)

/-- A bound for the depth of the shape of a selection set. -/
def shapeDepth (table : FragmentTable) (set : SelectionSet) : Nat :=
  table.fragments.foldl
    (fun total fragment => total + Selection.heightIn fragment.selections.selections)
    (Selection.heightIn set.selections + 1)

/-- The shape that a selection set selects. -/
def responseShape (table : FragmentTable) (schema : Schema) (options : TypeCaseOptions)
    (set : SelectionSet) : Except InvariantError ResponseShape :=
  table.shapeWithin schema options (table.shapeDepth set) set

end FragmentTable

end QueryShape
