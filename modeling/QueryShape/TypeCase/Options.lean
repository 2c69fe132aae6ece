import QueryShape.Text.Json

/-!
# Options of partitioning and merging

## What this module delivers

- `TypeCaseOptions`: whether spread fragments are looked through.
- `TypeCaseOptions.ofJson?`: reads options from JSON, in the form of an object or of a
  list.
-/

set_option autoImplicit false

namespace QueryShape

/-- Options that partitioning and merging share. -/
structure TypeCaseOptions where
  /-- Whether the selections of spread fragments are merged into each variant. If not,
  spreads stay as they are, and fields behind them are not merged. -/
  mergeSpreads : Bool
deriving DecidableEq, Repr

namespace TypeCaseOptions

/-- Spread fragments are merged unless told otherwise. -/
def standard : TypeCaseOptions := ⟨true⟩

instance : Inhabited TypeCaseOptions := ⟨standard⟩

/-- The options that JSON states: an object with an optional truth value, in which other
keys mean nothing and the known key occurs at most once, or a list of at most one truth
value. -/
def ofJson? : Text.Json → Option TypeCaseOptions
  | .object members =>
      match Text.Json.member? members "mergeInFragmentSpreads" with
      | none => none
      | some none => some standard
      | some (some value) => value.bool?.map TypeCaseOptions.mk
  | .array [] => some standard
  | .array [value] => value.bool?.map TypeCaseOptions.mk
  | _ => none

/-- The options that a JSON text states. -/
def ofJsonText? (text : String) : Option TypeCaseOptions := do
  ofJson? (← Text.Json.parse? text)

end TypeCaseOptions

end QueryShape
