/-!
# Faults that a valid document cannot cause

## What this module delivers

- `InvariantError`: a lookup that must succeed failed, or fields that must agree
  differ.
- `InvariantError.message`: the wording.
- `bind_eq_ok`: when two steps that may fail succeed together.
-/

set_option autoImplicit false

namespace QueryShape

/-- A fault that a validated document and schema rule out. -/
inductive InvariantError where
  /-- Fields of one response key have the printed types `first` and `second`. -/
  | mergeConflict (responseKey first second : String)
  | fragmentMissing (index : Nat)
  | fieldOnUnion (field union : String)
  /-- The literal does not fit in 64 bits. -/
  | intOutOfRange (literal : String)
  | notComposite (type : String)
  | typeMissing (type : String)
deriving DecidableEq, Repr

/-- The wording of an invariant error. -/
def InvariantError.message : InvariantError → String
  | mergeConflict responseKey first second =>
      "Cannot merge fields selected as `" ++ responseKey ++ "`: `" ++ first ++ "` and `" ++
        second ++ "` are different types"
  | fragmentMissing index =>
      "No fragment is stored at index " ++ toString index ++ " of the fragment table"
  | fieldOnUnion field union =>
      "Attempted to look up field `" ++ field ++ "` directly on union type `" ++ union ++ "`"
  | intOutOfRange literal => "Int literal `" ++ literal ++ "` does not fit in a 64-bit integer"
  | notComposite type => "Attempted to select fields on non-composite type `" ++ type ++ "`"
  | typeMissing type =>
      "Type `" ++ type ++ "` is referenced by the schema but not defined in it"

/-! ## Steps that may fail -/

/-- Two steps succeed together if the first succeeds, and the second with its result. -/
theorem bind_eq_ok {ε α β : Type} {step : Except ε α} {next : α → Except ε β} {result : β} :
    (step >>= next) = .ok result ↔ ∃ value, step = .ok value ∧ next value = .ok result := by
  cases step with
  | error error => simp [bind, Except.bind]
  | ok value => simp [bind, Except.bind]

end QueryShape
