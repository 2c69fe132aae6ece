import QueryShape.Table

/-!
# Input values as written

Arguments, default values and directive arguments are input values. As written, an enum
value is just its name, and a variable stands for itself.

## What this module delivers

- `Source.IntLiteral`: integer literals. The reader refuses those that do not fit in 64
  bits, so a literal holds the proof that it does.
- `Source.Value`: the values that can be written in a document or a schema.
- `Source.Value.ofFields`: brings the fields of an object in the order of their keys, one
  entry for each key.
- `Source.Value.text?`: the text of a string.
-/

set_option autoImplicit false

namespace QueryShape.Source

/-- Whether an integer fits in 64 bits, of which one is its sign. -/
abbrev FitsInt64 (value : Int) : Prop :=
  -9223372036854775808 ≤ value ∧ value ≤ 9223372036854775807

/-- An integer as written. -/
structure IntLiteral where
  value : Int
  fits : FitsInt64 value
deriving DecidableEq

instance : Inhabited IntLiteral := ⟨⟨0, by decide⟩⟩

namespace IntLiteral

/-- The integer in 64 bits, if it fits. -/
def toInt64? (literal : IntLiteral) : Option Int64 :=
  if FitsInt64 literal.value then some (Int64.ofInt literal.value) else none

/-- Every literal that has been read fits. -/
theorem toInt64?_eq_some (literal : IntLiteral) :
    literal.toInt64? = some (Int64.ofInt literal.value) :=
  if_pos literal.fits

/-- How a message about a literal shows it. -/
def render (literal : IntLiteral) : String :=
  "Number(" ++ toString literal.value ++ ")"

end IntLiteral

/-- An input value as written. -/
inductive Value where
  | null
  | bool (value : Bool)
  | int (literal : IntLiteral)
  | float (value : Float)
  | string (text : String)
  | enum (name : String)
  | variable (name : String)
  | list (items : List Value)
  | object (entries : List (String × Value))
deriving Inhabited

namespace Value

/-- The object with the given fields. Of two fields with one key the later counts. -/
def ofFields (fields : List (String × Value)) : Value :=
  .object (fields.foldl (fun entries field => insertSorted field.1 field.2 entries) [])

/-- The text, if the value is a string. -/
def text? : Value → Option String
  | string text => some text
  | _ => none

end Value

end QueryShape.Source
