import QueryShape.InvariantError
import QueryShape.Source.Value

/-!
# Input values

A value is independent of any schema. It differs from its written form only in the integers,
which are numbers of 64 bits here. A literal that does not fit would be a fault; the reader
refuses such literals, so no written value has the fault.

## What this module delivers

- `Value`: input values. The entries of an object are kept in the order of their keys.
- `Value.ofSource`: the value that is written, or the fault of a literal in it.
- `Source.Value.resolved`, `Value.ofSource_eq`: every written value is a value.
- The readings `bool?`, `text?`, `variableName?`.
- Equality (`BEq`), which compares floating-point numbers as numbers, so that
  negative zero equals zero.
-/

set_option autoImplicit false

namespace QueryShape

/-- An input value. -/
inductive Value where
  | null
  | bool (value : Bool)
  | int (value : Int64)
  | float (value : Float)
  | string (text : String)
  | enum (name : String)
  | variable (name : String)
  | list (items : List Value)
  | object (entries : List (String × Value))
deriving Inhabited

namespace Value

/-! ## Written values -/

mutual

/-- The value that is written. -/
def ofSource : Source.Value → Except InvariantError Value
  | .null => .ok .null
  | .bool value => .ok (.bool value)
  | .int literal =>
      match literal.toInt64? with
      | some value => .ok (.int value)
      | none => .error (.intOutOfRange literal.render)
  | .float value => .ok (.float value)
  | .string text => .ok (.string text)
  | .enum name => .ok (.enum name)
  | .variable name => .ok (.variable name)
  | .list items => .list <$> ofItems items
  | .object entries => .object <$> ofEntries entries

/-- The values of the items of a list. -/
def ofItems : List Source.Value → Except InvariantError (List Value)
  | [] => .ok []
  | item :: rest => do
      let first ← ofSource item
      let others ← ofItems rest
      .ok (first :: others)

/-- The values of the entries of an object. -/
def ofEntries : List (String × Source.Value) → Except InvariantError (List (String × Value))
  | [] => .ok []
  | (key, item) :: rest => do
      let first ← ofSource item
      let others ← ofEntries rest
      .ok ((key, first) :: others)

end

/-! ## Readings -/

/-- The truth value, if the value is one. -/
def bool? : Value → Option Bool
  | bool value => some value
  | _ => none

/-- The text, if the value is a string. -/
def text? : Value → Option String
  | string text => some text
  | _ => none

/-- The name of the variable, if the value is one. -/
def variableName? : Value → Option String
  | .variable name => some name
  | _ => none

/-! ## Equality -/

mutual

/-- Whether two values are the same, floating-point numbers compared as numbers. -/
def same : Value → Value → Bool
  | null, null => true
  | bool a, bool b => a == b
  | int a, int b => a == b
  | float a, float b => a == b
  | string a, string b => a == b
  | enum a, enum b => a == b
  | .variable a, .variable b => a == b
  | list as, list bs => sameList as bs
  | object as, object bs => sameFields as bs
  | _, _ => false

/-- `same` for items, position by position. -/
def sameList : List Value → List Value → Bool
  | [], [] => true
  | a :: as, b :: bs => a.same b && sameList as bs
  | _, _ => false

/-- `same` for fields in the order of their keys. -/
def sameFields : List (String × Value) → List (String × Value) → Bool
  | [], [] => true
  | (k, a) :: as, (l, b) :: bs => k == l && a.same b && sameFields as bs
  | _, _ => false

end

instance : BEq Value := ⟨same⟩

end Value

/-! ## Every written value is a value -/

mutual

/-- The value that is written. Its integers are those of the literals, which fit. -/
def Source.Value.resolved : Source.Value → QueryShape.Value
  | .null => .null
  | .bool value => .bool value
  | .int literal => .int (Int64.ofInt literal.value)
  | .float value => .float value
  | .string text => .string text
  | .enum name => .enum name
  | .variable name => .variable name
  | .list items => .list (resolvedItems items)
  | .object entries => .object (resolvedEntries entries)

/-- The values of the items of a list. -/
def Source.Value.resolvedItems : List Source.Value → List QueryShape.Value
  | [] => []
  | item :: rest => item.resolved :: resolvedItems rest

/-- The values of the entries of an object. -/
def Source.Value.resolvedEntries :
    List (String × Source.Value) → List (String × QueryShape.Value)
  | [] => []
  | (key, item) :: rest => (key, item.resolved) :: resolvedEntries rest

end

namespace Value

mutual

theorem ofSource_eq (written : Source.Value) : ofSource written = .ok written.resolved := by
  cases written with
  | int literal => rw [ofSource, literal.toInt64?_eq_some, Source.Value.resolved]
  | list items =>
      rw [ofSource, ofItems_eq items, Source.Value.resolved]
      rfl
  | object entries =>
      rw [ofSource, ofEntries_eq entries, Source.Value.resolved]
      rfl
  | _ => rfl

theorem ofItems_eq (items : List Source.Value) :
    ofItems items = .ok (Source.Value.resolvedItems items) := by
  cases items with
  | nil => rfl
  | cons item rest =>
      rw [ofItems, ofSource_eq item, ofItems_eq rest]
      rfl

theorem ofEntries_eq (entries : List (String × Source.Value)) :
    ofEntries entries = .ok (Source.Value.resolvedEntries entries) := by
  cases entries with
  | nil => rfl
  | cons entry rest =>
      rw [ofEntries, ofSource_eq entry.2, ofEntries_eq rest]
      rfl

end

theorem mapM_ofSource (written : Option Source.Value) :
    written.mapM ofSource = .ok (written.map Source.Value.resolved) := by
  cases written with
  | none => rfl
  | some value =>
      rw [Option.mapM_some, ofSource_eq]
      rfl

end Value

end QueryShape
