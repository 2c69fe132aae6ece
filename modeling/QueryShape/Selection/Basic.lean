import QueryShape.Selection.Condition

/-!
# Compiled selections

A compiled selection knows the definition of the field that it selects, the fragment
that it spreads, and the object types that it applies to.

## What this module delivers

- `FieldSelection`, `SpreadSelection`, `InlineSelection`: the three kinds without their
  nested selections.
- `Selection` and `SelectionSet`: the tree of selections.
- `Selection.conditions`: the conditions that stand on a selection itself.
- `SelectionSet.spreads`: the fragments spread in a selection set without going through
  another fragment, in the order of first reference.
- `wrapInConditions`: puts selections under conditions.
- Equality (`BEq`) of selections and selection sets.
-/

set_option autoImplicit false

namespace QueryShape

/-- The number of a fragment in its table. A program keeps such numbers in 32 bits; it is assumed
that no table has more fragments than fit. -/
abbrev FragmentId := Nat

/-- A selected field without its nested selections. -/
structure FieldSelection where
  /-- The key that the document gives to the field, if any. -/
  givenKey : Option String
  name : String
  /-- The name of the type on which the field is selected. -/
  parent : String
  type : TypeRef
  arguments : List Argument
  directives : List AppliedDirective
  description : Option String
  deprecation : Option String
  location : Location
deriving BEq, Inhabited

/-- The key under which a response holds the field. -/
def FieldSelection.responseKey (field : FieldSelection) : String :=
  field.givenKey.getD field.name

/-- The conditions on a field, without those that exclude nothing. -/
def FieldSelection.conditions (field : FieldSelection) : List Condition :=
  conditionsOf field.directives

/-- A fragment spread. -/
structure SpreadSelection where
  fragment : FragmentId
  name : String
  directives : List AppliedDirective
  /-- The object types of the fragment that are also object types of the surroundings. -/
  possible : PossibleTypes
  location : Location
deriving BEq, Inhabited

/-- An inline fragment without its selections. -/
structure InlineSelection where
  typeCondition : Option String
  directives : List AppliedDirective
  location : Location
deriving BEq, Inhabited

mutual

/-- A selection. -/
inductive Selection where
  | field (head : FieldSelection) (nested : Option SelectionSet)
  | spread (head : SpreadSelection)
  | inline (head : InlineSelection) (nested : SelectionSet)

/-- Selections on a composite type, in order, with the object types that they apply
to. -/
structure SelectionSet where
  parent : String
  possible : PossibleTypes
  selections : List Selection

end

instance : Inhabited SelectionSet := ⟨⟨"", default, []⟩⟩

instance : Inhabited Selection := ⟨.spread default⟩

namespace Selection

/-- The directives that stand on a selection. -/
def directives : Selection → List AppliedDirective
  | field head _ => head.directives
  | spread head => head.directives
  | inline head _ => head.directives

/-- Where a selection stands. -/
def location : Selection → Location
  | field head _ => head.location
  | spread head => head.location
  | inline head _ => head.location

/-- The conditions that stand on a selection, without those that exclude nothing. -/
def conditions (selection : Selection) : List Condition :=
  conditionsOf selection.directives

/-! ## Equality -/

mutual

/-- Whether two selections are the same. -/
def same : Selection → Selection → Bool
  | field a none, field b none => a == b
  | field a (some ⟨p, s, as⟩), field b (some ⟨q, t, bs⟩) =>
      a == b && p == q && decide (s = t) && sameList as bs
  | spread a, spread b => a == b
  | inline a ⟨p, s, as⟩, inline b ⟨q, t, bs⟩ =>
      a == b && p == q && decide (s = t) && sameList as bs
  | _, _ => false

/-- `same` position by position. -/
def sameList : List Selection → List Selection → Bool
  | [], [] => true
  | a :: as, b :: bs => a.same b && sameList as bs
  | _, _ => false

end

instance : BEq Selection := ⟨same⟩

/-! ## Spreads -/

mutual

/-- All fragments spread at or under a selection, in order and with repetitions. -/
def spreads : Selection → List FragmentId
  | field _ none => []
  | field _ (some ⟨_, _, selections⟩) => spreadsIn selections
  | spread head => [head.fragment]
  | inline _ ⟨_, _, selections⟩ => spreadsIn selections

/-- All fragments spread at or under selections. -/
def spreadsIn : List Selection → List FragmentId
  | [] => []
  | selection :: rest => selection.spreads ++ spreadsIn rest

end

end Selection

namespace SelectionSet

/-- Whether two selection sets are the same. -/
def same (left right : SelectionSet) : Bool :=
  left.parent == right.parent && decide (left.possible = right.possible) &&
    left.selections == right.selections

instance : BEq SelectionSet := ⟨same⟩

/-- The fragments spread in a selection set, not looking into them, each once and in
the order of first reference. -/
def spreads (set : SelectionSet) : List FragmentId :=
  (Selection.spreadsIn set.selections).foldl
    (fun known id => if known.contains id then known else known ++ [id]) []

end SelectionSet

/-- Puts selections under conditions, in the way a document itself would: inside an
inline fragment without type condition that carries the directives. Without conditions
the selections stay as they are. -/
def wrapInConditions (conditions : List Condition) (set : SelectionSet) : List Selection :=
  match conditions with
  | [] => set.selections
  | first :: _ =>
      [.inline ⟨none, conditions.map Condition.directive, first.directive.location⟩ set]

end QueryShape
