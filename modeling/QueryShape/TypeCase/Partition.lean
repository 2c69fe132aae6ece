import QueryShape.Executable.Basic
import QueryShape.TypeCase.Basic
import QueryShape.TypeCase.Options

/-!
# Partitioning selection sets

Fields apply to every possible type. Inline fragments and spreads are partitioned over
the object types that they narrow to, and the result is merged into the whole.
Conditions do not influence the division; selections under a condition are put under it
again when they are merged.

## What this module delivers

- `TypeCase.add`: adds a selection to a type case.
- `FragmentTable.partition`: the type case of a selection set.

Spreads are resolved in a table of fragments. A fragment comes after those that it
spreads, which is why the number of fragments bounds the depth of nested spreads.
-/

set_option autoImplicit false

namespace QueryShape

/-- The type case of a fragment for some object types. -/
abbrev Expansion := FragmentId → PossibleTypes → Except InvariantError TypeCase

namespace TypeCase

/-- Adds a field, which applies to all possible types. -/
def addField (typeCase : TypeCase) (possible : PossibleTypes) (selection : Selection) :
    TypeCase :=
  let (refined, slots) := typeCase.refine possible
  refined.update slots (·.append [selection])

/-- Records a spread on the variants that it applies to, and keeps it as a selection
there if spreads are not merged. -/
def addSpread (options : TypeCaseOptions) (typeCase : TypeCase) (types : PossibleTypes)
    (head : SpreadSelection) : TypeCase :=
  let (refined, slots) := typeCase.refine types
  refined.update slots fun variant =>
    let conforming := variant.conform head.fragment
    if options.mergeSpreads then conforming else conforming.append [.spread head]

mutual

/-- Adds a selection that applies to the possible types or some of them. A spread that
adds nothing, because its object types conform to the fragment already, is passed over. -/
def add (expand : Expansion) (options : TypeCaseOptions) (possible : PossibleTypes)
    (typeCase : TypeCase) : Selection → Except InvariantError TypeCase
  | .field head nested => .ok (typeCase.addField possible (.field head nested))
  | .spread head =>
      let types := possible ∩ head.possible
      if typeCase.conformsTo types head.fragment then .ok typeCase
      else
        -- Recording comes first, so that variants split off by the merge have it too.
        let extended := typeCase.addSpread options types head
        if options.mergeSpreads then do
          let nested ← expand head.fragment types
          .ok (extended.merge nested (conditionsOf head.directives))
        else .ok extended
  | .inline head ⟨parent, narrowed, selections⟩ => do
      let types := possible ∩ narrowed
      let nested ← addAll expand options types (.empty parent types) selections
      .ok (typeCase.merge nested (conditionsOf head.directives))

/-- Adds selections, one after the other. -/
def addAll (expand : Expansion) (options : TypeCaseOptions) (possible : PossibleTypes)
    (typeCase : TypeCase) : List Selection → Except InvariantError TypeCase
  | [] => .ok typeCase
  | selection :: rest => do
      addAll expand options possible (← add expand options possible typeCase selection) rest

end

end TypeCase

namespace FragmentTable

/-- The type case of a fragment for some object types, with spreads nested down to a
depth. -/
def expansion (table : FragmentTable) (options : TypeCaseOptions) : Nat → Expansion
  | 0, id, _ => .error (.fragmentMissing id)
  | depth + 1, id, types => do
      let fragment ← table.resolve id
      TypeCase.addAll (expansion table options depth) options types
        (.empty fragment.typeCondition types) fragment.selections.selections

/-- The type case of a selection set. -/
def partition (table : FragmentTable) (options : TypeCaseOptions) (set : SelectionSet) :
    Except InvariantError TypeCase :=
  TypeCase.addAll (table.expansion options table.size) options set.possible
    (.empty set.parent set.possible) set.selections

end FragmentTable

end QueryShape
