import QueryShape.Selection.Basic

/-!
# Type cases

A selection set on an interface or a union selects different things for different
object types. A type case divides the possible types of a selection set into variants
with one list of selections each.

## What this module delivers

- `Variant`: object types that share one list of selections.
- `TypeCase`: a default variant that spans all possible types, and named variants that
  are disjoint. What no named variant claims is the remainder.
- `TypeCase.refine`: splits named variants until some of them cover a set of object types
  exactly, and says which.
- `TypeCase.update`: changes the variants in given slots.
- `TypeCase.merge`: folds a nested type case into an outer one.
- `TypeCase.exhaustive`: the named variants and the remainder.
-/

set_option autoImplicit false

namespace QueryShape

/-- Object types that share one list of selections, and the fragments that all of them
conform to. -/
structure Variant extends SelectionSet where
  fragments : List FragmentId
deriving Inhabited

namespace Variant

/-- A variant without selections. -/
def empty (parent : String) (possible : PossibleTypes) : Variant :=
  ⟨⟨parent, possible, []⟩, []⟩

/-- The same selections for other object types. -/
def restrict (variant : Variant) (possible : PossibleTypes) : Variant :=
  { variant with possible }

/-- Adds selections at the end. -/
def append (variant : Variant) (selections : List Selection) : Variant :=
  { variant with selections := variant.selections ++ selections }

/-- Adds a fragment that all object types conform to. -/
def conform (variant : Variant) (id : FragmentId) : Variant :=
  if variant.fragments.contains id then variant
  else { variant with fragments := variant.fragments ++ [id] }

/-- Adds the content of another variant, with its selections put under conditions. -/
def absorb (variant : Variant) (conditions : List Condition) (other : Variant) : Variant :=
  let extended :=
    if other.selections.isEmpty then variant
    else variant.append
      (wrapInConditions conditions ⟨other.parent, variant.possible, other.selections⟩)
  other.fragments.foldl conform extended

/-- Whether a variant has neither selections nor fragments. -/
def isVoid (variant : Variant) : Bool :=
  variant.selections.isEmpty && variant.fragments.isEmpty

end Variant

/-- The division of the possible types of a selection set. -/
structure TypeCase where
  default : Variant
  named : List Variant
deriving Inhabited

/-- A place in a type case. -/
inductive Slot where
  | default
  | named (index : Nat)
deriving DecidableEq, Repr, Inhabited

namespace TypeCase

/-- The type case without selections. -/
def empty (parent : String) (possible : PossibleTypes) : TypeCase :=
  ⟨.empty parent possible, []⟩

/-- All object types of some variants, within a capacity. -/
def unionOf (capacity : Nat) (variants : List Variant) : PossibleTypes :=
  variants.foldl (fun all variant => all ∪ variant.possible) (.empty capacity)

/-- The object types that no named variant claims. -/
def unclaimed (typeCase : TypeCase) : PossibleTypes :=
  typeCase.default.possible \
    unionOf typeCase.default.possible.capacity typeCase.named

/-- The default variant for the object types that no named variant claims. -/
def remainder? (typeCase : TypeCase) : Option Variant :=
  if typeCase.unclaimed.isEmpty then none
  else some (typeCase.default.restrict typeCase.unclaimed)

/-- The named variants and the remainder: every possible type is in one of them. -/
def exhaustive (typeCase : TypeCase) : List Variant :=
  typeCase.named ++ typeCase.remainder?.toList

/-! ## Refinement -/

/-- Whether a variant lies partly inside a set of object types, so that it has to be
split. -/
def straddles (types : PossibleTypes) (variant : Variant) : Bool :=
  let overlap := variant.possible ∩ types
  !overlap.isEmpty && overlap != variant.possible

/-- What stays of a variant in its place when it is split by a set of object types. -/
def outside (types : PossibleTypes) (variant : Variant) : Variant :=
  if straddles types variant then
    variant.restrict (variant.possible \ (variant.possible ∩ types))
  else variant

/-- What is split off a variant by a set of object types. -/
def inside? (types : PossibleTypes) (variant : Variant) : Option Variant :=
  if straddles types variant then some (variant.restrict (variant.possible ∩ types)) else none

/-- The slots of the named variants that cover a set of object types after splitting.
A variant that lies inside keeps its slot; a part that is split off gets the next new
one. -/
def slotsFrom (types : PossibleTypes) : Nat → Nat → List Variant → List Slot
  | _, _, [] => []
  | index, next, variant :: rest =>
      if (variant.possible ∩ types).isEmpty then slotsFrom types (index + 1) next rest
      else if straddles types variant then
        .named next :: slotsFrom types (index + 1) (next + 1) rest
      else .named index :: slotsFrom types (index + 1) next rest

/-- The object types among `types` that no variant claims. -/
def leftOver (types : PossibleTypes) (variants : List Variant) : PossibleTypes :=
  variants.foldl (fun rest variant => rest \ (variant.possible ∩ types)) types

/-- Splits variants until some of them cover the requested object types exactly, and
names their slots. A request for all possible types is covered by the default variant
together with all named ones; any other request gets a new variant for what no named one
claims. -/
def refine (typeCase : TypeCase) (request : PossibleTypes) : TypeCase × List Slot :=
  let types := request ∩ typeCase.default.possible
  let spansAll := typeCase.default.possible.subset types
  let split := typeCase.named.map (outside types) ++ typeCase.named.filterMap (inside? types)
  let slots := slotsFrom types 0 typeCase.named.length typeCase.named
  let rest := leftOver types typeCase.named
  -- The default variant is never split, so it is a slot only where everything is requested.
  if spansAll then ({ typeCase with named := split }, .default :: slots)
  else if rest.isEmpty then ({ typeCase with named := split }, slots)
  else
    ({ typeCase with named := split ++ [typeCase.default.restrict rest] },
      slots ++ [.named split.length])

/-- Changes the variant in a slot. -/
def updateSlot (change : Variant → Variant) (typeCase : TypeCase) : Slot → TypeCase
  | .default => { typeCase with default := change typeCase.default }
  | .named index => { typeCase with named := typeCase.named.modify index change }

/-- Changes the variants in some slots. -/
def update (typeCase : TypeCase) (slots : List Slot) (change : Variant → Variant) : TypeCase :=
  slots.foldl (updateSlot change) typeCase

/-! ## Merging -/

/-- Adds the content of a nested variant to the named variants that cover its object
types. -/
def mergeVariant (conditions : List Condition) (typeCase : TypeCase) (nested : Variant) :
    TypeCase :=
  if nested.isVoid then typeCase
  else
    -- The default is left out here: `merge` gives it the nested default at the end.
    let (refined, slots) := typeCase.refine nested.possible
    refined.update (slots.filter (· != .default)) (·.absorb conditions nested)

/-- Folds a nested type case into an outer one. Every exhaustive variant of the nested
case goes to the named variants that cover its object types. What the nested default
holds goes to the outer default only if it applies to all possible types, and it goes
there last, so that variants split off before do not get it twice. -/
def merge (typeCase nested : TypeCase) (conditions : List Condition) : TypeCase :=
  let merged := nested.exhaustive.foldl (mergeVariant conditions) typeCase
  if merged.default.possible.subset nested.default.possible then
    merged.updateSlot (·.absorb conditions nested.default) .default
  else merged

/-- Whether all given object types conform to a fragment already. A fragment of the
default variant applies to every possible type. -/
def conformsTo (typeCase : TypeCase) (types : PossibleTypes) (id : FragmentId) : Bool :=
  typeCase.default.fragments.contains id ||
    types.subset (unionOf typeCase.default.possible.capacity
      (typeCase.named.filter (fun variant => variant.fragments.contains id)))

end TypeCase

end QueryShape
