import QueryShape.Proofs.Executable.Document
import QueryShape.Proofs.ReferencedTypes
import QueryShape.Proofs.Unplaced

/-!
# What a definition needs of a schema

Whether a definition compiles depends on the schema and on the fragments that it spreads. The first
of the two is a property of the definition as written: it knows nothing of a table of fragments, of
what was compiled before, or of positions.

## What this module delivers

- `Schema.Declares`, `Schema.HasField`, `Schema.Narrows`: what directives, fields and type conditions
  need.
- `Source.Selection.AllFit`, `Source.Fragment.Fits`, `Source.Operation.Fits`,
  `Source.Definition.Fits`: what selections and definitions need.
- `exists_compileAll_iff`: directives compile exactly if they are declared.
- `Source.Definition.fits_unplaced`: positions do not matter.
-/

set_option autoImplicit false

namespace QueryShape

open CompileM

/-! ## Directives -/

/-- A directive that the schema declares, with arguments that it declares. -/
def Schema.Declares (schema : Schema) (directive : Source.Directive) : Prop :=
  ∃ definition, schema.directive? directive.name = some definition ∧
    ∀ argument ∈ directive.arguments, (definition.parameters.get? argument.1).isSome = true

/-- Directives that the schema declares. -/
def Schema.DeclaresAll (schema : Schema) (directives : List Source.Directive) : Prop :=
  ∀ directive ∈ directives, schema.Declares directive

/-- Mapping to results succeeds as a whole if it succeeds for each entry. -/
theorem exists_mapM_eq_ok_iff {α β ε : Type} {f : α → Except ε β} {list : List α} :
    (∃ results, list.mapM f = .ok results) ↔ ∀ entry ∈ list, ∃ result, f entry = .ok result := by
  induction list with
  | nil => exact ⟨fun _ _ hmem => absurd hmem List.not_mem_nil, fun _ => ⟨[], by simp; rfl⟩⟩
  | cons entry rest ih =>
      rw [List.forall_mem_cons, ← ih, List.mapM_cons]
      simp only [bind_eq_ok]
      constructor
      · rintro ⟨_, result, hentry, results, hrest, -⟩
        exact ⟨⟨result, hentry⟩, results, hrest⟩
      · rintro ⟨⟨result, hentry⟩, results, hrest⟩
        exact ⟨result :: results, result, hentry, results, hrest, rfl⟩

section Directives

variable {schema : Schema} {file : Option FileName}

theorem exists_compileArgument_iff {definition : DirectiveDefinition} {location : Location}
    {argument : String × Source.Value} :
    (∃ compiled, AppliedDirective.compileArgument definition location argument = .ok compiled) ↔
      (definition.parameters.get? argument.1).isSome = true := by
  rw [AppliedDirective.compileArgument_eq]
  cases definition.parameters.get? argument.1 with
  | none => simp
  | some parameter => simp

theorem exists_compileDirective_iff {directive : Source.Directive} :
    (∃ compiled, AppliedDirective.compile schema file directive = .ok compiled) ↔
      schema.Declares directive := by
  rw [AppliedDirective.compile, Schema.Declares]
  cases schema.directive? directive.name with
  | none => simp
  | some definition =>
      have harguments : (∃ arguments, directive.arguments.mapM
            (AppliedDirective.compileArgument definition (.source file directive.position)) =
              .ok arguments) ↔
          ∀ argument ∈ directive.arguments,
            (definition.parameters.get? argument.1).isSome = true :=
        exists_mapM_eq_ok_iff.trans (forall₂_congr fun _ _ => exists_compileArgument_iff)
      simp only [bind_eq_ok, Option.some.injEq, exists_eq_left']
      rw [← harguments]
      constructor
      · rintro ⟨_, arguments, harguments, -⟩
        exact ⟨arguments, harguments⟩
      · rintro ⟨arguments, harguments⟩
        exact ⟨_, arguments, harguments, rfl⟩

/-- Directives compile if they are declared, whatever file they stand in. -/
theorem exists_compileAll_iff {directives : List Source.Directive} :
    (∃ compiled, AppliedDirective.compileAll schema file directives = .ok compiled) ↔
      schema.DeclaresAll directives := by
  rw [AppliedDirective.compileAll, exists_mapM_eq_ok_iff, Schema.DeclaresAll]
  exact forall₂_congr fun _ _ => exists_compileDirective_iff

theorem Schema.declaresAll_unplaced {directives : List Source.Directive} :
    schema.DeclaresAll (directives.map Source.Directive.unplaced) ↔
      schema.DeclaresAll directives :=
  List.forall_mem_map

end Directives

/-! ## Selections -/

/-- The schema gives a field on a type, with a type of which everything is defined. -/
def Schema.HasField (schema : Schema) (parent : NamedType) (field : Source.Field)
    (type : NamedType) : Prop :=
  ∃ definition, schema.field? parent field.name = .ok (some definition) ∧
    schema.type? definition.type.typeName = some type ∧
    schema.DefinesAll definition.type.typeName ∧ schema.DeclaresAll field.directives

/-- A name of a composite type, of which everything is defined. -/
def Schema.Conditions (schema : Schema) (name : String) (type : NamedType) : Prop :=
  schema.type? name = some type ∧ type.isComposite = true ∧
    (schema.possibleTypes? name).isSome = true ∧ schema.DefinesAll name

/-- The type inside an inline fragment: that around it, or the one its type condition names. -/
def Schema.Narrows (schema : Schema) (parent : NamedType) (typeCondition : Option String)
    (inner : NamedType) : Prop :=
  match typeCondition with
  | none => inner = parent
  | some name => schema.Conditions name inner

mutual

/-- What a selection on a type needs, given the names spread before on the way to it. A spread of
one of them needs nothing. -/
def Source.Selection.Fits (schema : Schema) (parent : NamedType) (seen : NameSet) :
    Source.Selection → Prop
  | .field head selections =>
      ∃ type, schema.HasField parent head type ∧ (type.isComposite = true ↔ selections ≠ []) ∧
        (type.isComposite = true → (schema.possibleTypes? type.name).isSome = true ∧
          Source.Selection.AllFit schema type .empty selections)
  | .spread head => seen.contains head.name = false → schema.DeclaresAll head.directives
  | .inline head selections =>
      ∃ inner, schema.Narrows parent head.typeCondition inner ∧
        schema.DeclaresAll head.directives ∧
        Source.Selection.AllFit schema inner seen selections

/-- What selections on a type need. -/
def Source.Selection.AllFit (schema : Schema) (parent : NamedType) (seen : NameSet) :
    List Source.Selection → Prop
  | [] => True
  | selection :: rest =>
      selection.Fits schema parent seen ∧
        Source.Selection.AllFit schema parent (seenBehind seen selection) rest

end

namespace Source

/-- What a fragment needs. -/
def Fragment.Fits (schema : Schema) (fragment : Fragment) : Prop :=
  ∃ type, schema.Conditions fragment.typeCondition type ∧
    schema.DeclaresAll fragment.directives ∧
    Selection.AllFit schema type .empty fragment.selections

/-- What an operation needs. -/
def Operation.Fits (schema : Schema) (operation : Operation) : Prop :=
  ∃ root type, operation.name.isSome = true ∧ schema.root? operation.kind = some root ∧
    (∀ definition ∈ operation.declared, schema.DefinesAll definition.type.typeName) ∧
    schema.DeclaresAll operation.directives ∧
    (schema.possibleTypes? root).isSome = true ∧ schema.type? root = some type ∧
    Selection.AllFit schema type .empty operation.selections

/-- What a definition needs. An operation without a keyword has no name, which it needs. -/
def Definition.Fits (schema : Schema) : Definition → Prop
  | .anonymous _ _ => False
  | .operation definition => definition.Fits schema
  | .fragment definition => definition.Fits schema

/-! ## Positions do not matter -/

variable {schema : Schema}

theorem seenBehind_unplaced (seen : NameSet) (selection : Selection) :
    seenBehind seen selection.unplaced = seenBehind seen selection := by
  cases selection with
  | field head selections => rfl
  | spread head => rfl
  | inline head selections => rfl

theorem unplacedAll_eq_nil_iff {selections : List Selection} :
    Selection.unplacedAll selections = [] ↔ selections = [] := by
  cases selections with
  | nil => exact Iff.rfl
  | cons first rest => simp [Selection.unplacedAll]

theorem hasField_unplaced {parent : NamedType} {field : Field} {type : NamedType} :
    schema.HasField parent field.unplaced type ↔ schema.HasField parent field type := by
  rw [Schema.HasField, Schema.HasField, Field.unplaced, Schema.declaresAll_unplaced]

mutual

theorem Selection.fits_unplaced (parent : NamedType) (seen : NameSet) (selection : Selection) :
    selection.unplaced.Fits schema parent seen ↔ selection.Fits schema parent seen := by
  cases selection with
  | field head selections =>
      simp only [Selection.unplaced, Selection.Fits, hasField_unplaced, ne_eq,
        unplacedAll_eq_nil_iff, Selection.allFit_unplaced _ _ selections]
  | spread head =>
      simp only [Selection.unplaced, Selection.Fits, Spread.unplaced, Schema.declaresAll_unplaced]
  | inline head selections =>
      simp only [Selection.unplaced, Selection.Fits, InlineFragment.unplaced,
        Schema.declaresAll_unplaced, Selection.allFit_unplaced _ _ selections]

theorem Selection.allFit_unplaced (parent : NamedType) (seen : NameSet)
    (selections : List Selection) :
    Selection.AllFit schema parent seen (Selection.unplacedAll selections) ↔
      Selection.AllFit schema parent seen selections := by
  cases selections with
  | nil => exact Iff.rfl
  | cons first rest =>
      simp only [Selection.unplacedAll, Selection.AllFit, Selection.fits_unplaced _ _ first,
        seenBehind_unplaced, Selection.allFit_unplaced _ _ rest]

end

/-- What a definition needs does not depend on positions. -/
theorem Definition.fits_unplaced (definition : Definition) :
    definition.unplaced.Fits schema ↔ definition.Fits schema := by
  cases definition with
  | anonymous position selections => exact Iff.rfl
  | operation definition =>
      simp only [Definition.unplaced, Definition.Fits, Operation.Fits, Operation.unplaced,
        Schema.declaresAll_unplaced, Selection.allFit_unplaced, List.forall_mem_map]
      rfl
  | fragment definition =>
      simp only [Definition.unplaced, Definition.Fits, Fragment.Fits, Fragment.unplaced,
        Schema.declaresAll_unplaced, Selection.allFit_unplaced]

end Source

end QueryShape
