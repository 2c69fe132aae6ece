import QueryShape.Proofs.BuiltSchema
import QueryShape.Proofs.Executable.Scopes

/-!
# Compiled selections are well typed

A selection set stands on a composite type of the schema and applies to possible types of that type.
The selections in it agree with the type and with what they apply to: fields with the definitions
that the type gives them, inline fragments with their type conditions, spreads with their fragments.

## What this module delivers

- `SelectionSet.WellTyped`: a selection set agrees with the schema and with its fragments.
- `SelectionSet.CompiledIn.wellTyped`: what is compiled against a coherent schema is well typed.
- `Schema.compiled_wellTyped`: every selection set of a document is well typed, and operations,
  fragments and fields apply to all possible types of their types.
-/

set_option autoImplicit false

namespace QueryShape

/-! ## Well-typed selection sets -/

/-- A selection set stands on a type and applies to all possible types of it. -/
def SelectionSet.Spans (schema : Schema) (set : SelectionSet) (type : String) : Prop :=
  set.parent = type ∧ schema.possibleTypes? type = some set.possible

/-- A field is the one that its type defines under its name, and has nested selections, on all
possible types of its own type, if and only if that is composite. -/
structure FieldSelection.WellTyped (schema : Schema) (parent : NamedType) (head : FieldSelection)
    (nested : Option SelectionSet) : Prop where
  standsOn : head.parent = parent.name
  defined : ∃ definition, schema.field? parent head.name = .ok (some definition) ∧
    definition.type = head.type
  nested_iff : nested.isSome = true ↔
    ∃ type, schema.type? head.type.typeName = some type ∧ type.isComposite = true
  spans : ∀ set, nested = some set → set.Spans schema head.type.typeName

/-- A selection set agrees with the schema and with the fragments that it spreads. -/
structure SelectionSet.WellTyped (schema : Schema) (table : FragmentTable) (set : SelectionSet) :
    Prop where
  composite : ∃ parent, schema.type? set.parent = some parent ∧ parent.isComposite = true ∧
    ∀ head nested, .field head nested ∈ set.selections → head.WellTyped schema parent nested
  subset : ∃ possible, schema.possibleTypes? set.parent = some possible ∧
    ∀ type ∈ set.possible, type ∈ possible
  unconditional : ∀ head nested, .inline head nested ∈ set.selections → head.typeCondition = none →
    nested.parent = set.parent ∧ nested.possible = set.possible
  conditional : ∀ head nested, .inline head nested ∈ set.selections →
    ∀ name, head.typeCondition = some name → nested.parent = name ∧
      ∃ possible, schema.possibleTypes? name = some possible ∧
        nested.possible = possible ∩ set.possible
  spreads : ∀ head, .spread head ∈ set.selections →
    ∃ fragment, table.get? head.fragment = some fragment ∧
      head.possible = fragment.selections.possible ∩ set.possible

/-! ## Compiling against coherent schemas -/

variable {schema : Schema} {table : FragmentTable} {scope : Scope} {set : SelectionSet}

/-- A scope that arises stands on a composite type, within the possible types of it. -/
structure Scope.Placed (schema : Schema) (scope : Scope) : Prop where
  type : schema.type? scope.parent.name = some scope.parent
  composite : scope.parent.isComposite = true
  within : ∃ possible, schema.possibleTypes? scope.parent.name = some possible ∧
    ∀ type ∈ scope.possible, type ∈ possible

theorem Scope.placed_of_all {file : Option FileName} {type : NamedType} {possible : PossibleTypes}
    (htype : schema.type? type.name = some type) (hcomposite : type.isComposite = true)
    (hpossible : schema.possibleTypes? type.name = some possible) :
    Scope.Placed schema ⟨file, type, possible⟩ :=
  ⟨htype, hcomposite, possible, hpossible, fun _ hmem => hmem⟩

/-- Within an inline fragment the scope is placed again: its possible types are among those of the
type condition. -/
theorem Scope.Placed.narrow (hschema : schema.Coherent) (h : scope.Placed schema) {inner : Scope}
    {fragment : Source.InlineFragment} (hnarrows : scope.NarrowsTo schema fragment inner) :
    inner.Placed schema := by
  rw [Scope.NarrowsTo] at hnarrows
  cases hcondition : fragment.typeCondition with
  | none =>
      rw [hcondition] at hnarrows
      rw [hnarrows]
      exact h
  | some name =>
      rw [hcondition] at hnarrows
      obtain ⟨type, possible, htype, hcomposite, hpossible, rfl⟩ := hnarrows
      obtain rfl : type.name = name := hschema.named name type htype
      refine ⟨htype, hcomposite, possible, hpossible, ?_⟩
      intro id hmem
      exact (PossibleTypes.mem_inter.mp hmem).1

/-- The scopes that arise with a coherent schema are placed. -/
theorem Scope.Arises.placed (hschema : schema.Coherent) (h : scope.Arises schema) :
    scope.Placed schema := by
  induction h with
  | @root file kind name type possible hroot htype hpossible =>
      -- Root types are objects.
      obtain ⟨object, hobject⟩ := hschema.rooted kind name hroot
      obtain rfl : type.name = name := hschema.named name type htype
      obtain rfl : type = .object object := Option.some.inj (htype.symm.trans hobject)
      exact Scope.placed_of_all htype rfl hpossible
  | @fragment file name type possible htype hcomposite hpossible =>
      obtain rfl : type.name = name := hschema.named name type htype
      exact Scope.placed_of_all htype hcomposite hpossible
  | @field file name type possible htype hcomposite hpossible =>
      obtain rfl : type.name = name := hschema.named name type htype
      exact Scope.placed_of_all htype hcomposite hpossible
  | inline _ hnarrows ih => exact ih.narrow hschema hnarrows

/-- A field that compiles is well typed. -/
theorem Compiles.wellTyped_field (hschema : schema.Coherent) {seen : NameSet}
    {source : List Source.Selection} {compiled : List Selection}
    (h : Compiles schema table scope seen source compiled) {head : FieldSelection}
    {nested : Option SelectionSet} (hmem : .field head nested ∈ compiled) :
    head.WellTyped schema scope.parent nested := by
  obtain ⟨field, type, ⟨definition, directives, hfield, htype, -, rfl⟩, hcases⟩ :=
    h.of_mem_field hmem
  have hname : type.name = definition.type.typeName := hschema.named _ type htype
  refine ⟨rfl, ⟨definition, hfield, rfl⟩, ?_, ?_⟩
  · rcases hcases with ⟨hleaf, rfl⟩ | ⟨hcomposite, possible, selections, inner, -, -, rfl⟩
    · constructor
      · exact fun hsome => absurd hsome Bool.false_ne_true
      · rintro ⟨other, hother, hcomposite⟩
        obtain rfl := Option.some.inj (htype.symm.trans hother)
        exact absurd hcomposite (by simp [hleaf])
    · exact ⟨fun _ => ⟨type, htype, hcomposite⟩, fun _ => rfl⟩
  · rintro set rfl
    rcases hcases with ⟨-, hnone⟩ | ⟨-, possible, selections, inner, hpossible, -, hset⟩
    · exact nomatch hnone
    · obtain rfl := Option.some.inj hset
      exact ⟨hname, hname ▸ hpossible⟩

/-- What is compiled against a coherent schema is well typed. -/
theorem SelectionSet.CompiledIn.wellTyped (hschema : schema.Coherent)
    (h : set.CompiledIn schema table scope) : set.WellTyped schema table := by
  have hplaced := h.arises.placed hschema
  obtain ⟨seen, source, hcompiles⟩ := h.compiles
  constructor
  · refine ⟨scope.parent, h.parent ▸ hplaced.type, hplaced.composite, ?_⟩
    intro head nested hmem
    exact hcompiles.wellTyped_field hschema hmem
  · rw [h.parent, h.possible]
    exact hplaced.within
  · intro head nested hmem hnone
    obtain ⟨fragment, inner, _, _, hcondition, hnarrows, hparent, hpossible, -⟩ :=
      hcompiles.of_mem_inline hmem
    rw [hcondition] at hnone
    rw [Scope.NarrowsTo, hnone] at hnarrows
    rw [hparent, hpossible, hnarrows, h.parent, h.possible]
    exact ⟨rfl, rfl⟩
  · intro head nested hmem name hname
    obtain ⟨fragment, inner, _, _, hcondition, hnarrows, hparent, hpossible, -⟩ :=
      hcompiles.of_mem_inline hmem
    rw [hcondition] at hname
    rw [Scope.NarrowsTo, hname] at hnarrows
    obtain ⟨type, possible, htype, -, htypes, rfl⟩ := hnarrows
    rw [hparent, hpossible, h.possible]
    exact ⟨hschema.named name type htype, possible, htypes, rfl⟩
  · intro head hmem
    rw [h.possible]
    exact hcompiles.of_mem_spread hmem

/-! ## Documents -/

section Documents

variable {texts : List SourceText} {document : CompiledDocument}

/-- Every selection set of a compiled document is well typed. Operations apply to all possible types
of their root types, and fragments to all those of their type conditions; fields do so as well, as
being well typed includes. -/
theorem Schema.compiled_wellTyped (hbuilt : schema.Built)
    (h : schema.compile texts = .ok document) :
    (∀ operation ∈ document.operations, ∃ root, schema.root? operation.kind = some root ∧
      operation.selections.Spans schema root) ∧
    (∀ id fragment, document.fragments.get? id = some fragment →
      fragment.selections.Spans schema fragment.typeCondition) ∧
    ∀ set, document.Has set → set.WellTyped schema document.fragments := by
  have hschema := hbuilt.coherent
  obtain ⟨definitions, hfrom⟩ := Schema.compile_spec h
  refine ⟨?_, ?_, ?_⟩
  · intro operation hmem
    obtain ⟨root, type, hroot, htype, hparent, hpossible, -⟩ := hfrom.compiledIn_operation hmem
    exact ⟨root, hroot, hparent.trans (hschema.named root type htype), hpossible⟩
  · intro id fragment hget
    obtain ⟨type, htype, hparent, hpossible, -⟩ := hfrom.compiledIn_fragment hget
    exact ⟨hparent.trans (hschema.named _ type htype), hpossible⟩
  · intro set hset
    obtain ⟨scope, hcompiled⟩ := hfrom.compiledIn hset
    exact hcompiled.wellTyped hschema

end Documents

/-- `query Q { node { id ... on User { ...F } } }` with a fragment on `Node`. -/
def Sample.narrowed : List SourceText :=
  Sample.query [Sample.node [] [Sample.id none,
      Sample.inline [] (some "User") [Sample.spread [] "F"]]]
    [("F", [Sample.id none])]

theorem Schema.compiled_wellTyped_sample : ∃ (schema : Schema) (document : CompiledDocument)
    (set : SelectionSet), schema.Built ∧ schema.compile Sample.narrowed = .ok document ∧
      document.Has set ∧ set.selections.length = 2 ∧
      set.WellTyped schema document.fragments := by
  obtain ⟨schema, hbuilt, htest⟩ := Sample.exists_built
    (fun schema => decide (∃ document ∈ (schema.compile Sample.narrowed).toOption,
      ∃ set ∈ Sample.fieldSets document, set.selections.length = 2)) (by decide +kernel)
  obtain ⟨document, hdocument, set, hset, hlength⟩ := of_decide_eq_true htest
  have hcompile := Sample.mem_toOption.mp hdocument
  have hhas := Sample.has_of_mem_fieldSets hset
  obtain ⟨-, -, hall⟩ := Schema.compiled_wellTyped hbuilt hcompile
  exact ⟨schema, document, set, hbuilt, hcompile, hhas, hlength, hall set hhas⟩

end QueryShape
