import QueryShape.Proofs.Executable.SelectionSets

/-!
# Where the selection sets of a document come from

Every selection set of a compiled document is compiled from selections of its documents, within a
scope that the schema and the type conditions on the way determine. What can be said of each
selection on its own follows from the scope of the set that it stands in.

## What this module delivers

- `Scope.Arises`: the scopes within which selections are compiled.
- `Compiles.of_mem_field`, `Compiles.of_mem_spread`, `Compiles.of_mem_inline`: what a compiled
  selection comes from.
- `SelectionSet.CompiledIn`: a selection set that is compiled within a scope.
- `CompiledFrom.compiledIn`: every selection set of a document is compiled within a scope that
  arises.
-/

set_option autoImplicit false

namespace QueryShape

/-- The scopes that arise: on root types, on type conditions of fragments, on types of fields, and
narrowed by inline fragments. -/
inductive Scope.Arises (schema : Schema) : Scope → Prop
  | root {file : Option FileName} {kind : OperationKind} {name : String} {type : NamedType}
      {possible : PossibleTypes} :
      schema.root? kind = some name → schema.type? name = some type →
      schema.possibleTypes? name = some possible → Arises schema ⟨file, type, possible⟩
  | fragment {file : Option FileName} {name : String} {type : NamedType}
      {possible : PossibleTypes} :
      schema.type? name = some type → type.isComposite = true →
      schema.possibleTypes? name = some possible → Arises schema ⟨file, type, possible⟩
  | field {file : Option FileName} {name : String} {type : NamedType} {possible : PossibleTypes} :
      schema.type? name = some type → type.isComposite = true →
      schema.possibleTypes? type.name = some possible → Arises schema ⟨file, type, possible⟩
  | inline {scope inner : Scope} {fragment : Source.InlineFragment} :
      Arises schema scope → scope.NarrowsTo schema fragment inner → Arises schema inner

/-- A selection set is compiled within a scope, whose type it bears. -/
structure SelectionSet.CompiledIn (schema : Schema) (table : FragmentTable) (scope : Scope)
    (set : SelectionSet) : Prop where
  arises : scope.Arises schema
  parent : set.parent = scope.parent.name
  possible : set.possible = scope.possible
  compiles : ∃ seen source, Compiles schema table scope seen source set.selections

/-! ## Selections one by one -/

namespace Compiles

variable {schema : Schema} {table : FragmentTable} {scope : Scope} {seen : NameSet}
  {source : List Source.Selection} {compiled : List Selection}

/-- A field that is compiled comes from a field as written. It has nested selections if its type is
composite, and they are compiled on that type. -/
theorem of_mem_field (h : Compiles schema table scope seen source compiled) {head : FieldSelection}
    {nested : Option SelectionSet} (hmem : .field head nested ∈ compiled) :
    ∃ field type, FieldCompiles schema scope field head type ∧
      ((type.isComposite = false ∧ nested = none) ∨ type.isComposite = true ∧
        ∃ possible selections inner, schema.possibleTypes? type.name = some possible ∧
          Compiles schema table ⟨scope.file, type, possible⟩ .empty selections inner ∧
          nested = some ⟨type.name, possible, inner⟩) := by
  induction h with
  | nil => exact absurd hmem List.not_mem_nil
  | leaf hfield htype _ ih =>
      rcases List.mem_cons.mp hmem with heq | hrest
      · cases heq
        exact ⟨_, _, hfield, Or.inl ⟨htype, rfl⟩⟩
      · exact ih hrest
  | composite hfield htype _ hpossible hnested _ _ ih =>
      rcases List.mem_cons.mp hmem with heq | hrest
      · cases heq
        exact ⟨_, _, hfield, Or.inr ⟨htype, _, _, _, hpossible, hnested, rfl⟩⟩
      · exact ih hrest
  | repeated _ _ ih => exact ih hmem
  | spread _ _ _ _ _ ih => exact ih ((List.mem_cons.mp hmem).resolve_left (by simp))
  | inline _ _ _ _ _ ih => exact ih ((List.mem_cons.mp hmem).resolve_left (by simp))

/-- A spread applies to the types of its fragment that are also types of the scope. -/
theorem of_mem_spread (h : Compiles schema table scope seen source compiled)
    {head : SpreadSelection} (hmem : .spread head ∈ compiled) :
    ∃ fragment, table.get? head.fragment = some fragment ∧
      head.possible = fragment.selections.possible ∩ scope.possible := by
  induction h with
  | nil => exact absurd hmem List.not_mem_nil
  | leaf _ _ _ ih => exact ih ((List.mem_cons.mp hmem).resolve_left (by simp))
  | composite _ _ _ _ _ _ _ ih => exact ih ((List.mem_cons.mp hmem).resolve_left (by simp))
  | repeated _ _ ih => exact ih hmem
  | spread _ _ hget _ _ ih =>
      rcases List.mem_cons.mp hmem with heq | hrest
      · cases heq
        exact ⟨_, hget, rfl⟩
      · exact ih hrest
  | inline _ _ _ _ _ ih => exact ih ((List.mem_cons.mp hmem).resolve_left (by simp))

/-- The selections of an inline fragment are compiled within the scope that it narrows to. -/
theorem of_mem_inline (h : Compiles schema table scope seen source compiled)
    {head : InlineSelection} {nested : SelectionSet} (hmem : .inline head nested ∈ compiled) :
    ∃ fragment inner before selections, head.typeCondition = fragment.typeCondition ∧
      scope.NarrowsTo schema fragment inner ∧ nested.parent = inner.parent.name ∧
      nested.possible = inner.possible ∧
      Compiles schema table inner before selections nested.selections := by
  induction h with
  | nil => exact absurd hmem List.not_mem_nil
  | leaf _ _ _ ih => exact ih ((List.mem_cons.mp hmem).resolve_left (by simp))
  | composite _ _ _ _ _ _ _ ih => exact ih ((List.mem_cons.mp hmem).resolve_left (by simp))
  | repeated _ _ ih => exact ih hmem
  | spread _ _ _ _ _ ih => exact ih ((List.mem_cons.mp hmem).resolve_left (by simp))
  | inline hnarrows _ hnested _ _ ih =>
      rcases List.mem_cons.mp hmem with heq | hrest
      · cases heq
        exact ⟨_, _, _, _, rfl, hnarrows, rfl, rfl, hnested⟩
      · exact ih hrest

end Compiles

/-! ## Selection sets -/

section Sets

variable {schema : Schema} {table : FragmentTable} {scope : Scope} {set nested : SelectionSet}

/-- The selections of a field are compiled on the type of the field. -/
theorem SelectionSet.CompiledIn.field (h : set.CompiledIn schema table scope)
    {head : FieldSelection} (hmem : .field head (some nested) ∈ set.selections) :
    ∃ inner, nested.CompiledIn schema table inner := by
  obtain ⟨seen, source, hcompiles⟩ := h.compiles
  obtain ⟨field, type, ⟨definition, _, -, htype, -⟩, hcases⟩ := hcompiles.of_mem_field hmem
  -- A field without composite type would have no nested selections.
  rcases hcases with
    ⟨-, hnone⟩ | ⟨hcomposite, possible, selections, inner, hpossible, hinner, hnested⟩
  · exact nomatch hnone
  · obtain rfl := Option.some.inj hnested
    exact ⟨_, .field htype hcomposite hpossible, rfl, rfl, _, _, hinner⟩

theorem SelectionSet.CompiledIn.inline (h : set.CompiledIn schema table scope)
    {head : InlineSelection} (hmem : .inline head nested ∈ set.selections) :
    ∃ inner, nested.CompiledIn schema table inner := by
  obtain ⟨seen, source, hcompiles⟩ := h.compiles
  obtain ⟨fragment, inner, before, selections, -, hnarrows, hparent, hpossible, hinner⟩ :=
    hcompiles.of_mem_inline hmem
  exact ⟨inner, .inline h.arises hnarrows, hparent, hpossible, _, _, hinner⟩

/-- What a compiled selection set contains at any depth is compiled within some scope too. -/
theorem SelectionSet.CompiledIn.of_contains (hcontains : set.Contains nested)
    (h : ∃ scope, set.CompiledIn schema table scope) :
    ∃ scope, nested.CompiledIn schema table scope := by
  induction hcontains with
  | self set => exact h
  | field hmem _ ih =>
      obtain ⟨scope, hset⟩ := h
      exact ih (hset.field hmem)
  | inline hmem _ ih =>
      obtain ⟨scope, hset⟩ := h
      exact ih (hset.inline hmem)

end Sets

section Documents

variable {schema : Schema} {texts : List SourceText} {definitions : Table FragmentSource}
  {document : CompiledDocument}

theorem CompiledFrom.compiledIn_operation (h : CompiledFrom schema texts definitions document)
    {operation : Operation} (hmem : operation ∈ document.operations) :
    ∃ root type, schema.root? operation.kind = some root ∧ schema.type? root = some type ∧
      operation.selections.parent = type.name ∧
      schema.possibleTypes? root = some operation.selections.possible ∧
      ∃ scope, operation.selections.CompiledIn schema document.fragments scope := by
  obtain ⟨place, hplace⟩ := List.mem_iff_getElem?.mp hmem
  obtain ⟨source, -, hcompiles⟩ := h.exists_source hplace
  obtain ⟨name, root, declared, directives, possible, type, selections, -, hroot, -, -, hpossible,
    htype, hselections, rfl⟩ := hcompiles
  exact ⟨root, type, hroot, htype, rfl, hpossible, _, .root hroot htype hpossible, rfl, rfl, _, _,
    hselections⟩

theorem CompiledFrom.compiledIn_fragment (h : CompiledFrom schema texts definitions document)
    {id : FragmentId} {fragment : Fragment} (hget : document.fragments.get? id = some fragment) :
    ∃ type, schema.type? fragment.typeCondition = some type ∧
      fragment.selections.parent = type.name ∧
      schema.possibleTypes? fragment.typeCondition = some fragment.selections.possible ∧
      ∃ scope, fragment.selections.CompiledIn schema document.fragments scope := by
  obtain ⟨source, -, hcompiles⟩ := h.sound.compiled id fragment hget
  obtain ⟨type, possible, directives, selections, htype, hcomposite, hpossible, -, hselections,
    rfl⟩ := hcompiles
  -- The fragment was compiled against the fragments before it.
  exact ⟨type, htype, rfl, hpossible, _, .fragment htype hcomposite hpossible, rfl, rfl, _, _,
    hselections.mono (h.sound.before_growsTo id)⟩

/-- Every selection set of a document is compiled within a scope that arises. -/
theorem CompiledFrom.compiledIn (h : CompiledFrom schema texts definitions document)
    {set : SelectionSet} (hset : document.Has set) :
    ∃ scope, set.CompiledIn schema document.fragments scope := by
  cases hset with
  | operation hmem hcontains =>
      obtain ⟨_, _, -, -, -, -, hscope⟩ := h.compiledIn_operation hmem
      exact SelectionSet.CompiledIn.of_contains hcontains hscope
  | fragment hget hcontains =>
      obtain ⟨_, -, -, -, hscope⟩ := h.compiledIn_fragment hget
      exact SelectionSet.CompiledIn.of_contains hcontains hscope

end Documents

end QueryShape
