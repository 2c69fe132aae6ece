import QueryShape.Proofs.Executable.Document

/-!
# The selection sets of a document

A selection set occurs in a document as the selections of an operation, of a fragment, of a
field or of an inline fragment. In a compiled document all of them are well founded: every
spread at any depth leads to a fragment, and fragments spread earlier fragments only.

## What this module delivers

- `SelectionSet.Contains`: a selection set at some depth of another one.
- `CompiledDocument.Has`: the selection sets of a document.
- `FragmentTable.Resolves.of_contains`: what is nested resolves too.
- `CompiledDocument.Has.resolves`, `CompiledFrom.ordered`: spreads of a compiled document.
-/

set_option autoImplicit false

namespace QueryShape

/-- A selection set at some depth of another one, fragments not looked through. -/
inductive SelectionSet.Contains : SelectionSet → SelectionSet → Prop
  | self (set : SelectionSet) : set.Contains set
  | field {set nested inner : SelectionSet} {head : FieldSelection} :
      .field head (some nested) ∈ set.selections → nested.Contains inner → set.Contains inner
  | inline {set nested inner : SelectionSet} {head : InlineSelection} :
      .inline head nested ∈ set.selections → nested.Contains inner → set.Contains inner

/-- The selection sets of a document, at any depth of operations and fragments. -/
inductive CompiledDocument.Has (document : CompiledDocument) : SelectionSet → Prop
  | operation {operation : Operation} {set : SelectionSet} :
      operation ∈ document.operations → operation.selections.Contains set → document.Has set
  | fragment {id : FragmentId} {fragment : Fragment} {set : SelectionSet} :
      document.fragments.get? id = some fragment → fragment.selections.Contains set →
      document.Has set

/-! ## Spreads at any depth -/

theorem Selection.mem_spreadsIn {selections : List Selection} {selection : Selection}
    {id : FragmentId} (hmem : selection ∈ selections) (hid : id ∈ selection.spreads) :
    id ∈ Selection.spreadsIn selections := by
  induction selections with
  | nil => exact absurd hmem List.not_mem_nil
  | cons first rest ih =>
      rw [Selection.spreadsIn]
      rcases List.mem_cons.mp hmem with rfl | hrest
      · exact List.mem_append_left _ hid
      · exact List.mem_append_right _ (ih hrest)

namespace FragmentTable

variable {table : FragmentTable} {set nested : SelectionSet}

theorem Resolves.field (h : table.Resolves set) {head : FieldSelection}
    (hmem : .field head (some nested) ∈ set.selections) : table.Resolves nested := by
  intro id hid
  refine h id (Selection.mem_spreadsIn hmem ?_)
  obtain ⟨parent, possible, selections⟩ := nested
  exact hid

theorem Resolves.inline (h : table.Resolves set) {head : InlineSelection}
    (hmem : .inline head nested ∈ set.selections) : table.Resolves nested := by
  intro id hid
  refine h id (Selection.mem_spreadsIn hmem ?_)
  obtain ⟨parent, possible, selections⟩ := nested
  exact hid

theorem Resolves.of_contains (hcontains : set.Contains nested) (h : table.Resolves set) :
    table.Resolves nested := by
  induction hcontains with
  | self set => exact h
  | field hmem _ ih => exact ih (h.field hmem)
  | inline hmem _ ih => exact ih (h.inline hmem)

end FragmentTable

/-! ## Compiled documents -/

section Compiled

variable {schema : Schema} {texts : List SourceText} {definitions : Table FragmentSource}
  {document : CompiledDocument}

theorem CompiledFrom.ordered (h : CompiledFrom schema texts definitions document) :
    document.fragments.Ordered :=
  h.sound.ordered

/-- Every operation is compiled from the one that the documents define at its place. -/
theorem CompiledFrom.exists_source (h : CompiledFrom schema texts definitions document)
    {place : Nat} {operation : Operation} (hplace : document.operations[place]? = some operation) :
    ∃ source, (operationSources texts)[place]? = some source ∧
      OperationCompiles schema document.fragments source.1 source.2 operation := by
  obtain ⟨hlt, rfl⟩ := List.getElem?_eq_some_iff.mp hplace
  have hlt' : place < (operationSources texts).length := h.operations.length_eq ▸ hlt
  exact ⟨_, List.getElem?_eq_getElem hlt', h.operations.get hlt' hlt⟩

theorem CompiledFrom.resolves (h : CompiledFrom schema texts definitions document)
    {set : SelectionSet} (hset : document.Has set) : document.fragments.Resolves set := by
  cases hset with
  | operation hmem hcontains =>
      obtain ⟨place, hplace⟩ := List.mem_iff_getElem?.mp hmem
      obtain ⟨source, -, hcompiles⟩ := h.exists_source hplace
      obtain ⟨_, _, _, _, _, _, _, -, -, -, -, -, -, hselections, rfl⟩ := hcompiles
      exact FragmentTable.Resolves.of_contains hcontains hselections.spreads_lt
  | fragment hget hcontains =>
      exact FragmentTable.Resolves.of_contains hcontains (h.ordered.resolves hget)

end Compiled

end QueryShape
