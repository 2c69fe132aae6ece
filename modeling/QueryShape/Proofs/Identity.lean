import QueryShape.Proofs.Executable.Success
import QueryShape.Proofs.Executable.SpreadOrder
import QueryShape.Proofs.Partition

/-!
# What identifies an operation

The canonical text of an operation depends on its definition and on those of the fragments that it
reaches, and on nothing else: not on where these stand, in which order or in which file, and not on
what else was compiled with them.

## What this module delivers

- `CompiledFrom.exists_operationSource`: the definition of a compiled operation.
- `CompiledFrom.operationNames_eq`: the names of the operations.
- `Source.Closure.unplaced_eq`: what is reached where the fragments are the same up to positions.
- `CompiledFrom.canonicalSource_eq`: the canonical text under the same condition.
- `Schema.identity_of_perm`: definitions in another order and at other places.
-/

set_option autoImplicit false

namespace QueryShape

variable {schema : Schema} {texts texts' : List SourceText} {definitions : Table FragmentSource}
  {document document' : CompiledDocument}

/-! ## Definitions of operations and fragments -/

theorem map_snd_operationSources (texts : List SourceText) :
    (operationSources texts).map Prod.snd =
      (Source.definitions texts).filterMap Source.Definition.operation? := by
  rw [operationSources, ← Source.map_snd_definitionsOf, List.map_filterMap, List.filterMap_map]
  refine List.filterMap_congr fun entry _ => ?_
  obtain ⟨file, definition⟩ := entry
  cases definition with
  | anonymous position selections => rfl
  | operation source => rfl
  | fragment source => rfl

/-- Every operation of a compiled document is compiled from a definition of its name. -/
theorem CompiledFrom.exists_operationSource (h : CompiledFrom schema texts definitions document)
    {operation : Operation} (hmem : operation ∈ document.operations) :
    ∃ file source, (file, source) ∈ operationSources texts ∧
      .operation source ∈ Source.definitions texts ∧ source.name = some operation.name ∧
      OperationCompiles schema document.fragments file source operation := by
  obtain ⟨place, hplace⟩ := List.mem_iff_getElem?.mp hmem
  obtain ⟨⟨file, source⟩, hsource, hcompiles⟩ := h.exists_source hplace
  have hlisted : (file, source) ∈ operationSources texts := List.mem_of_getElem? hsource
  have hdefined : .operation source ∈ Source.definitions texts := by
    rw [← Source.mem_filterMap_operation?, ← map_snd_operationSources]
    exact List.mem_map_of_mem hlisted
  have hname : source.name = some operation.name := by
    obtain ⟨_, _, _, _, _, _, _, hname, -, -, -, -, -, -, rfl⟩ := hcompiles
    exact hname
  exact ⟨file, source, hlisted, hdefined, hname, hcompiles⟩

/-- Every operation that is defined is compiled, and found under its name. -/
theorem CompiledFrom.exists_operation (h : CompiledFrom schema texts definitions document)
    {file : Option FileName} {source : Source.Operation}
    (hmem : (file, source) ∈ operationSources texts) :
    ∃ name operation, source.name = some name ∧ document.operation? name = some operation ∧
      OperationCompiles schema document.fragments file source operation := by
  obtain ⟨place, hlt, hplace⟩ := List.getElem_of_mem hmem
  have hlt' : place < document.operations.length := h.operations.length_eq ▸ hlt
  have hcompiles := h.operations.get hlt hlt'
  rw [List.get_eq_getElem, hplace] at hcompiles
  have hname : source.name = some (document.operations[place]).name := by
    obtain ⟨_, _, _, _, _, _, _, hname, -, -, -, -, -, -, heq⟩ := hcompiles
    rw [hname]
    exact congrArg (fun operation => some operation.name) heq.symm
  refine ⟨_, document.operations[place], hname, ?_, hcompiles⟩
  rw [CompiledDocument.operation?]
  cases hfound : document.operations.find?
      (fun operation => operation.name == (document.operations[place]).name) with
  | none => exact absurd (List.find?_eq_none.mp hfound _ (List.getElem_mem hlt')) (by simp)
  | some found =>
      -- No other operation has the name.
      have hfoundName : found.name = (document.operations[place]).name := by
        simpa using List.find?_some hfound
      rw [List.inj_on_of_nodup_map h.distinct (List.mem_of_find?_eq_some hfound)
        (List.getElem_mem hlt') hfoundName]

/-- Compiled operations have the names of their definitions, in order. -/
theorem CompiledFrom.operationNames_eq (h : CompiledFrom schema texts definitions document) :
    operationNames document.operations =
      ((Source.definitions texts).filterMap Source.Definition.operation?).map
        Source.Operation.name := by
  have hnames : List.Forall₂ (· = ·)
      ((operationSources texts).map fun source => source.2.name)
      (operationNames document.operations) := by
    rw [operationNames, List.forall₂_map_left_iff, List.forall₂_map_right_iff]
    refine h.operations.imp ?_
    rintro source operation ⟨_, _, _, _, _, _, _, hname, -, -, -, -, -, -, rfl⟩
    exact hname
  rw [List.forall₂_eq_eq_eq] at hnames
  rw [← hnames, ← map_snd_operationSources, List.map_map]
  rfl

/-- Every fragment definition is that of its name. -/
theorem CompiledFrom.exists_fragmentSource_of_mem (h : CompiledFrom schema texts definitions document)
    {fragment : Source.Fragment} (hmem : .fragment fragment ∈ Source.definitions texts) :
    ∃ source, fragmentSource? texts fragment.name = some source ∧ source.fragment = fragment := by
  obtain ⟨source, hsource, heq⟩ := (defines_of_fragmentSources h.sources).exists_source hmem
  rw [fragmentSources_get? h.sources] at hsource
  exact ⟨source, hsource, heq⟩

/-! ## What is reached -/

namespace Source

/-- The definition of a name is the same as another one, up to positions. -/
def DefinedAlike (texts : List SourceText) (source : FragmentSource) : Prop :=
  ∃ other, fragmentSource? texts source.fragment.name = some other ∧
    other.fragment.unplaced = source.fragment.unplaced

variable {selections selections' : List Selection} {reached reached' : List FragmentSource}

theorem DefinedAlike.spreadsOf_eq {source : FragmentSource} (h : DefinedAlike texts source) :
    spreadsOf texts source.fragment.name = Selection.spreadsIn source.fragment.selections := by
  obtain ⟨other, hother, hsame⟩ := h
  rw [Source.spreadsOf_eq hother, ← Selection.spreadsIn_unplaced,
    ← Selection.spreadsIn_unplaced source.fragment.selections]
  exact congrArg (fun fragment => Selection.spreadsIn fragment.selections) hsame

/-- Where the fragments that are reached spread the same, the same names are reached, in the same
order. There is only one way to visit them. -/
theorem Closure.names_eq (h : Closure texts selections reached)
    (h' : Closure texts' selections' reached')
    (hspreads : Selection.spreadsIn selections' = Selection.spreadsIn selections)
    (hnext : ∀ source ∈ reached, spreadsOf texts' source.fragment.name =
      Selection.spreadsIn source.fragment.selections) :
    reached'.map (fun source => source.fragment.name) =
      reached.map fun source => source.fragment.name := by
  have hsame : ∀ name ∈ reached.map (fun source => source.fragment.name),
      spreadsOf texts' name = spreadsOf texts name := by
    intro name hname
    obtain ⟨source, hsource, rfl⟩ := List.mem_map.mp hname
    rw [hnext source hsource, Source.spreadsOf_eq (h.defined source hsource)]
  have horder := h.order.congr hsame
  rw [← hspreads] at horder
  exact horder.unique h'.order

/-- Where the fragments that are reached are the same up to positions, the same is reached. -/
theorem Closure.unplaced_eq (h : Closure texts selections reached)
    (h' : Closure texts' selections' reached')
    (hspreads : Selection.spreadsIn selections' = Selection.spreadsIn selections)
    (hsame : ∀ source ∈ reached, DefinedAlike texts' source) :
    reached'.map (fun source => source.fragment.unplaced) =
      reached.map fun source => source.fragment.unplaced := by
  have hnames := h.names_eq h' hspreads fun source hsource => (hsame source hsource).spreadsOf_eq
  -- A name stands for one definition, so that the names determine what is reached.
  let definitionOf : String → Option Fragment :=
    fun name => (fragmentSource? texts' name).map fun source => source.fragment.unplaced
  have hreached : reached.map (fun source => some source.fragment.unplaced) =
      (reached.map fun source => source.fragment.name).map definitionOf := by
    rw [List.map_map]
    refine List.map_congr_left fun source hsource => ?_
    obtain ⟨other, hother, heq⟩ := hsame source hsource
    simp only [definitionOf, Function.comp_apply, hother, Option.map_some, heq]
  have hreached' : reached'.map (fun source => some source.fragment.unplaced) =
      (reached'.map fun source => source.fragment.name).map definitionOf := by
    rw [List.map_map]
    refine List.map_congr_left fun source hsource => ?_
    simp only [definitionOf, Function.comp_apply, h'.defined source hsource, Option.map_some]
  have hsome : reached'.map (fun source => some source.fragment.unplaced) =
      reached.map fun source => some source.fragment.unplaced := by
    rw [hreached, hreached', hnames]
  refine List.map_injective_iff.mpr (Option.some_injective Fragment) ?_
  rw [List.map_map, List.map_map]
  exact hsome

/-- Operations that are the same up to positions spread the same names. -/
theorem spreadsIn_eq_of_unplaced_eq {source source' : Operation}
    (h : source'.unplaced = source.unplaced) :
    Selection.spreadsIn source'.selections = Selection.spreadsIn source.selections := by
  rw [← Selection.spreadsIn_unplaced source'.selections,
    ← Selection.spreadsIn_unplaced source.selections]
  exact congrArg (fun source => Selection.spreadsIn source.selections) h

/-- Operations that are the same up to positions, with fragments that are the same up to positions,
have one canonical text. -/
theorem canonicalText_unit_eq {source source' : Operation}
    (hsource : source'.unplaced = source.unplaced)
    (hreached : reached'.map (fun source => source.fragment.unplaced) =
      reached.map fun source => source.fragment.unplaced) :
    canonicalText (unit source' reached') = canonicalText (unit source reached) := by
  have hfragments : ∀ sources : List FragmentSource,
      (sources.map fun source => Definition.fragment source.fragment).map Definition.unplaced =
        (sources.map fun source => source.fragment.unplaced).map Definition.fragment := by
    intro sources
    rw [List.map_map, List.map_map]
    rfl
  apply canonicalText_congr
  rw [unit, unit, List.map_cons, List.map_cons, hfragments, hfragments, hreached]
  rw [Definition.unplaced, Definition.unplaced, hsource]

end Source

/-- A fragment that is defined at another position is defined alike. -/
theorem CompiledFrom.definedAlike (h : CompiledFrom schema texts definitions document)
    {found : FragmentSource} (hmem : .fragment found.fragment.unplaced ∈
      (Source.definitions texts).map Source.Definition.unplaced) : Source.DefinedAlike texts found := by
  obtain ⟨placed, hplaced, heq⟩ := Source.fragment_mem_unplaced.mp hmem
  obtain ⟨other, hother, rfl⟩ := h.exists_fragmentSource_of_mem hplaced
  rw [Source.Fragment.name_eq_of_unplaced_eq heq] at hother
  exact ⟨other, hother, heq⟩

/-- Operations with one definition up to positions, whose fragments are defined alike, have one
canonical text. -/
theorem CompiledFrom.canonicalSource_eq {definitions' : Table FragmentSource}
    (h : CompiledFrom schema texts definitions document)
    (h' : CompiledFrom schema texts' definitions' document') {file file' : Option FileName}
    {source source' : Source.Operation} {operation operation' : Operation}
    (hcompiles : OperationCompiles schema document.fragments file source operation)
    (hcompiles' : OperationCompiles schema document'.fragments file' source' operation')
    (hsource : source'.unplaced = source.unplaced)
    (hsame : ∀ found ∈ fragmentDefinitions texts,
      Source.Needs texts source.selections found.fragment.name →
        Source.DefinedAlike texts' found) :
    operation'.canonicalSource document'.fragments =
      operation.canonicalSource document.fragments := by
  obtain ⟨reached, hclosure, -, -, htext⟩ := h.exists_closure hcompiles
  obtain ⟨reached', hclosure', -, -, htext'⟩ := h'.exists_closure hcompiles'
  rw [htext, htext']
  exact Source.canonicalText_unit_eq hsource (hclosure.unplaced_eq hclosure'
    (Source.spreadsIn_eq_of_unplaced_eq hsource)
    fun found hfound => hsame found (hclosure.mem_fragmentDefinitions hfound) (hclosure.needs hfound))

/-! ## Another order -/

section Perm

variable (hperm : ((Source.definitions texts).map Source.Definition.unplaced).Perm
  ((Source.definitions texts').map Source.Definition.unplaced))
include hperm

/-- Definitions compile together in one order if they do so in another one. -/
theorem Source.Compilable.of_unplaced_perm
    (h : Source.Compilable schema (Source.definitions texts)) :
    Source.Compilable schema (Source.definitions texts') :=
  Source.compilable_unplaced.mp ((Source.compilable_unplaced.mpr h).of_perm hperm)

/-- Operations of one name have one definition, up to positions. -/
theorem Source.Compilable.operation_unplaced_eq
    (h : Source.Compilable schema (Source.definitions texts')) {source source' : Source.Operation}
    (hdefined : .operation source ∈ Source.definitions texts)
    (hdefined' : .operation source' ∈ Source.definitions texts')
    (hname : source'.name = source.name) : source'.unplaced = source.unplaced := by
  have hmem : .operation source.unplaced ∈
      (Source.definitions texts').map Source.Definition.unplaced :=
    hperm.mem_iff.mp (Source.operation_mem_unplaced.mpr ⟨source, hdefined, rfl⟩)
  have hmem' : .operation source'.unplaced ∈
      (Source.definitions texts').map Source.Definition.unplaced :=
    Source.operation_mem_unplaced.mpr ⟨source', hdefined', rfl⟩
  exact (Source.compilable_unplaced.mpr h).operation_eq hmem' hmem hname

/-- Every fragment is defined alike in the other documents. -/
theorem CompiledFrom.definedAlike_of_perm
    (h : CompiledFrom schema texts' definitions document) {found : FragmentSource}
    (hfound : found ∈ fragmentDefinitions texts) : Source.DefinedAlike texts' found :=
  h.definedAlike (hperm.mem_iff.mp (Source.fragment_mem_unplaced.mpr
    ⟨found.fragment, mem_fragmentDefinitions.mp ⟨found, hfound, rfl⟩, rfl⟩))

end Perm

/-- Where the definitions are the same up to order, positions and files, the documents compile
together or not at all, and operations of one name have one canonical text and one identifier. -/
theorem Schema.identity_of_perm (schema : Schema) {texts texts' : List SourceText}
    (hperm : ((Source.definitions texts).map Source.Definition.unplaced).Perm
      ((Source.definitions texts').map Source.Definition.unplaced)) :
    ((∃ document, schema.compile texts = .ok document) ↔
      ∃ document, schema.compile texts' = .ok document) ∧
    ∀ document document', schema.compile texts = .ok document →
      schema.compile texts' = .ok document' →
      (operationNames document.operations).Perm (operationNames document'.operations) ∧
      ∀ operation ∈ document.operations, ∀ operation' ∈ document'.operations,
        operation.name = operation'.name →
        operation.canonicalSource document.fragments =
            operation'.canonicalSource document'.fragments ∧
          operation.identifier document.fragments =
            operation'.identifier document'.fragments := by
  refine ⟨?_, ?_⟩
  · rw [Schema.compile_succeeds_iff, Schema.compile_succeeds_iff]
    exact ⟨fun h => h.of_unplaced_perm hperm, fun h => h.of_unplaced_perm hperm.symm⟩
  · intro document document' hcompile hcompile'
    obtain ⟨definitions, h⟩ := Schema.compile_spec hcompile
    obtain ⟨definitions', h'⟩ := Schema.compile_spec hcompile'
    have hcompilable' := Schema.compile_succeeds_iff.mp ⟨document', hcompile'⟩
    refine ⟨?_, ?_⟩
    · rw [h.operationNames_eq, h'.operationNames_eq, ← Source.keepsNames_unplaced.map_name_operations,
        ← Source.keepsNames_unplaced.map_name_operations (Source.definitions texts')]
      exact (hperm.filterMap _).map _
    · intro operation hoperation operation' hoperation' hname
      obtain ⟨file, source, -, hdefined, hnamed, hcompiles⟩ := h.exists_operationSource hoperation
      obtain ⟨file', source', -, hdefined', hnamed', hcompiles'⟩ :=
        h'.exists_operationSource hoperation'
      have hnames : source'.name = source.name := by
        rw [hnamed', hnamed, hname]
      have hsource := hcompilable'.operation_unplaced_eq hperm hdefined hdefined' hnames
      have htext := h.canonicalSource_eq h' hcompiles hcompiles' hsource
        fun found hfound _ => h'.definedAlike_of_perm hperm hfound
      refine ⟨htext.symm, ?_⟩
      rw [Operation.identifier, Operation.identifier, htext]

/-- A query, the fragment `F` that it spreads, and the fragment `G` that both spread. -/
def Sample.together : List SourceText :=
  query [node [] [spread [] "G", spread [] "F"]] [("F", [spread [] "G"]), ("G", [id none])]

/-- The same definitions, the fragments first and in a file of their own. -/
def Sample.apart : List SourceText :=
  [⟨some ⟨"fragments.graphql"⟩, ⟨[.fragment ⟨⟨1, 1⟩, "G", "Node", [], [id none]⟩,
      .fragment ⟨⟨5, 1⟩, "F", "Node", [], [spread [] "G"]⟩]⟩⟩,
    ⟨some ⟨"query.graphql"⟩, ⟨[.operation ⟨⟨2, 3⟩, .query, some "Q", [], [],
      [node [] [spread [] "G", spread [] "F"]]⟩]⟩⟩]

theorem Schema.identity_of_perm_sample :
    ((Source.definitions Sample.together).map Source.Definition.unplaced).Perm
        ((Source.definitions Sample.apart).map Source.Definition.unplaced) ∧
      ∃ document document' operation operation',
        Sample.schema.compile Sample.together = .ok document ∧
        Sample.schema.compile Sample.apart = .ok document' ∧
        operation ∈ document.operations ∧ operation' ∈ document'.operations ∧
        operation.canonicalSource document.fragments =
          operation'.canonicalSource document'.fragments ∧
        operation.identifier document.fragments = operation'.identifier document'.fragments := by
  have hreverse : (Source.definitions Sample.apart).map Source.Definition.unplaced =
      ((Source.definitions Sample.together).map Source.Definition.unplaced).reverse := rfl
  have hperm : ((Source.definitions Sample.together).map Source.Definition.unplaced).Perm
      ((Source.definitions Sample.apart).map Source.Definition.unplaced) := by
    rw [hreverse]
    exact (List.reverse_perm _).symm
  have hcheck : ∃ document ∈ (Sample.schema.compile Sample.together).toOption,
      ∃ document' ∈ (Sample.schema.compile Sample.apart).toOption,
        ∃ operation ∈ document.operations, ∃ operation' ∈ document'.operations,
          operation.name = operation'.name := by
    decide +kernel
  simp only [Sample.mem_toOption] at hcheck
  obtain ⟨document, hcompile, document', hcompile', operation, hmem, operation', hmem', hname⟩ :=
    hcheck
  obtain ⟨-, hsame⟩ :=
    (Schema.identity_of_perm Sample.schema hperm).2 document document' hcompile hcompile'
  obtain ⟨htext, hid⟩ := hsame operation hmem operation' hmem' hname
  exact ⟨hperm, document, document', operation, operation', hcompile, hcompile', hmem, hmem', htext,
    hid⟩

end QueryShape
