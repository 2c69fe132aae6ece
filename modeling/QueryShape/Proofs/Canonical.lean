import QueryShape.Proofs.Renaming

/-!
# Canonical texts as documents

The canonical text of an operation is a document of its own: the definition of the operation and
below it those of the fragments that it reaches, as they were written. If the text can be read back,
the document compiles under the same schema, to one operation that uses every fragment and has the
same canonical text again. So a canonical text stands for one definition with its fragments, and
making it twice is no different from making it once.

Not every text can be read back. A float without decimals, for instance, is printed like an integer.
Reading back is therefore a condition on the definitions, and the only one.

## What this module delivers

- `Source.ReadsBack`: definitions whose canonical text is read as these definitions.
- `Operation.WrittenIn`: an operation as written, with all that it reaches.
- `Source.Compilable.unit`: an operation compiles together with what it reaches.
- `CompiledDocument.unusedFragments_eq_nil_iff`: documents without unused fragments.
- `Schema.canonicalSource_faithful`: the canonical text read back and compiled again.
-/

set_option autoImplicit false

namespace QueryShape

variable {schema schema' : Schema} {texts texts' : List SourceText}
  {definitions : Table FragmentSource} {document document' : CompiledDocument}
  {source source' : Source.Operation} {reached reached' : List FragmentSource}

/-! ## Units -/

/-- The canonical text of definitions is read as these definitions, at whatever positions. -/
def Source.ReadsBack (all : List Source.Definition) : Prop :=
  ∃ parsed, Source.Document.parse? (Source.canonicalText all) = some parsed ∧
    parsed.definitions.map Source.Definition.unplaced = all.map Source.Definition.unplaced

/-- An operation as written: its definition, and the definitions of the fragments that it spreads
by itself or by fragments, each once, in depth-first order of first reference. -/
structure Operation.WrittenIn (texts : List SourceText) (operation : Operation)
    (source : Source.Operation) (reached : List FragmentSource) : Prop where
  defined : .operation source ∈ Source.definitions texts
  named : source.name = some operation.name
  closure : Source.Closure texts source.selections reached

namespace Source

theorem filterMap_operation?_unit (source : Operation) (reached : List FragmentSource) :
    (unit source reached).filterMap Definition.operation? = [source] := by
  have hnone : (reached.map fun found => Definition.fragment found.fragment).filterMap
      Definition.operation? = [] := by
    rw [List.filterMap_map]
    exact List.filterMap_eq_nil_iff.mpr fun _ _ => rfl
  rw [unit, List.filterMap_cons, hnone]
  rfl

theorem filterMap_fragment?_unit (source : Operation) (reached : List FragmentSource) :
    (unit source reached).filterMap Definition.fragment? =
      reached.map FragmentSource.fragment := by
  have hall : (reached.map fun found => Definition.fragment found.fragment).filterMap
      Definition.fragment? = reached.map FragmentSource.fragment := by
    rw [List.filterMap_map, ← List.filterMap_eq_map]
    rfl
  rw [unit, List.filterMap_cons, hall]
  rfl

theorem mem_unit {definition : Definition} : definition ∈ unit source reached ↔
    definition = .operation source ∨ ∃ found ∈ reached, definition = .fragment found.fragment := by
  rw [unit, List.mem_cons, List.mem_map]
  refine or_congr_right (exists_congr fun found => and_congr_right fun _ => ?_)
  exact eq_comm

/-- What needed fragments spread is needed too. -/
theorem Closure.needs_of_spread {selections : List Selection}
    (h : Closure texts selections reached) {found : FragmentSource} (hmem : found ∈ reached)
    {name : String} (hname : name ∈ Selection.spreadsIn found.fragment.selections) :
    Needs texts selections name := by
  obtain ⟨root, hroot, hleads⟩ := h.needs hmem
  refine ⟨root, hroot, hleads.tail ?_⟩
  rw [Source.spreadsOf_eq (h.defined found hmem)]
  exact hname

/-- An operation of definitions that compile together compiles with what it reaches alone. -/
theorem Compilable.unit (h : Compilable schema (Source.definitions texts))
    (hdefined : .operation source ∈ Source.definitions texts)
    (hclosure : Closure texts source.selections reached) :
    Compilable schema (Source.unit source reached) := by
  have hfound : ∀ found ∈ reached, .fragment found.fragment ∈ Source.definitions texts :=
    fun found hmem =>
      mem_fragmentDefinitions.mp ⟨found, hclosure.mem_fragmentDefinitions hmem, rfl⟩
  -- What is needed resolves within the unit: all that it leads to is needed as well.
  have hresolvable : ∀ name, Needs texts source.selections name →
      Resolvable schema (Source.definitions texts) name →
        Resolvable schema (Source.unit source reached) name := by
    intro name hneeds hname
    refine Resolvable.of_closed (fun fragment hmem hneeded => ?_) hname hneeds
    rw [← hclosure.mem_iff] at hneeded
    obtain ⟨found, hreached, hsame⟩ := List.mem_map.mp hneeded
    obtain rfl := h.fragments.eq (hfound found hreached) hmem hsame
    exact ⟨mem_unit.mpr (Or.inr ⟨found, hreached, rfl⟩),
      fun inner hinner => hclosure.needs_of_spread hreached hinner⟩
  refine ⟨?_, ?_, ?_, ?_⟩
  · intro definition hmem
    rcases mem_unit.mp hmem with rfl | ⟨found, hreached, rfl⟩
    · exact h.fits _ hdefined
    · exact h.fits _ (hfound found hreached)
  · intro definition hmem name hname
    rcases mem_unit.mp hmem with rfl | ⟨found, hreached, rfl⟩
    · exact hresolvable name ⟨name, hname, .refl⟩ (h.resolvable _ hdefined name hname)
    · exact hresolvable name (hclosure.needs_of_spread hreached hname)
        (h.resolvable _ (hfound found hreached) name hname)
  · rw [filterMap_operation?_unit]
    exact List.nodup_singleton _
  · rw [DistinctFragments, filterMap_fragment?_unit, List.map_map]
    exact hclosure.nodup

end Source

/-! ## Unused fragments -/

/-- No fragment is unused if the operations reach all of them. -/
theorem CompiledDocument.unusedFragments_eq_nil
    (h : ∀ id, id < document.fragments.size →
      ∃ operation ∈ document.operations, id ∈ operation.closure document.fragments) :
    document.unusedFragments = [] := by
  rw [CompiledDocument.unusedFragments, List.map_eq_nil_iff, List.filter_eq_nil_iff]
  rintro ⟨fragment, id⟩ hentry
  have hid : id < document.fragments.size := by
    have hget := List.mk_mem_zipIdx_iff_getElem?.mp hentry
    exact (List.getElem?_eq_some_iff.mp hget).1
  obtain ⟨operation, hoperation, hused⟩ := h id hid
  have hmem : id ∈ document.operations.flatMap fun operation =>
      document.fragments.reachable operation.spreads :=
    List.mem_flatMap.mpr ⟨operation, hoperation, hused⟩
  simpa using hmem

/-! ## Operations as written -/

/-- Selections reach definitions in one way. -/
theorem Source.Closure.unique {selections : List Source.Selection}
    (h : Source.Closure texts selections reached) (h' : Source.Closure texts selections reached') :
    reached' = reached := by
  have hnames := h.order.unique h'.order
  -- A name stands for one definition.
  have hfound : ∀ {sources : List FragmentSource}, Source.Closure texts selections sources →
      sources.map some = (sources.map fun found => found.fragment.name).map
        (fragmentSource? texts) := by
    intro sources hsources
    rw [List.map_map]
    exact List.map_congr_left fun found hmem => (hsources.defined found hmem).symm
  refine List.map_injective_iff.mpr (Option.some_injective FragmentSource) ?_
  rw [hfound h, hfound h', hnames]

/-- Every operation of a compiled document is written there in one way, which gives its canonical
text. -/
theorem CompiledFrom.exists_writtenIn (h : CompiledFrom schema texts definitions document)
    {operation : Operation} (hmem : operation ∈ document.operations) :
    ∃ source reached, operation.WrittenIn texts source reached ∧
      operation.canonicalSource document.fragments =
        Source.canonicalText (Source.unit source reached) := by
  obtain ⟨file, source, -, hdefined, hnamed, hcompiles⟩ := h.exists_operationSource hmem
  obtain ⟨reached, hclosure, -, -, htext⟩ := h.exists_closure hcompiles
  exact ⟨source, reached, ⟨hdefined, hnamed, hclosure⟩, htext⟩

theorem Operation.WrittenIn.unique {operation : Operation}
    (h : operation.WrittenIn texts source reached) (h' : operation.WrittenIn texts source' reached')
    (hcompilable : Source.Compilable schema (Source.definitions texts)) :
    source' = source ∧ reached' = reached := by
  obtain rfl : source' = source :=
    hcompilable.operation_eq h'.defined h.defined (h'.named.trans h.named.symm)
  exact ⟨rfl, h.closure.unique h'.closure⟩

/-! ## Reading back -/

/-- Definitions that read back from one text are the same up to positions. -/
theorem Source.ReadsBack.unplaced_eq {all others : List Source.Definition}
    (h : Source.ReadsBack all) (h' : Source.ReadsBack others)
    (htext : Source.canonicalText others = Source.canonicalText all) :
    others.map Source.Definition.unplaced = all.map Source.Definition.unplaced := by
  obtain ⟨parsed, hparsed, hsame⟩ := h
  obtain ⟨parsed', hparsed', hsame'⟩ := h'
  rw [htext, hparsed] at hparsed'
  obtain rfl := Option.some.inj hparsed'
  exact hsame'.symm.trans hsame

/-- Units that are the same up to positions have the same operation and the same fragments. -/
theorem Source.unit_unplaced_inj
    (h : (Source.unit source' reached').map Source.Definition.unplaced =
      (Source.unit source reached).map Source.Definition.unplaced) :
    source'.unplaced = source.unplaced ∧
      reached'.map (fun found => found.fragment.unplaced) =
        reached.map fun found => found.fragment.unplaced := by
  have hoperations := congrArg (List.filterMap Source.Definition.operation?) h
  have hfragments := congrArg (List.filterMap Source.Definition.fragment?) h
  rw [Source.filterMap_operation?_unplaced, Source.filterMap_operation?_unplaced,
    Source.filterMap_operation?_unit, Source.filterMap_operation?_unit] at hoperations
  rw [Source.filterMap_fragment?_unplaced, Source.filterMap_fragment?_unplaced,
    Source.filterMap_fragment?_unit, Source.filterMap_fragment?_unit, List.map_map,
    List.map_map] at hfragments
  exact ⟨(List.cons.inj hoperations).1, hfragments⟩

/-! ## Documents that hold a unit -/

section Units

variable (hunit : (Source.definitions texts').map Source.Definition.unplaced =
  (Source.unit source reached).map Source.Definition.unplaced)
include hunit

/-- A document that holds a unit that compiles, at whatever positions, compiles to one operation. -/
theorem Schema.exists_compile_unit
    (hcompilable : Source.Compilable schema (Source.unit source reached)) :
    ∃ document operation, schema.compile texts' = .ok document ∧
      document.operations = [operation] ∧ some operation.name = source.name := by
  have hcompilable' : Source.Compilable schema (Source.definitions texts') := by
    rw [← Source.compilable_unplaced, hunit, Source.compilable_unplaced]
    exact hcompilable
  obtain ⟨document, hcompile⟩ := Schema.compile_succeeds_iff.mpr hcompilable'
  obtain ⟨definitions, h⟩ := Schema.compile_spec hcompile
  have hnames : operationNames document.operations = [source.name] := by
    rw [h.operationNames_eq, ← Source.keepsNames_unplaced.map_name_operations, hunit,
      Source.keepsNames_unplaced.map_name_operations, Source.filterMap_operation?_unit]
    rfl
  obtain ⟨operation, hoperations, hname⟩ := List.map_eq_singleton_iff.mp hnames
  exact ⟨document, operation, hcompile, hoperations, hname⟩

/-- The operation comes from the definition in the unit. -/
theorem CompiledFrom.exists_source_of_unit (h : CompiledFrom schema texts' definitions document)
    {operation : Operation} (hmem : operation ∈ document.operations) :
    ∃ file source', source'.unplaced = source.unplaced ∧
      OperationCompiles schema document.fragments file source' operation := by
  obtain ⟨file, source', -, hdefined, -, hcompiles⟩ := h.exists_operationSource hmem
  refine ⟨file, source', ?_, hcompiles⟩
  have hplaced : .operation source'.unplaced ∈
      (Source.definitions texts').map Source.Definition.unplaced :=
    Source.operation_mem_unplaced.mpr ⟨source', hdefined, rfl⟩
  rw [hunit] at hplaced
  obtain ⟨placed, hmem, heq⟩ := Source.operation_mem_unplaced.mp hplaced
  rw [← Source.mem_filterMap_operation?, Source.filterMap_operation?_unit] at hmem
  rw [← heq, List.mem_singleton.mp hmem]

/-- The fragments of the unit are defined alike. -/
theorem CompiledFrom.definedAlike_of_unit (h : CompiledFrom schema texts' definitions document)
    {found : FragmentSource} (hfound : found ∈ reached) : Source.DefinedAlike texts' found := by
  apply h.definedAlike
  rw [hunit]
  exact Source.fragment_mem_unplaced.mpr
    ⟨found.fragment, Source.mem_unit.mpr (Or.inr ⟨found, hfound, rfl⟩), rfl⟩

/-- There are no other fragments. -/
theorem CompiledFrom.nameOf_mem_of_unit (h : CompiledFrom schema texts' definitions document)
    {id : FragmentId} (hid : id < document.fragments.size) :
    document.fragments.nameOf id ∈ reached.map fun found => found.fragment.name := by
  obtain ⟨other, hname, hother, -⟩ := h.exists_definition hid
  have hmem : .fragment other.fragment.unplaced ∈
      (Source.definitions texts').map Source.Definition.unplaced :=
    Source.fragment_mem_unplaced.mpr
      ⟨other.fragment, mem_fragmentDefinitions.mp ⟨other, List.mem_of_find?_eq_some hother, rfl⟩, rfl⟩
  rw [hunit] at hmem
  obtain ⟨placed, hplaced, heq⟩ := Source.fragment_mem_unplaced.mp hmem
  rw [← Source.mem_filterMap_fragment?, Source.filterMap_fragment?_unit] at hplaced
  obtain ⟨found, hfound, rfl⟩ := List.mem_map.mp hplaced
  refine List.mem_map.mpr ⟨found, hfound, ?_⟩
  rw [← hname]
  exact Source.Fragment.name_eq_of_unplaced_eq heq

/-- An operation whose unit the documents hold uses all fragments. -/
theorem CompiledFrom.mem_closure_of_unit (h : CompiledFrom schema texts' definitions document)
    (hclosure : Source.Closure texts source.selections reached) {file : Option FileName}
    {operation : Operation}
    (hcompiles : OperationCompiles schema document.fragments file source' operation)
    (hsource : source'.unplaced = source.unplaced) {id : FragmentId}
    (hid : id < document.fragments.size) : id ∈ operation.closure document.fragments := by
  obtain ⟨reached', hclosure', hnames, hlt, -⟩ := h.exists_closure hcompiles
  have hsame : reached'.map (fun found => found.fragment.name) =
      reached.map fun found => found.fragment.name :=
    hclosure.names_eq hclosure' (Source.spreadsIn_eq_of_unplaced_eq hsource)
      fun found hfound => (h.definedAlike_of_unit hunit hfound).spreadsOf_eq
  have hname := h.nameOf_mem_of_unit hunit hid
  rw [← hsame, ← hnames] at hname
  obtain ⟨other, hother, heq⟩ := List.mem_map.mp hname
  exact h.sound.nameOf_inj (hlt other hother) hid heq ▸ hother

end Units

/-- The unit of an operation, at whatever positions, compiles to this operation alone. It uses all
fragments, and its canonical text is the same. -/
theorem CompiledFrom.exists_compile_unit (h : CompiledFrom schema texts definitions document)
    (hcompilable : Source.Compilable schema (Source.definitions texts)) {operation : Operation}
    (hmem : operation ∈ document.operations) (hwritten : operation.WrittenIn texts source reached)
    (hunit : (Source.definitions texts').map Source.Definition.unplaced =
      (Source.unit source reached).map Source.Definition.unplaced) :
    ∃ document' operation', schema.compile texts' = .ok document' ∧
      document'.operations = [operation'] ∧ operation'.name = operation.name ∧
      document'.unusedFragments = [] ∧
      operation'.canonicalSource document'.fragments =
        operation.canonicalSource document.fragments := by
  have hclosure := hwritten.closure
  obtain ⟨document', operation', hcompile', hoperations, hname⟩ :=
    Schema.exists_compile_unit hunit (hcompilable.unit hwritten.defined hclosure)
  obtain ⟨definitions', h'⟩ := Schema.compile_spec hcompile'
  have hmem' : operation' ∈ document'.operations := hoperations ▸ List.mem_singleton_self _
  obtain ⟨file', source', hsource, hcompiles'⟩ := h'.exists_source_of_unit hunit hmem'
  have hunused : document'.unusedFragments = [] :=
    CompiledDocument.unusedFragments_eq_nil fun id hid =>
      ⟨operation', hmem', h'.mem_closure_of_unit hunit hclosure hcompiles' hsource hid⟩
  refine ⟨document', operation', hcompile', hoperations, ?_, hunused, ?_⟩
  · exact Option.some.inj (hname.trans hwritten.named)
  · obtain ⟨file, written, -, hdefined, hnamed, hcompiles⟩ := h.exists_operationSource hmem
    obtain rfl : written = source :=
      hcompilable.operation_eq hdefined hwritten.defined (hnamed.trans hwritten.named.symm)
    refine h.canonicalSource_eq h' hcompiles hcompiles' hsource fun found hfound hneeds => ?_
    -- What is needed is in the unit.
    rw [← hclosure.mem_iff] at hneeds
    obtain ⟨other, hother, hsame⟩ := List.mem_map.mp hneeds
    have hdistinct := hcompilable.fragments
    have hdefined' := fragmentSource?_of_mem hdistinct hfound
    rw [← hsame, hclosure.defined other hother] at hdefined'
    obtain rfl := Option.some.inj hdefined'
    exact h'.definedAlike_of_unit hunit hother

/-- The canonical text of an operation is that of its definition and of the fragments that it
reaches. If these read back, the text is parsed as them and compiles to the operation alone, with
the same canonical text and identifier; and an operation with the same canonical text, which reads
back as well, has the same definition and reaches the same fragments. -/
theorem Schema.canonicalSource_faithful (hcompile : schema.compile texts = .ok document)
    {operation : Operation} (hmem : operation ∈ document.operations) :
    ∃ source reached, operation.WrittenIn texts source reached ∧
      (reached.map fun found => found.fragment.name).Nodup ∧
      (∀ name, name ∈ reached.map (fun found => found.fragment.name) ↔
        Source.Needs texts source.selections name) ∧
      (Source.ReadsBack (Source.unit source reached) →
        (∃ parsed,
          Source.Document.parse? (operation.canonicalSource document.fragments) = some parsed ∧
          parsed.definitions.map Source.Definition.unplaced =
            (Source.unit source reached).map Source.Definition.unplaced) ∧
        (∃ document' operation',
          schema.compileText (operation.canonicalSource document.fragments) = .ok document' ∧
          document'.operations = [operation'] ∧ operation'.name = operation.name ∧
          document'.unusedFragments = [] ∧
          operation'.canonicalSource document'.fragments =
            operation.canonicalSource document.fragments ∧
          operation'.identifier document'.fragments =
            operation.identifier document.fragments) ∧
        ∀ schema' texts' document' operation' source' reached',
          Schema.compile schema' texts' = .ok document' → operation' ∈ document'.operations →
          operation'.WrittenIn texts' source' reached' →
          Source.ReadsBack (Source.unit source' reached') →
          operation'.canonicalSource document'.fragments =
            operation.canonicalSource document.fragments →
          source'.unplaced = source.unplaced ∧
            reached'.map (fun found => found.fragment.unplaced) =
              reached.map fun found => found.fragment.unplaced) := by
  have hcompilable := Schema.compile_succeeds_iff.mp ⟨document, hcompile⟩
  obtain ⟨definitions, h⟩ := Schema.compile_spec hcompile
  obtain ⟨source, reached, hwritten, htext⟩ := h.exists_writtenIn hmem
  refine ⟨source, reached, hwritten, hwritten.closure.nodup,
    fun name => hwritten.closure.mem_iff, ?_⟩
  intro hreads
  obtain ⟨parsed, hparsed, hsame⟩ := hreads
  rw [← htext] at hparsed
  refine ⟨⟨parsed, hparsed, hsame⟩, ?_, ?_⟩
  · have hdefinitions : Source.definitions [⟨none, parsed⟩] = parsed.definitions :=
      List.append_nil _
    obtain ⟨document', operation', hcompile', hoperations, hname, hunused, hcanonical⟩ :=
      h.exists_compile_unit hcompilable hmem hwritten
        ((congrArg (List.map Source.Definition.unplaced) hdefinitions).trans hsame)
    refine ⟨document', operation', ?_, hoperations, hname, hunused, hcanonical, ?_⟩
    · rw [Schema.compileText, hparsed]
      exact hcompile'
    · rw [Operation.identifier, Operation.identifier, hcanonical]
  · intro schema' texts' document' operation' source' reached' hcompile' hmem' hwritten' hreads' heq
    have hcompilable' := Schema.compile_succeeds_iff.mp ⟨document', hcompile'⟩
    obtain ⟨definitions', h'⟩ := Schema.compile_spec hcompile'
    obtain ⟨written, found, hwritten'', htext'⟩ := h'.exists_writtenIn hmem'
    obtain ⟨rfl, rfl⟩ := hwritten''.unique hwritten' hcompilable'
    rw [htext, htext'] at heq
    rw [htext] at hparsed
    exact Source.unit_unplaced_inj (Source.ReadsBack.unplaced_eq ⟨parsed, hparsed, hsame⟩ hreads' heq)

namespace Sample

/-- The query of `Sample.alone`. -/
def aloneQuery : Source.Operation :=
  ⟨position, .query, some "Q", [], [], [node [] [spread [] "F"]]⟩

/-- The fragment of `Sample.alone`. -/
def aloneFragment : FragmentSource :=
  ⟨none, ⟨position, "F", "Node", [], [id none]⟩⟩

/-- Whether definitions are those of `Sample.alone`, at whatever positions. -/
def isAlone : List Source.Definition → Bool
  | [.operation ⟨_, .query, some "Q", [], [], [.field ⟨_, none, "node", [], []⟩
        [.spread ⟨_, "F", []⟩]]⟩,
      .fragment ⟨_, "F", "Node", [], [.field ⟨_, none, "id", [], []⟩ []]⟩] => true
  | _ => false

theorem readsBack_alone : Source.ReadsBack (Source.unit aloneQuery [aloneFragment]) := by
  have hcheck : ∃ parsed ∈ Source.Document.parse?
      (Source.canonicalText (Source.unit aloneQuery [aloneFragment])),
        isAlone parsed.definitions = true := by
    decide +kernel
  obtain ⟨parsed, hparsed, halone⟩ := hcheck
  refine ⟨parsed, hparsed, ?_⟩
  rw [isAlone.eq_def] at halone
  split at halone
  · next heq =>
      rw [heq]
      rfl
  · exact absurd halone Bool.false_ne_true

theorem closure_alone : Source.Closure alone aloneQuery.selections [aloneFragment] where
  order := by
    have hnone : Source.spreadsOf alone "F" = [] := by decide
    refine .visit List.not_mem_nil ?_ (.done ["F"])
    rw [hnone]
    exact .done ["F"]
  defined := List.forall_mem_singleton.mpr rfl

end Sample

theorem Schema.canonicalSource_faithful_sample : ∃ document operation,
    Sample.schema.compile Sample.alone = .ok document ∧ operation ∈ document.operations ∧
      Source.ReadsBack (Source.unit Sample.aloneQuery [Sample.aloneFragment]) ∧
      ∃ document' operation',
        Sample.schema.compileText (operation.canonicalSource document.fragments) = .ok document' ∧
        document'.operations = [operation'] ∧ document'.unusedFragments = [] ∧
        operation'.canonicalSource document'.fragments =
          operation.canonicalSource document.fragments := by
  have hcheck : ∃ document ∈ (Sample.schema.compile Sample.alone).toOption,
      ∃ operation ∈ document.operations, operation.name = "Q" := by
    decide +kernel
  simp only [Sample.mem_toOption] at hcheck
  obtain ⟨document, hcompile, operation, hmem, hname⟩ := hcheck
  obtain ⟨source, reached, hwritten, -, -, hfaithful⟩ :=
    Schema.canonicalSource_faithful hcompile hmem
  have halone : operation.WrittenIn Sample.alone Sample.aloneQuery [Sample.aloneFragment] :=
    ⟨List.mem_cons_self, congrArg some hname.symm, Sample.closure_alone⟩
  obtain ⟨rfl, rfl⟩ :=
    halone.unique hwritten (Schema.compile_succeeds_iff.mp ⟨document, hcompile⟩)
  obtain ⟨-, ⟨document', operation', hcompile', hoperations, -, hunused, hcanonical, -⟩, -⟩ :=
    hfaithful Sample.readsBack_alone
  exact ⟨document, operation, hcompile, hmem, Sample.readsBack_alone, document', operation',
    hcompile', hoperations, hunused, hcanonical⟩

end QueryShape
