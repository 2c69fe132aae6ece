import QueryShape.Proofs.Executable.Compilation

/-!
# Compiled documents

A list of documents that compiles yields its operations in order, each compiled against the
final table of fragments, and a table that holds every defined fragment, each compiled against
those before it.

## What this module delivers

- `operationSources`, `fragmentSource?`: what documents define, as written.
- `CompiledFrom`: what a compiled document has to do with its documents.
- `fragmentSources_get?`: names of fragments refer to the definitions in the documents.
- `Schema.compile_spec`: a successful compilation yields a document that is compiled from its
  documents.
-/

set_option autoImplicit false

namespace QueryShape

open CompileM

/-! ## Definitions as written -/

/-- The operation that a definition defines, if it does. -/
def operationOf? : Option FileName × Source.Definition → Option (Option FileName × Source.Operation)
  | (file, .operation operation) => some (file, operation)
  | _ => none

/-- The operations of documents in order, each with its file. -/
def operationSources (texts : List SourceText) : List (Option FileName × Source.Operation) :=
  (definitionsOf texts).filterMap operationOf?

/-- The fragment definitions of documents in order. -/
def fragmentDefinitions (texts : List SourceText) : List FragmentSource :=
  texts.flatMap fun text => text.document.fragments.map (FragmentSource.mk text.file)

/-- The fragment definition with a name. -/
def fragmentSource? (texts : List SourceText) (name : String) : Option FragmentSource :=
  (fragmentDefinitions texts).find? fun source => source.fragment.name == name

/-- The table of definitions answers like a search through the documents. -/
theorem foldlM_addFragmentSource (sources : List FragmentSource)
    {before after : Table FragmentSource} (h : sources.foldlM addFragmentSource before = .ok after)
    (name : String) : after.get? name =
      (before.get? name).or (sources.find? fun source => source.fragment.name == name) := by
  -- What is in the table already was found earlier, so it comes first.
  induction sources generalizing before with
  | nil =>
      cases h
      rw [List.find?_nil, Option.or_none]
  | cons source sources ih =>
      rw [List.foldlM_cons] at h
      obtain ⟨middle, hadded, h⟩ := bind_eq_ok.mp h
      rw [addFragmentSource] at hadded
      cases hpresent : before.get? source.fragment.name with
      | some present =>
          rw [hpresent] at hadded
          exact absurd hadded (by simp)
      | none =>
          rw [hpresent] at hadded
          cases hadded
          rw [ih h, Table.get?_insert, List.find?_cons]
          by_cases hname : name = source.fragment.name
          · rw [if_pos hname, hname, hpresent]
            simp
          · have hother : (source.fragment.name == name) = false := by
              simpa using fun heq => hname heq.symm
            rw [if_neg hname, hother]

theorem fragmentSources_get? {texts : List SourceText} {definitions : Table FragmentSource}
    (h : fragmentSources texts = .ok definitions) (name : String) :
    definitions.get? name = fragmentSource? texts name := by
  rw [foldlM_addFragmentSource _ h name, Table.get?_empty, Option.none_or]
  rfl

theorem name_of_fragmentSource? {texts : List SourceText} {name : String} {source : FragmentSource}
    (h : fragmentSource? texts name = some source) : source.fragment.name = name := by
  have hname := List.find?_some h
  simpa using hname

/-! ## The relation -/

/-- A compiled document with the documents that it is compiled from. -/
structure CompiledFrom (schema : Schema) (texts : List SourceText)
    (definitions : Table FragmentSource) (document : CompiledDocument) : Prop where
  sources : fragmentSources texts = .ok definitions
  operations : List.Forall₂ (fun source operation =>
      OperationCompiles schema document.fragments source.1 source.2 operation)
    (operationSources texts) document.operations
  distinct : (document.operations.map Operation.name).Nodup
  sound : document.fragments.Sound schema definitions
  complete : ∀ name source, definitions.get? name = some source →
    ∃ id, document.fragments.idOf? name = some id

/-! ## Operations -/

variable {schema : Schema} {definitions : Table FragmentSource} {path : List String}
  {before middle after : Compilation} {resolve : Resolver}

/-- What compiling a variable can do: its type is recorded, and that is all. -/
theorem compileVariable_cases {file : Option FileName} {definition : Source.VariableDefinition}
    {compiled : Variable}
    (h : (compileVariable schema file definition).Succeeds before compiled after) :
    VariableCompiles schema file definition compiled ∧
      (refer schema definition.type.typeName).Succeeds before () after := by
  rw [compileVariable] at h
  cases htype : schema.type? definition.type.typeName with
  | none =>
      rw [htype] at h
      exact absurd h not_succeeds_undefined
  | some type =>
      simp only [htype, ensure_defaultValue, pure_bind, succeeds_bind, succeeds_pure] at h
      obtain ⟨_, _, hrefer, rfl, rfl⟩ := h
      exact ⟨⟨by rw [htype]; rfl, rfl⟩, hrefer⟩

theorem compileVariables_spec {file : Option FileName} (declared : List Source.VariableDefinition)
    {compiled : List Variable} {before : Compilation}
    (h : (declared.mapM (compileVariable schema file)).Succeeds before compiled after) :
    List.Forall₂ (VariableCompiles schema file) declared compiled ∧
      after.fragments = before.fragments := by
  induction declared generalizing before compiled with
  | nil =>
      rw [List.mapM_nil, succeeds_pure] at h
      obtain ⟨rfl, rfl⟩ := h
      exact ⟨.nil, rfl⟩
  | cons definition declared ih =>
      rw [List.mapM_cons] at h
      simp only [succeeds_bind, succeeds_pure] at h
      obtain ⟨first, middle, hfirst, others, _, hothers, rfl, rfl⟩ := h
      obtain ⟨hcompiled, hrefer⟩ := compileVariable_cases hfirst
      obtain ⟨hrest, hsame⟩ := ih hothers
      exact ⟨.cons hcompiled hrest, hsame.trans (succeeds_refer hrefer)⟩

/-- What compiling an operation can do: it has a name and its kind a root type, its variables compile
first and then its selections. -/
theorem compileOperation_cases {file : Option FileName} {source : Source.Operation}
    {operation : Operation}
    (h : (compileOperation schema resolve file source).Succeeds before operation after) :
    ∃ name root declared directives possible type selections middle,
      source.name = some name ∧ schema.root? source.kind = some root ∧
      (source.declared.mapM (compileVariable schema file)).Succeeds before declared middle ∧
      AppliedDirective.compileAll schema file source.directives = .ok directives ∧
      schema.possibleTypes? root = some possible ∧ schema.type? root = some type ∧
      (compileSelections schema resolve ⟨file, type, possible⟩ .empty source.selections).Succeeds
        middle selections after ∧
      operation = ⟨name, source.kind, root,
        Table.ofEntries (declared.map fun v => (v.name, v)), directives,
        ⟨type.name, possible, selections⟩, (Source.Definition.operation source).source, file,
        .source file source.position⟩ := by
  rw [compileOperation] at h
  cases hname : source.name with
  | none =>
      rw [hname] at h
      exact absurd h not_succeeds_malformed
  | some name =>
      cases hroot : schema.root? source.kind with
      | none =>
          rw [hname, hroot] at h
          exact absurd h not_succeeds_undefined
      | some root =>
          simp only [hname, hroot, succeeds_bind, succeeds_directives, succeeds_possibleTypesOf,
            succeeds_typeNamed, succeeds_pure] at h
          obtain ⟨declared, _, hdeclared, directives, _, ⟨hdirectives, rfl⟩, possible, _,
            ⟨hpossible, rfl⟩, type, middle, ⟨htype, rfl⟩, selections, _, hselections, rfl, rfl⟩ := h
          exact ⟨name, root, declared, directives, possible, type, selections, middle, rfl, rfl,
            hdeclared, hdirectives, hpossible, htype, hselections, rfl⟩

theorem compileOperation_spec (hresolve : resolve.Correct schema definitions path)
    {file : Option FileName} {source : Source.Operation} {operation : Operation}
    (h : (compileOperation schema resolve file source).Succeeds before operation after)
    (hsound : before.fragments.Sound schema definitions) :
    Advances schema definitions path before after ∧
      OperationCompiles schema after.fragments file source operation := by
  obtain ⟨name, root, declared, directives, possible, type, selections, middle, hname, hroot,
    hdeclared, hdirectives, hpossible, htype, hselections, hoperation⟩ := compileOperation_cases h
  obtain ⟨hvariables, hsame⟩ := compileVariables_spec source.declared hdeclared
  have hfirst : Advances schema definitions path before middle := .of_eq hsound hsame
  obtain ⟨hadvances, hcompiled⟩ := compileSelections_spec hresolve _ hselections hfirst.sound
  exact ⟨hfirst.trans hadvances, name, root, declared, directives, possible, type, selections,
    hname, hroot, hvariables, hdirectives, hpossible, htype, hcompiled, hoperation⟩

/-- What compiling a definition can do: a fragment has to wait, and an operation compiles. -/
theorem compileDefinition_cases {file : Option FileName} {definition : Source.Definition}
    {operation? : Option Operation}
    (h : (compileDefinition schema resolve file definition).Succeeds before operation? after) :
    (∃ fragment, definition = .fragment fragment ∧ operation? = none ∧ after = before) ∨
      ∃ source operation, definition = .operation source ∧ operation? = some operation ∧
        (compileOperation schema resolve file source).Succeeds before operation after := by
  cases definition with
  | anonymous position selections => exact absurd h not_succeeds_malformed
  | fragment fragment =>
      rw [compileDefinition, succeeds_pure] at h
      exact Or.inl ⟨fragment, rfl, h⟩
  | operation source =>
      rw [compileDefinition, map_eq_pure_bind, succeeds_bind] at h
      obtain ⟨operation, _, hoperation, hpure⟩ := h
      rw [succeeds_pure] at hpure
      obtain ⟨rfl, rfl⟩ := hpure
      exact Or.inr ⟨source, operation, rfl, rfl, hoperation⟩

theorem succeeds_addOperation {operations result : List Operation} {operation : Operation}
    (h : (addOperation operations operation).Succeeds before result after) :
    (∀ present ∈ operations, present.name ≠ operation.name) ∧
      result = operations ++ [operation] ∧ after = before := by
  rw [addOperation] at h
  split at h
  · exact absurd h not_succeeds_malformed
  · next hnone =>
      rw [succeeds_pure] at h
      refine ⟨fun present hpresent heq => ?_, h⟩
      have hfound := List.find?_eq_none.mp hnone present hpresent
      exact hfound (by simpa using heq)

/-- The operations found among some definitions, added to those found before. -/
theorem compileOperations_spec (hresolve : resolve.Correct schema definitions path)
    (entries : List (Option FileName × Source.Definition)) {known result : List Operation}
    {before : Compilation}
    (h : (entries.foldlM (fun operations (file, definition) => do
        match ← compileDefinition schema resolve file definition with
        | none => pure operations
        | some operation => addOperation operations operation) known).Succeeds before result after)
    (hsound : before.fragments.Sound schema definitions)
    (hdistinct : (known.map Operation.name).Nodup) :
    Advances schema definitions path before after ∧ ∃ found, result = known ++ found ∧
      List.Forall₂ (fun source operation =>
          OperationCompiles schema after.fragments source.1 source.2 operation)
        (entries.filterMap operationOf?) found ∧
      (result.map Operation.name).Nodup := by
  -- The table grows from one operation to the next, so what is compiled is carried along.
  induction entries generalizing known before with
  | nil =>
      rw [List.foldlM_nil, succeeds_pure] at h
      obtain ⟨rfl, rfl⟩ := h
      exact ⟨.of_eq hsound rfl, [], (List.append_nil _).symm, .nil, hdistinct⟩
  | cons entry entries ih =>
      obtain ⟨file, definition⟩ := entry
      rw [List.foldlM_cons] at h
      simp only [succeeds_bind] at h
      obtain ⟨next, middle, ⟨operation?, middle', hdefinition, hadd⟩, hrest⟩ := h
      rcases compileDefinition_cases hdefinition with
        ⟨fragment, rfl, rfl, rfl⟩ | ⟨source, operation, rfl, rfl, hoperation⟩
      · rw [succeeds_pure] at hadd
        obtain ⟨rfl, rfl⟩ := hadd
        exact ih hrest hsound hdistinct
      · obtain ⟨hadvances, hcompiled⟩ := compileOperation_spec hresolve hoperation hsound
        obtain ⟨hnew, rfl, rfl⟩ := succeeds_addOperation hadd
        have hnames : ((known ++ [operation]).map Operation.name).Nodup := by
          rw [List.map_append, List.nodup_append]
          refine ⟨hdistinct, by simp, ?_⟩
          intro name hname other hother
          obtain ⟨present, hpresent, rfl⟩ := List.mem_map.mp hname
          rw [List.map_singleton, List.mem_singleton] at hother
          rw [hother]
          exact hnew present hpresent
        obtain ⟨hadvances', found, rfl, hfound, hall⟩ := ih hrest hadvances.sound hnames
        refine ⟨hadvances.trans hadvances', operation :: found, by simp, ?_, hall⟩
        exact .cons (hcompiled.mono hadvances'.grows) hfound

/-! ## Documents -/

/-- Resolving some names one after the other puts all of them into the table. -/
theorem resolveAll_spec (hresolve : resolve.Correct schema definitions path)
    (sources : List FragmentSource) {before : Compilation} {result : PUnit}
    (h : (sources.forM fun source => do
        let _ ← resolve source.fragment.name source.location).Succeeds before result after)
    (hsound : before.fragments.Sound schema definitions) :
    Advances schema definitions path before after ∧ ∀ source ∈ sources,
      ∃ id, after.fragments.idOf? source.fragment.name = some id := by
  induction sources generalizing before with
  | nil =>
      rw [List.forM_eq_forM, List.forM_nil, succeeds_pure] at h
      obtain ⟨-, rfl⟩ := h
      exact ⟨.of_eq hsound rfl, fun _ hmem => absurd hmem List.not_mem_nil⟩
  | cons source sources ih =>
      rw [List.forM_eq_forM, List.forM_cons] at h
      simp only [succeeds_bind, succeeds_pure] at h
      obtain ⟨_, _, ⟨id, middle, hid, -, rfl⟩, hrest⟩ := h
      obtain ⟨hadvances, hname⟩ := hresolve _ _ _ _ _ hid hsound
      obtain ⟨hadvances', hothers⟩ := ih hrest hadvances.sound
      refine ⟨hadvances.trans hadvances', fun other hother => ?_⟩
      rcases List.mem_cons.mp hother with rfl | hlater
      · exact ⟨id, hadvances'.grows.idOf? hname⟩
      · exact hothers other hlater

theorem compileTexts_spec {texts : List SourceText} {operations : List Operation}
    (h : (compileTexts schema texts).Succeeds ⟨.empty, .empty⟩ operations after) :
    ∃ definitions, CompiledFrom schema texts definitions
      ⟨operations, after.fragments, after.referenced⟩ := by
  rw [compileTexts] at h
  cases hsources : fragmentSources texts with
  | error error =>
      rw [hsources] at h
      exact absurd h not_succeeds_malformed
  | ok definitions =>
      have hnames : ∀ name source, definitions.get? name = some source →
          source.fragment.name = name := by
        intro name source hsource
        rw [fragmentSources_get? hsources] at hsource
        exact name_of_fragmentSource? hsource
      have hresolve : Resolver.Correct schema definitions [] (fragmentId schema definitions) :=
        fragmentIdWithin_correct hnames definitions.size []
      simp only [hsources, succeeds_bind, succeeds_pure] at h
      obtain ⟨found, middle, hoperations, _, _, hrest, rfl, rfl⟩ := h
      obtain ⟨hadvances, found', heq, hcompiled, hdistinct⟩ := compileOperations_spec hresolve
        (definitionsOf texts) hoperations (.empty schema definitions) List.nodup_nil
      obtain ⟨hadvances', hall⟩ := resolveAll_spec hresolve definitions.values hrest
        hadvances.sound
      rw [List.nil_append] at heq
      subst heq
      -- The operations were compiled against a table that the remaining fragments only extend.
      refine ⟨definitions, hsources, ?_, hdistinct, hadvances'.sound, ?_⟩
      · exact hcompiled.imp fun source operation hone => hone.mono hadvances'.grows
      · intro name source hsource
        obtain ⟨id, hid⟩ := hall source (Table.mem_values_of_get? hsource)
        exact ⟨id, hnames name source hsource ▸ hid⟩

/-- A compilation that succeeds yields a document compiled from its documents. -/
theorem Schema.compile_spec {texts : List SourceText} {document : CompiledDocument}
    (h : schema.compile texts = .ok document) :
    ∃ definitions, CompiledFrom schema texts definitions document := by
  rw [Schema.compile] at h
  obtain ⟨⟨operations, after⟩, hrun, h⟩ := bind_eq_ok.mp h
  cases h
  exact compileTexts_spec hrun

end QueryShape
