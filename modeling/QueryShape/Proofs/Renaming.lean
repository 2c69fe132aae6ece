import QueryShape.Proofs.Identity

/-!
# Renaming fragments

The numbers of fragments depend on everything that is compiled together. Nothing else does. An
operation that is compiled twice, each time in the company of other definitions, becomes the same
operation, except that fragments have other numbers; and what is compiled of the fragments that it
reaches is the same in that sense.

## What this module delivers

- `Selection.renamed`, `Operation.renamed`, `Fragment.renamed`: other numbers for fragments.
- `Compiles.unique`: selections compile in one way.
- `Compiles.renamed`: compiling commutes with renaming.
- `FragmentTable.counterpart`: the number of the fragment of the same name in another table.
- `Schema.compile_renamed`: one operation in two lists of documents.
-/

set_option autoImplicit false

namespace QueryShape

/-! ## Other numbers -/

mutual

/-- A selection with other numbers for the fragments that are spread at or under it. -/
def Selection.renamed (rename : FragmentId → FragmentId) : Selection → Selection
  | .field head none => .field head none
  | .field head (some ⟨parent, possible, selections⟩) =>
      .field head (some ⟨parent, possible, Selection.renamedAll rename selections⟩)
  | .spread head => .spread { head with fragment := rename head.fragment }
  | .inline head ⟨parent, possible, selections⟩ =>
      .inline head ⟨parent, possible, Selection.renamedAll rename selections⟩

/-- Selections with other numbers for fragments. -/
def Selection.renamedAll (rename : FragmentId → FragmentId) : List Selection → List Selection
  | [] => []
  | selection :: rest => selection.renamed rename :: Selection.renamedAll rename rest

end

/-- A selection set with other numbers for fragments. -/
def SelectionSet.renamed (rename : FragmentId → FragmentId) (set : SelectionSet) : SelectionSet :=
  { set with selections := Selection.renamedAll rename set.selections }

/-- An operation with other numbers for fragments. -/
def Operation.renamed (rename : FragmentId → FragmentId) (operation : Operation) : Operation :=
  { operation with selections := operation.selections.renamed rename }

/-- A fragment with other numbers for the fragments that it spreads. -/
def Fragment.renamed (rename : FragmentId → FragmentId) (fragment : Fragment) : Fragment :=
  { fragment with selections := fragment.selections.renamed rename }

/-! ## One way to compile -/

variable {schema : Schema} {table table' : FragmentTable} {scope : Scope} {seen : NameSet}
  {source : List Source.Selection} {compiled compiled' : List Selection}
  {rename : FragmentId → FragmentId}

theorem FieldCompiles.unique {field : Source.Field} {head head' : FieldSelection}
    {type type' : NamedType} (h : FieldCompiles schema scope field head type)
    (h' : FieldCompiles schema scope field head' type') : head' = head ∧ type' = type := by
  obtain ⟨definition, directives, hfield, htype, hdirectives, rfl⟩ := h
  obtain ⟨definition', directives', hfield', htype', hdirectives', rfl⟩ := h'
  obtain rfl : definition' = definition := by
    simpa using hfield'.symm.trans hfield
  obtain rfl : directives' = directives := by
    simpa using hdirectives'.symm.trans hdirectives
  exact ⟨rfl, Option.some.inj (htype'.symm.trans htype)⟩

theorem Scope.NarrowsTo.unique {fragment : Source.InlineFragment} {inner inner' : Scope}
    (h : scope.NarrowsTo schema fragment inner) (h' : scope.NarrowsTo schema fragment inner') :
    inner' = inner := by
  rw [Scope.NarrowsTo] at h h'
  cases hcondition : fragment.typeCondition with
  | none =>
      rw [hcondition] at h h'
      exact h'.trans h.symm
  | some name =>
      rw [hcondition] at h h'
      obtain ⟨type, possible, htype, -, hpossible, rfl⟩ := h
      obtain ⟨type', possible', htype', -, hpossible', rfl⟩ := h'
      obtain rfl := Option.some.inj (htype'.symm.trans htype)
      obtain rfl := Option.some.inj (hpossible'.symm.trans hpossible)
      rfl

/-- Against one table, selections compile in one way. -/
theorem Compiles.unique (h : Compiles schema table scope seen source compiled)
    (h' : Compiles schema table scope seen source compiled') : compiled' = compiled := by
  induction h generalizing compiled' with
  | nil =>
      cases h'
      rfl
  | leaf hfield htype _ ih =>
      -- The two rules for fields differ in whether something is selected.
      cases h' with
      | leaf hfield' _ hrest => rw [(hfield.unique hfield').1, ih hrest]
      | composite _ _ hne => exact absurd rfl hne
  | composite hfield _ hne hpossible _ _ ihnested ih =>
      cases h' with
      | leaf => exact absurd rfl hne
      | composite hfield' _ _ hpossible' hnested hrest =>
          obtain ⟨rfl, rfl⟩ := hfield.unique hfield'
          obtain rfl := Option.some.inj (hpossible'.symm.trans hpossible)
          rw [ihnested hnested, ih hrest]
  | repeated hseen _ ih =>
      -- The two rules for spreads differ in whether the name was spread before.
      cases h' with
      | repeated _ hrest => exact ih hrest
      | spread hnew => exact absurd hseen (by rw [hnew]; exact Bool.false_ne_true)
  | spread hnew hid hget hdirectives _ ih =>
      cases h' with
      | repeated hseen => exact absurd hseen (by rw [hnew]; exact Bool.false_ne_true)
      | spread _ hid' hget' hdirectives' hrest =>
          obtain rfl := Option.some.inj (hid'.symm.trans hid)
          obtain rfl := Option.some.inj (hget'.symm.trans hget)
          obtain rfl := Except.ok.inj (hdirectives'.symm.trans hdirectives)
          rw [ih hrest]
  | inline hinner hdirectives _ _ ihnested ih =>
      cases h' with
      | inline hinner' hdirectives' hnested hrest =>
          obtain rfl := hinner.unique hinner'
          obtain rfl := Except.ok.inj (hdirectives'.symm.trans hdirectives)
          rw [ihnested hnested, ih hrest]

/-! ## Compiling commutes with renaming -/

/-- The fragment of a name in one table has its counterpart in another one: that of the name, which
has the same possible types. -/
def HasCounterpart (table table' : FragmentTable) (rename : FragmentId → FragmentId)
    (name : String) : Prop :=
  ∀ id fragment, table.idOf? name = some id → table.get? id = some fragment →
    ∃ fragment', table'.idOf? name = some (rename id) ∧ table'.get? (rename id) = some fragment' ∧
      fragment'.selections.possible = fragment.selections.possible

/-- Selections compile against another table to the same with other numbers, if everything that
they spread has its counterpart there. -/
theorem Compiles.renamed (h : Compiles schema table scope seen source compiled)
    (hcounterpart : ∀ name ∈ Source.Selection.spreadsIn source,
      HasCounterpart table table' rename name) :
    Compiles schema table' scope seen source (Selection.renamedAll rename compiled) := by
  induction h with
  | nil scope seen => exact .nil scope seen
  | leaf hfield htype _ ih => exact .leaf hfield htype (ih hcounterpart)
  | composite hfield htype hne hpossible _ _ ihnested ih =>
      obtain ⟨hnested, hrest⟩ := List.forall_mem_append.mp hcounterpart
      exact .composite hfield htype hne hpossible (ihnested hnested) (ih hrest)
  | repeated hseen _ ih =>
      obtain ⟨-, hrest⟩ := List.forall_mem_append.mp hcounterpart
      exact .repeated hseen (ih hrest)
  | @spread _ _ spread id fragment _ _ _ hnew hid hget hdirectives _ ih =>
      obtain ⟨hfirst, hrest⟩ := List.forall_mem_append.mp hcounterpart
      obtain ⟨fragment', hid', hget', hpossible⟩ :=
        hfirst spread.name List.mem_cons_self id fragment hid hget
      have hspread := Compiles.spread hnew hid' hget' hdirectives (ih hrest)
      rw [hpossible] at hspread
      exact hspread
  | inline hinner hdirectives _ _ ihnested ih =>
      obtain ⟨hnested, hrest⟩ := List.forall_mem_append.mp hcounterpart
      exact .inline hinner hdirectives (ihnested hnested) (ih hrest)

/-- The same of fragments: from one definition, against two tables. -/
theorem FragmentCompiles.eq_renamed {source : FragmentSource} {fragment fragment' : Fragment}
    (h : FragmentCompiles schema table source fragment)
    (h' : FragmentCompiles schema table' source fragment')
    (hcounterpart : ∀ name ∈ Source.Selection.spreadsIn source.fragment.selections,
      HasCounterpart table table' rename name) : fragment' = fragment.renamed rename := by
  obtain ⟨type, possible, directives, selections, htype, -, hpossible, hdirectives, hselections,
    rfl⟩ := h
  obtain ⟨type', possible', directives', selections', htype', -, hpossible', hdirectives',
    hselections', rfl⟩ := h'
  obtain rfl := Option.some.inj (htype'.symm.trans htype)
  obtain rfl := Option.some.inj (hpossible'.symm.trans hpossible)
  obtain rfl := Except.ok.inj (hdirectives'.symm.trans hdirectives)
  rw [(hselections.renamed hcounterpart).unique hselections']
  rfl

/-- Compiled from one definition, fragments have the same possible types, whatever the tables. -/
theorem FragmentCompiles.possible_eq {source : FragmentSource} {fragment fragment' : Fragment}
    (h : FragmentCompiles schema table source fragment)
    (h' : FragmentCompiles schema table' source fragment') :
    fragment'.selections.possible = fragment.selections.possible := by
  obtain ⟨_, possible, _, _, -, -, hpossible, -, -, rfl⟩ := h
  obtain ⟨_, possible', _, _, -, -, hpossible', -, -, rfl⟩ := h'
  exact Option.some.inj (hpossible'.symm.trans hpossible)

/-- The same of operations. -/
theorem OperationCompiles.eq_renamed {file : Option FileName} {source : Source.Operation}
    {operation operation' : Operation} (h : OperationCompiles schema table file source operation)
    (h' : OperationCompiles schema table' file source operation')
    (hcounterpart : ∀ name ∈ Source.Selection.spreadsIn source.selections,
      HasCounterpart table table' rename name) : operation' = operation.renamed rename := by
  obtain ⟨name, root, declared, directives, possible, type, selections, hname, hroot, hdeclared,
    hdirectives, hpossible, htype, hselections, rfl⟩ := h
  obtain ⟨name', root', declared', directives', possible', type', selections', hname', hroot',
    hdeclared', hdirectives', hpossible', htype', hselections', rfl⟩ := h'
  obtain rfl := Option.some.inj (hname'.symm.trans hname)
  obtain rfl := Option.some.inj (hroot'.symm.trans hroot)
  obtain rfl := Option.some.inj (htype'.symm.trans htype)
  obtain rfl := Option.some.inj (hpossible'.symm.trans hpossible)
  obtain rfl := Except.ok.inj (hdirectives'.symm.trans hdirectives)
  have hfunctional : Relator.RightUnique (VariableCompiles schema file) := by
    rintro definition _ _ ⟨-, rfl⟩ ⟨-, rfl⟩
    rfl
  have hvariables : declared' = declared :=
    List.right_unique_forall₂' hfunctional hdeclared' hdeclared
  rw [hvariables, (hselections.renamed hcounterpart).unique hselections']
  rfl

/-! ## Two lists of documents -/

/-- The number of the fragment of the same name in another table. -/
def FragmentTable.counterpart (table table' : FragmentTable) (id : FragmentId) : FragmentId :=
  (table'.idOf? (table.nameOf id)).getD id

section Documents

variable {texts texts' : List SourceText} {definitions definitions' : Table FragmentSource}
  {document document' : CompiledDocument}

theorem FragmentTable.Sound.idOf?_nameOf (h : table.Sound schema definitions) {id : FragmentId}
    (hid : id < table.size) : table.idOf? (table.nameOf id) = some id := by
  obtain ⟨fragment, hget⟩ := get?_eq_some_of_lt hid
  rw [nameOf_eq hget]
  exact h.named id fragment hget

/-- In a sound table, names determine numbers: those with the names of the counterparts are the
counterparts. -/
theorem FragmentTable.Sound.eq_map_rename (h : table'.Sound schema definitions')
    {ids ids' : List FragmentId} (hlt : ∀ id ∈ ids', id < table'.size)
    (hrename : ∀ id ∈ ids, table'.idOf? (table.nameOf id) = some (rename id))
    (hnames : ids'.map table'.nameOf = ids.map table.nameOf) : ids' = ids.map rename := by
  refine List.map_injective_iff.mpr (Option.some_injective FragmentId) ?_
  calc ids'.map some
      = (ids'.map table'.nameOf).map table'.idOf? := by
        rw [List.map_map]
        exact List.map_congr_left fun id hid => (h.idOf?_nameOf (hlt id hid)).symm
    _ = (ids.map table.nameOf).map table'.idOf? := by
        rw [hnames]
    _ = (ids.map rename).map some := by
        rw [List.map_map, List.map_map]
        exact List.map_congr_left fun id hid => hrename id hid

/-- A fragment with one definition in both lists has its counterpart, compiled from it as well. -/
theorem CompiledFrom.exists_counterpart (h : CompiledFrom schema texts definitions document)
    (h' : CompiledFrom schema texts' definitions' document') {id : FragmentId}
    (hid : id < document.fragments.size)
    (hsame : ∀ source ∈ fragmentDefinitions texts,
      source.fragment.name = document.fragments.nameOf id → source ∈ fragmentDefinitions texts') :
    ∃ source fragment fragment',
      document.fragments.get? id = some fragment ∧
      document'.fragments.idOf? (document.fragments.nameOf id) =
        some (document.fragments.counterpart document'.fragments id) ∧
      document'.fragments.get? (document.fragments.counterpart document'.fragments id) =
        some fragment' ∧
      fragmentSource? texts (document.fragments.nameOf id) = some source ∧
      fragmentSource? texts' (document.fragments.nameOf id) = some source ∧
      FragmentCompiles schema document.fragments source fragment ∧
      FragmentCompiles schema document'.fragments source fragment' := by
  obtain ⟨fragment, hget⟩ := FragmentTable.get?_eq_some_of_lt hid
  obtain ⟨source, hsource, hcompiles⟩ := h.exists_fragmentSource hget
  rw [← FragmentTable.nameOf_eq hget] at hsource
  have hname := name_of_fragmentSource? hsource
  -- The other list has the definition too, so the other table has a fragment of the name.
  have hsource' : fragmentSource? texts' (document.fragments.nameOf id) = some source := by
    have hmem := hsame source (List.mem_of_find?_eq_some hsource) hname
    rw [← hname]
    exact fragmentSource?_of_mem (fragmentSources_eq_ok_iff.mp h'.sources).1 hmem
  have hdefined : definitions'.get? (document.fragments.nameOf id) = some source := by
    rw [fragmentSources_get? h'.sources]
    exact hsource'
  obtain ⟨id', hid'⟩ := h'.complete _ _ hdefined
  obtain ⟨fragment', hget', hname'⟩ := FragmentTable.exists_get?_of_idOf? hid'
  have hcounterpart : document.fragments.counterpart document'.fragments id = id' := by
    rw [FragmentTable.counterpart, hid']
    rfl
  obtain ⟨other, hother, hcompiles'⟩ := h'.exists_fragmentSource hget'
  rw [hname', hsource'] at hother
  obtain rfl := Option.some.inj hother
  rw [hcounterpart]
  exact ⟨source, fragment, fragment', hget, hid', hget', hsource, hsource',
    hcompiles.mono (h.sound.before_growsTo id),
    hcompiles'.mono (h'.sound.before_growsTo id')⟩

/-- Names that are spread have counterparts if their definitions are in both lists. -/
theorem CompiledFrom.hasCounterpart (h : CompiledFrom schema texts definitions document)
    (h' : CompiledFrom schema texts' definitions' document') {name : String}
    (hsame : ∀ source ∈ fragmentDefinitions texts, source.fragment.name = name →
      source ∈ fragmentDefinitions texts') :
    HasCounterpart document.fragments document'.fragments
      (document.fragments.counterpart document'.fragments) name := by
  intro id fragment hid hget
  have hname : document.fragments.nameOf id = name := by
    rw [FragmentTable.nameOf_eq hget, FragmentTable.name_of_idOf? hid hget]
  obtain ⟨_, fragment₁, fragment', hget₁, hid', hget', -, -, hcompiles, hcompiles'⟩ :=
    h.exists_counterpart h' (FragmentTable.lt_size_of_get?_eq_some hget) (hname.symm ▸ hsame)
  obtain rfl := Option.some.inj (hget₁.symm.trans hget)
  exact ⟨fragment', hname ▸ hid', hget', hcompiles.possible_eq hcompiles'⟩

/-- An operation that two lists of documents have in common, together with the fragments that it
reaches, compiles to the same in both, up to the numbers of fragments. -/
theorem Schema.compile_renamed (hcompile : schema.compile texts = .ok document)
    (hcompile' : schema.compile texts' = .ok document') {file : Option FileName}
    {source : Source.Operation} (hmem : (file, source) ∈ operationSources texts)
    (hmem' : (file, source) ∈ operationSources texts')
    (hsame : ∀ found ∈ fragmentDefinitions texts,
      Source.Needs texts source.selections found.fragment.name →
        found ∈ fragmentDefinitions texts') :
    let rename := document.fragments.counterpart document'.fragments
    ∃ name operation operation', source.name = some name ∧
      document.operation? name = some operation ∧ document'.operation? name = some operation' ∧
      operation' = operation.renamed rename ∧
      operation'.closure document'.fragments =
        (operation.closure document.fragments).map rename ∧
      ∀ id ∈ operation.closure document.fragments, ∃ fragment,
        document.fragments.get? id = some fragment ∧
        document'.fragments.idOf? fragment.name = some (rename id) ∧
        document'.fragments.get? (rename id) = some (fragment.renamed rename) := by
  intro rename
  obtain ⟨definitions, h⟩ := Schema.compile_spec hcompile
  obtain ⟨definitions', h'⟩ := Schema.compile_spec hcompile'
  obtain ⟨name, operation, hname, hoperation, hcompiles⟩ := h.exists_operation hmem
  obtain ⟨name', operation', hname', hoperation', hcompiles'⟩ := h'.exists_operation hmem'
  obtain rfl := Option.some.inj (hname'.symm.trans hname)
  have hcounterpart : ∀ name, Source.Needs texts source.selections name →
      HasCounterpart document.fragments document'.fragments rename name := by
    intro name hneeds
    refine h.hasCounterpart h' fun found hfound heq => ?_
    exact hsame found hfound (heq.symm ▸ hneeds)
  obtain ⟨reached, hclosure, hnames, hlt, -⟩ := h.exists_closure hcompiles
  obtain ⟨reached', hclosure', hnames', hlt', -⟩ := h'.exists_closure hcompiles'
  -- The names of the fragments that are reached are the names that are needed.
  have hneeds : ∀ id ∈ operation.closure document.fragments,
      Source.Needs texts source.selections (document.fragments.nameOf id) := by
    intro id hid
    rw [← hclosure.mem_iff, ← hnames]
    exact List.mem_map_of_mem hid
  have hreached := fun id hid => h.exists_counterpart h' (hlt id hid)
    fun found hfound heq => hsame found hfound (heq ▸ hneeds id hid)
  have hsameNames : (operation'.closure document'.fragments).map document'.fragments.nameOf =
      (operation.closure document.fragments).map document.fragments.nameOf := by
    rw [hnames, hnames']
    refine hclosure.names_eq hclosure' rfl fun found hfound => ?_
    have hmem' := hsame found (hclosure.mem_fragmentDefinitions hfound) (hclosure.needs hfound)
    exact Source.spreadsOf_eq
      (fragmentSource?_of_mem (fragmentSources_eq_ok_iff.mp h'.sources).1 hmem')
  refine ⟨name', operation, operation', hname, hoperation, hoperation', ?_, ?_, ?_⟩
  · exact hcompiles.eq_renamed hcompiles' fun name hspread =>
      hcounterpart name ⟨name, hspread, .refl⟩
  · refine h'.sound.eq_map_rename hlt' (fun id hid => ?_) hsameNames
    obtain ⟨_, _, _, -, hid', -⟩ := hreached id hid
    exact hid'
  · intro id hid
    obtain ⟨found, fragment, fragment', hget, hid', hget', hfound, -, hfragment, hfragment'⟩ :=
      hreached id hid
    rw [FragmentTable.nameOf_eq hget] at hid'
    refine ⟨fragment, hget, hid', ?_⟩
    rw [hget']
    refine congrArg some (hfragment.eq_renamed hfragment' fun name hspread => ?_)
    -- What the fragment spreads is needed along with the fragment.
    obtain ⟨root, hroot, hleads⟩ := hneeds id hid
    refine hcounterpart name ⟨root, hroot, hleads.tail ?_⟩
    rw [Source.spreadsOf_eq hfound]
    exact hspread

/-- `query Q { node { ...F } }` with the fragment `F`, alone. -/
def Sample.alone : List SourceText :=
  query [node [] [spread [] "F"]] [("F", [id none])]

/-- The same behind a file with a query that needs another fragment. -/
def Sample.inCompany : List SourceText :=
  ⟨some ⟨"other.graphql"⟩, ⟨[.operation ⟨position, .query, some "R", [], [],
      [node [] [spread [] "G"]]⟩, .fragment ⟨position, "G", "User", [], [id none]⟩]⟩⟩ ::
    Sample.alone

/-- The number of `F` is 0 in one table and 1 in the other one. -/
theorem Schema.compile_renamed_sample : ∃ document document' operation operation',
    Sample.schema.compile Sample.alone = .ok document ∧
      Sample.schema.compile Sample.inCompany = .ok document' ∧
      document.fragments.counterpart document'.fragments 0 = 1 ∧
      document.operation? "Q" = some operation ∧ document'.operation? "Q" = some operation' ∧
      operation' = operation.renamed (document.fragments.counterpart document'.fragments) := by
  have hcheck : ∃ document ∈ (Sample.schema.compile Sample.alone).toOption,
      ∃ document' ∈ (Sample.schema.compile Sample.inCompany).toOption,
        document.fragments.counterpart document'.fragments 0 = 1 := by
    decide +kernel
  simp only [Sample.mem_toOption] at hcheck
  obtain ⟨document, hcompile, document', hcompile', hnumber⟩ := hcheck
  have hsame : ∀ found ∈ fragmentDefinitions Sample.alone,
      Source.Needs Sample.alone [Sample.node [] [Sample.spread [] "F"]] found.fragment.name →
        found ∈ fragmentDefinitions Sample.inCompany :=
    fun found hfound _ => List.mem_cons_of_mem _ hfound
  obtain ⟨name, operation, operation', hname, hoperation, hoperation', hrenamed, -⟩ :=
    Schema.compile_renamed hcompile hcompile' (List.mem_singleton_self _)
      (List.mem_cons_of_mem _ (List.mem_singleton_self _)) hsame
  obtain rfl := Option.some.inj hname
  exact ⟨document, document', operation, operation', hcompile, hcompile', hnumber, hoperation,
    hoperation', hrenamed⟩

end Documents

end QueryShape
