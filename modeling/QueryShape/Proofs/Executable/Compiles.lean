import Mathlib.Data.List.Forall2
import Mathlib.Data.List.Induction
import QueryShape.Proofs.Executable.Steps
import QueryShape.Proofs.Occurrence

/-!
# What compiling means

The relation between a document as written and its compiled form, free of the order in which
fragments are compiled. Spreads refer to a table of fragments; a larger table changes nothing
of what is compiled already.

## What this module delivers

- `FieldCompiles`, `Scope.NarrowsTo`: a field, and the scope inside an inline fragment.
- `Compiles`: selections within a scope. A spread of a name that was spread before on the way
  is left out.
- `FragmentCompiles`, `OperationCompiles`: definitions.
- `FragmentTable.GrowsTo`: more fragments at the end of a table, while names keep their numbers.
- `Compiles.mono`: more fragments at the end of the table.
- `Compiles.spreads_lt`: spreads refer to fragments of the table.
- `FragmentTable.Sound`: every fragment of a table is compiled against those before it.
- `FragmentTable.Sound.of_before`: the fragment and the definition that a spread refers to.
-/

set_option autoImplicit false

namespace QueryShape

/-! ## Tables that grow -/

namespace FragmentTable

variable {table table' : FragmentTable} {id : FragmentId} {name : String} {fragment : Fragment}

/-- A table with the same fragments at its front, in which every name that had a number keeps it. -/
structure GrowsTo (table table' : FragmentTable) : Prop where
  fragments : table.fragments <+: table'.fragments
  idOf? : ∀ {name : String} {id : FragmentId}, table.idOf? name = some id →
    table'.idOf? name = some id

theorem GrowsTo.refl (table : FragmentTable) : table.GrowsTo table :=
  ⟨List.prefix_refl table.fragments, id⟩

theorem GrowsTo.trans {table'' : FragmentTable} (h : table.GrowsTo table')
    (h' : table'.GrowsTo table'') : table.GrowsTo table'' :=
  ⟨h.fragments.trans h'.fragments, fun hid => h'.idOf? (h.idOf? hid)⟩

/-- A fragment whose name is new takes no number from another name. -/
theorem GrowsTo.push (hnew : table.idOf? fragment.name = none) :
    table.GrowsTo (table.push fragment) := by
  refine ⟨List.prefix_append table.fragments [fragment], fun {name id} hid => ?_⟩
  have hne : name ≠ fragment.name := by
    rintro rfl
    cases hnew.symm.trans hid
  rw [idOf?_push, if_neg hne, hid]

theorem get?_of_isPrefix (h : table.fragments <+: table'.fragments)
    (hget : table.get? id = some fragment) : table'.get? id = some fragment := by
  obtain ⟨hlt, heq⟩ := List.getElem?_eq_some_iff.mp hget
  have hsame : table'.fragments[id]? = some table.fragments[id] :=
    List.prefix_iff_getElem?.mp h id hlt
  rw [← heq]
  exact hsame

theorem GrowsTo.get? (h : table.GrowsTo table') (hget : table.get? id = some fragment) :
    table'.get? id = some fragment :=
  get?_of_isPrefix h.fragments hget

theorem exists_getElem?_of_numbersOf {fragments : List Fragment} {name : String} {id : FragmentId}
    (h : (numbersOf fragments).get? name = some id) :
    ∃ fragment, fragments[id]? = some fragment ∧ fragment.name = name := by
  induction fragments using List.reverseRecOn with
  | nil => exact nomatch h
  | append_singleton fragments last ih =>
      rw [numbersOf_concat, Table.get?_insert] at h
      split at h
      · next hname =>
          cases h
          exact ⟨last, by simp, hname.symm⟩
      · obtain ⟨fragment, hget, hname⟩ := ih h
        obtain ⟨hlt, -⟩ := List.getElem?_eq_some_iff.mp hget
        exact ⟨fragment, (List.getElem?_append_left hlt).trans hget, hname⟩

/-- The number of a name is the number of a fragment that has the name. -/
theorem exists_get?_of_idOf? {table : FragmentTable} {name : String} {id : FragmentId}
    (h : table.idOf? name = some id) :
    ∃ fragment, table.get? id = some fragment ∧ fragment.name = name := by
  rw [idOf?, table.numbers_eq] at h
  exact exists_getElem?_of_numbersOf h

theorem name_of_idOf? (hid : table.idOf? name = some id) (hget : table.get? id = some fragment) :
    fragment.name = name := by
  obtain ⟨named, hnamed, hname⟩ := exists_get?_of_idOf? hid
  rw [Option.some.inj (hget.symm.trans hnamed), hname]

/-- The fragments before one with a number. -/
def before (table : FragmentTable) (id : FragmentId) : FragmentTable :=
  ofFragments (table.fragments.take id)

theorem size_before_le (table : FragmentTable) (id : FragmentId) : (table.before id).size ≤ id := by
  rw [before, size, ofFragments, List.length_take]
  exact Nat.min_le_left _ _

theorem before_size (table : FragmentTable) : table.before table.size = table :=
  eq_of_fragments List.take_length

end FragmentTable

/-! ## Selections -/

/-- A field compiles on the definition that its type gives it. -/
def FieldCompiles (schema : Schema) (scope : Scope) (field : Source.Field) (head : FieldSelection)
    (type : NamedType) : Prop :=
  ∃ definition directives,
    schema.field? scope.parent field.name = .ok (some definition) ∧
    schema.type? definition.type.typeName = some type ∧
    AppliedDirective.compileAll schema scope.file field.directives = .ok directives ∧
    head = ⟨field.givenKey, field.name, scope.parent.name, definition.type,
      Argument.resolveAll definition.parameters field.arguments, directives,
      definition.description, definition.deprecation, .source scope.file field.position⟩

/-- The scope inside an inline fragment: without a type condition the same, and otherwise on
the type that it names. -/
def Scope.NarrowsTo (schema : Schema) (scope : Scope) (fragment : Source.InlineFragment)
    (inner : Scope) : Prop :=
  match fragment.typeCondition with
  | none => inner = scope
  | some name => ∃ type possible, schema.type? name = some type ∧ type.isComposite = true ∧
      schema.possibleTypes? name = some possible ∧
      inner = { scope with parent := type, possible := possible ∩ scope.possible }

/-- Selections compile within a scope, given the fragments spread before on the way. -/
inductive Compiles (schema : Schema) (table : FragmentTable) :
    Scope → NameSet → List Source.Selection → List Selection → Prop
  | nil (scope : Scope) (seen : NameSet) : Compiles schema table scope seen [] []
  | leaf {scope : Scope} {seen : NameSet} {field : Source.Field} {head : FieldSelection}
      {type : NamedType} {rest : List Source.Selection} {compiled : List Selection} :
      FieldCompiles schema scope field head type → type.isComposite = false →
      Compiles schema table scope seen rest compiled →
      Compiles schema table scope seen (.field field [] :: rest) (.field head none :: compiled)
  | composite {scope : Scope} {seen : NameSet} {field : Source.Field} {head : FieldSelection}
      {type : NamedType} {possible : PossibleTypes} {selections rest : List Source.Selection}
      {nested compiled : List Selection} :
      FieldCompiles schema scope field head type → type.isComposite = true → selections ≠ [] →
      schema.possibleTypes? type.name = some possible →
      Compiles schema table ⟨scope.file, type, possible⟩ .empty selections nested →
      Compiles schema table scope seen rest compiled →
      Compiles schema table scope seen (.field field selections :: rest)
        (.field head (some ⟨type.name, possible, nested⟩) :: compiled)
  | repeated {scope : Scope} {seen : NameSet} {spread : Source.Spread}
      {rest : List Source.Selection} {compiled : List Selection} :
      seen.contains spread.name = true →
      Compiles schema table scope (seen.insert spread.name) rest compiled →
      Compiles schema table scope seen (.spread spread :: rest) compiled
  | spread {scope : Scope} {seen : NameSet} {spread : Source.Spread} {id : FragmentId}
      {fragment : Fragment} {directives : List AppliedDirective}
      {rest : List Source.Selection} {compiled : List Selection} :
      seen.contains spread.name = false → table.idOf? spread.name = some id →
      table.get? id = some fragment →
      AppliedDirective.compileAll schema scope.file spread.directives = .ok directives →
      Compiles schema table scope (seen.insert spread.name) rest compiled →
      Compiles schema table scope seen (.spread spread :: rest)
        (.spread ⟨id, spread.name, directives, fragment.selections.possible ∩ scope.possible,
          .source scope.file spread.position⟩ :: compiled)
  | inline {scope inner : Scope} {seen : NameSet} {fragment : Source.InlineFragment}
      {directives : List AppliedDirective} {selections rest : List Source.Selection}
      {nested compiled : List Selection} :
      scope.NarrowsTo schema fragment inner →
      AppliedDirective.compileAll schema scope.file fragment.directives = .ok directives →
      Compiles schema table inner seen selections nested →
      Compiles schema table scope seen rest compiled →
      Compiles schema table scope seen (.inline fragment selections :: rest)
        (.inline ⟨fragment.typeCondition, directives, .source scope.file fragment.position⟩
          ⟨inner.parent.name, inner.possible, nested⟩ :: compiled)

namespace Compiles

variable {schema : Schema} {table table' : FragmentTable} {scope : Scope} {seen : NameSet}
  {source : List Source.Selection} {compiled : List Selection}

theorem mono (hgrows : table.GrowsTo table') (h : Compiles schema table scope seen source compiled) :
    Compiles schema table' scope seen source compiled := by
  induction h with
  | nil scope seen => exact .nil scope seen
  | leaf hfield htype _ ih => exact .leaf hfield htype ih
  | composite hfield htype hne hpossible _ _ ihnested ih =>
      exact .composite hfield htype hne hpossible ihnested ih
  | repeated hseen _ ih => exact .repeated hseen ih
  | spread hseen hid hget hdirectives _ ih =>
      exact .spread hseen (hgrows.idOf? hid) (hgrows.get? hget) hdirectives ih
  | inline hinner hdirectives _ _ ihnested ih => exact .inline hinner hdirectives ihnested ih

/-- Everything that is spread at any depth is in the table. -/
theorem spreads_lt (h : Compiles schema table scope seen source compiled) :
    ∀ id ∈ Selection.spreadsIn compiled, id < table.size := by
  induction h with
  | nil => exact fun id hid => absurd hid List.not_mem_nil
  | leaf _ _ _ ih => exact ih
  | composite _ _ _ _ _ _ ihnested ih => exact List.forall_mem_append.mpr ⟨ihnested, ih⟩
  | repeated _ _ ih => exact ih
  | spread _ _ hget _ _ ih =>
      refine List.forall_mem_append.mpr ⟨fun id hid => ?_, ih⟩
      rw [List.mem_singleton.mp hid]
      exact FragmentTable.lt_size_of_get?_eq_some hget
  | inline _ _ _ _ ihnested ih => exact List.forall_mem_append.mpr ⟨ihnested, ih⟩

end Compiles

/-! ## Definitions -/

/-- A fragment definition compiles on the type of its type condition. -/
def FragmentCompiles (schema : Schema) (table : FragmentTable) (source : FragmentSource)
    (fragment : Fragment) : Prop :=
  ∃ type possible directives selections,
    schema.type? source.fragment.typeCondition = some type ∧ type.isComposite = true ∧
    schema.possibleTypes? source.fragment.typeCondition = some possible ∧
    AppliedDirective.compileAll schema source.file source.fragment.directives = .ok directives ∧
    Compiles schema table ⟨source.file, type, possible⟩ .empty source.fragment.selections
      selections ∧
    fragment = ⟨source.fragment.name, source.fragment.typeCondition, directives,
      ⟨type.name, possible, selections⟩, (Source.Definition.fragment source.fragment).source,
      source.file, source.location⟩

/-- A variable definition compiles if its type is defined. -/
def VariableCompiles (schema : Schema) (file : Option FileName)
    (definition : Source.VariableDefinition) (compiled : Variable) : Prop :=
  (schema.type? definition.type.typeName).isSome = true ∧
    compiled = ⟨definition.name, definition.type,
      definition.defaultValue.map Source.Value.resolved, .source file definition.position⟩

/-- An operation compiles on the root type of its kind. -/
def OperationCompiles (schema : Schema) (table : FragmentTable) (file : Option FileName)
    (source : Source.Operation) (operation : Operation) : Prop :=
  ∃ name root declared directives possible type selections,
    source.name = some name ∧ schema.root? source.kind = some root ∧
    List.Forall₂ (VariableCompiles schema file) source.declared declared ∧
    AppliedDirective.compileAll schema file source.directives = .ok directives ∧
    schema.possibleTypes? root = some possible ∧ schema.type? root = some type ∧
    Compiles schema table ⟨file, type, possible⟩ .empty source.selections selections ∧
    operation = ⟨name, source.kind, root,
      Table.ofEntries (declared.map fun v => (v.name, v)), directives,
      ⟨type.name, possible, selections⟩, (Source.Definition.operation source).source, file,
      .source file source.position⟩

theorem FragmentCompiles.mono {schema : Schema} {table table' : FragmentTable}
    {source : FragmentSource} {fragment : Fragment} (hgrows : table.GrowsTo table')
    (h : FragmentCompiles schema table source fragment) :
    FragmentCompiles schema table' source fragment := by
  obtain ⟨type, possible, directives, selections, htype, hcomposite, hpossible, hdirectives,
    hselections, hfragment⟩ := h
  exact ⟨type, possible, directives, selections, htype, hcomposite, hpossible, hdirectives,
    hselections.mono hgrows, hfragment⟩

theorem OperationCompiles.mono {schema : Schema} {table table' : FragmentTable}
    {file : Option FileName} {source : Source.Operation} {operation : Operation}
    (hgrows : table.GrowsTo table') (h : OperationCompiles schema table file source operation) :
    OperationCompiles schema table' file source operation := by
  obtain ⟨name, root, declared, directives, possible, type, selections, hname, hroot, hdeclared,
    hdirectives, hpossible, htype, hselections, hoperation⟩ := h
  exact ⟨name, root, declared, directives, possible, type, selections, hname, hroot, hdeclared,
    hdirectives, hpossible, htype, hselections.mono hgrows, hoperation⟩

/-! ## Sound tables -/

namespace FragmentTable

/-- Every fragment is compiled, from the definition of its name, against the fragments before
it, and no two have one name. -/
structure Sound (schema : Schema) (definitions : Table FragmentSource) (table : FragmentTable) :
    Prop where
  compiled : ∀ (id : FragmentId) (fragment : Fragment), table.get? id = some fragment →
    ∃ source, definitions.get? fragment.name = some source ∧
      FragmentCompiles schema (table.before id) source fragment
  named : ∀ (id : FragmentId) (fragment : Fragment), table.get? id = some fragment →
    table.idOf? fragment.name = some id

variable {schema : Schema} {definitions : Table FragmentSource} {table : FragmentTable}

theorem Sound.empty (schema : Schema) (definitions : Table FragmentSource) :
    Sound schema definitions .empty :=
  ⟨fun _ _ h => (nomatch h), fun _ _ h => (nomatch h)⟩

theorem get?_push {fragment : Fragment} {id : FragmentId} {other : Fragment}
    (h : (table.push fragment).get? id = some other) :
    table.get? id = some other ∨ id = table.size ∧ other = fragment := by
  rw [FragmentTable.get?, push, List.getElem?_append] at h
  split at h
  · exact Or.inl h
  · next hge =>
      have hsingle := List.getElem?_eq_some_iff.mp h
      obtain ⟨hlt, heq⟩ := hsingle
      rw [List.length_singleton, Nat.lt_one_iff] at hlt
      refine Or.inr ⟨?_, ?_⟩
      · exact Nat.le_antisymm (Nat.le_of_sub_eq_zero hlt) (Nat.le_of_not_lt hge)
      · rw [← heq]
        exact List.getElem_singleton _

/-- A fragment that is compiled against a table may be put at its end, if its name is new. -/
theorem Sound.push (h : Sound schema definitions table) {source : FragmentSource}
    {fragment : Fragment} (hsource : definitions.get? fragment.name = some source)
    (hcompiled : FragmentCompiles schema table source fragment)
    (hnew : table.idOf? fragment.name = none) : Sound schema definitions (table.push fragment) := by
  -- Every fragment is compiled against those before it, and these stay the same.
  have hbefore : ∀ id, id ≤ table.size → (table.push fragment).before id = table.before id := by
    intro id hid
    rw [before, FragmentTable.push, List.take_append_of_le_length hid, before]
  refine ⟨fun id other hget => ?_, fun id other hget => ?_⟩
  · rcases get?_push hget with hold | ⟨rfl, rfl⟩
    · rw [hbefore id (Nat.le_of_lt (lt_size_of_get?_eq_some hold))]
      exact h.compiled id other hold
    · refine ⟨source, hsource, ?_⟩
      rw [hbefore _ (Nat.le_refl _), before_size]
      exact hcompiled
  · rcases get?_push hget with hold | ⟨rfl, rfl⟩
    · exact (GrowsTo.push hnew).idOf? (h.named id other hold)
    · rw [idOf?_push, if_pos rfl]

/-- In a sound table the names of the first fragments have the same numbers as in the whole. -/
theorem Sound.before_growsTo (h : Sound schema definitions table) (id : FragmentId) :
    (table.before id).GrowsTo table := by
  have hfront : (table.before id).fragments <+: table.fragments :=
    List.take_prefix id table.fragments
  refine ⟨hfront, fun {name number} hnumber => ?_⟩
  obtain ⟨fragment, hget, rfl⟩ := exists_get?_of_idOf? hnumber
  exact h.named number fragment (get?_of_isPrefix hfront hget)

/-- In a sound table every fragment spreads earlier fragments only. -/
theorem Sound.ordered (h : Sound schema definitions table) : table.Ordered := by
  intro id fragment hget spread hspread
  obtain ⟨source, -, hcompiled⟩ := h.compiled id fragment hget
  obtain ⟨type, possible, directives, selections, -, -, -, -, hselections, rfl⟩ := hcompiled
  have hlt : spread < (table.before id).size := hselections.spreads_lt spread hspread
  exact Nat.lt_of_lt_of_le hlt (table.size_before_le id)

/-- A name that stands for one of the first fragments of a sound table stands for it in the whole
table, and the fragment is compiled from the definition of that name. -/
theorem Sound.of_before (h : Sound schema definitions table) {bound id : FragmentId} {name : String}
    {fragment : Fragment} (hid : (table.before bound).idOf? name = some id)
    (hget : (table.before bound).get? id = some fragment) :
    id < bound ∧ table.idOf? name = some id ∧ table.get? id = some fragment ∧
      ∃ source, definitions.get? name = some source ∧
        FragmentCompiles schema (table.before id) source fragment := by
  have hgrows := h.before_growsTo bound
  have hid' := hgrows.idOf? hid
  have hget' := hgrows.get? hget
  obtain ⟨source, hsource, hcompiles⟩ := h.compiled id fragment hget'
  rw [name_of_idOf? hid' hget'] at hsource
  refine ⟨?_, hid', hget', source, hsource, hcompiles⟩
  exact Nat.lt_of_lt_of_le (lt_size_of_get?_eq_some hget) (table.size_before_le bound)

end FragmentTable

end QueryShape
