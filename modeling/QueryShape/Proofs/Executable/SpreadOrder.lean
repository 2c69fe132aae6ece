import QueryShape.Executable.Identity
import QueryShape.Proofs.DepthFirst
import QueryShape.Proofs.Executable.SelectionSets

/-!
# The order of first reference

The canonical text of an operation lists the fragments that it reaches in the order of their
numbers' first reference, and numbers depend on what was compiled before. As written there are only
names. Compiling leaves out spreads, but none whose name was not met before, so visiting the numbers
that are left is the same as visiting all names that are written.

## What this module delivers

- `Source.Selection.spreadsIn`, `Source.spreadsOf`: the names spread in selections, and by the
  fragment of a name.
- `Compiles.depthFirst_iff`: leaving out repeated spreads keeps the order.
- `Source.Needs`: the names that selections spread, by themselves or by fragments.
- `Source.Closure`: the definitions that selections reach, in depth-first order of first reference.
- `CompiledFrom.exists_closure`: the closure of an operation, and its canonical text, in terms of
  the documents alone.
-/

set_option autoImplicit false

namespace QueryShape

/-! ## Names that are spread -/

mutual

/-- The names of the fragments spread at or under a selection as written, in order and with
repetitions. -/
def Source.Selection.spreads : Source.Selection → List String
  | .field _ selections => Source.Selection.spreadsIn selections
  | .spread head => [head.name]
  | .inline _ selections => Source.Selection.spreadsIn selections

/-- The names spread at or under selections as written. -/
def Source.Selection.spreadsIn : List Source.Selection → List String
  | [] => []
  | selection :: rest => selection.spreads ++ Source.Selection.spreadsIn rest

end

/-- The names that the fragment of a name spreads itself; none if the name is not defined. -/
def Source.spreadsOf (texts : List SourceText) (name : String) : List String :=
  ((fragmentSource? texts name).map fun source =>
    Source.Selection.spreadsIn source.fragment.selections).getD []

/-! ## Names of numbers -/

namespace FragmentTable

variable {table : FragmentTable} {id : FragmentId} {name : String} {fragment : Fragment}

/-- The name of the fragment with a number. -/
def nameOf (table : FragmentTable) (id : FragmentId) : String :=
  ((table.get? id).map Fragment.name).getD ""

theorem nameOf_eq (hget : table.get? id = some fragment) : table.nameOf id = fragment.name := by
  rw [nameOf, hget]
  rfl

/-- In a sound table no two numbers have one name. -/
theorem Sound.nameOf_inj {schema : Schema} {definitions : Table FragmentSource} {id' : FragmentId}
    (h : table.Sound schema definitions) (hid : id < table.size) (hid' : id' < table.size)
    (heq : table.nameOf id = table.nameOf id') : id = id' := by
  obtain ⟨fragment, hget⟩ := get?_eq_some_of_lt hid
  obtain ⟨fragment', hget'⟩ := get?_eq_some_of_lt hid'
  rw [nameOf_eq hget, nameOf_eq hget'] at heq
  have hnamed := h.named id fragment hget
  rw [heq, h.named id' fragment' hget'] at hnamed
  exact (Option.some.inj hnamed).symm

end FragmentTable

/-! ## Compiled selections -/

section Compiled

variable {schema : Schema} {table : FragmentTable} {scope : Scope} {seen : NameSet}
  {source : List Source.Selection} {compiled : List Selection}

/-- Visiting what is compiled is visiting what is written. A spread that was left out has a name
that is known when its turn comes. -/
theorem Compiles.depthFirst_iff {next : String → List String}
    (h : Compiles schema table scope seen source compiled) {known out : List String}
    (hseen : ∀ name ∈ seen.names, name ∈ known) :
    DepthFirst next known ((Selection.spreadsIn compiled).map table.nameOf) out ↔
      DepthFirst next known (Source.Selection.spreadsIn source) out := by
  induction h generalizing known out with
  | nil => exact Iff.rfl
  | leaf _ _ _ ih => exact ih hseen
  | composite _ _ _ _ _ _ ihnested ih =>
      rw [Selection.spreadsIn, List.map_append, Source.Selection.spreadsIn]
      exact depthFirst_append_congr (fun middle => ihnested nofun)
        fun middle hfirst => ih fun name hname => hfirst.mem_of_known (hseen name hname)
  | @repeated scope seen spread _ _ hrepeated _ ih =>
      -- As written the name stands there once more, but it is passed over.
      have hknown : spread.name ∈ known := hseen _ (List.contains_iff_mem.mp hrepeated)
      rw [Source.Selection.spreadsIn, Source.Selection.spreads, List.singleton_append,
        depthFirst_cons_of_mem hknown]
      exact ih (NameSet.forall_mem_insert.mpr ⟨hseen, hknown⟩)
  | @spread scope seen spread id fragment _ _ _ _ hid hget _ _ ih =>
      have hname : table.nameOf id = spread.name := by
        rw [FragmentTable.nameOf_eq hget, FragmentTable.name_of_idOf? hid hget]
      rw [Selection.spreadsIn, List.map_append, Source.Selection.spreadsIn]
      refine depthFirst_append_congr (fun middle => ?_) fun middle hfirst => ?_
      · rw [Selection.spreads, List.map_singleton, hname, Source.Selection.spreads]
      · have hspread : spread.name ∈ middle := hfirst.mem_of_mem _ List.mem_cons_self
        exact ih (NameSet.forall_mem_insert.mpr
          ⟨fun name hname => hfirst.mem_of_known (hseen name hname), hspread⟩)
  | inline _ _ _ _ ihnested ih =>
      rw [Selection.spreadsIn, List.map_append, Source.Selection.spreadsIn]
      exact depthFirst_append_congr (fun middle => ihnested hseen)
        fun middle hfirst => ih fun name hname => hfirst.mem_of_known (hseen name hname)

end Compiled

/-! ## Closures -/

/-- Selections spread a name, by themselves or by fragments that they reach. -/
def Source.Needs (texts : List SourceText) (selections : List Source.Selection) (name : String) :
    Prop :=
  ∃ root ∈ Source.Selection.spreadsIn selections, LeadsTo (Source.spreadsOf texts) root name

/-- The definitions that selections reach through spreads, each once, in depth-first order of
first reference. -/
structure Source.Closure (texts : List SourceText) (selections : List Source.Selection)
    (reached : List FragmentSource) : Prop where
  order : DepthFirst (Source.spreadsOf texts) [] (Source.Selection.spreadsIn selections)
    (reached.map fun source => source.fragment.name)
  defined : ∀ source ∈ reached, fragmentSource? texts source.fragment.name = some source

namespace Source.Closure

variable {texts : List SourceText} {selections : List Source.Selection}
  {reached : List FragmentSource}

/-- What is reached has the names that are needed. -/
theorem mem_iff (h : Closure texts selections reached) {name : String} :
    name ∈ reached.map (fun source => source.fragment.name) ↔ Needs texts selections name :=
  h.order.mem_iff

theorem nodup (h : Closure texts selections reached) :
    (reached.map fun source => source.fragment.name).Nodup :=
  h.order.nodup List.nodup_nil

theorem needs (h : Closure texts selections reached) {source : FragmentSource}
    (hmem : source ∈ reached) : Needs texts selections source.fragment.name :=
  h.mem_iff.mp (List.mem_map_of_mem hmem)

theorem mem_fragmentDefinitions (h : Closure texts selections reached) {source : FragmentSource}
    (hmem : source ∈ reached) : source ∈ fragmentDefinitions texts :=
  List.mem_of_find?_eq_some (h.defined source hmem)

end Source.Closure

/-- Definitions in canonical form, one below the other. -/
def Source.canonicalText (definitions : List Source.Definition) : String :=
  "\n".intercalate (definitions.map Source.Definition.source)

/-- An operation and fragments as definitions of a document. -/
def Source.unit (operation : Source.Operation) (fragments : List FragmentSource) :
    List Source.Definition :=
  .operation operation :: fragments.map fun source => .fragment source.fragment

section Closures

variable {schema : Schema} {texts : List SourceText} {definitions : Table FragmentSource}
  {document : CompiledDocument}

/-- Every fragment of a compiled document comes from the definition of its name. -/
theorem CompiledFrom.exists_fragmentSource (h : CompiledFrom schema texts definitions document)
    {id : FragmentId} {fragment : Fragment} (hget : document.fragments.get? id = some fragment) :
    ∃ source, fragmentSource? texts fragment.name = some source ∧
      FragmentCompiles schema (document.fragments.before id) source fragment := by
  obtain ⟨source, hsource, hcompiles⟩ := h.sound.compiled id fragment hget
  rw [fragmentSources_get? h.sources] at hsource
  exact ⟨source, hsource, hcompiles⟩

theorem FragmentTable.spreadsOf_eq {table : FragmentTable} {id : FragmentId} {fragment : Fragment}
    (hget : table.get? id = some fragment) :
    table.spreadsOf id = firstOf [] (Selection.spreadsIn fragment.selections.selections) := by
  rw [FragmentTable.spreadsOf, hget]
  rfl

theorem Source.spreadsOf_eq {name : String} {source : FragmentSource}
    (h : fragmentSource? texts name = some source) :
    Source.spreadsOf texts name = Source.Selection.spreadsIn source.fragment.selections := by
  rw [Source.spreadsOf, h]
  rfl

/-- The numbers that compiled selections reach are visited like the names that are written. -/
theorem CompiledFrom.depthFirst_names (h : CompiledFrom schema texts definitions document)
    {scope : Scope} {source : List Source.Selection} {compiled : List Selection}
    (hcompiles : Compiles schema document.fragments scope .empty source compiled)
    (parent : String) (possible : PossibleTypes) :
    let reached := document.fragments.reachable (SelectionSet.spreads ⟨parent, possible, compiled⟩)
    (∀ id ∈ reached, id < document.fragments.size) ∧
      DepthFirst (Source.spreadsOf texts) [] (Source.Selection.spreadsIn source)
        (reached.map document.fragments.nameOf) := by
  intro reached
  have hmem : ∀ {ids : List FragmentId} {id : FragmentId}, id ∈ firstOf [] ids → id ∈ ids :=
    fun hid => (mem_firstOf.mp hid).resolve_left List.not_mem_nil
  have hreached := document.fragments.reachable_depthFirst
    (SelectionSet.spreads ⟨parent, possible, compiled⟩)
  have hinner : ∀ id, id < document.fragments.size →
      ∀ inner ∈ document.fragments.spreadsOf id, inner < document.fragments.size := by
    intro id hid inner hinner
    obtain ⟨fragment, hget⟩ := FragmentTable.get?_eq_some_of_lt hid
    rw [FragmentTable.spreadsOf_eq hget] at hinner
    exact h.ordered.resolves hget inner (hmem hinner)
  -- A number has the name of its definition, and was compiled from what that definition spreads.
  have hnext : ∀ id, id < document.fragments.size → ∀ before after,
      DepthFirst (Source.spreadsOf texts) before
          ((document.fragments.spreadsOf id).map document.fragments.nameOf) after →
        DepthFirst (Source.spreadsOf texts) before
          (Source.spreadsOf texts (document.fragments.nameOf id)) after := by
    intro id hid before after hvisit
    obtain ⟨fragment, hget⟩ := FragmentTable.get?_eq_some_of_lt hid
    obtain ⟨written, hwritten, hfragment⟩ := h.exists_fragmentSource hget
    rw [FragmentTable.spreadsOf_eq hget] at hvisit
    rw [FragmentTable.nameOf_eq hget, Source.spreadsOf_eq hwritten]
    obtain ⟨_, _, _, selections, -, -, -, -, hselections, rfl⟩ := hfragment
    have hgrown := hselections.mono (h.sound.before_growsTo id)
    rw [← hgrown.depthFirst_iff nofun]
    exact (depthFirst_map_firstOf _ [] (Selection.spreadsIn selections)).mp hvisit
  obtain ⟨hlt, hnames⟩ := hreached.map hinner (fun _ _ => h.sound.nameOf_inj) hnext nofun
    (fun id hid => hcompiles.spreads_lt id (hmem hid))
  refine ⟨hlt, ?_⟩
  rw [← hcompiles.depthFirst_iff nofun]
  exact (depthFirst_map_firstOf _ [] (Selection.spreadsIn compiled)).mp hnames

/-- The definition that a number comes from has its name, and its text. -/
theorem CompiledFrom.exists_definition (h : CompiledFrom schema texts definitions document)
    {id : FragmentId} (hid : id < document.fragments.size) :
    ∃ source, source.fragment.name = document.fragments.nameOf id ∧
      fragmentSource? texts source.fragment.name = some source ∧
      (document.fragments.get? id).map Fragment.source =
        some (Source.Definition.fragment source.fragment).source := by
  obtain ⟨fragment, hget⟩ := FragmentTable.get?_eq_some_of_lt hid
  obtain ⟨source, hsource, hcompiles⟩ := h.exists_fragmentSource hget
  have hname := name_of_fragmentSource? hsource
  refine ⟨source, ?_, ?_, ?_⟩
  · rw [hname, FragmentTable.nameOf_eq hget]
  · rw [hname]
    exact hsource
  · obtain ⟨_, _, _, _, -, -, -, -, -, rfl⟩ := hcompiles
    rw [hget]
    rfl

/-- What an operation reaches is the closure of its definition, and its canonical text is that of
its definition and of those that it reaches. -/
theorem CompiledFrom.exists_closure (h : CompiledFrom schema texts definitions document)
    {file : Option FileName} {source : Source.Operation} {operation : Operation}
    (hcompiles : OperationCompiles schema document.fragments file source operation) :
    ∃ reached, Source.Closure texts source.selections reached ∧
      (operation.closure document.fragments).map document.fragments.nameOf =
        reached.map (fun source => source.fragment.name) ∧
      (∀ id ∈ operation.closure document.fragments, id < document.fragments.size) ∧
      operation.canonicalSource document.fragments =
        Source.canonicalText (Source.unit source reached) := by
  have htext : operation.source = (Source.Definition.operation source).source := by
    obtain ⟨_, _, _, _, _, _, _, -, -, -, -, -, -, -, rfl⟩ := hcompiles
    rfl
  have hclosure : (∀ id ∈ operation.closure document.fragments, id < document.fragments.size) ∧
      DepthFirst (Source.spreadsOf texts) [] (Source.Selection.spreadsIn source.selections)
        ((operation.closure document.fragments).map document.fragments.nameOf) := by
    obtain ⟨_, _, _, _, possible, type, _, -, -, -, -, -, -, hselections, rfl⟩ := hcompiles
    exact h.depthFirst_names hselections type.name possible
  obtain ⟨hlt, horder⟩ := hclosure
  choose! written hname hdefined hprinted using fun id hid => h.exists_definition (hlt id hid)
  have hnames : (operation.closure document.fragments).map document.fragments.nameOf =
      ((operation.closure document.fragments).map written).map
        fun source => source.fragment.name := by
    rw [List.map_map]
    exact List.map_congr_left fun id hid => (hname id hid).symm
  refine ⟨(operation.closure document.fragments).map written, ⟨hnames ▸ horder, ?_⟩, hnames, hlt, ?_⟩
  · intro source hsource
    obtain ⟨id, hid, rfl⟩ := List.mem_map.mp hsource
    exact hdefined id hid
  · rw [Operation.canonicalSource, htext, Source.canonicalText, Source.unit, List.map_cons,
      List.map_map, List.map_map, List.filterMap_congr hprinted, List.filterMap_eq_map']
    rfl

end Closures

end QueryShape
