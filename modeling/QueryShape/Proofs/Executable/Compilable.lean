import QueryShape.Proofs.Executable.Fits

/-!
# Definitions that compile together

Whether a list of definitions compiles is a property of the definitions as written. Each has to fit
the schema, names have to be distinct, and every name that is spread has to lead to a fragment, from
which it must not be possible to come back. None of this depends on the order of the definitions or
on positions.

## What this module delivers

- `Source.definitions`: the definitions of documents, with file names forgotten.
- `Source.Resolvable`: names that lead to fragments that fit, and not back to themselves.
- `Source.Resolvable.not_leadsTo_self`: no cycles.
- `Source.Resolvable.of_closed`: fewer definitions that still resolve a name.
- `Source.Compilable`: definitions that compile together.
- `Source.KeepsNames`: changes of definitions that leave all names as they are. They matter only
  as far as they change what definitions need.
- `Source.Compilable.of_perm`, `Source.compilable_unplaced`: neither order nor positions matter.
-/

set_option autoImplicit false

namespace QueryShape.Source

/-! ## Definitions of documents -/

/-- The definitions of documents in order, with file names forgotten. -/
def definitions (texts : List SourceText) : List Definition :=
  texts.flatMap fun text => text.document.definitions

/-- The operation that a definition defines, if it does. -/
def Definition.operation? : Definition → Option Operation
  | .operation definition => some definition
  | _ => none

/-- The fragment that a definition defines, if it does. -/
def Definition.fragment? : Definition → Option Fragment
  | .fragment definition => some definition
  | _ => none

/-- The names spread in a definition, in order and with repetitions. -/
def Definition.spreads : Definition → List String
  | .anonymous _ selections => Selection.spreadsIn selections
  | .operation definition => Selection.spreadsIn definition.selections
  | .fragment definition => Selection.spreadsIn definition.selections

theorem Definition.operation?_eq_some {definition : Definition} {operation : Operation} :
    definition.operation? = some operation ↔ definition = .operation operation := by
  cases definition with
  | anonymous position selections => simp [Definition.operation?]
  | operation other => simp [Definition.operation?]
  | fragment fragment => simp [Definition.operation?]

theorem Definition.fragment?_eq_some {definition : Definition} {fragment : Fragment} :
    definition.fragment? = some fragment ↔ definition = .fragment fragment := by
  cases definition with
  | anonymous position selections => simp [Definition.fragment?]
  | operation operation => simp [Definition.fragment?]
  | fragment other => simp [Definition.fragment?]

variable {schema : Schema} {all others : List Definition} {name : String}

theorem mem_filterMap_operation? {operation : Operation} :
    operation ∈ all.filterMap Definition.operation? ↔ .operation operation ∈ all := by
  simp [List.mem_filterMap, Definition.operation?_eq_some]

theorem mem_filterMap_fragment? {fragment : Fragment} :
    fragment ∈ all.filterMap Definition.fragment? ↔ .fragment fragment ∈ all := by
  simp [List.mem_filterMap, Definition.fragment?_eq_some]

/-! ## Names that resolve -/

/-- A name resolves if the fragment of that name fits and all names that it spreads resolve. -/
inductive Resolvable (schema : Schema) (all : List Definition) : String → Prop
  | intro {name : String} {fragment : Fragment} :
      .fragment fragment ∈ all → fragment.name = name → fragment.Fits schema →
      (∀ inner ∈ Selection.spreadsIn fragment.selections, Resolvable schema all inner) →
      Resolvable schema all name

/-- One name is spread in the fragment of another. -/
def Spreads (all : List Definition) (outer inner : String) : Prop :=
  ∃ fragment, .fragment fragment ∈ all ∧ fragment.name = outer ∧
    inner ∈ Selection.spreadsIn fragment.selections

/-- No two fragments have one name. -/
def DistinctFragments (all : List Definition) : Prop :=
  ((all.filterMap Definition.fragment?).map Fragment.name).Nodup

theorem DistinctFragments.eq (h : DistinctFragments all) {fragment other : Fragment}
    (hfragment : .fragment fragment ∈ all) (hother : .fragment other ∈ all)
    (hname : fragment.name = other.name) : fragment = other :=
  List.inj_on_of_nodup_map h (mem_filterMap_fragment?.mpr hfragment)
    (mem_filterMap_fragment?.mpr hother) hname

/-- If the name of a fragment resolves, the fragment fits and what it spreads resolves. -/
theorem Resolvable.of_mem (hdistinct : DistinctFragments all) {fragment : Fragment}
    (h : Resolvable schema all fragment.name) (hmem : .fragment fragment ∈ all) :
    fragment.Fits schema ∧
      ∀ inner ∈ Selection.spreadsIn fragment.selections, Resolvable schema all inner := by
  obtain ⟨hother, hname, hfits, hspreads⟩ := h
  obtain rfl := hdistinct.eq hother hmem hname
  exact ⟨hfits, hspreads⟩

/-- A name that resolves does not lead to itself. -/
theorem Resolvable.not_leadsTo_self (h : Resolvable schema all name)
    (hdistinct : DistinctFragments all) : ¬ Relation.TransGen (Spreads all) name name := by
  induction h with
  | @intro name fragment hmem hname _ _ ih =>
      intro hcycle
      -- The first name on the cycle leads to itself as well.
      obtain ⟨inner, ⟨other, hother, hsame, hinner⟩, hback⟩ := Relation.TransGen.head'_iff.mp hcycle
      obtain rfl := hdistinct.eq hother hmem (hsame.trans hname.symm)
      exact ih inner hinner (.tail' hback ⟨other, hother, hsame, hinner⟩)

/-- Definitions that contain all fragments that a name leads to are enough to resolve it. -/
theorem Resolvable.of_closed {reached : String → Prop}
    (hreached : ∀ fragment, .fragment fragment ∈ all → reached fragment.name →
      .fragment fragment ∈ others ∧
        ∀ inner ∈ Selection.spreadsIn fragment.selections, reached inner)
    (h : Resolvable schema all name) (hname : reached name) : Resolvable schema others name := by
  induction h with
  | intro hmem hsame hfits _ ih =>
      obtain ⟨hother, hinner⟩ := hreached _ hmem (hsame ▸ hname)
      exact .intro hother hsame hfits fun inner hspread => ih inner hspread (hinner inner hspread)

theorem Resolvable.of_subset (h : Resolvable schema all name) (hsubset : all ⊆ others) :
    Resolvable schema others name :=
  h.of_closed (fun _ hmem _ => ⟨hsubset hmem, fun _ _ => trivial⟩) trivial

/-! ## Definitions that compile -/

/-- Definitions that compile together. -/
structure Compilable (schema : Schema) (all : List Definition) : Prop where
  fits : ∀ definition ∈ all, definition.Fits schema
  resolvable : ∀ definition ∈ all, ∀ name ∈ definition.spreads, Resolvable schema all name
  operations : ((all.filterMap Definition.operation?).map Operation.name).Nodup
  fragments : DistinctFragments all

/-- Operations of one name have one definition. -/
theorem Compilable.operation_eq (h : Compilable schema all) {operation other : Operation}
    (hoperation : .operation operation ∈ all) (hother : .operation other ∈ all)
    (hname : operation.name = other.name) : operation = other :=
  List.inj_on_of_nodup_map h.operations (mem_filterMap_operation?.mpr hoperation)
    (mem_filterMap_operation?.mpr hother) hname

/-- The names of all fragments resolve. -/
theorem Compilable.resolvable_name (h : Compilable schema all) {fragment : Fragment}
    (hmem : .fragment fragment ∈ all) : Resolvable schema all fragment.name :=
  .intro hmem rfl (h.fits _ hmem) (h.resolvable _ hmem)

/-- The order of definitions does not matter. -/
theorem Compilable.of_perm (h : Compilable schema all) (hperm : all.Perm others) :
    Compilable schema others where
  fits definition hmem := h.fits definition (hperm.mem_iff.mpr hmem)
  resolvable definition hmem name hname :=
    (h.resolvable definition (hperm.mem_iff.mpr hmem) name hname).of_subset hperm.subset
  operations := ((hperm.filterMap _).map _).nodup_iff.mp h.operations
  fragments := ((hperm.filterMap _).map _).nodup_iff.mp h.fragments

/-! ## Changes that keep names -/

/-- A change of definitions that keeps their kinds, their names and what they spread. -/
structure KeepsNames (change : Definition → Definition) : Prop where
  operation? : ∀ definition, (change definition).operation?.map Operation.name =
    definition.operation?.map Operation.name
  fragment? : ∀ definition, (change definition).fragment?.map Fragment.name =
    definition.fragment?.map Fragment.name
  spreads : ∀ definition, (change definition).spreads = definition.spreads

namespace KeepsNames

variable {change : Definition → Definition} (h : KeepsNames change)
include h

theorem map_name_operations (all : List Definition) :
    ((all.map change).filterMap Definition.operation?).map Operation.name =
      (all.filterMap Definition.operation?).map Operation.name := by
  rw [List.filterMap_map, List.map_filterMap, List.map_filterMap]
  exact List.filterMap_congr fun definition _ => h.operation? definition

theorem map_name_fragments (all : List Definition) :
    ((all.map change).filterMap Definition.fragment?).map Fragment.name =
      (all.filterMap Definition.fragment?).map Fragment.name := by
  rw [List.filterMap_map, List.map_filterMap, List.map_filterMap]
  exact List.filterMap_congr fun definition _ => h.fragment? definition

/-- A fragment stays a fragment of its name. -/
theorem exists_changed (fragment : Fragment) :
    ∃ changed, change (.fragment fragment) = .fragment changed ∧ changed.name = fragment.name := by
  obtain ⟨changed, hchanged, hname⟩ := Option.map_eq_some_iff.mp (h.fragment? (.fragment fragment))
  exact ⟨changed, Definition.fragment?_eq_some.mp hchanged, hname⟩

/-- What becomes a fragment was a fragment of its name. -/
theorem exists_unchanged {definition : Definition} {changed : Fragment}
    (heq : change definition = .fragment changed) :
    ∃ fragment, definition = .fragment fragment ∧ fragment.name = changed.name := by
  have hnames := h.fragment? definition
  rw [heq] at hnames
  obtain ⟨fragment, hfragment, hname⟩ := Option.map_eq_some_iff.mp hnames.symm
  exact ⟨fragment, Definition.fragment?_eq_some.mp hfragment, hname⟩

/-- A fragment spreads what it spread before. -/
theorem spreadsIn_eq {fragment changed : Fragment}
    (heq : change (.fragment fragment) = .fragment changed) :
    Selection.spreadsIn changed.selections = Selection.spreadsIn fragment.selections := by
  have hspreads := h.spreads (.fragment fragment)
  rw [heq] at hspreads
  exact hspreads

/-- Names resolve as before if what the definitions need stays the same. -/
theorem resolvable_iff
    (hfits : ∀ definition ∈ all, (change definition).Fits schema ↔ definition.Fits schema) :
    Resolvable schema (all.map change) name ↔ Resolvable schema all name := by
  constructor
  · intro hresolvable
    induction hresolvable with
    | intro hmem hname hfitting _ ih =>
        obtain ⟨definition, hdefined, heq⟩ := List.mem_map.mp hmem
        obtain ⟨fragment, rfl, hsame⟩ := h.exists_unchanged heq
        have hfragment := hfits _ hdefined
        rw [heq] at hfragment
        refine .intro hdefined (hsame.trans hname) (hfragment.mp hfitting) fun inner hinner => ?_
        exact ih inner (h.spreadsIn_eq heq ▸ hinner)
  · intro hresolvable
    induction hresolvable with
    | @intro name fragment hmem hname hfitting _ ih =>
        obtain ⟨changed, heq, hsame⟩ := h.exists_changed fragment
        have hfragment := hfits _ hmem
        rw [heq] at hfragment
        refine .intro (heq ▸ List.mem_map_of_mem hmem) (hsame.trans hname)
          (hfragment.mpr hfitting) fun inner hinner => ?_
        exact ih inner (h.spreadsIn_eq heq ▸ hinner)

/-- Definitions compile together as before if what each of them needs stays the same. -/
theorem compilable_iff
    (hfits : ∀ definition ∈ all, (change definition).Fits schema ↔ definition.Fits schema) :
    Compilable schema (all.map change) ↔ Compilable schema all := by
  have hfragments : DistinctFragments (all.map change) ↔ DistinctFragments all := by
    rw [DistinctFragments, h.map_name_fragments, DistinctFragments]
  have hall : (∀ definition ∈ all.map change, definition.Fits schema) ↔
      ∀ definition ∈ all, definition.Fits schema := by
    rw [List.forall_mem_map]
    exact forall₂_congr hfits
  have hresolvable : (∀ definition ∈ all.map change, ∀ name ∈ definition.spreads,
        Resolvable schema (all.map change) name) ↔
      ∀ definition ∈ all, ∀ name ∈ definition.spreads, Resolvable schema all name := by
    simp only [List.forall_mem_map, h.spreads, h.resolvable_iff hfits]
  constructor
  · intro hcompilable
    exact ⟨hall.mp hcompilable.fits, hresolvable.mp hcompilable.resolvable,
      h.map_name_operations all ▸ hcompilable.operations, hfragments.mp hcompilable.fragments⟩
  · intro hcompilable
    exact ⟨hall.mpr hcompilable.fits, hresolvable.mpr hcompilable.resolvable,
      (h.map_name_operations all).symm ▸ hcompilable.operations,
      hfragments.mpr hcompilable.fragments⟩

end KeepsNames

/-! ## Positions do not matter -/

theorem Definition.operation?_unplaced (definition : Definition) :
    definition.unplaced.operation? = definition.operation?.map Operation.unplaced := by
  cases definition with
  | anonymous position selections => rfl
  | operation operation => rfl
  | fragment fragment => rfl

theorem Definition.fragment?_unplaced (definition : Definition) :
    definition.unplaced.fragment? = definition.fragment?.map Fragment.unplaced := by
  cases definition with
  | anonymous position selections => rfl
  | operation operation => rfl
  | fragment fragment => rfl

theorem filterMap_operation?_unplaced (all : List Definition) :
    (all.map Definition.unplaced).filterMap Definition.operation? =
      (all.filterMap Definition.operation?).map Operation.unplaced := by
  rw [List.filterMap_map, List.map_filterMap]
  exact List.filterMap_congr fun definition _ => definition.operation?_unplaced

theorem filterMap_fragment?_unplaced (all : List Definition) :
    (all.map Definition.unplaced).filterMap Definition.fragment? =
      (all.filterMap Definition.fragment?).map Fragment.unplaced := by
  rw [List.filterMap_map, List.map_filterMap]
  exact List.filterMap_congr fun definition _ => definition.fragment?_unplaced

theorem operation_mem_unplaced {operation : Operation} :
    .operation operation ∈ all.map Definition.unplaced ↔
      ∃ placed, .operation placed ∈ all ∧ placed.unplaced = operation := by
  rw [← mem_filterMap_operation?, filterMap_operation?_unplaced, List.mem_map]
  exact exists_congr fun placed => and_congr_left fun _ => mem_filterMap_operation?

theorem fragment_mem_unplaced {fragment : Fragment} :
    .fragment fragment ∈ all.map Definition.unplaced ↔
      ∃ placed, .fragment placed ∈ all ∧ placed.unplaced = fragment := by
  rw [← mem_filterMap_fragment?, filterMap_fragment?_unplaced, List.mem_map]
  exact exists_congr fun placed => and_congr_left fun _ => mem_filterMap_fragment?

/-- Forgetting positions changes no names. -/
theorem keepsNames_unplaced : KeepsNames Definition.unplaced where
  operation? definition := by
    rw [Definition.operation?_unplaced, Option.map_map]
    rfl
  fragment? definition := by
    rw [Definition.fragment?_unplaced, Option.map_map]
    rfl
  spreads definition := by
    cases definition with
    | anonymous position selections => exact Selection.spreadsIn_unplaced selections
    | operation operation => exact Selection.spreadsIn_unplaced operation.selections
    | fragment fragment => exact Selection.spreadsIn_unplaced fragment.selections

/-- Whether definitions compile together does not depend on positions. -/
theorem compilable_unplaced :
    Compilable schema (all.map Definition.unplaced) ↔ Compilable schema all :=
  keepsNames_unplaced.compilable_iff fun definition _ => definition.fits_unplaced

end QueryShape.Source
