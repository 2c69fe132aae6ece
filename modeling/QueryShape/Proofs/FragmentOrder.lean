import QueryShape.Proofs.Executable.Success
import QueryShape.Proofs.Executable.SpreadOrder
import QueryShape.Proofs.Partition

/-!
# The order of fragments

Fragments are compiled when they are first needed, in the middle of whatever needs them, and are put
into the table when they are done. In the end the table holds each fragment definition once, and a
fragment comes after everything that it spreads, so whatever walks along spreads comes to an end.

## What this module delivers

- `Selection.headsIn`: the spreads at any depth of selections.
- `Compiles.idOf?_heads`: a spread refers to the fragment of its name.
- `FragmentTable.Sound.idOf?_iff`: the number of a name is the place of the fragment with the name.
- `CompiledFrom.exists_sources`: the definitions of the fragments in the table.
- `Schema.fragment_order`: operations, fragments and spreads of a compiled document.
-/

set_option autoImplicit false

namespace QueryShape

/-! ## Spreads at any depth -/

mutual

/-- The spreads at or under a selection, through fields and inline fragments. -/
def Selection.heads : Selection → List SpreadSelection
  | .field _ none => []
  | .field _ (some ⟨_, _, selections⟩) => Selection.headsIn selections
  | .spread head => [head]
  | .inline _ ⟨_, _, selections⟩ => Selection.headsIn selections

/-- The spreads at or under selections. -/
def Selection.headsIn : List Selection → List SpreadSelection
  | [] => []
  | selection :: rest => selection.heads ++ Selection.headsIn rest

end

/-- Every spread at any depth of compiled selections refers to the fragment of its name. -/
theorem Compiles.idOf?_heads {schema : Schema} {table : FragmentTable} {scope : Scope}
    {seen : NameSet} {source : List Source.Selection} {compiled : List Selection}
    (h : Compiles schema table scope seen source compiled) :
    ∀ head ∈ Selection.headsIn compiled, table.idOf? head.name = some head.fragment := by
  induction h with
  | nil => exact fun _ hmem => absurd hmem List.not_mem_nil
  | leaf _ _ _ ih => exact ih
  | composite _ _ _ _ _ _ ihnested ih => exact List.forall_mem_append.mpr ⟨ihnested, ih⟩
  | repeated _ _ ih => exact ih
  | spread _ hid _ _ _ ih =>
      exact List.forall_mem_append.mpr ⟨List.forall_mem_singleton.mpr hid, ih⟩
  | inline _ _ _ _ ihnested ih => exact List.forall_mem_append.mpr ⟨ihnested, ih⟩

/-! ## Tables -/

namespace FragmentTable.Sound

variable {schema : Schema} {definitions : Table FragmentSource} {table : FragmentTable}

/-- In a sound table a name has the number of the fragment that has the name. -/
theorem idOf?_iff (h : table.Sound schema definitions) {name : String} {id : FragmentId} :
    table.idOf? name = some id ↔
      ∃ fragment, table.get? id = some fragment ∧ fragment.name = name := by
  constructor
  · exact exists_get?_of_idOf?
  · rintro ⟨fragment, hget, rfl⟩
    exact h.named id fragment hget

/-- No two fragments of a sound table have one name. -/
theorem nodup_names (h : table.Sound schema definitions) :
    (table.fragments.map Fragment.name).Nodup := by
  rw [List.nodup_iff_injective_getElem]
  intro first second heq
  simp only [List.getElem_map] at heq
  have hfirst : first.val < table.fragments.length := List.length_map Fragment.name ▸ first.isLt
  have hsecond : second.val < table.fragments.length := List.length_map Fragment.name ▸ second.isLt
  have hnamed := h.named first _ (List.getElem?_eq_getElem hfirst)
  have hnamed' := h.named second _ (List.getElem?_eq_getElem hsecond)
  rw [heq, hnamed'] at hnamed
  exact Fin.ext (Option.some.inj hnamed).symm

end FragmentTable.Sound

/-! ## Compiled documents -/

section Compiled

variable {schema : Schema} {texts : List SourceText} {definitions : Table FragmentSource}
  {document : CompiledDocument}

/-- The table holds a fragment for each fragment definition, and no others. -/
theorem CompiledFrom.exists_sources (h : CompiledFrom schema texts definitions document) :
    ∃ sources, sources.Perm (fragmentDefinitions texts) ∧
      List.Forall₂ (fun source fragment => FragmentCompiles schema document.fragments source fragment)
        sources document.fragments.fragments := by
  have hsource : ∀ fragment ∈ document.fragments.fragments, ∃ source,
      fragmentSource? texts fragment.name = some source ∧
        FragmentCompiles schema document.fragments source fragment := by
    intro fragment hmem
    obtain ⟨id, hget⟩ := List.mem_iff_getElem?.mp hmem
    obtain ⟨source, hsource, hcompiles⟩ := h.exists_fragmentSource hget
    exact ⟨source, hsource, hcompiles.mono (h.sound.before_growsTo id)⟩
  choose! sourceOf hfound hcompiles using hsource
  have hnames : (document.fragments.fragments.map sourceOf).map (fun source => source.fragment.name) =
      document.fragments.fragments.map Fragment.name := by
    rw [List.map_map]
    exact List.map_congr_left fun fragment hmem => name_of_fragmentSource? (hfound fragment hmem)
  have hnodup : (document.fragments.fragments.map sourceOf).Nodup :=
    .of_map _ (hnames ▸ h.sound.nodup_names)
  obtain ⟨hdistinct, -⟩ := fragmentSources_eq_ok_iff.mp h.sources
  have hnodup' : (fragmentDefinitions texts).Nodup := by
    refine .of_map (fun source => source.fragment.name) ?_
    rw [map_name_fragmentDefinitions]
    exact hdistinct
  refine ⟨document.fragments.fragments.map sourceOf, ?_, ?_⟩
  · rw [List.perm_ext_iff_of_nodup hnodup hnodup']
    intro source
    constructor
    · intro hmem
      obtain ⟨fragment, hfragment, rfl⟩ := List.mem_map.mp hmem
      exact List.mem_of_find?_eq_some (hfound fragment hfragment)
    · intro hmem
      have hsource := fragmentSource?_of_mem hdistinct hmem
      rw [← fragmentSources_get? h.sources] at hsource
      -- The name is in the table, and the fragment there comes from this definition.
      obtain ⟨id, hid⟩ := h.complete _ _ hsource
      obtain ⟨fragment, hget, hname⟩ := FragmentTable.exists_get?_of_idOf? hid
      have hfragment : fragment ∈ document.fragments.fragments := List.mem_of_getElem? hget
      have hsame := hfound fragment hfragment
      rw [hname, ← fragmentSources_get? h.sources, hsource] at hsame
      exact List.mem_map.mpr ⟨fragment, hfragment, (Option.some.inj hsame).symm⟩
  · rw [List.forall₂_map_left_iff, List.forall₂_same]
    exact hcompiles

/-- Nothing but named operations and fragments compiles. -/
theorem Source.Compilable.isSome (h : Source.Compilable schema (Source.definitions texts))
    {definition : Source.Definition} (hmem : definition ∈ Source.definitions texts) :
    definition.operation?.isSome = true ∨ definition.fragment?.isSome = true := by
  have hfits := h.fits definition hmem
  cases definition with
  | anonymous position selections => exact absurd hfits id
  | operation source => exact Or.inl rfl
  | fragment source => exact Or.inr rfl

/-- The operations of a compiled document are those that its documents define, in order. The table
holds a fragment for each fragment definition. Every spread refers to the fragment of its name, and
inside a fragment to an earlier one. -/
theorem Schema.fragment_order (h : schema.compile texts = .ok document) :
    (∀ definition ∈ Source.definitions texts,
      definition.operation?.isSome = true ∨ definition.fragment?.isSome = true) ∧
    List.Forall₂ (fun source operation =>
        OperationCompiles schema document.fragments source.1 source.2 operation)
      (operationSources texts) document.operations ∧
    (document.operations.map Operation.name).Nodup ∧
    (∃ sources, sources.Perm (fragmentDefinitions texts) ∧
      List.Forall₂ (fun source fragment =>
          FragmentCompiles schema document.fragments source fragment)
        sources document.fragments.fragments) ∧
    (document.fragments.fragments.map Fragment.name).Nodup ∧
    (∀ name id, document.fragments.idOf? name = some id ↔
      ∃ fragment, document.fragments.get? id = some fragment ∧ fragment.name = name) ∧
    (∀ operation ∈ document.operations,
      ∀ head ∈ Selection.headsIn operation.selections.selections,
        ∃ fragment, document.fragments.get? head.fragment = some fragment ∧
          fragment.name = head.name) ∧
    ∀ id fragment, document.fragments.get? id = some fragment →
      ∀ head ∈ Selection.headsIn fragment.selections.selections, head.fragment < id ∧
        ∃ inner, document.fragments.get? head.fragment = some inner ∧ inner.name = head.name := by
  have hcompilable := Schema.compile_succeeds_iff.mp ⟨document, h⟩
  obtain ⟨definitions, hfrom⟩ := Schema.compile_spec h
  refine ⟨fun definition hmem => hcompilable.isSome hmem, hfrom.operations, hfrom.distinct,
    hfrom.exists_sources, hfrom.sound.nodup_names, fun name id => hfrom.sound.idOf?_iff, ?_, ?_⟩
  · intro operation hmem head hhead
    obtain ⟨place, hplace⟩ := List.mem_iff_getElem?.mp hmem
    obtain ⟨source, -, _, _, _, _, _, _, _, -, -, -, -, -, -, hselections, rfl⟩ :=
      hfrom.exists_source hplace
    exact hfrom.sound.idOf?_iff.mp (hselections.idOf?_heads head hhead)
  · intro id fragment hget head hhead
    obtain ⟨source, -, _, _, _, _, -, -, -, -, hselections, rfl⟩ := hfrom.exists_fragmentSource hget
    have hid := hselections.idOf?_heads head hhead
    refine ⟨?_, ?_⟩
    · -- The fragment was compiled against the fragments before it.
      obtain ⟨inner, hinner, -⟩ := FragmentTable.exists_get?_of_idOf? hid
      exact Nat.lt_of_lt_of_le (FragmentTable.lt_size_of_get?_eq_some hinner)
        (document.fragments.size_before_le id)
    · exact hfrom.sound.idOf?_iff.mp ((hfrom.sound.before_growsTo id).idOf? hid)

/-- `query Q { node { ...F } }` with the fragments `F`, which spreads `G`, and `G`. -/
def Sample.nestedFragments : List SourceText :=
  query [node [] [spread [] "F"]] [("F", [spread [] "G"]), ("G", [id none])]

/-- The fragment `G` is defined last and comes first in the table, since `F` needs it. -/
theorem Schema.fragment_order_sample : ∃ document fragment head,
    Sample.schema.compile Sample.nestedFragments = .ok document ∧
      (document.operations.map Operation.name).Nodup ∧
      document.fragments.get? 1 = some fragment ∧ fragment.name = "F" ∧
      head ∈ Selection.headsIn fragment.selections.selections ∧ head.name = "G" ∧
      head.fragment < 1 := by
  have hcheck : ∃ document ∈ (Sample.schema.compile Sample.nestedFragments).toOption,
      ∃ fragment ∈ document.fragments.get? 1, fragment.name = "F" ∧
        ∃ head ∈ Selection.headsIn fragment.selections.selections, head.name = "G" := by
    decide +kernel
  simp only [Sample.mem_toOption] at hcheck
  obtain ⟨document, hcompile, fragment, hget, hname, head, hhead, hhead'⟩ := hcheck
  obtain ⟨-, -, hdistinct, -, -, -, -, hordered⟩ := Schema.fragment_order hcompile
  exact ⟨document, fragment, head, hcompile, hdistinct, hget, hname, hhead, hhead',
    (hordered 1 fragment hget head hhead).1⟩

end Compiled

end QueryShape
