import QueryShape.Proofs.Executable.Scopes
import QueryShape.Proofs.Partition
import QueryShape.Proofs.TypeCase.PathDivision

/-!
# The coarsest partition

Variants have to tell two object types apart if some field or some spread applies to one of them
only. Partitioning tells apart nothing else: two possible types of a compiled selection set lie in
the same variant exactly if they have the same paths, with spreads merged or not.

## What this module delivers

- `SelectionSet.Contains.trans`: what is contained at some depth of a contained selection set.
- `CompiledFrom.spreadsWithin`, `CompiledFrom.allSpreadsWithin`: what spreads of a compiled document
  apply to.
- `Schema.partition_coarsest`: the variants are the classes of object types with the same paths.
-/

set_option autoImplicit false

namespace QueryShape

/-! ## Spreads of compiled documents -/

theorem SelectionSet.Contains.trans {set nested inner : SelectionSet} (h : set.Contains nested)
    (hinner : nested.Contains inner) : set.Contains inner := by
  induction h with
  | self => exact hinner
  | field hmem _ ih => exact .field hmem (ih hinner)
  | inline hmem _ ih => exact .inline hmem (ih hinner)

theorem CompiledDocument.Has.trans {document : CompiledDocument} {set inner : SelectionSet}
    (h : document.Has set) (hinner : set.Contains inner) : document.Has inner := by
  cases h with
  | operation hmem hcontains => exact .operation hmem (hcontains.trans hinner)
  | fragment hget hcontains => exact .fragment hget (hcontains.trans hinner)

section Documents

variable {schema : Schema} {texts : List SourceText} {definitions : Table FragmentSource}
  {document : CompiledDocument} {set : SelectionSet}

/-- Spreads apply to what their fragment and the selection set around them have in common. -/
theorem CompiledFrom.spreadsWithin (h : CompiledFrom schema texts definitions document)
    (hset : document.Has set) : document.fragments.SpreadsWithin set := by
  intro inner hinner head hmem
  obtain ⟨scope, hcompiled⟩ := h.compiledIn (hset.trans hinner)
  obtain ⟨seen, source, hcompiles⟩ := hcompiled.compiles
  rw [hcompiled.possible]
  exact hcompiles.of_mem_spread hmem

theorem CompiledFrom.allSpreadsWithin (h : CompiledFrom schema texts definitions document) :
    document.fragments.AllSpreadsWithin :=
  fun _ fragment hget => h.spreadsWithin (.fragment hget (.self fragment.selections))

/-! ## The partition -/

/-- Two possible types lie in the same exhaustive variant exactly if they have the same paths to
fields and spreads. -/
theorem Schema.partition_coarsest (h : schema.compile texts = .ok document)
    (hset : document.Has set) (options : TypeCaseOptions) :
    ∃ typeCase, document.fragments.partition options set = .ok typeCase ∧
      ∀ type ∈ set.possible, ∀ other ∈ set.possible,
        (∃ variant ∈ typeCase.exhaustive, type ∈ variant.possible ∧ other ∈ variant.possible) ↔
          document.fragments.paths options type set.selections =
            document.fragments.paths options other set.selections := by
  obtain ⟨definitions, hfrom⟩ := Schema.compile_spec h
  obtain ⟨typeCase, hpartition, -⟩ := hfrom.partition_presents hset options
  refine ⟨typeCase, hpartition, fun type htype other hother => ?_⟩
  have hdivides := FragmentTable.partition_dividesByPaths hfrom.allSpreadsWithin
    (hfrom.spreadsWithin hset) hpartition
  rw [hdivides.wellFormed.together_iff (hdivides.spans.symm ▸ htype)
    (hdivides.spans.symm ▸ hother), hdivides.together type htype other hother,
    FragmentTable.samePaths_iff]

end Documents

theorem Schema.partition_coarsest_sample : ∃ document set,
    Sample.schema.compile Sample.texts = .ok document ∧ document.Has set ∧
      1 ∈ set.possible ∧ 2 ∈ set.possible ∧
      ∃ typeCase, document.fragments.partition .standard set = .ok typeCase ∧
        ((∃ variant ∈ typeCase.exhaustive, 1 ∈ variant.possible ∧ 2 ∈ variant.possible) ↔
          document.fragments.paths .standard 1 set.selections =
            document.fragments.paths .standard 2 set.selections) := by
  obtain ⟨document, set, hcompile, hset, htypes⟩ :=
    Sample.exists_set (fun _ set => set.possible.contains 1 && set.possible.contains 2)
      (by decide +kernel)
  obtain ⟨htype, hother⟩ := Bool.and_eq_true_iff.mp htypes
  obtain ⟨typeCase, hpartition, hall⟩ := Schema.partition_coarsest hcompile hset .standard
  exact ⟨document, set, hcompile, hset, htype, hother, typeCase, hpartition,
    hall 1 htype 2 hother⟩

end QueryShape
