import QueryShape.Proofs.MergedPartition

/-!
# The default variant as a lower bound

The default variant of a partition stands for no object type in particular. A program may read it
before it knows the object type of a value, so whatever it shows has to be there for all of them:
the fragments recorded on it, the response keys of its merged fields, and the absence of the mark
that a field may be missing.

## What this module delivers

- `WellFormed.below_of_mem_exhaustive`: every exhaustive variant holds what the default variant
  holds.
- `MatchedBy`: merged fields that are matched by others, key by key, with no mark added.
- `FragmentTable.matchedBy_mergeFields`: the fields merged from some records are matched by those
  merged from more records.
- `Schema.default_below_variants`: the lower bound, for every selection set of a compiled document.
-/

set_option autoImplicit false

namespace QueryShape

/-! ## Holdings -/

/-- In a well formed and grounded type case, every exhaustive variant holds what the default variant
holds. -/
theorem TypeCase.WellFormed.below_of_mem_exhaustive {typeCase : TypeCase}
    (h : typeCase.WellFormed) (hg : typeCase.Grounded) {variant : Variant}
    (hmem : variant ∈ typeCase.exhaustive) :
    typeCase.default.holding.Below variant.holding := by
  -- Each of its object types is one for which the default variant is a lower bound.
  obtain ⟨type, htype⟩ := h.inhabited_exhaustive hmem
  have hspanned : type ∈ typeCase.default.possible := h.covered_iff.mp ⟨variant, hmem, htype⟩
  rw [h.holding_of_mem_exhaustive hmem htype]
  exact hg type hspanned

/-- A lower holding has fewer records. -/
theorem Holding.Below.records {lower upper : Holding} (h : lower.Below upper) :
    (recordsIn lower.content).Sublist (recordsIn upper.content) :=
  h.content.filterMap Occurrence.record?

/-! ## Merged fields -/

/-- Every field has a counterpart of its response key among others, and one without the mark of
absence has a counterpart without the mark. -/
def MatchedBy (fields others : List MergedField) : Prop :=
  ∀ field ∈ fields, ∃ other ∈ others, other.responseKey = field.responseKey ∧
    (field.isConditional = false → other.isConditional = false)

/-- The fields merged from some records are matched by those merged from more records. -/
theorem FragmentTable.matchedBy_mergeFields {schema : Schema} {table : FragmentTable}
    {options : TypeCaseOptions} {set set' : SelectionSet} {records records' : List FieldRecord}
    {fields fields' : List MergedField} (hsub : records.Sublist records')
    (hrecords : table.fieldRecords options set = .ok records)
    (hrecords' : table.fieldRecords options set' = .ok records')
    (hfields : table.mergeFields schema options set = .ok fields)
    (hfields' : table.mergeFields schema options set' = .ok fields') :
    MatchedBy fields fields' := by
  intro field hfield
  cases hmark : field.isConditional with
  | false =>
      -- Without the mark there is a record without conditions, and it is among the others as well.
      obtain ⟨record, hrecord, hkey, hnone⟩ :=
        (exists_unmarked_iff hrecords hfields).mp ⟨field, hfield, rfl, hmark⟩
      obtain ⟨other, hother, hsame, hunmarked⟩ :=
        (exists_unmarked_iff hrecords' hfields').mpr ⟨record, hsub.subset hrecord, hkey, hnone⟩
      exact ⟨other, hother, hsame, fun _ => hunmarked⟩
  | true =>
      have hkey := (exists_key_iff hrecords hfields).mp ⟨field, hfield, rfl⟩
      obtain ⟨other, hother, hsame⟩ :=
        (exists_key_iff hrecords' hfields').mpr ((hsub.map FieldRecord.key).subset hkey)
      exact ⟨other, hother, hsame, fun hunmarked => absurd hunmarked (by simp)⟩

/-! ## Partitions -/

section Compiled

variable {schema : Schema} {texts : List SourceText} {document : CompiledDocument}
  {set : SelectionSet}

/-- The default variant is a lower bound of every exhaustive variant: of the fragments that are
recorded, of the response keys that are merged, and of those among them that have no mark of
absence. -/
theorem Schema.default_below_variants (h : schema.compile texts = .ok document)
    (hset : document.Has set) :
    ∃ typeCase, document.fragments.partition .standard set = .ok typeCase ∧
      ∀ variant ∈ typeCase.exhaustive,
        (∀ id ∈ typeCase.default.fragments, id ∈ variant.fragments) ∧
        ∀ defaults fields,
          document.fragments.mergeFields schema .standard typeCase.default.toSelectionSet =
            .ok defaults →
          document.fragments.mergeFields schema .standard variant.toSelectionSet = .ok fields →
          MatchedBy defaults fields := by
  obtain ⟨definitions, hfrom⟩ := Schema.compile_spec h
  obtain ⟨typeCase, hpartition, hpresents⟩ := hfrom.partition_presents hset .standard
  refine ⟨typeCase, hpartition, fun variant hmem => ?_⟩
  have hbelow := hpresents.wellFormed.below_of_mem_exhaustive hpresents.grounded hmem
  refine ⟨hbelow.fragments, fun defaults fields hdefaults hfields => ?_⟩
  -- The default variant spans the object types of the variant, so it has some.
  have hinhabited : ∃ type, type ∈ typeCase.default.possible := by
    obtain ⟨type, htype⟩ := hpresents.wellFormed.inhabited_exhaustive hmem
    exact ⟨type, hpresents.wellFormed.covered_iff.mp ⟨variant, hmem, htype⟩⟩
  exact FragmentTable.matchedBy_mergeFields hbelow.records
    (Variant.fieldRecords_eq hpresents.settled.default hinhabited document.fragments)
    (hpresents.fieldRecords_eq hmem document.fragments) hdefaults hfields

/-- `query Q { node { ... on Post { post: id } ...F @include(if: $more) id } }` with the field `id`
under the key `behind` in `F`. -/
def Sample.postBefore : List SourceText :=
  query [node [] [inline [] (some "Post") [id (some "post")], spread ["more"] "F", id none]]
    [("F", [id (some "behind")])]

theorem Schema.default_below_variants_sample : ∃ document set,
    Sample.schema.compile Sample.postBefore = .ok document ∧ document.Has set ∧
      ∃ typeCase, document.fragments.partition .standard set = .ok typeCase ∧
        ∃ variant ∈ typeCase.exhaustive, ¬ 2 ∈ variant.possible ∧ ∃ defaults fields,
          document.fragments.mergeFields Sample.schema .standard typeCase.default.toSelectionSet =
            .ok defaults ∧
          document.fragments.mergeFields Sample.schema .standard variant.toSelectionSet =
            .ok fields ∧
          0 ∈ typeCase.default.fragments ∧ 0 ∈ variant.fragments ∧
          ∃ field ∈ defaults, field.isConditional = false ∧
            ∃ other ∈ fields, other.responseKey = field.responseKey ∧
              other.isConditional = false := by
  have hcheck : ∃ document ∈ (Sample.schema.compile Sample.postBefore).toOption,
      ∃ set ∈ Sample.fieldSets document,
        ∃ typeCase ∈ (document.fragments.partition .standard set).toOption,
        ∃ variant ∈ typeCase.exhaustive, ¬ 2 ∈ variant.possible ∧
          ∃ defaults ∈ (document.fragments.mergeFields Sample.schema .standard
            typeCase.default.toSelectionSet).toOption,
          ∃ fields ∈ (document.fragments.mergeFields Sample.schema .standard
            variant.toSelectionSet).toOption,
          0 ∈ typeCase.default.fragments ∧ ∃ field ∈ defaults, field.isConditional = false := by
    decide +kernel
  simp only [Sample.mem_toOption] at hcheck
  obtain ⟨document, hcompile, set, hset, typeCase, hpartition, variant, hmem, hout, defaults,
    hdefaults, fields, hfields, hrecorded, field, hfield, hmark⟩ := hcheck
  have hhas := Sample.has_of_mem_fieldSets hset
  obtain ⟨typeCase', hpartition', hall⟩ := Schema.default_below_variants hcompile hhas
  obtain rfl : typeCase' = typeCase := Except.ok.inj (hpartition'.symm.trans hpartition)
  obtain ⟨hfragments, hmatched⟩ := hall variant hmem
  obtain ⟨other, hother, hkey, hunmarked⟩ := hmatched defaults fields hdefaults hfields field hfield
  exact ⟨document, set, hcompile, hhas, typeCase', hpartition, variant, hmem, hout, defaults,
    fields, hdefaults, hfields, hrecorded, hfragments 0 hrecorded, field, hfield, hmark, other,
    hother, hkey, hunmarked hmark⟩

end Compiled

end QueryShape
