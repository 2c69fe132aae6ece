import QueryShape.Proofs.MergedPartition
import QueryShape.Proofs.TypeCase.FreshContent
import QueryShape.Proofs.TypeCase.ScopeRecords

/-!
# Repeated spreads in a partition

A spread that partitioning passes over may be the only one without conditions, or the only one
for all object types. What is lost that way is what no fresh way leads to.

## What this module delivers

- `Schema.variant_assures`: the keys without the mark of absence in the variant of an object type
  are those that a fresh way without conditions leads to.
- `Schema.default_variant_keys`: the keys of the default variant are those that a fresh way for
  all object types leads to; merging the selection set itself asks for any such way.
- `Schema.variant_assures_guarded`, `Schema.default_variant_keys_narrowed`: a spread behind an
  inline fragment that spreads the same under a condition, or for each object type alone.
-/

set_option autoImplicit false

namespace QueryShape

section Variants

variable {schema : Schema} {texts : List SourceText} {document : CompiledDocument}
  {set : SelectionSet}

/-! ## Variants of an object type -/

/-- In the variant of an object type, a response key has no mark of absence exactly if a fresh
way without conditions leads to it for the type. Without conditions on a way that is not fresh,
the key may have the mark. -/
theorem Schema.variant_assures (h : schema.compile texts = .ok document)
    (hset : document.Has set) :
    ∃ typeCase, document.fragments.partition .standard set = .ok typeCase ∧
      ∀ type ∈ set.possible, (∃ variant ∈ typeCase.exhaustive, type ∈ variant.possible) ∧
        ∀ variant ∈ typeCase.exhaustive, type ∈ variant.possible → ∀ fields,
          document.fragments.mergeFields schema .standard variant.toSelectionSet = .ok fields →
          ∀ key, (∃ field ∈ fields, field.responseKey = key ∧ field.isConditional = false) ↔
            document.fragments.AssuresFresh type set key := by
  obtain ⟨definitions, hfrom⟩ := Schema.compile_spec h
  obtain ⟨typeCase, hpartition, hpresents⟩ := hfrom.partition_presents hset .standard
  have hfresh := FragmentTable.partition_holdsFresh hpartition
  refine ⟨typeCase, hpartition, fun type htype => ⟨?_, ?_⟩⟩
  · exact hpresents.wellFormed.covered_iff.mpr (hpresents.spans.symm ▸ htype)
  intro variant hmem hin fields hfields key
  -- A variant has for its object types what the type case holds for each of them.
  have hcontent : variant.content = (typeCase.holdingFor type).content :=
    congrArg Holding.content (hfresh.wellFormed.holding_of_mem_exhaustive hmem hin)
  rw [FragmentTable.exists_unmarked_iff (hpresents.fieldRecords_eq hmem document.fragments)
    hfields, exists_record_iff (· = []), hcontent]
  simp only [hfresh.content type htype, FragmentTable.AssuresFresh]

theorem Schema.variant_assures_sample : ∃ document set,
    Sample.schema.compile Sample.texts = .ok document ∧ document.Has set ∧ 1 ∈ set.possible ∧
      ∃ typeCase, document.fragments.partition .standard set = .ok typeCase ∧
        ∃ variant ∈ typeCase.exhaustive, 1 ∈ variant.possible ∧ ∃ fields,
          document.fragments.mergeFields Sample.schema .standard variant.toSelectionSet =
            .ok fields ∧
          ∃ field ∈ fields, field.isConditional = false ∧
            document.fragments.AssuresFresh 1 set field.responseKey := by
  have hcheck : ∃ document ∈ (Sample.schema.compile Sample.texts).toOption,
      ∃ set ∈ Sample.fieldSets document, 1 ∈ set.possible ∧
        ∃ typeCase ∈ (document.fragments.partition .standard set).toOption,
        ∃ variant ∈ typeCase.exhaustive, 1 ∈ variant.possible ∧
          ∃ fields ∈ (document.fragments.mergeFields Sample.schema .standard
            variant.toSelectionSet).toOption,
          ∃ field ∈ fields, field.isConditional = false := by
    decide +kernel
  simp only [Sample.mem_toOption] at hcheck
  obtain ⟨document, hcompile, set, hset, htype, typeCase, hpartition, variant, hmem, hin, fields,
    hfields, field, hfield, hmark⟩ := hcheck
  obtain ⟨typeCase', hpartition', hall⟩ :=
    Schema.variant_assures hcompile (Sample.has_of_mem_fieldSets hset)
  obtain rfl : typeCase' = typeCase := Except.ok.inj (hpartition'.symm.trans hpartition)
  exact ⟨document, set, hcompile, Sample.has_of_mem_fieldSets hset, htype, typeCase', hpartition,
    variant, hmem, hin, fields, hfields, field, hfield, hmark,
    ((hall 1 htype).2 variant hmem hin fields hfields _).mp ⟨field, hfield, rfl, hmark⟩⟩

/-- `query Q { node { ... @include(if: $more) { ...F } ...F } }` with the field `id` in `F`. -/
def Sample.guardedTwice : List SourceText :=
  query [node [] [inline ["more"] none [spread [] "F"], spread [] "F"]] [("F", [id none])]

/-- A way that is not fresh is lost: the second spread leads to `id` without conditions, but it is
passed over for the first one, which has a condition. -/
theorem Schema.variant_assures_guarded : ∃ document set,
    Sample.schema.compile Sample.guardedTwice = .ok document ∧ document.Has set ∧
      1 ∈ set.possible ∧ document.fragments.Assures 1 set.selections "id" ∧
      ∃ typeCase, document.fragments.partition .standard set = .ok typeCase ∧
        ∃ variant ∈ typeCase.exhaustive, 1 ∈ variant.possible ∧ ∃ fields,
          document.fragments.mergeFields Sample.schema .standard variant.toSelectionSet =
            .ok fields ∧
          ¬ ∃ field ∈ fields, field.responseKey = "id" ∧ field.isConditional = false := by
  have hcheck : ∃ document ∈ (Sample.schema.compile Sample.guardedTwice).toOption,
      ∃ set ∈ Sample.fieldSets document, 1 ∈ set.possible ∧
        (∃ occurrence ∈ document.fragments.occurrences .standard 1 set,
          occurrence.HasKey "id" ∧ occurrence.conditions = []) ∧
        ∃ typeCase ∈ (document.fragments.partition .standard set).toOption,
        ∃ variant ∈ typeCase.exhaustive, 1 ∈ variant.possible ∧
          ∃ fields ∈ (document.fragments.mergeFields Sample.schema .standard
            variant.toSelectionSet).toOption,
          ¬ ∃ field ∈ fields, field.responseKey = "id" ∧ field.isConditional = false := by
    decide +kernel
  simp only [Sample.mem_toOption] at hcheck
  obtain ⟨document, hcompile, set, hset, htype, hway, typeCase, hpartition, variant, hmem, hin,
    fields, hfields, hnone⟩ := hcheck
  have hhas := Sample.has_of_mem_fieldSets hset
  obtain ⟨definitions, hfrom⟩ := Schema.compile_spec hcompile
  have hassures := (FragmentTable.assures_iff hfrom.ordered (hfrom.resolves hhas)).mpr hway
  exact ⟨document, set, hcompile, hhas, htype, hassures, typeCase, hpartition, variant, hmem, hin,
    fields, hfields, hnone⟩

/-! ## The default variant -/

/-- The default variant lists a response key exactly if a fresh way leads to it on which
everything applies to all object types. Merging the selection set itself asks for such a way,
fresh or not. The two list the same keys exactly if each such way has a fresh one to its key. -/
theorem Schema.default_variant_keys (h : schema.compile texts = .ok document)
    (hset : document.Has set) (hinhabited : ∃ type, type ∈ set.possible) :
    ∃ typeCase, document.fragments.partition .standard set = .ok typeCase ∧
      ∀ defaults fields,
        document.fragments.mergeFields schema .standard typeCase.default.toSelectionSet =
          .ok defaults →
        document.fragments.mergeFields schema .standard set = .ok fields → ∀ key,
          ((∃ field ∈ defaults, field.responseKey = key) ↔ ∃ occurrence,
            document.fragments.ReachesFresh set.possible.Within set.possible set.selections
              occurrence ∧ occurrence.HasKey key) ∧
          ((∃ field ∈ fields, field.responseKey = key) ↔ ∃ occurrence,
            document.fragments.Reaches set.possible.Within set.selections occurrence ∧
              occurrence.HasKey key) := by
  obtain ⟨definitions, hfrom⟩ := Schema.compile_spec h
  obtain ⟨typeCase, hpartition, hpresents⟩ := hfrom.partition_presents hset .standard
  have hfresh := FragmentTable.partition_holdsFresh hpartition
  refine ⟨typeCase, hpartition, fun defaults fields hdefaults hfields key => ⟨?_, ?_⟩⟩
  · -- Everything in the default variant applies to all of its object types.
    have hspanned : ∃ type, type ∈ typeCase.default.possible := by
      rw [hpresents.spans]
      exact hinhabited
    have hrecords := Variant.fieldRecords_eq hpresents.settled.default hspanned document.fragments
    rw [FragmentTable.exists_key_iff hrecords hdefaults, key_mem_recordsIn_iff]
    simp only [hfresh.default]
  · obtain ⟨records, hrecords⟩ := FragmentTable.exists_fieldRecords hfields
    rw [FragmentTable.exists_key_iff hrecords hfields,
      FragmentTable.key_mem_iff hinhabited hrecords]

theorem Schema.default_variant_keys_sample : ∃ document set,
    Sample.schema.compile Sample.texts = .ok document ∧ document.Has set ∧
      (∃ type, type ∈ set.possible) ∧
      ∃ typeCase, document.fragments.partition .standard set = .ok typeCase ∧ ∃ defaults fields,
        document.fragments.mergeFields Sample.schema .standard typeCase.default.toSelectionSet =
          .ok defaults ∧
        document.fragments.mergeFields Sample.schema .standard set = .ok fields ∧
        (∃ occurrence, document.fragments.ReachesFresh set.possible.Within set.possible
          set.selections occurrence ∧ occurrence.HasKey "id") ∧
        ∃ occurrence, document.fragments.Reaches set.possible.Within set.selections occurrence ∧
          occurrence.HasKey "id" := by
  have hcheck : ∃ document ∈ (Sample.schema.compile Sample.texts).toOption,
      ∃ set ∈ Sample.fieldSets document, 1 ∈ set.possible ∧
        ∃ typeCase ∈ (document.fragments.partition .standard set).toOption,
        ∃ defaults ∈ (document.fragments.mergeFields Sample.schema .standard
          typeCase.default.toSelectionSet).toOption,
        ∃ fields ∈ (document.fragments.mergeFields Sample.schema .standard set).toOption,
          (∃ field ∈ defaults, field.responseKey = "id") ∧
            ∃ field ∈ fields, field.responseKey = "id" := by
    decide +kernel
  simp only [Sample.mem_toOption] at hcheck
  obtain ⟨document, hcompile, set, hset, htype, typeCase, hpartition, defaults, hdefaults, fields,
    hfields, hdefault, hfield⟩ := hcheck
  have hhas := Sample.has_of_mem_fieldSets hset
  obtain ⟨typeCase', hpartition', hall⟩ := Schema.default_variant_keys hcompile hhas ⟨1, htype⟩
  obtain rfl : typeCase' = typeCase := Except.ok.inj (hpartition'.symm.trans hpartition)
  obtain ⟨hfresh, hway⟩ := hall defaults fields hdefaults hfields "id"
  exact ⟨document, set, hcompile, hhas, ⟨1, htype⟩, typeCase', hpartition, defaults, fields,
    hdefaults, hfields, hfresh.mp hdefault, hway.mp hfield⟩

/-- `query Q { node { ... on Post { ...F } ... on User { ...F } ...F } }` with the field `id` in
`F`. -/
def Sample.narrowedBefore : List SourceText :=
  query [node [] [inline [] (some "Post") [spread [] "F"], inline [] (some "User") [spread [] "F"],
    spread [] "F"]] [("F", [id none])]

/-- A way that is not fresh is lost: the last spread applies to all object types, but each of them
conforms to the fragment before, so that the default variant never gets the field. -/
theorem Schema.default_variant_keys_narrowed : ∃ document set,
    Sample.schema.compile Sample.narrowedBefore = .ok document ∧ document.Has set ∧
      (∃ type, type ∈ set.possible) ∧
      ∃ typeCase, document.fragments.partition .standard set = .ok typeCase ∧ ∃ defaults fields,
        document.fragments.mergeFields Sample.schema .standard typeCase.default.toSelectionSet =
          .ok defaults ∧
        document.fragments.mergeFields Sample.schema .standard set = .ok fields ∧
        (∃ field ∈ fields, field.responseKey = "id") ∧
          ¬ ∃ field ∈ defaults, field.responseKey = "id" := by
  have hcheck : ∃ document ∈ (Sample.schema.compile Sample.narrowedBefore).toOption,
      ∃ set ∈ Sample.fieldSets document, 1 ∈ set.possible ∧
        ∃ typeCase ∈ (document.fragments.partition .standard set).toOption,
        ∃ defaults ∈ (document.fragments.mergeFields Sample.schema .standard
          typeCase.default.toSelectionSet).toOption,
        ∃ fields ∈ (document.fragments.mergeFields Sample.schema .standard set).toOption,
          (∃ field ∈ fields, field.responseKey = "id") ∧
            ¬ ∃ field ∈ defaults, field.responseKey = "id" := by
    decide +kernel
  simp only [Sample.mem_toOption] at hcheck
  obtain ⟨document, hcompile, set, hset, htype, typeCase, hpartition, defaults, hdefaults, fields,
    hfields, hkeys⟩ := hcheck
  exact ⟨document, set, hcompile, Sample.has_of_mem_fieldSets hset, ⟨1, htype⟩, typeCase,
    hpartition, defaults, fields, hdefaults, hfields, hkeys⟩

end Variants

end QueryShape
