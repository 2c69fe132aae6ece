import QueryShape.Proofs.Partition
import QueryShape.Proofs.TypeCase.RecordedFragments

/-!
# Exact partitions

A variant is used in two ways that leave no room for repetitions. Its fragments say what its object
types conform to, and its selections are handed on as they are. The fragments are exactly those met
for an object type, whatever is spread how often. The selections are exactly those of the set only
where the set spreads nothing, since a repeated spread is passed over.

## What this module delivers

- `Schema.partition_conforms`: the fragments of a variant, in the order in which they are first met.
- `Schema.partition_repeatsNothing`: the selections of a variant, for a selection set without
  spreads.
-/

set_option autoImplicit false

namespace QueryShape

section Exact

variable {schema : Schema} {texts : List SourceText} {document : CompiledDocument}
  {set : SelectionSet}

/-! ## The fragments of a variant -/

/-- The fragments of a variant are those that are spread for its object types. For each of the types
there is one walk through the selection set, and through the bodies of spread fragments if these are
looked through. The variant has the fragments whose spreads are met, each once, in the order in
which they are first met. -/
theorem Schema.partition_conforms (h : schema.compile texts = .ok document)
    (hset : document.Has set) (options : TypeCaseOptions) :
    ∃ typeCase, document.fragments.partition options set = .ok typeCase ∧
      ∀ variant ∈ typeCase.exhaustive, ∀ type ∈ variant.possible,
        ∃ met, document.fragments.Meets options (type ∈ ·) set.selections met ∧
          (∀ met', document.fragments.Meets options (type ∈ ·) set.selections met' → met' = met) ∧
          variant.fragments = (spreadsMet met).eraseDups := by
  obtain ⟨definitions, hfrom⟩ := Schema.compile_spec h
  obtain ⟨typeCase, hpartition, -⟩ := hfrom.partition_presents hset options
  have hrecords := FragmentTable.partition_records hpartition
  refine ⟨typeCase, hpartition, fun variant hmem type hin => ?_⟩
  have htype : type ∈ set.possible := by
    rw [← hrecords.spans]
    exact hrecords.wellFormed.covered_iff.mp ⟨variant, hmem, hin⟩
  obtain ⟨met, hmet, hrecorded⟩ := hrecords.fragments type htype
  refine ⟨met, hmet, fun met' hmet' => hmet.unique hmet', ?_⟩
  have hholding := hrecords.wellFormed.holding_of_mem_exhaustive hmem hin
  exact (congrArg Holding.fragments hholding).trans hrecorded

/-- `query Q { node { ... on Post { ...G } ...F } }` with `...G id` in `F` and `g: id` in `G`. -/
def Sample.spreadInOrder : List SourceText :=
  query [node [] [inline [] (some "Post") [spread [] "G"], spread [] "F"]]
    [("F", [spread [] "G", id none]), ("G", [id (some "g")])]

/-- The order is that of the object type: `G` is met first for a post, `F` for a user. -/
theorem Schema.partition_conforms_sample : ∃ document set typeCase,
    Sample.schema.compile Sample.spreadInOrder = .ok document ∧ document.Has set ∧
      document.fragments.fragments.map Fragment.name = ["G", "F"] ∧
      document.fragments.partition .standard set = .ok typeCase ∧
      (∃ met, document.fragments.Meets .standard (1 ∈ ·) set.selections met ∧
        (spreadsMet met).eraseDups = [0, 1]) ∧
      ∃ met, document.fragments.Meets .standard (2 ∈ ·) set.selections met ∧
        (spreadsMet met).eraseDups = [1, 0] := by
  have hcheck : ∃ document ∈ (Sample.schema.compile Sample.spreadInOrder).toOption,
      document.fragments.fragments.map Fragment.name = ["G", "F"] ∧
      ∃ set ∈ Sample.fieldSets document,
        ∃ typeCase ∈ (document.fragments.partition .standard set).toOption,
          (∃ variant ∈ typeCase.exhaustive, 1 ∈ variant.possible ∧ variant.fragments = [0, 1]) ∧
          ∃ variant ∈ typeCase.exhaustive, 2 ∈ variant.possible ∧ variant.fragments = [1, 0] := by
    decide +kernel
  simp only [Sample.mem_toOption] at hcheck
  obtain ⟨document, hcompile, hnames, set, hset, typeCase, hpartition, ⟨post, hpost, hpost', horder⟩,
    ⟨user, huser, huser', horder'⟩⟩ := hcheck
  have hhas := Sample.has_of_mem_fieldSets hset
  obtain ⟨typeCase', hpartition', hall⟩ := Schema.partition_conforms hcompile hhas .standard
  obtain rfl := Except.ok.inj (hpartition.symm.trans hpartition')
  obtain ⟨met, hmet, -, hfragments⟩ := hall post hpost 1 hpost'
  obtain ⟨met', hmet', -, hfragments'⟩ := hall user huser 2 huser'
  exact ⟨document, set, typeCase, hcompile, hhas, hnames, hpartition,
    ⟨met, hmet, hfragments.symm.trans horder⟩, met', hmet', hfragments'.symm.trans horder'⟩

/-! ## The selections of a variant -/

/-- Without spreads nothing is left out, repeated or moved. The one variant of an object type selects
the fields that the selection set selects for the type, in order, each exactly as often as the
document does and under the same conditions, and its inline fragments carry nothing but
conditions. -/
theorem Schema.partition_repeatsNothing (h : schema.compile texts = .ok document)
    (hset : document.Has set) (options : TypeCaseOptions)
    (hfree : Selection.isSpreadFreeIn set.selections = true) :
    ∃ typeCase, document.fragments.partition options set = .ok typeCase ∧
      ∀ type ∈ set.possible, ∃ variant ∈ typeCase.exhaustive, type ∈ variant.possible ∧
        (∀ other ∈ typeCase.exhaustive, type ∈ other.possible → other = variant) ∧
        variant.Settled options ∧
        variant.content = document.fragments.occurrences options type set ∧
        ∀ occurrence ∈ variant.content, ∃ head nested, occurrence.item = .field head nested := by
  obtain ⟨definitions, hfrom⟩ := Schema.compile_spec h
  obtain ⟨typeCase, hpartition, hpresents⟩ := hfrom.partition_presents hset options
  obtain ⟨typeCase', hpartition', hlists⟩ := document.fragments.partition_lists options hfree
  obtain rfl := Except.ok.inj (hpartition.symm.trans hpartition')
  refine ⟨typeCase, hpartition, fun type htype => ?_⟩
  obtain ⟨variant, ⟨hmem, hin⟩, hunique⟩ :=
    hpresents.wellFormed.existsUnique_variant (hpresents.spans.symm ▸ htype)
  have hcontent : variant.content = document.fragments.occurrences options type set :=
    (congrArg Holding.content (hpresents.wellFormed.holding_of_mem_exhaustive hmem hin)).trans
      (hlists.content type htype)
  refine ⟨variant, hmem, hin, fun other hother hin' => hunique other ⟨hother, hin'⟩,
    hpresents.settled.exhaustive (Variant.narrows_settled options) hmem, hcontent, ?_⟩
  rw [hcontent]
  exact Selection.item_of_mem_occurrencesIn set.selections hfree

/-- `query Q { node { id ... on Post @include(if: $more) { post: id ... on Node { id } } id } }`. -/
def Sample.withoutSpreads : List SourceText :=
  query [node [] [id none, inline ["more"] (some "Post")
    [id (some "post"), inline [] (some "Node") [id none]], id none]] []

/-- For a post, `id` is listed as often as it is selected. -/
theorem Schema.partition_repeatsNothing_sample : ∃ document set typeCase,
    Sample.schema.compile Sample.withoutSpreads = .ok document ∧ document.Has set ∧
      Selection.isSpreadFreeIn set.selections = true ∧
      document.fragments.partition .standard set = .ok typeCase ∧
      ∃ variant ∈ typeCase.exhaustive, 1 ∈ variant.possible ∧
        variant.content = document.fragments.occurrences .standard 1 set ∧
        variant.content.length = 4 := by
  have hcheck : ∃ document ∈ (Sample.schema.compile Sample.withoutSpreads).toOption,
      ∃ set ∈ Sample.fieldSets document, Selection.isSpreadFreeIn set.selections = true ∧
        1 ∈ set.possible ∧ (document.fragments.occurrences .standard 1 set).length = 4 := by
    decide +kernel
  simp only [Sample.mem_toOption] at hcheck
  obtain ⟨document, hcompile, set, hset, hfree, htype, hlength⟩ := hcheck
  have hhas := Sample.has_of_mem_fieldSets hset
  obtain ⟨typeCase, hpartition, hall⟩ :=
    Schema.partition_repeatsNothing hcompile hhas .standard hfree
  obtain ⟨variant, hmem, hin, -, -, hcontent, -⟩ := hall 1 htype
  exact ⟨document, set, typeCase, hcompile, hhas, hfree, hpartition, variant, hmem, hin, hcontent,
    hcontent ▸ hlength⟩

end Exact

end QueryShape
