import QueryShape.Proofs.Partition
import QueryShape.Proofs.TypeCase.Records

/-!
# Conditions around the fields of a variant

Merging looks through an inline fragment only if it applies to all object types at hand, and passes
over it without a word if it does not. In a selection set of a document that is how it should be:
what applies to some of the object types is for the variants. In a variant it would lose fields.

The inline fragments in a variant are put there by the partition, to carry conditions. Each gets the
object types that the variant has at that moment. Later the variant may be split, or its selections
may move to a variant of an outer type case; in both ways the object types only become fewer. So
every inline fragment applies to all that are left, and merging sees every field.

## What this module delivers

- `Selection.OnLevelOf`: what stands on the level of selections, inside inline fragments included.
- `InlineSelection.Wraps`: an inline fragment that only puts conditions around its selections.
- `Settled.wraps`, `SettledIn.of_onLevel`: the inline fragments of a variant are of this kind.
- `SettledIn.exists_field`, `map_occurrence_recordsIn`: the records are all that a variant holds.
- `Schema.variants_looked_through`: merging passes over nothing, for every variant of a partition.
-/

set_option autoImplicit false

namespace QueryShape

/-! ## Levels -/

/-- A selection on the level of some selections: one of them, or on the level of an inline fragment
among them. What is nested below a field is on another level. -/
inductive Selection.OnLevelOf (selection : Selection) : List Selection → Prop
  | here {selections : List Selection} :
      selection ∈ selections → selection.OnLevelOf selections
  | inside {selections : List Selection} {head : InlineSelection} {set : SelectionSet} :
      .inline head set ∈ selections → selection.OnLevelOf set.selections →
      selection.OnLevelOf selections

/-! ## Wrappers -/

/-- An inline fragment that puts conditions around its selections and does nothing else to some
object types. -/
structure InlineSelection.Wraps (head : InlineSelection) (set : SelectionSet)
    (types : PossibleTypes) : Prop where
  typeCondition : head.typeCondition = none
  directives : head.directives ≠ []
  /-- Every directive states a condition that may exclude something. -/
  conditions : ∀ directive ∈ head.directives, ∃ condition,
    Condition.ofDirective? directive = some condition ∧ condition.isAlwaysSatisfied = false
  /-- This is what merging asks before it looks through the inline fragment. -/
  spans : types.subset set.possible = true

/-- Directives that are read as conditions and written again, all of them, state conditions that may
exclude something. -/
theorem exists_condition_of_mem {directives : List AppliedDirective}
    (h : (conditionsOf directives).map Condition.directive = directives)
    {directive : AppliedDirective} (hmem : directive ∈ directives) : ∃ condition,
      Condition.ofDirective? directive = some condition ∧ condition.isAlwaysSatisfied = false := by
  rw [← h] at hmem
  obtain ⟨condition, hcondition, rfl⟩ := List.mem_map.mp hmem
  obtain ⟨hread, hnontrivial⟩ := List.mem_filter.mp hcondition
  obtain ⟨stated, -, hstated⟩ := List.mem_filterMap.mp hread
  -- The condition remembers the directive that it was read from.
  obtain rfl := Condition.directive_of_ofDirective? hstated
  exact ⟨condition, hstated, by simpa using hnontrivial⟩

namespace Selection

variable {options : TypeCaseOptions} {types : PossibleTypes} {selection : Selection}
  {selections : List Selection}

theorem SettledIn.of_mem (h : SettledIn options types selections)
    (hmem : selection ∈ selections) : selection.Settled options types := by
  induction selections with
  | nil => exact absurd hmem List.not_mem_nil
  | cons first rest ih =>
      rcases List.mem_cons.mp hmem with rfl | hrest
      · exact h.1
      · exact ih h.2 hrest

/-- What stands on the level of settled selections is settled, for the same object types. -/
theorem SettledIn.of_onLevel (h : SettledIn options types selections)
    (hlevel : selection.OnLevelOf selections) : selection.Settled options types := by
  induction hlevel with
  | here hmem => exact h.of_mem hmem
  | @inside selections head set hmem _ ih =>
      -- What an inline fragment holds is settled for the object types around it, not for its own.
      obtain ⟨parent, narrowed, inner⟩ := set
      obtain ⟨-, -, -, -, hinner⟩ := h.of_mem hmem
      exact ih hinner

/-- A settled inline fragment is a wrapper. -/
theorem Settled.wraps {head : InlineSelection} {set : SelectionSet}
    (h : (Selection.inline head set).Settled options types) : head.Wraps set types := by
  obtain ⟨parent, narrowed, inner⟩ := set
  obtain ⟨hcondition, hdirectives, hsame, hspans, -⟩ := h
  exact ⟨hcondition, hdirectives, fun directive => exists_condition_of_mem hsame,
    PossibleTypes.subset_iff_mem.mpr hspans⟩

mutual

/-- While fragments are looked through, a settled selection holds nothing but fields. -/
theorem Settled.exists_field (hopened : options.mergeSpreads = true) (selection : Selection)
    (h : selection.Settled options types) :
    ∀ occurrence ∈ selection.content, ∃ head nested, occurrence.item = .field head nested := by
  cases selection with
  | field head nested =>
      rw [content, List.forall_mem_singleton]
      exact ⟨head, nested, rfl⟩
  | spread head =>
      have hkept : options.mergeSpreads = false := h
      exact absurd (hkept.symm.trans hopened) Bool.false_ne_true
  | inline head set =>
      obtain ⟨parent, narrowed, selections⟩ := set
      obtain ⟨-, -, -, -, hselections⟩ := h
      rw [content, List.forall_mem_map]
      exact SettledIn.exists_field hopened selections hselections

/-- While fragments are looked through, settled selections hold nothing but fields. -/
theorem SettledIn.exists_field (hopened : options.mergeSpreads = true)
    (selections : List Selection) (h : SettledIn options types selections) :
    ∀ occurrence ∈ contentIn selections, ∃ head nested,
      occurrence.item = .field head nested := by
  cases selections with
  | nil => exact fun _ hmem => absurd hmem List.not_mem_nil
  | cons selection rest =>
      rw [contentIn, List.forall_mem_append]
      exact ⟨Settled.exists_field hopened selection h.1, SettledIn.exists_field hopened rest h.2⟩

end

end Selection

/-! ## Records -/

/-- The occurrence that a record is of. -/
def FieldRecord.occurrence (record : FieldRecord) : Occurrence :=
  ⟨record.conditions, .field record.field record.nested⟩

/-- Where nothing but fields is held, the records are all of it. -/
theorem map_occurrence_recordsIn {content : List Occurrence}
    (h : ∀ occurrence ∈ content, ∃ head nested, occurrence.item = .field head nested) :
    (recordsIn content).map FieldRecord.occurrence = content := by
  induction content with
  | nil => rfl
  | cons occurrence rest ih =>
      rw [List.forall_mem_cons] at h
      obtain ⟨⟨head, nested, hitem⟩, hrest⟩ := h
      obtain ⟨conditions, item⟩ := occurrence
      obtain rfl : item = .field head nested := hitem
      exact congrArg (⟨conditions, .field head nested⟩ :: ·) (ih hrest)

/-! ## Variants -/

section Compiled

variable {schema : Schema} {texts : List SourceText} {document : CompiledDocument}
  {set : SelectionSet}

/-- Merging passes over nothing in the default variant, the named variants and the remainder. On
their level nothing is spread, every inline fragment is a wrapper for all object types of the
variant, and the records are all that the variant holds: each field, in order, as often as it is
there and under all conditions around it. -/
theorem Schema.variants_looked_through (h : schema.compile texts = .ok document)
    (hset : document.Has set) (hinhabited : ∃ type, type ∈ set.possible) :
    ∃ typeCase, document.fragments.partition .standard set = .ok typeCase ∧
      ∀ variant ∈ typeCase.default :: typeCase.exhaustive,
        (∀ head, ¬ (Selection.spread head).OnLevelOf variant.selections) ∧
        (∀ head nested, (Selection.inline head nested).OnLevelOf variant.selections →
          head.Wraps nested variant.possible) ∧
        ∃ records, document.fragments.fieldRecords .standard variant.toSelectionSet =
            .ok records ∧
          records.map FieldRecord.occurrence = variant.content := by
  obtain ⟨definitions, hfrom⟩ := Schema.compile_spec h
  obtain ⟨typeCase, hpartition, hpresents⟩ := hfrom.partition_presents hset .standard
  refine ⟨typeCase, hpartition, fun variant hmem => ?_⟩
  -- For no object type at all nothing is collected. Only the default variant needs the hypothesis
  -- for this: exhaustive variants are never empty.
  obtain ⟨hsettled, hsome⟩ : variant.Settled .standard ∧ ∃ type, type ∈ variant.possible := by
    rcases List.mem_cons.mp hmem with rfl | hmem
    · exact ⟨hpresents.settled.default, hpresents.spans.symm ▸ hinhabited⟩
    · exact ⟨hpresents.settled.exhaustive (Variant.narrows_settled .standard) hmem,
        hpresents.wellFormed.inhabited_exhaustive hmem⟩
  refine ⟨fun head hlevel => ?_, fun head nested hlevel => ?_, recordsIn variant.content, ?_, ?_⟩
  · have hkept : TypeCaseOptions.standard.mergeSpreads = false := hsettled.of_onLevel hlevel
    exact absurd hkept (by decide)
  · exact (hsettled.of_onLevel hlevel).wraps
  · exact Variant.fieldRecords_eq hsettled hsome document.fragments
  · exact map_occurrence_recordsIn (Selection.SettledIn.exists_field rfl variant.selections hsettled)

/-- `query Q { node { ...F @include(if: $more) ... on Post { post: id } } }` with
`... on Node @include(if: $deep) { deep: id }` in `F`. -/
def Sample.conditionsNested : List SourceText :=
  query [node [] [spread ["more"] "F", inline [] (some "Post") [id (some "post")]]]
    [("F", [inline ["deep"] (some "Node") [id (some "deep")]])]

/-- Whether some selection is an inline fragment that has another one, for an object type, in it. -/
def Sample.nestsInline (type : ObjectId) (selections : List Selection) : Bool :=
  selections.any fun
    | .inline _ set => set.selections.any fun
        | .inline _ inner => inner.possible.contains type
        | _ => false
    | _ => false

theorem Sample.exists_onLevel_of_nestsInline {type : ObjectId} {selections : List Selection}
    (h : nestsInline type selections = true) : ∃ head set,
      (Selection.inline head set).OnLevelOf selections ∧ type ∈ set.possible := by
  obtain ⟨outer, houter, h⟩ := List.any_eq_true.mp h
  split at h
  · obtain ⟨inner, hinner, h⟩ := List.any_eq_true.mp h
    split at h
    · next head set => exact ⟨head, set, .inside houter (.here hinner), h⟩
    · exact absurd h Bool.false_ne_true
  · exact absurd h Bool.false_ne_true

/-- The variant of a post is split off behind the spread. It keeps two inline fragments, one in the
other, that were put there for a user as well, and its records are the two fields. -/
theorem Schema.variants_looked_through_sample : ∃ document set typeCase,
    Sample.schema.compile Sample.conditionsNested = .ok document ∧ document.Has set ∧
      (∃ type, type ∈ set.possible) ∧
      document.fragments.partition .standard set = .ok typeCase ∧
      ∃ variant ∈ typeCase.exhaustive, variant.possible.ids = [1] ∧
        (∃ head nested, (Selection.inline head nested).OnLevelOf variant.selections ∧
          2 ∈ nested.possible ∧ head.Wraps nested variant.possible) ∧
        ∃ records, document.fragments.fieldRecords .standard variant.toSelectionSet =
            .ok records ∧
          records.map FieldRecord.occurrence = variant.content ∧
          records.map FieldRecord.key = ["deep", "post"] := by
  have hcheck : ∃ document ∈ (Sample.schema.compile Sample.conditionsNested).toOption,
      ∃ set ∈ Sample.fieldSets document, set.possible.contains 1 = true ∧
        ∃ typeCase ∈ (document.fragments.partition .standard set).toOption,
          ∃ variant ∈ typeCase.exhaustive, variant.possible.ids = [1] ∧
            Sample.nestsInline 2 variant.selections = true ∧
            ∃ records ∈ (document.fragments.fieldRecords .standard
              variant.toSelectionSet).toOption,
              records.map FieldRecord.key = ["deep", "post"] := by
    decide +kernel
  simp only [Sample.mem_toOption] at hcheck
  obtain ⟨document, hcompile, set, hset, htype, typeCase, hpartition, variant, hmem, hids, hnests,
    records, hrecords, hkeys⟩ := hcheck
  have hhas := Sample.has_of_mem_fieldSets hset
  obtain ⟨typeCase', hpartition', hall⟩ :=
    Schema.variants_looked_through hcompile hhas ⟨1, htype⟩
  obtain rfl := Except.ok.inj (hpartition.symm.trans hpartition')
  obtain ⟨-, hwraps, records', hrecords', hcontent⟩ := hall variant (List.mem_cons_of_mem _ hmem)
  obtain rfl := Except.ok.inj (hrecords.symm.trans hrecords')
  obtain ⟨head, nested, hlevel, hin⟩ := Sample.exists_onLevel_of_nestsInline hnests
  exact ⟨document, set, typeCase, hcompile, hhas, ⟨1, htype⟩, hpartition, variant, hmem, hids,
    ⟨head, nested, hlevel, hin, hwraps head nested hlevel⟩, records, hrecords, hcontent, hkeys⟩

end Compiled

end QueryShape
