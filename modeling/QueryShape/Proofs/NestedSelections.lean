import QueryShape.Proofs.MergeOutcome
import QueryShape.Proofs.NestedPresence
import QueryShape.Proofs.WellTyped

/-!
# The nested selections of a merged field

The nested selections of all occurrences of a response key are joined below the merged field. For
every object type they select what the occurrences select, one occurrence after the other. If the
field is present in any case, each occurrence hands its nested selections over in a synthetic inline
fragment whose directives are read off the conditions on the way to the occurrence; reading the
conditions of that fragment gives them back.

## What this module delivers

- `Selection.occurrencesIn_append`, `Selection.occurrencesIn_wrapInConditions`: what joined selections
  and selections under conditions select.
- `FieldRecord.yields`: what the nested selections of an occurrence select for an object type.
- `occurrencesIn_joined`: what the joined selections of a group select.
- `Schema.merged_nested`: the nested selection set of a merged field.
-/

set_option autoImplicit false

namespace QueryShape

/-! ## Joined selections -/

namespace Selection

variable {expand : FragmentId → List Occurrence} {options : TypeCaseOptions} {type : ObjectId}

theorem occurrencesIn_append (first second : List Selection) :
    occurrencesIn expand options type (first ++ second) =
      occurrencesIn expand options type first ++ occurrencesIn expand options type second := by
  induction first with
  | nil => rfl
  | cons selection rest ih =>
      rw [List.cons_append, occurrencesIn, occurrencesIn, ih, List.append_assoc]

theorem occurrencesIn_flatMap {α : Type} (entries : List α) (selections : α → List Selection) :
    occurrencesIn expand options type (entries.flatMap selections) =
      entries.flatMap fun entry => occurrencesIn expand options type (selections entry) := by
  induction entries with
  | nil => rfl
  | cons entry entries ih => rw [List.flatMap_cons, List.flatMap_cons, occurrencesIn_append, ih]

/-- Selections under conditions select the same under these conditions, if the conditions are what is
read off the directives that state them. -/
theorem occurrencesIn_wrapInConditions {conditions : List Condition} {set : SelectionSet}
    (hstated : conditionsOf (conditions.map Condition.directive) = conditions)
    (htype : type ∈ set.possible) :
    occurrencesIn expand options type (wrapInConditions conditions set) =
      (occurrencesIn expand options type set.selections).map (Occurrence.under conditions) := by
  obtain ⟨parent, possible, selections⟩ := set
  cases conditions with
  | nil => rw [wrapInConditions, Occurrence.under_nil, List.map_id]
  | cons first rest =>
      rw [wrapInConditions, occurrencesIn, occurrences, if_pos htype, hstated, occurrencesIn,
        List.append_nil]

end Selection

/-- What the nested selections of an occurrence select for an object type. -/
def FieldRecord.yields (table : FragmentTable) (type : ObjectId) (record : FieldRecord) :
    List Occurrence :=
  match record.nested with
  | none => []
  | some own => table.occurrences .standard type own

section Joined

variable {table : FragmentTable} {type : ObjectId}

/-- What an occurrence hands over selects what its nested selections do, under the conditions of the
occurrence if the field is present in any case. -/
theorem FieldRecord.occurrencesIn_handed {record : FieldRecord} (present : Bool)
    (hstated : conditionsOf (record.conditions.map Condition.directive) = record.conditions)
    (happlies : ∀ own, record.nested = some own → type ∈ own.possible) :
    Selection.occurrencesIn (table.fragmentOccurrences .standard type) .standard type
        (record.handed present) =
      (record.yields table type).map
        (Occurrence.under (if present then record.conditions else [])) := by
  rw [handed, yields]
  cases hnested : record.nested with
  | none => rfl
  | some own =>
      cases present with
      | false =>
          simp only [Bool.false_eq_true, if_false, Occurrence.under_nil, List.map_id]
          rfl
      | true =>
          simp only [if_true]
          exact Selection.occurrencesIn_wrapInConditions hstated (happlies own hnested)

/-- The joined selections of a group select what its occurrences select, one after the other. -/
theorem occurrencesIn_joined (table : FragmentTable) (type : ObjectId) {records : List FieldRecord}
    (hstated : ∀ record ∈ records,
      conditionsOf (record.conditions.map Condition.directive) = record.conditions)
    (happlies : ∀ record ∈ records, ∀ own, record.nested = some own → type ∈ own.possible) :
    Selection.occurrencesIn (table.fragmentOccurrences .standard type) .standard type
        (joined records) =
      records.flatMap fun record => (record.yields table type).map (Occurrence.under
        (if records.any FieldRecord.isUnconditional then record.conditions else [])) := by
  rw [joined, Selection.occurrencesIn_flatMap]
  apply List.flatMap_congr
  intro record hrecord
  exact record.occurrencesIn_handed _ (hstated record hrecord) (happlies record hrecord)

end Joined

/-! ## Merged fields -/

section Merged

variable {schema : Schema} {texts : List SourceText} {document : CompiledDocument}
  {set : SelectionSet}

/-- The fields that are collected from a document are well typed. -/
theorem CompiledDocument.Has.wellTyped_of_mem_records (hbuilt : schema.Built)
    (h : schema.compile texts = .ok document) (hset : document.Has set)
    {options : TypeCaseOptions} {records : List FieldRecord}
    (hrecords : document.fragments.fieldRecords options set = .ok records) {record : FieldRecord}
    (hrecord : record ∈ records) :
    ∃ parent, record.field.WellTyped schema parent record.nested := by
  obtain ⟨definitions, hfrom⟩ := Schema.compile_spec h
  obtain ⟨inner, hinner, hmem⟩ := hset.exists_of_mem_records hrecords hrecord
  obtain ⟨scope, hcompiled⟩ := hfrom.compiledIn hinner
  obtain ⟨parent, -, -, hall⟩ := (hcompiled.wellTyped hbuilt.coherent).composite
  exact ⟨parent, hall _ _ hmem⟩

/-- Merging loses no nested selection and keeps its conditions. A merged field of composite type has
a nested selection set, on this type and all its possible types. For each of these it selects the
items that the nested selection sets of the collected occurrences select, one occurrence after the
other. If some occurrence has no conditions, each item stands under the conditions on the way to its
occurrence, followed by those that it has inside. -/
theorem Schema.merged_nested (hbuilt : schema.Built) (h : schema.compile texts = .ok document)
    (hset : document.Has set) (hinhabited : ∃ type, type ∈ set.possible)
    {options : TypeCaseOptions} {fields : List MergedField}
    (hfields : document.fragments.mergeFields schema options set = .ok fields) :
    ∃ met, document.fragments.Meets options set.possible.Within set.selections met ∧
      (∀ met', document.fragments.Meets options set.possible.Within set.selections met' →
        met' = met) ∧
      ∀ field ∈ fields, ∀ composite, schema.type? field.field.type.typeName = some composite →
        composite.isComposite = true →
        (∀ record ∈ recordsOf (recordsIn met) field.responseKey, ∃ own,
          record.nested = some own) ∧
        ∃ nested, field.nested = some nested ∧
          nested.Spans schema field.field.type.typeName ∧
          ∀ type ∈ nested.possible,
            (document.fragments.occurrences .standard type nested).map Occurrence.item =
              (recordsOf (recordsIn met) field.responseKey).flatMap (fun record =>
                (record.yields document.fragments type).map Occurrence.item) ∧
            ((∃ record ∈ recordsOf (recordsIn met) field.responseKey, record.conditions = []) →
              document.fragments.occurrences .standard type nested =
                (recordsOf (recordsIn met) field.responseKey).flatMap fun record =>
                  (record.yields document.fragments type).map
                    (Occurrence.under record.conditions)) := by
  obtain ⟨records, hrecords⟩ := FragmentTable.exists_fieldRecords hfields
  obtain ⟨met, hmet, rfl⟩ := FragmentTable.exists_meets hrecords hinhabited
  refine ⟨met, hmet, fun met' hmet' => hmet.unique hmet', fun field hfield composite htype
    hcomposite => ?_⟩
  have hstands := (FragmentTable.mergeFields_spec hrecords hfields).2 field hfield
  generalize hgroup : recordsOf (recordsIn met) field.responseKey = group at hstands ⊢
  have hmem : ∀ record ∈ group, record ∈ recordsIn met := by
    intro record hrecord
    rw [← hgroup] at hrecord
    exact (List.mem_filter.mp hrecord).1
  -- All occurrences have the type of the merged field, so their nested sets span it too.
  have hspans : ∀ record ∈ group, ∃ own, record.nested = some own ∧
      own.Spans schema field.field.type.typeName := by
    intro record hrecord
    obtain ⟨parent, hwell⟩ :=
      hset.wellTyped_of_mem_records hbuilt h hrecords (hmem record hrecord)
    have hsame := hstands.type record hrecord
    obtain ⟨own, hown⟩ := Option.isSome_iff_exists.mp
      (hwell.nested_iff.mpr ⟨composite, hsame ▸ htype, hcomposite⟩)
    exact ⟨own, hown, hsame ▸ hwell.spans own hown⟩
  obtain ⟨first, hfirst, -, -, hnested⟩ := hstands.represented
  obtain ⟨own, hown, hparent, hpossible⟩ := hspans first hfirst
  rw [hown, Option.map_some] at hnested
  refine ⟨fun record hrecord => ?_, _, hnested, ⟨hparent, hpossible⟩, fun type hin => ?_⟩
  · obtain ⟨own, hown, -⟩ := hspans record hrecord
    exact ⟨own, hown⟩
  · have hyields := occurrencesIn_joined document.fragments type
      (fun record hrecord => FragmentTable.conditionsOf_map_directive_of_mem hrecords
        (hmem record hrecord))
      (fun record hrecord other hother => by
        obtain ⟨same, hsame, -, hsamePossible⟩ := hspans record hrecord
        obtain rfl := Option.some.inj (hother.symm.trans hsame)
        rw [← Option.some.inj (hpossible.symm.trans hsamePossible)]
        exact hin)
    rw [FragmentTable.occurrences, hyields]
    refine ⟨?_, ?_⟩
    · rw [List.map_flatMap]
      simp only [Occurrence.map_item_under]
    · rintro ⟨record, hrecord, hnone⟩
      have hpresent : group.any FieldRecord.isUnconditional = true :=
        List.any_eq_true.mpr ⟨record, hrecord, List.isEmpty_iff.mpr hnone⟩
      simp only [hpresent, if_true]

/-- With one occurrence of `node` unconditional, the key that the other one selects is listed under
its condition. -/
theorem Schema.merged_nested_sample : ∃ (schema : Schema) (document : CompiledDocument)
    (set : SelectionSet) (fields : List MergedField), schema.Built ∧
      schema.compile Sample.partlyGuarded = .ok document ∧ document.Has set ∧
      (∃ type, type ∈ set.possible) ∧
      document.fragments.mergeFields schema .standard set = .ok fields ∧
      ∃ field ∈ fields, ∃ met nested,
        document.fragments.Meets .standard set.possible.Within set.selections met ∧
        field.nested = some nested ∧ 1 ∈ nested.possible ∧
        (document.fragments.occurrences .standard 1 nested).map
          (fun occurrence => occurrence.conditions.length) = [1, 0] ∧
        document.fragments.occurrences .standard 1 nested =
          (recordsOf (recordsIn met) field.responseKey).flatMap fun record =>
            (record.yields document.fragments 1).map (Occurrence.under record.conditions) := by
  obtain ⟨schema, hbuilt, htest⟩ := Sample.exists_built
    (fun schema => decide (∃ document ∈ (schema.compile Sample.partlyGuarded).toOption,
      ∃ operation ∈ document.operations, 0 ∈ operation.selections.possible ∧
      ∃ fields ∈ (document.fragments.mergeFields schema .standard operation.selections).toOption,
      ∃ field ∈ fields, field.isConditional = false ∧
      (∃ composite ∈ schema.type? field.field.type.typeName, composite.isComposite = true) ∧
      ∃ nested ∈ field.nested, 1 ∈ nested.possible ∧
        (document.fragments.occurrences .standard 1 nested).map
          (fun occurrence => occurrence.conditions.length) = [1, 0])) (by decide +kernel)
  obtain ⟨document, hdocument, operation, hoperation, hroot, fields, hfields, field, hfield, hmark,
    ⟨composite, htype, hcomposite⟩, nested, hnested, hin, hlengths⟩ := of_decide_eq_true htest
  have hcompile := Sample.mem_toOption.mp hdocument
  have hfields := Sample.mem_toOption.mp hfields
  have hhas : document.Has operation.selections := .operation hoperation (.self _)
  obtain ⟨met, hmet, -, hall⟩ :=
    Schema.merged_nested hbuilt hcompile hhas ⟨0, hroot⟩ hfields
  obtain ⟨hrecords, nested', hnested', -, hselects⟩ := hall field hfield composite htype hcomposite
  obtain rfl := Option.some.inj (hnested.symm.trans hnested')
  -- Without the mark of absence, some occurrence has no conditions.
  obtain ⟨records, hcollected⟩ := FragmentTable.exists_fieldRecords hfields
  obtain ⟨met', hmet', rfl⟩ := FragmentTable.exists_meets hcollected ⟨0, hroot⟩
  obtain rfl := hmet.unique hmet'
  have hnone := ((FragmentTable.mergeFields_spec hcollected hfields).2 field
    hfield).isConditional_eq_false_iff.mp hmark
  exact ⟨schema, document, operation.selections, fields, hbuilt, hcompile, hhas, ⟨0, hroot⟩, hfields,
    field, hfield, met', nested, hmet', hnested, hin, hlengths, (hselects 1 hin).2 hnone⟩

end Merged

end QueryShape
