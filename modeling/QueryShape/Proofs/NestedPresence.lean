import QueryShape.Proofs.MergedPartition
import QueryShape.Proofs.TypeCase.ScopeRecords

/-!
# Presence below a merged field

The nested selection sets of all occurrences of a key are joined below the merged field. If an
occurrence without conditions makes the field present in any case, the others are joined under
their conditions. If every occurrence has conditions, the field itself has the mark of absence,
and the nested selections are joined as they are.

## What this module delivers

- `FragmentTable.Reaches.of_handed`: a way without conditions through what an occurrence hands
  to the merged field.
- `FragmentTable.nested_presence`: a nested key without the mark of absence is selected, under
  every assignment, by the nested selections of some occurrence, and by those of an occurrence
  without conditions if there is one.
- `FragmentTable.nested_presence_guarded`: where every occurrence has conditions, it may be one
  whose conditions fail.
-/

set_option autoImplicit false

namespace QueryShape

/-- All conditions on the way to an occurrence hold under an assignment. -/
def FieldRecord.Present (assignment : String → Bool) (record : FieldRecord) : Prop :=
  ∀ condition ∈ record.conditions, condition.holds assignment = true

instance (assignment : String → Bool) (record : FieldRecord) :
    Decidable (record.Present assignment) :=
  inferInstanceAs (Decidable (∀ condition ∈ record.conditions, condition.holds assignment = true))

namespace Sample

/-- Some nested key of a merged field has no mark, but no occurrence that is present lists it for an
object type. None of these occurrences spreads anything. -/
def Misleads (table : FragmentTable) (type : ObjectId) (assignment : String → Bool)
    (records : List FieldRecord) (nested : SelectionSet) : Prop :=
  ∃ inner ∈ (table.mergeFields schema .standard nested).toOption, ∃ below ∈ inner,
    below.isConditional = false ∧ ∀ record ∈ records, record.Present assignment →
      ∀ own ∈ record.nested, Selection.spreadsIn own.selections = [] ∧
        ∀ occurrence ∈ table.occurrences .standard type own,
          ¬ occurrence.Shows assignment below.responseKey

instance (table : FragmentTable) (type : ObjectId) (assignment : String → Bool)
    (records : List FieldRecord) (nested : SelectionSet) :
    Decidable (Misleads table type assignment records nested) := by
  delta Misleads
  infer_instance

/-- `query Q { node @include(if: $first) { first: id } node @include(if: $second) { second: id } }` -/
def guarded : List SourceText :=
  query [node ["first"] [id (some "first")], node ["second"] [id (some "second")]] []

/-- The same with the second occurrence present in any case. -/
def partlyGuarded : List SourceText :=
  query [node ["first"] [id (some "first")], node [] [id (some "second")]] []

end Sample

namespace FragmentTable

variable {table : FragmentTable} {schema : Schema} {options : TypeCaseOptions}
  {set : SelectionSet} {records : List FieldRecord} {applies : PossibleTypes → Prop}
  {occurrence : Occurrence}

/-- The conditions of a record can be written as directives and read again. -/
theorem conditionsOf_map_directive_of_mem (h : table.fieldRecords options set = .ok records)
    {record : FieldRecord} (hrecord : record ∈ records) :
    conditionsOf (record.conditions.map Condition.directive) = record.conditions := by
  obtain ⟨occurrence, hreaches, hsome⟩ := exists_reaches_of_mem h hrecord
  obtain ⟨hconditions, -⟩ := Occurrence.record?_eq_some.mp hsome
  rw [← hconditions]
  exact hreaches.conditionsOf_map_directive

/-- A way without conditions through the handed selections of a record is one through its nested
selection set. If they were handed on under the conditions of the record, there are none. -/
theorem Reaches.of_handed {present : Bool} {record : FieldRecord}
    (hreaches : table.Reaches applies (record.handed present) occurrence)
    (hstated : conditionsOf (record.conditions.map Condition.directive) = record.conditions)
    (hnone : occurrence.conditions = []) :
    ∃ own, record.nested = some own ∧ (present = true → record.conditions = []) ∧
      table.Reaches applies own.selections occurrence := by
  rw [FieldRecord.handed] at hreaches
  cases hnested : record.nested with
  | none =>
      rw [hnested] at hreaches
      obtain ⟨_, hmem, -⟩ := hreaches.exists_mem
      exact absurd hmem List.not_mem_nil
  | some own =>
      rw [hnested] at hreaches
      cases present with
      | false => exact ⟨own, rfl, fun h => absurd h (by simp), hreaches⟩
      | true =>
          obtain ⟨inner, hinner, rfl⟩ := hreaches.of_wrapInConditions hstated
          rw [Occurrence.conditions_under, List.append_eq_nil_iff] at hnone
          rw [hnone.1, Occurrence.under_nil, id]
          exact ⟨own, rfl, fun _ => rfl, hinner⟩

/-- What the mark of absence says below a merged field. Every response key that has no mark among
the merged fields of the nested selection set is selected, under every assignment of variables and
for every object type, by the nested selection set of one occurrence of the field. If the field
itself has no mark, that occurrence has no conditions. -/
theorem nested_presence {fields : List MergedField}
    (h : table.mergeFields schema options set = .ok fields) :
    ∃ records, table.fieldRecords options set = .ok records ∧
      ∀ field ∈ fields, ∀ nested, field.nested = some nested → ∀ inner,
        table.mergeFields schema options nested = .ok inner →
        ∀ below ∈ inner, below.isConditional = false →
          ∃ record ∈ recordsOf records field.responseKey, ∃ own, record.nested = some own ∧
            (field.isConditional = false → record.conditions = []) ∧
            ∀ type ∈ nested.possible, ∀ assignment,
              table.Selects type assignment own.selections below.responseKey := by
  obtain ⟨records, hrecords⟩ := exists_fieldRecords h
  refine ⟨records, hrecords, fun field hfield nested hnested inner hinner below hbelow hmark => ?_⟩
  have hstands := (mergeFields_spec hrecords h).2 field hfield
  obtain ⟨first, -, -, -, hjoined⟩ := hstands.represented
  rw [hnested] at hjoined
  obtain ⟨own, -, rfl⟩ := Option.map_eq_some_iff.mp hjoined.symm
  -- Without the mark, a way without conditions leads to the key through the joined selections.
  obtain ⟨deeper, hdeeper⟩ := exists_fieldRecords hinner
  have hbelowStands := (mergeFields_spec hdeeper hinner).2 below hbelow
  obtain ⟨record', hrecord', hnone⟩ := hbelowStands.isConditional_eq_false_iff.mp hmark
  have hkey := key_of_mem_recordsOf hrecord'
  obtain ⟨occurrence, hreaches, hsome⟩ :=
    exists_reaches_of_mem hdeeper (List.mem_filter.mp hrecord').1
  obtain ⟨hconditions, hitem⟩ := Occurrence.record?_eq_some.mp hsome
  -- The way begins in the selections that one of the occurrences handed on.
  obtain ⟨selection, hselection, hstart⟩ := hreaches.exists_mem
  obtain ⟨record, hrecord, hhanded⟩ := List.mem_flatMap.mp hselection
  have hway := hstart.mono fun other hother => List.mem_singleton.mp hother ▸ hhanded
  obtain ⟨own', hown, hpresent, hway⟩ := hway.of_handed
    (conditionsOf_map_directive_of_mem hrecords (List.mem_filter.mp hrecord).1)
    (hconditions.trans hnone)
  refine ⟨record, hrecord, own', hown, fun hmarkless => hpresent ?_, fun type htype => ?_⟩
  · -- Without the mark on the field, its occurrences are joined under their conditions.
    obtain ⟨other, hother, hempty⟩ := hstands.isConditional_eq_false_iff.mp hmarkless
    exact List.any_eq_true.mpr ⟨other, hother, List.isEmpty_iff.mpr hempty⟩
  · have hassures : table.Assures type own'.selections below.responseKey :=
      ⟨occurrence, hway.of_imp fun _ hwithin => hwithin type htype,
        ⟨_, _, hitem, hkey⟩, hconditions.trans hnone⟩
    exact fun assignment => hassures.selects assignment

theorem nested_presence_sample : ∃ document set fields,
    Sample.schema.compile Sample.partlyGuarded = .ok document ∧ document.Has set ∧
      document.fragments.mergeFields Sample.schema .standard set = .ok fields ∧
      ∃ field ∈ fields, field.isConditional = false ∧
        ∃ nested inner below, field.nested = some nested ∧ 1 ∈ nested.possible ∧
          document.fragments.mergeFields Sample.schema .standard nested = .ok inner ∧
          below ∈ inner ∧ below.isConditional = false ∧
          ∃ records, document.fragments.fieldRecords .standard set = .ok records ∧
            ∃ record ∈ recordsOf records field.responseKey, ∃ own, record.nested = some own ∧
              record.conditions = [] ∧ ∀ assignment,
                document.fragments.Selects 1 assignment own.selections below.responseKey := by
  have hcheck : ∃ document ∈ (Sample.schema.compile Sample.partlyGuarded).toOption,
      ∃ operation ∈ document.operations, ∃ fields ∈ (document.fragments.mergeFields Sample.schema
        .standard operation.selections).toOption,
      ∃ field ∈ fields, field.isConditional = false ∧ ∃ nested ∈ field.nested,
        1 ∈ nested.possible ∧ ∃ inner ∈ (document.fragments.mergeFields Sample.schema .standard
          nested).toOption, ∃ below ∈ inner, below.isConditional = false := by
    decide +kernel
  simp only [Sample.mem_toOption] at hcheck
  obtain ⟨document, hcompile, operation, hoperation, fields, hfields, field, hfield, hmark, nested,
    hnested, htype, inner, hinner, below, hbelow, hbelowMark⟩ := hcheck
  obtain ⟨records, hrecords, hall⟩ := nested_presence hfields
  obtain ⟨record, hrecord, own, hown, hnone, hselects⟩ :=
    hall field hfield nested hnested inner hinner below hbelow hbelowMark
  exact ⟨document, operation.selections, fields, hcompile, .operation hoperation (.self _), hfields,
    field, hfield, hmark, nested, inner, below, hnested, htype, hinner, hbelow, hbelowMark,
    records, hrecords, record, hrecord, own, hown, hnone hmark, hselects 1 htype⟩

/-- The occurrence that selects the key need not be one whose conditions hold. With the first of
two guarded occurrences of `node` present alone, the key `second` has no mark below the merged
field, and no occurrence that is present selects it. -/
theorem nested_presence_guarded : ∃ document set records fields,
    Sample.schema.compile Sample.guarded = .ok document ∧ document.Has set ∧
      (∃ type, type ∈ set.possible) ∧
      document.fragments.fieldRecords .standard set = .ok records ∧
      document.fragments.mergeFields Sample.schema .standard set = .ok fields ∧
      ∃ field ∈ fields, ∃ nested inner below assignment, field.nested = some nested ∧
        document.fragments.mergeFields Sample.schema .standard nested = .ok inner ∧
        below ∈ inner ∧ below.isConditional = false ∧
        (∃ record ∈ recordsOf records field.responseKey, record.Present assignment) ∧
        ∃ type ∈ nested.possible, ∀ record ∈ recordsOf records field.responseKey,
          record.Present assignment → ∀ own, record.nested = some own →
            ¬ document.fragments.Selects type assignment own.selections below.responseKey := by
  have hcheck : ∃ document ∈ (Sample.schema.compile Sample.guarded).toOption,
      ∃ operation ∈ document.operations, 0 ∈ operation.selections.possible ∧
      ∃ records ∈ (document.fragments.fieldRecords .standard operation.selections).toOption,
      ∃ fields ∈ (document.fragments.mergeFields Sample.schema .standard
        operation.selections).toOption,
      ∃ field ∈ fields, ∃ nested ∈ field.nested, 1 ∈ nested.possible ∧
        (∃ record ∈ recordsOf records field.responseKey, record.Present (· == "first")) ∧
        Sample.Misleads document.fragments 1 (· == "first")
          (recordsOf records field.responseKey) nested := by
    decide +kernel
  simp only [Sample.mem_toOption] at hcheck
  obtain ⟨document, hcompile, operation, hoperation, hroot, records, hrecords, fields, hfields, field,
    hfield, nested, hnested, htype, hpresent, inner, hinner, below, hbelow, hmark, hnone⟩ := hcheck
  obtain ⟨definitions, hfrom⟩ := Schema.compile_spec hcompile
  refine ⟨document, operation.selections, records, fields, hcompile,
    .operation hoperation (.self _), ⟨0, hroot⟩, hrecords, hfields, field, hfield, nested, inner,
    below, (· == "first"), hnested, Sample.mem_toOption.mp hinner, hbelow, hmark, hpresent, 1, htype,
    fun record hrecord hholds own hown hselects => ?_⟩
  obtain ⟨hspreads, hshows⟩ := hnone record hrecord hholds own hown
  have hresolves : document.fragments.Resolves own := by
    rw [Resolves, hspreads]
    exact fun id hid => absurd hid List.not_mem_nil
  obtain ⟨occurrence, hoccurrence, hshow⟩ := (selects_iff hfrom.ordered hresolves).mp hselects
  exact hshows occurrence hoccurrence hshow

end FragmentTable

end QueryShape
