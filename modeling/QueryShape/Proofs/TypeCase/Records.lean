import QueryShape.Proofs.TypeCase.Grouping
import QueryShape.Proofs.TypeCase.Settled

/-!
# The records of a variant

Merging looks at a selection set from outside and passes over whatever does not apply to all
of its object types. In a variant nothing is passed over: the records are the content, with
the conditions that the content has.

## What this module delivers

- `Occurrence.record?`: an occurrence of a field as a record.
- `fieldRecordsIn_settled`: the records of settled selections are their content.
- `Variant.fieldRecords_eq`: the records of a variant that applies to some object type.
-/

set_option autoImplicit false

namespace QueryShape

/-- An occurrence of a field as a record of that field. -/
def Occurrence.record? (occurrence : Occurrence) : Option FieldRecord :=
  match occurrence.item with
  | .field head nested => some ⟨occurrence.conditions, head, nested⟩
  | .spread _ => none

theorem Occurrence.record?_eq_some {occurrence : Occurrence} {record : FieldRecord} :
    occurrence.record? = some record ↔ occurrence.conditions = record.conditions ∧
      occurrence.item = .field record.field record.nested := by
  obtain ⟨conditions, item⟩ := occurrence
  cases item with
  | field head nested =>
      constructor
      · intro h
        cases h
        exact ⟨rfl, rfl⟩
      · rintro ⟨rfl, heq⟩
        cases heq
        rfl
  | spread id => exact ⟨fun h => (nomatch h), fun h => (nomatch h.2)⟩

/-- The records of some content. -/
def recordsIn (content : List Occurrence) : List FieldRecord :=
  content.filterMap Occurrence.record?

theorem recordsIn_append (first second : List Occurrence) :
    recordsIn (first ++ second) = recordsIn first ++ recordsIn second :=
  List.filterMap_append

namespace Selection

variable {lookup : Lookup} {options : TypeCaseOptions} {possible : PossibleTypes}

mutual

/-- A settled selection yields its content, whatever fragments are. -/
theorem fieldRecords_settled (selection : Selection) (conditions : List Condition)
    (h : selection.Settled options possible) :
    selection.fieldRecords lookup options possible conditions =
      .ok (recordsIn (selection.content.map (Occurrence.under conditions))) := by
  cases selection with
  | field head nested => rfl
  | spread head =>
      have hmerge : options.mergeSpreads = false := h
      rw [fieldRecords, hmerge, Bool.false_and, if_neg (by simp)]
      rfl
  | inline head set =>
      obtain ⟨parent, narrowed, selections⟩ := set
      obtain ⟨-, -, -, hsub, hselections⟩ := h
      have hinner := fieldRecordsIn_settled selections
        (conditions ++ conditionsOf head.directives) hselections
      have hunder : Occurrence.under conditions ∘ Occurrence.under (conditionsOf head.directives) =
          Occurrence.under (conditions ++ conditionsOf head.directives) := by
        funext occurrence
        simp [Occurrence.under]
      rw [fieldRecords, if_pos (PossibleTypes.subset_iff_mem.mpr hsub), hinner, content,
        List.map_map, hunder]

theorem fieldRecordsIn_settled (selections : List Selection) (conditions : List Condition)
    (h : SettledIn options possible selections) :
    fieldRecordsIn lookup options possible conditions selections =
      .ok (recordsIn ((contentIn selections).map (Occurrence.under conditions))) := by
  cases selections with
  | nil => rfl
  | cons selection rest =>
      have hfirst := fieldRecords_settled selection conditions h.1
      have hrest := fieldRecordsIn_settled rest conditions h.2
      rw [fieldRecordsIn, hfirst, hrest, contentIn, List.map_append, recordsIn_append]
      rfl

end

end Selection

/-- The records of a settled variant are its content. -/
theorem Variant.fieldRecords_eq {options : TypeCaseOptions} {variant : Variant}
    (h : variant.Settled options) (hinhabited : ∃ type, type ∈ variant.possible)
    (table : FragmentTable) :
    table.fieldRecords options variant.toSelectionSet = .ok (recordsIn variant.content) := by
  have hsome : variant.possible.isEmpty = false := PossibleTypes.isEmpty_eq_false_iff.mpr hinhabited
  rw [FragmentTable.fieldRecords, hsome, if_neg (by simp),
    Selection.fieldRecordsIn_settled variant.selections [] h, Occurrence.under_nil, List.map_id]
  rfl

end QueryShape
