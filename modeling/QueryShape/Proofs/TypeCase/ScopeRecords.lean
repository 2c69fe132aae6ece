import QueryShape.Proofs.Meets
import QueryShape.Proofs.TypeCase.Records

/-!
# The records of a selection set

Merging a selection set looks through whatever applies to all of its object types. Its records are
the fields met on the walk on which everything applies to all of them, and they lie at the ends of
the ways on which everything does.

## What this module delivers

- `FragmentTable.exists_meets`: the records of a selection set are the fields met on the walk.
- `FragmentTable.exists_reaches_of_mem`: every record lies at the end of such a way.
- `FragmentTable.Reaches.mem_fieldRecords`: every such way ends at a record.
- `FragmentTable.key_mem_iff`: the keys of the records.
-/

set_option autoImplicit false

namespace QueryShape

/-! ## Records selection by selection -/

namespace Selection

variable {lookup : Lookup} {options : TypeCaseOptions} {possible : PossibleTypes}
  {conditions : List Condition} {selection : Selection} {rest selections : List Selection}
  {records : List FieldRecord}

theorem fieldRecordsIn_cons_eq_ok :
    fieldRecordsIn lookup options possible conditions (selection :: rest) = .ok records ↔
      ∃ first others, selection.fieldRecords lookup options possible conditions = .ok first ∧
        fieldRecordsIn lookup options possible conditions rest = .ok others ∧
        first ++ others = records := by
  rw [fieldRecordsIn]
  simp only [bind_eq_ok, exists_and_left, Except.ok.injEq]

end Selection

/-! ## Records of a walk -/

/-- A lookup yields the fields met on a walk through a fragment. -/
def Lookup.Walks (table : FragmentTable) (options : TypeCaseOptions) (possible : PossibleTypes)
    (lookup : Lookup) : Prop :=
  ∀ id conditions records, lookup id possible conditions = .ok records →
    ∃ fragment, table.get? id = some fragment ∧
      ∃ met, table.Meets options possible.Within fragment.selections.selections met ∧
        recordsIn (met.map (Occurrence.under conditions)) = records

theorem Occurrence.map_under_under (first second : List Condition) (met : List Occurrence) :
    (met.map (Occurrence.under second)).map (Occurrence.under first) =
      met.map (Occurrence.under (first ++ second)) := by
  rw [List.map_map]
  exact List.map_congr_left fun occurrence _ => Occurrence.under_under first second occurrence

namespace Selection

variable {table : FragmentTable} {lookup : Lookup} {options : TypeCaseOptions}
  {possible : PossibleTypes}

mutual

/-- The records of a selection are the fields met there. -/
theorem exists_meets (hlookup : Lookup.Walks table options possible lookup) (selection : Selection)
    {conditions : List Condition} {records : List FieldRecord}
    (h : selection.fieldRecords lookup options possible conditions = .ok records) :
    ∃ met, table.Meets options possible.Within [selection] met ∧
      recordsIn (met.map (Occurrence.under conditions)) = records := by
  cases selection with
  | field head nested =>
      cases h
      exact ⟨_, .field head nested .nil, rfl⟩
  | spread head =>
      rw [fieldRecords] at h
      by_cases hwithin : possible.Within head.possible
      · rw [PossibleTypes.subset_iff_mem.mpr hwithin, Bool.and_true] at h
        cases hmerge : options.mergeSpreads with
        | false =>
            rw [hmerge, if_neg Bool.false_ne_true] at h
            cases h
            exact ⟨_, .keepSpread hwithin hmerge .nil, rfl⟩
        | true =>
            rw [hmerge, if_pos rfl] at h
            obtain ⟨fragment, hget, met, hmet, rfl⟩ := hlookup _ _ _ h
            refine ⟨_, .openSpread hwithin hmerge hget hmet .nil, ?_⟩
            -- The spread itself is no field, and the conditions on it come first.
            rw [List.append_nil, List.map_cons, Occurrence.map_under_under]
            rfl
      · rw [eq_false_of_ne_true fun hsubset => hwithin (PossibleTypes.subset_iff_mem.mp hsubset),
          Bool.and_false, if_neg Bool.false_ne_true] at h
        cases h
        exact ⟨[], .passSpread hwithin .nil, rfl⟩
  | inline head set =>
      obtain ⟨parent, narrowed, selections⟩ := set
      rw [fieldRecords] at h
      by_cases hwithin : possible.Within narrowed
      · rw [if_pos (PossibleTypes.subset_iff_mem.mpr hwithin)] at h
        obtain ⟨met, hmet, rfl⟩ := exists_meetsIn hlookup selections h
        refine ⟨_, .openInline hwithin hmet .nil, ?_⟩
        rw [List.append_nil, Occurrence.map_under_under]
      · rw [if_neg fun hsubset => hwithin (PossibleTypes.subset_iff_mem.mp hsubset)] at h
        cases h
        exact ⟨[], .passInline hwithin .nil, rfl⟩

/-- The records of selections are the fields met on the walk through them. -/
theorem exists_meetsIn (hlookup : Lookup.Walks table options possible lookup)
    (selections : List Selection) {conditions : List Condition} {records : List FieldRecord}
    (h : fieldRecordsIn lookup options possible conditions selections = .ok records) :
    ∃ met, table.Meets options possible.Within selections met ∧
      recordsIn (met.map (Occurrence.under conditions)) = records := by
  cases selections with
  | nil =>
      cases h
      exact ⟨[], .nil, rfl⟩
  | cons selection rest =>
      obtain ⟨first, others, hfirst, hothers, rfl⟩ := fieldRecordsIn_cons_eq_ok.mp h
      obtain ⟨met, hmet, rfl⟩ := exists_meets hlookup selection hfirst
      obtain ⟨more, hmore, rfl⟩ := exists_meetsIn hlookup rest hothers
      refine ⟨met ++ more, hmet.append hmore, ?_⟩
      rw [List.map_append, recordsIn_append]

end

end Selection

namespace FragmentTable

variable {table : FragmentTable} {options : TypeCaseOptions} {set : SelectionSet}
  {records : List FieldRecord}

theorem walks_lookupRecords (table : FragmentTable) (options : TypeCaseOptions)
    (possible : PossibleTypes) (depth : Nat) :
    Lookup.Walks table options possible (table.lookupRecords options depth) := by
  induction depth with
  | zero => exact fun id conditions records h => absurd h (by simp [lookupRecords])
  | succ depth ih =>
      intro id conditions records h
      rw [lookupRecords] at h
      obtain ⟨fragment, hresolve, h⟩ := bind_eq_ok.mp h
      exact ⟨fragment, resolve_eq_ok.mp hresolve,
        Selection.exists_meetsIn ih fragment.selections.selections h⟩

/-- The records of a selection set are the fields met on the walk on which everything applies to all
of its object types. -/
theorem exists_meets (h : table.fieldRecords options set = .ok records)
    (hinhabited : ∃ type, type ∈ set.possible) :
    ∃ met, table.Meets options set.possible.Within set.selections met ∧
      recordsIn met = records := by
  have hsome : set.possible.isEmpty = false := PossibleTypes.isEmpty_eq_false_iff.mpr hinhabited
  rw [fieldRecords, hsome, if_neg Bool.false_ne_true] at h
  obtain ⟨met, hmet, hrecords⟩ :=
    Selection.exists_meetsIn (walks_lookupRecords table options set.possible table.size) _ h
  rw [Occurrence.under_nil, List.map_id] at hrecords
  exact ⟨met, hmet, hrecords⟩

/-! ## Records at the ends of ways -/

/-- Every record lies at the end of a way on which everything applies to all object types. -/
theorem exists_reaches_of_mem (h : table.fieldRecords options set = .ok records)
    {record : FieldRecord} (hrecord : record ∈ records) :
    ∃ occurrence, table.Reaches set.possible.Within set.selections occurrence ∧
      occurrence.record? = some record := by
  by_cases hinhabited : ∃ type, type ∈ set.possible
  · obtain ⟨met, hmet, rfl⟩ := exists_meets h hinhabited
    obtain ⟨occurrence, hmem, hsome⟩ := List.mem_filterMap.mp hrecord
    have hitem := (Occurrence.record?_eq_some.mp hsome).2
    exact ⟨occurrence, hmet.reaches hmem (by rw [Occurrence.spread?, hitem]), hsome⟩
  · -- Nothing is collected for no object types.
    have hnone : set.possible.isEmpty = true := by
      rwa [← PossibleTypes.isEmpty_eq_false_iff, Bool.not_eq_false] at hinhabited
    rw [fieldRecords, if_pos hnone] at h
    cases h
    exact absurd hrecord List.not_mem_nil

/-- With spreads looked through, every such way ends at a record. -/
theorem Reaches.mem_fieldRecords {occurrence : Occurrence}
    (hreaches : table.Reaches set.possible.Within set.selections occurrence)
    (hinhabited : ∃ type, type ∈ set.possible)
    (h : table.fieldRecords .standard set = .ok records) {record : FieldRecord}
    (hsome : occurrence.record? = some record) : record ∈ records := by
  obtain ⟨met, hmet, rfl⟩ := exists_meets h hinhabited
  exact List.mem_filterMap.mpr ⟨occurrence, hmet.mem_of_reaches rfl hreaches, hsome⟩

/-- The keys of the records are those that such ways lead to. -/
theorem key_mem_iff (hinhabited : ∃ type, type ∈ set.possible)
    (h : table.fieldRecords .standard set = .ok records) {key : String} :
    key ∈ records.map FieldRecord.key ↔
      ∃ occurrence, table.Reaches set.possible.Within set.selections occurrence ∧
        occurrence.HasKey key := by
  constructor
  · intro hkey
    obtain ⟨record, hrecord, rfl⟩ := List.mem_map.mp hkey
    obtain ⟨occurrence, hreaches, hsome⟩ := exists_reaches_of_mem h hrecord
    exact ⟨occurrence, hreaches, _, _, (Occurrence.record?_eq_some.mp hsome).2, rfl⟩
  · rintro ⟨occurrence, hreaches, head, nested, hitem, rfl⟩
    have hsome : occurrence.record? = some ⟨occurrence.conditions, head, nested⟩ :=
      Occurrence.record?_eq_some.mpr ⟨rfl, hitem⟩
    exact List.mem_map.mpr ⟨_, hreaches.mem_fieldRecords hinhabited h hsome, rfl⟩

end FragmentTable

end QueryShape
