import QueryShape.Proofs.Abridgement
import QueryShape.TypeCase.MergedField

/-!
# Fields by response key

Merging turns a list of records into one field for each response key. The groups are the
records of one key in their order, and the keys come in the order of first occurrence. Of a
group either all types agree, and one field stands for the group, or there is a conflict.

## What this module delivers

- `entries_groupByKey`: the groups.
- `Stands`: a merged field stands for a group of records.
- `mergeRecords_cases`: a group is merged into a field that stands for it, or there is a
  conflict.
- `Stands.isConditional_eq_false_iff`: when it lacks the mark of absence.
- `Agree`, `Conflicts`: the records of a group have one type, or merging ends with the first group
  whose records do not.
- `FragmentTable.mergeFields_outcome`, `FragmentTable.mergeFields_cases`: the merged fields of a
  selection set stand for the groups of its records, unless there is a conflict.
-/

set_option autoImplicit false

namespace QueryShape

/-! ## Groups -/

namespace Table

variable {α : Type}

theorem lookup_map (names : List String) (value : String → α) (name : String) :
    (names.map fun n => (n, value n)).lookup name =
      if name ∈ names then some (value name) else none := by
  induction names with
  | nil => rfl
  | cons first rest ih =>
      rw [List.map_cons, List.lookup_cons]
      by_cases h : name = first
      · simp [h]
      · simp [beq_false_of_ne h, ih, h]

/-- Writing into a table that lists what a function gives for distinct names. -/
theorem insertEntry_map {names : List String} (hdistinct : names.Nodup) (value : String → α)
    (name : String) (new : α) :
    insertEntry name new (names.map fun n => (n, value n)) =
      if name ∈ names then names.map fun n => (n, if n = name then new else value n)
      else (names.map fun n => (n, value n)) ++ [(name, new)] := by
  induction names with
  | nil => rfl
  | cons first rest ih =>
      obtain ⟨hfirst, hrest⟩ := List.nodup_cons.mp hdistinct
      rw [List.map_cons, insertEntry]
      by_cases h : first = name
      · -- As the names are distinct, none of the rest is written to.
        have hsame : (rest.map fun n => (n, if n = name then new else value n)) =
            rest.map fun n => (n, value n) := by
          apply List.map_congr_left
          intro n hn
          rw [if_neg]
          rintro rfl
          exact hfirst (h ▸ hn)
        rw [if_pos h, if_pos (h ▸ List.mem_cons_self), List.map_cons, if_pos h, hsame]
      · have hmem : name ∈ first :: rest ↔ name ∈ rest := by
          rw [List.mem_cons]
          exact ⟨fun hor => hor.resolve_left fun heq => h heq.symm, Or.inr⟩
        rw [if_neg h, ih hrest]
        by_cases hin : name ∈ rest
        · rw [if_pos hin, if_pos (hmem.mpr hin), List.map_cons, if_neg h]
        · rw [if_neg hin, if_neg fun hor => hin (hmem.mp hor), List.cons_append]

end Table

/-- The key under which a response holds the field of a record. -/
def FieldRecord.key (record : FieldRecord) : String :=
  record.field.responseKey

/-- The records of a response key. -/
def recordsOf (records : List FieldRecord) (key : String) : List FieldRecord :=
  records.filter fun record => record.key == key

/-- The keys of the groups come in the order of first occurrence, and each group holds the
records of its key in their order. -/
theorem entries_groupByKey (records : List FieldRecord) :
    (groupByKey records).entries =
      (records.map FieldRecord.key).eraseDups.map fun key => (key, recordsOf records key) := by
  -- Records join their groups from the front, so the induction takes them off at the end.
  induction records using List.reverseRecOn with
  | nil => rfl
  | append_singleton records record ih =>
      have hgroups : groupByKey (records ++ [record]) = addToGroup (groupByKey records) record := by
        rw [groupByKey, List.foldl_append]
        rfl
      have hfilter : ∀ key, recordsOf (records ++ [record]) key =
          if key = record.key then recordsOf records key ++ [record] else recordsOf records key := by
        intro key
        rw [recordsOf, List.filter_append]
        by_cases h : key = record.key
        · simp [recordsOf, h]
        · have hother : (record.key == key) = false := beq_false_of_ne fun heq => h heq.symm
          simp [recordsOf, hother, h]
      have hget : (groupByKey records).get? record.key =
          if record.key ∈ records.map FieldRecord.key then some (recordsOf records record.key)
          else none := by
        rw [Table.get?, ih, Table.lookup_map]
        simp only [List.mem_eraseDups]
      have hinsert : (addToGroup (groupByKey records) record).entries =
          Table.insertEntry record.key
            (((groupByKey records).get? record.key).getD [] ++ [record])
            (groupByKey records).entries := rfl
      rw [hgroups, hinsert, hget, ih,
        Table.insertEntry_map (nodup_eraseDups _) (recordsOf records), List.map_append,
        List.map_singleton, eraseDups_concat]
      simp only [List.mem_eraseDups]
      by_cases hmem : record.key ∈ records.map FieldRecord.key
      · -- A known key: its group grows in place.
        rw [if_pos hmem, if_pos hmem, if_pos hmem, Option.getD_some]
        apply List.map_congr_left
        intro key _
        rw [hfilter]
        by_cases h : key = record.key
        · rw [if_pos h, if_pos h, h]
        · rw [if_neg h, if_neg h]
      · -- A new key: a group of one record comes last.
        have hnone : recordsOf records record.key = [] := by
          refine List.filter_eq_nil_iff.mpr fun other hother hkey => hmem ?_
          rw [← eq_of_beq hkey]
          exact List.mem_map_of_mem hother
        rw [if_neg hmem, if_neg hmem, if_neg hmem, List.map_append, List.map_singleton, hfilter,
          if_pos rfl, hnone, Option.getD_none]
        refine congrArg (· ++ [(record.key, [] ++ [record])]) (List.map_congr_left fun key hkey => ?_)
        rw [hfilter, if_neg]
        rintro rfl
        exact hmem (List.mem_eraseDups.mp hkey)

/-! ## Standing for a group -/

/-- The nested selections of a record as they go into a merged field: with the conditions on
the way to them if the field is present in any case. -/
def FieldRecord.handed (present : Bool) (record : FieldRecord) : List Selection :=
  match record.nested with
  | none => []
  | some set => if present then wrapInConditions record.conditions set else set.selections

/-- The nested selections of a group, joined. -/
def joined (records : List FieldRecord) : List Selection :=
  records.flatMap (FieldRecord.handed (records.any FieldRecord.isUnconditional))

/-- A merged field stands for the records of a group. -/
structure Stands (records : List FieldRecord) (merged : MergedField) : Prop where
  represented : ∃ first ∈ records, representative? records = some first ∧
    merged.field = { first.field with description := merged.field.description } ∧
    merged.nested = first.nested.map fun set => { set with selections := joined records }
  type : ∀ record ∈ records, record.field.type = merged.field.type
  conditions : merged.conditions = records.flatMap FieldRecord.conditions
  isConditional : merged.isConditional = records.all fun record => !record.isUnconditional

theorem Stands.responseKey {records : List FieldRecord} {merged : MergedField}
    (h : Stands records merged) : ∃ first ∈ records, merged.responseKey = first.key := by
  obtain ⟨first, hmem, -, hfield, -⟩ := h.represented
  refine ⟨first, hmem, ?_⟩
  rw [MergedField.responseKey, hfield]
  rfl

/-- A merged field lacks the mark of absence if some record has no conditions. -/
theorem Stands.isConditional_eq_false_iff {records : List FieldRecord} {merged : MergedField}
    (h : Stands records merged) :
    merged.isConditional = false ↔ ∃ record ∈ records, record.conditions = [] := by
  rw [h.isConditional, List.all_eq_false]
  simp only [FieldRecord.isUnconditional, Bool.not_eq_true', Bool.not_eq_false,
    List.isEmpty_iff]

theorem representative?_mem {records : List FieldRecord} {first : FieldRecord}
    (h : representative? records = some first) : first ∈ records := by
  rw [representative?, Option.or_eq_some_iff] at h
  rcases h with hfound | ⟨-, hhead⟩
  · exact List.mem_of_find?_eq_some hfound
  · exact List.mem_of_mem_head? hhead

theorem exists_representative? {records : List FieldRecord} (hne : records ≠ []) :
    ∃ first, representative? records = some first := by
  obtain ⟨first, rest, rfl⟩ := List.exists_cons_of_ne_nil hne
  rw [representative?, List.head?_cons]
  cases (first :: rest).find? FieldRecord.isUnconditional with
  | none => exact ⟨first, rfl⟩
  | some found => exact ⟨found, rfl⟩

/-- A record with its conditions handed down if the field is present in any case. -/
def FieldRecord.handDown (present : Bool) (record : FieldRecord) : FieldRecord :=
  if present then record.pushDown else record

@[simp] theorem FieldRecord.field_handDown (present : Bool) (record : FieldRecord) :
    (record.handDown present).field = record.field := by
  rw [handDown]
  split <;> rfl

@[simp] theorem FieldRecord.conditions_handDown (present : Bool) (record : FieldRecord) :
    (record.handDown present).conditions = record.conditions := by
  rw [handDown]
  split <;> rfl

theorem FieldRecord.nested_handDown (present : Bool) (record : FieldRecord) :
    (record.handDown present).nested =
      record.nested.map fun set => { set with selections := record.handed present } := by
  rw [handed]
  cases hnested : record.nested with
  | none => cases present <;> simp [handDown, pushDown, hnested]
  | some set =>
      obtain ⟨parent, possible, selections⟩ := set
      cases present <;> simp [handDown, pushDown, hnested]

theorem representative?_map_handDown (present : Bool) (records : List FieldRecord) :
    representative? (records.map (FieldRecord.handDown present)) =
      (representative? records).map (FieldRecord.handDown present) := by
  have hsame : FieldRecord.isUnconditional ∘ FieldRecord.handDown present =
      FieldRecord.isUnconditional := by
    funext record
    simp [FieldRecord.isUnconditional]
  rw [representative?, representative?, List.find?_map, hsame, List.head?_map]
  cases records.find? FieldRecord.isUnconditional with
  | none => rfl
  | some found => rfl

/-- What merging a group comes to, once its representative is known. -/
theorem mergeRecords_eq (key : String) {records : List FieldRecord} {first : FieldRecord}
    (hfirst : representative? records = some first) :
    mergeRecords key records =
      match records.find? (fun record => record.field.type != first.field.type) with
      | some other =>
          .error (.mergeConflict key first.field.type.render other.field.type.render)
      | none => .ok (some ⟨first.field,
          first.nested.map (fun set => { set with selections := joined records }),
          records.flatMap FieldRecord.conditions,
          records.all (fun record => !record.isUnconditional)⟩) := by
  have hhanded : (if records.any FieldRecord.isUnconditional then records.map FieldRecord.pushDown
      else records) = records.map (FieldRecord.handDown (records.any FieldRecord.isUnconditional)) := by
    cases records.any FieldRecord.isUnconditional with
    | true => rfl
    | false => exact (List.map_id records).symm
  -- What the representative keeps of its own selections is replaced by the joined ones.
  have hjoined : (records.map (FieldRecord.handDown (records.any FieldRecord.isUnconditional))).flatMap
      (fun record => (record.nested.map SelectionSet.selections).getD []) = joined records := by
    rw [joined, List.flatMap_map]
    refine congrArg (records.flatMap ·) (funext fun record => ?_)
    rw [FieldRecord.nested_handDown, FieldRecord.handed]
    cases record.nested with
    | none => rfl
    | some set => rfl
  have hnested : ∀ selections : List Selection,
      ((first.handDown (records.any FieldRecord.isUnconditional)).nested.map
        fun set => { set with selections }) = first.nested.map fun set => { set with selections } := by
    intro selections
    rw [FieldRecord.nested_handDown, Option.map_map]
    rfl
  rw [mergeRecords]
  simp only [hhanded, representative?_map_handDown, hfirst, Option.map_some, hjoined, hnested,
    FieldRecord.field_handDown, List.find?_map, List.flatMap_map, List.all_map, Function.comp_def,
    FieldRecord.conditions_handDown, FieldRecord.isUnconditional]
  cases records.find? (fun record => record.field.type != first.field.type) with
  | none => rfl
  | some other => simp only [Option.map_some, FieldRecord.field_handDown]

/-- A group is merged into a field that stands for it, unless two of its types differ. -/
theorem mergeRecords_cases (key : String) {records : List FieldRecord} (hne : records ≠ []) :
    (∃ merged, mergeRecords key records = .ok (some merged) ∧ Stands records merged) ∨
      ∃ first ∈ records, ∃ other ∈ records, first.field.type ≠ other.field.type ∧
        mergeRecords key records =
          .error (.mergeConflict key first.field.type.render other.field.type.render) := by
  obtain ⟨first, hfirst⟩ := exists_representative? hne
  have hmem := representative?_mem hfirst
  rw [mergeRecords_eq key hfirst]
  -- All types are compared with that of the representative, so agreeing with it is enough.
  cases hother : records.find? (fun record => record.field.type != first.field.type) with
  | some other =>
      refine Or.inr ⟨first, hmem, other, List.mem_of_find?_eq_some hother, ?_, rfl⟩
      have hne := List.find?_some hother
      intro heq
      exact absurd hne (by simp [heq])
  | none =>
      refine Or.inl ⟨_, rfl, ⟨first, hmem, hfirst, rfl, rfl⟩, fun record hrecord => ?_, rfl, rfl⟩
      have hsame := List.find?_eq_none.mp hother record hrecord
      simpa using hsame

/-! ## All groups -/

section Merge

variable {records : List FieldRecord}

theorem recordsOf_ne_nil {key : String} (h : key ∈ records.map FieldRecord.key) :
    recordsOf records key ≠ [] := by
  obtain ⟨record, hmem, rfl⟩ := List.mem_map.mp h
  exact List.ne_nil_of_mem (List.mem_filter.mpr ⟨hmem, beq_self_eq_true _⟩)

theorem key_of_mem_recordsOf {key : String} {record : FieldRecord}
    (h : record ∈ recordsOf records key) : record.key = key :=
  eq_of_beq (List.mem_filter.mp h).2

theorem Stands.describeBy {merged : MergedField} (h : Stands records merged)
    (object : FieldedType) : Stands records (describeBy object merged) := by
  obtain ⟨first, hmem, hfirst, hfield, hnested⟩ := h.represented
  rw [QueryShape.describeBy]
  split
  · exact h
  · exact ⟨⟨first, hmem, hfirst, by rw [hfield], hnested⟩, h.type, h.conditions, h.isConditional⟩

/-- The records of a group have one type. -/
def Agree (records : List FieldRecord) : Prop :=
  ∀ first ∈ records, ∀ other ∈ records, first.field.type = other.field.type

theorem Stands.agree {merged : MergedField} (h : Stands records merged) : Agree records :=
  fun first hfirst other hother => (h.type first hfirst).trans (h.type other hother).symm

/-- The outcome of merging groups is a conflict: the groups of the keys before agree, and the error
shows two types of this group that differ. -/
def Conflicts {α : Type} (records : List FieldRecord) (keys : List String)
    (outcome : Except InvariantError α) : Prop :=
  ∃ before key after, keys = before ++ key :: after ∧
    (∀ earlier ∈ before, Agree (recordsOf records earlier)) ∧
    ∃ first ∈ recordsOf records key, ∃ other ∈ recordsOf records key,
      first.field.type ≠ other.field.type ∧
        outcome = .error (.mergeConflict key first.field.type.render other.field.type.render)

/-- Merging the groups of some keys: a field stands for each of them, or the types of some
group differ. -/
theorem mapM_mergeRecords (keys : List String)
    (hkeys : ∀ key ∈ keys, key ∈ records.map FieldRecord.key) :
    (∃ merged : List MergedField, (keys.map fun key => (key, recordsOf records key)).mapM
        (fun (key, group) => mergeRecords key group) = .ok (merged.map some) ∧
      merged.map MergedField.responseKey = keys ∧
      ∀ field ∈ merged, Stands (recordsOf records field.responseKey) field) ∨
    Conflicts records keys ((keys.map fun key => (key, recordsOf records key)).mapM
        (fun (key, group) => mergeRecords key group)) := by
  -- The first conflict ends the traversal; up to there every group has its field.
  induction keys with
  | nil => exact Or.inl ⟨[], rfl, rfl, fun _ hmem => absurd hmem List.not_mem_nil⟩
  | cons key keys ih =>
      rw [List.map_cons, List.mapM_cons]
      rcases mergeRecords_cases key (recordsOf_ne_nil (hkeys key List.mem_cons_self)) with
        ⟨field, hfield, hstands⟩ | ⟨first, hfirst, other, hother, hne, herror⟩
      · have hkey : field.responseKey = key := by
          obtain ⟨record, hrecord, hsame⟩ := hstands.responseKey
          rw [hsame, key_of_mem_recordsOf hrecord]
        rcases ih fun later hlater => hkeys later (List.mem_cons_of_mem _ hlater) with
          ⟨merged, hmerged, hmap, hall⟩ |
          ⟨before, key', after, rfl, hbefore, first, hfirst, other, hother, hne, herror⟩
        · refine Or.inl ⟨field :: merged, ?_, ?_, fun other hother => ?_⟩
          · simp only [hfield, hmerged, bind, Except.bind, pure, Except.pure, List.map_cons]
          · rw [List.map_cons, hkey, hmap]
          · rcases List.mem_cons.mp hother with rfl | hrest
            · rw [hkey]
              exact hstands
            · exact hall other hrest
        · refine Or.inr ⟨key :: before, key', after, rfl,
            List.forall_mem_cons.mpr ⟨hstands.agree, hbefore⟩, first, hfirst, other, hother, hne, ?_⟩
          simp only [hfield, herror, bind, Except.bind]
      · refine Or.inr ⟨[], key, keys, rfl, fun _ hmem => absurd hmem List.not_mem_nil, first, hfirst,
          other, hother, hne, ?_⟩
        simp only [herror, bind, Except.bind]

theorem responseKey_describeBy (object : FieldedType) (merged : MergedField) :
    (describeBy object merged).responseKey = merged.responseKey := by
  rw [describeBy]
  split <;> rfl

namespace FragmentTable

variable {table : FragmentTable} {schema : Schema} {options : TypeCaseOptions}
  {set : SelectionSet}

/-- The merged fields of a selection set stand for the groups of its records, in the order of
first occurrence, unless the types of some group differ. -/
theorem mergeFields_outcome (schema : Schema)
    (hrecords : table.fieldRecords options set = .ok records) :
    (∃ fields, table.mergeFields schema options set = .ok fields ∧
      fields.map MergedField.responseKey = (records.map FieldRecord.key).eraseDups ∧
      ∀ field ∈ fields, Stands (recordsOf records field.responseKey) field) ∨
    Conflicts records (records.map FieldRecord.key).eraseDups
      (table.mergeFields schema options set) := by
  have hkeys : ∀ key ∈ (records.map FieldRecord.key).eraseDups,
      key ∈ records.map FieldRecord.key := fun key hkey => List.mem_eraseDups.mp hkey
  rw [mergeFields, hrecords]
  simp only [bind, Except.bind, entries_groupByKey]
  rcases mapM_mergeRecords _ hkeys with ⟨merged, hmerged, hmap, hall⟩ |
    ⟨before, key, after, hsplit, hbefore, first, hfirst, other, hother, hne, herror⟩
  · apply Or.inl
    have hsome : (merged.map some).filterMap id = merged := by
      rw [List.filterMap_map]
      exact List.filterMap_some
    rw [hmerged]
    simp only [hsome]
    -- A description may be replaced at last, which leaves the rest of a field alone.
    cases schema.onlyObject? set.possible with
    | none => exact ⟨merged, rfl, hmap, hall⟩
    | some object =>
        refine ⟨merged.map (describeBy object), rfl, ?_, fun field hfield => ?_⟩
        · have hsame : MergedField.responseKey ∘ describeBy object = MergedField.responseKey :=
            funext (responseKey_describeBy object)
          rw [List.map_map, hsame, hmap]
        · obtain ⟨before, hbefore, rfl⟩ := List.mem_map.mp hfield
          rw [responseKey_describeBy]
          exact (hall before hbefore).describeBy object
  · refine Or.inr ⟨before, key, after, hsplit, hbefore, first, hfirst, other, hother, hne, ?_⟩
    rw [herror]

/-- Only a conflict keeps fields from being merged. -/
theorem mergeFields_cases (schema : Schema)
    (hrecords : table.fieldRecords options set = .ok records) :
    (∃ fields, table.mergeFields schema options set = .ok fields ∧
      fields.map MergedField.responseKey = (records.map FieldRecord.key).eraseDups ∧
      ∀ field ∈ fields, Stands (recordsOf records field.responseKey) field) ∨
    ∃ key first second,
      table.mergeFields schema options set = .error (.mergeConflict key first second) := by
  rcases mergeFields_outcome schema hrecords with hmerged |
    ⟨_, key, _, _, _, first, _, other, _, _, herror⟩
  · exact Or.inl hmerged
  · exact Or.inr ⟨key, first.field.type.render, other.field.type.render, herror⟩

/-- Merging succeeds only where the records are there. -/
theorem exists_fieldRecords {fields : List MergedField}
    (h : table.mergeFields schema options set = .ok fields) :
    ∃ records, table.fieldRecords options set = .ok records := by
  rw [mergeFields] at h
  obtain ⟨records, hrecords, -⟩ := bind_eq_ok.mp h
  exact ⟨records, hrecords⟩

/-- What success says about the merged fields. -/
theorem mergeFields_spec (hrecords : table.fieldRecords options set = .ok records)
    {fields : List MergedField} (hfields : table.mergeFields schema options set = .ok fields) :
    fields.map MergedField.responseKey = (records.map FieldRecord.key).eraseDups ∧
      ∀ field ∈ fields, Stands (recordsOf records field.responseKey) field := by
  rcases mergeFields_cases schema hrecords with ⟨fields', hmerge, hspec⟩ |
    ⟨key, first, second, herror⟩
  · obtain rfl : fields' = fields := Except.ok.inj (hmerge.symm.trans hfields)
    exact hspec
  · exact absurd (herror.symm.trans hfields) (by simp)

/-- The merged fields have the keys of the records. -/
theorem exists_key_iff (hrecords : table.fieldRecords options set = .ok records)
    {fields : List MergedField} (hfields : table.mergeFields schema options set = .ok fields)
    {key : String} :
    (∃ field ∈ fields, field.responseKey = key) ↔ key ∈ records.map FieldRecord.key := by
  rw [← List.mem_eraseDups, ← (mergeFields_spec hrecords hfields).1, List.mem_map]

/-- The merged fields without the mark of absence have the keys of the records without
conditions. -/
theorem exists_unmarked_iff (hrecords : table.fieldRecords options set = .ok records)
    {fields : List MergedField} (hfields : table.mergeFields schema options set = .ok fields)
    {key : String} :
    (∃ field ∈ fields, field.responseKey = key ∧ field.isConditional = false) ↔
      ∃ record ∈ records, record.key = key ∧ record.conditions = [] := by
  have hstands := (mergeFields_spec hrecords hfields).2
  constructor
  · rintro ⟨field, hfield, rfl, hmark⟩
    obtain ⟨record, hrecord, hnone⟩ :=
      (hstands field hfield).isConditional_eq_false_iff.mp hmark
    exact ⟨record, (List.mem_filter.mp hrecord).1, key_of_mem_recordsOf hrecord, hnone⟩
  · rintro ⟨record, hrecord, rfl, hnone⟩
    obtain ⟨field, hfield, hkey⟩ :=
      (exists_key_iff hrecords hfields).mpr (List.mem_map_of_mem hrecord)
    refine ⟨field, hfield, hkey, (hstands field hfield).isConditional_eq_false_iff.mpr
      ⟨record, List.mem_filter.mpr ⟨hrecord, ?_⟩, hnone⟩⟩
    rw [hkey]
    exact beq_self_eq_true _

end FragmentTable

end Merge

end QueryShape
