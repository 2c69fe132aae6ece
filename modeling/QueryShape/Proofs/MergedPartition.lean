import QueryShape.Proofs.Partition
import QueryShape.Proofs.Selected
import QueryShape.Proofs.TypeCase.Records

/-!
# The merged fields of a partition

The merged fields of a variant are read by programs that look at one object type under one
assignment of variables. A field without the mark of absence must be there, whatever the
variables say, and a field that is there must be among the merged ones.

## What this module delivers

- `TypeCase.Gathers.content_of_mem_exhaustive`, `TypeCase.Gathers.fieldRecords_eq`: the content
  and the records of an exhaustive variant.
- `exists_record_iff`, `key_mem_recordsIn_iff`: the records of a key are the occurrences of it.
- `Stands.exists_unconditional`: without the mark there is an occurrence without conditions.
- `Schema.merged_sound`: the mark is sound, for every selection set of a compiled document.
-/

set_option autoImplicit false

namespace QueryShape

namespace TypeCase

variable {table : FragmentTable} {options : TypeCaseOptions} {possible : PossibleTypes}
  {all : ObjectId → List Occurrence} {typeCase : TypeCase} {variant : Variant} {type : ObjectId}

/-- The content of an exhaustive variant is what the type case holds for its object types. -/
theorem Gathers.content_of_mem_exhaustive (h : Gathers options possible all typeCase)
    (hmem : variant ∈ typeCase.exhaustive) (htype : type ∈ variant.possible) :
    type ∈ possible ∧ Abridges Occurrence.item variant.content (all type) := by
  have hin : type ∈ possible := by
    rw [← h.spans]
    exact h.wellFormed.covered_iff.mp ⟨variant, hmem, htype⟩
  have hcontent : variant.content = (typeCase.holdingFor type).content :=
    congrArg Holding.content (h.wellFormed.holding_of_mem_exhaustive hmem htype)
  rw [hcontent]
  exact ⟨hin, h.content type hin⟩

theorem Gathers.fieldRecords_eq (h : Gathers options possible all typeCase)
    (hmem : variant ∈ typeCase.exhaustive) (table : FragmentTable) :
    table.fieldRecords options variant.toSelectionSet = .ok (recordsIn variant.content) :=
  Variant.fieldRecords_eq (h.settled.exhaustive (Variant.narrows_settled options) hmem)
    (h.wellFormed.inhabited_exhaustive hmem) table

end TypeCase

section Merged

variable {records : List FieldRecord} {content : List Occurrence} {key : String}
  {assignment : String → Bool}

/-- Records of a key are occurrences of it, with the same conditions. -/
theorem exists_record_iff (P : List Condition → Prop) :
    (∃ record ∈ recordsIn content, record.key = key ∧ P record.conditions) ↔
      ∃ occurrence ∈ content, occurrence.HasKey key ∧ P occurrence.conditions := by
  constructor
  · rintro ⟨record, hrecord, rfl, hconditions⟩
    obtain ⟨occurrence, hoccurrence, hsome⟩ := List.mem_filterMap.mp hrecord
    obtain ⟨hsame, hitem⟩ := Occurrence.record?_eq_some.mp hsome
    exact ⟨occurrence, hoccurrence, ⟨_, _, hitem, rfl⟩, hsame ▸ hconditions⟩
  · rintro ⟨occurrence, hoccurrence, ⟨head, nested, hitem, rfl⟩, hconditions⟩
    have hsome : occurrence.record? = some ⟨occurrence.conditions, head, nested⟩ :=
      Occurrence.record?_eq_some.mpr ⟨rfl, hitem⟩
    exact ⟨_, List.mem_filterMap.mpr ⟨occurrence, hoccurrence, hsome⟩, rfl, hconditions⟩

theorem key_mem_recordsIn_iff : key ∈ (recordsIn content).map FieldRecord.key ↔
    ∃ occurrence ∈ content, occurrence.HasKey key := by
  simpa only [List.mem_map, and_true] using exists_record_iff (fun _ => True)

/-- A merged field without the mark of absence stands for an occurrence without conditions. -/
theorem Stands.exists_unconditional {merged : MergedField}
    (h : Stands (recordsOf (recordsIn content) key) merged) (hmark : merged.isConditional = false) :
    ∃ occurrence ∈ content, occurrence.conditions = [] ∧
      ∃ head nested, occurrence.item = .field head nested ∧ head.responseKey = key := by
  obtain ⟨record, hrecord, hnone⟩ := h.isConditional_eq_false_iff.mp hmark
  obtain ⟨occurrence, hoccurrence, hkey, hempty⟩ := (exists_record_iff (· = [])).mp
    ⟨record, (List.mem_filter.mp hrecord).1, key_of_mem_recordsOf hrecord, hnone⟩
  exact ⟨occurrence, hoccurrence, hempty, hkey⟩

/-- An occurrence of a key puts the key among those of the records. -/
theorem key_mem_recordsIn {head : FieldSelection} {nested : Option SelectionSet}
    (h : Item.field head nested ∈ content.map Occurrence.item) :
    head.responseKey ∈ (recordsIn content).map FieldRecord.key := by
  obtain ⟨occurrence, hmem, hitem⟩ := List.mem_map.mp h
  exact key_mem_recordsIn_iff.mpr ⟨occurrence, hmem, head, nested, hitem, rfl⟩

end Merged

section Compiled

variable {schema : Schema} {texts : List SourceText} {document : CompiledDocument}
  {set : SelectionSet}

/-- The mark of absence is sound. Where the fields of the variant of an object type are merged,
every response key without the mark is selected for the type under every assignment of
variables, and every key that is selected under some assignment is among the merged ones. -/
theorem Schema.merged_sound (h : schema.compile texts = .ok document) (hset : document.Has set) :
    ∃ typeCase, document.fragments.partition .standard set = .ok typeCase ∧
      ∀ type ∈ set.possible, (∃ variant ∈ typeCase.exhaustive, type ∈ variant.possible) ∧
        ∀ variant ∈ typeCase.exhaustive, type ∈ variant.possible → ∀ fields,
          document.fragments.mergeFields schema .standard variant.toSelectionSet = .ok fields →
          ∀ assignment,
            (∀ field ∈ fields, field.isConditional = false →
              document.fragments.Selects type assignment set.selections field.responseKey) ∧
            ∀ key, document.fragments.Selects type assignment set.selections key →
              ∃ field ∈ fields, field.responseKey = key := by
  obtain ⟨definitions, hfrom⟩ := Schema.compile_spec h
  obtain ⟨typeCase, hpartition, hpresents⟩ := hfrom.partition_presents hset .standard
  have hselects : ∀ {type assignment key},
      document.fragments.Selects type assignment set.selections key ↔
        ∃ occurrence ∈ document.fragments.occurrences .standard type set,
          occurrence.Shows assignment key :=
    FragmentTable.selects_iff hfrom.ordered (hfrom.resolves hset)
  refine ⟨typeCase, hpartition, fun type htype => ⟨?_, ?_⟩⟩
  · exact hpresents.wellFormed.covered_iff.mpr (hpresents.spans.symm ▸ htype)
  intro variant hmem hin fields hfields assignment
  obtain ⟨-, habridges⟩ := hpresents.content_of_mem_exhaustive hmem hin
  obtain ⟨hkeys, hstands⟩ := FragmentTable.mergeFields_spec
    (hpresents.fieldRecords_eq hmem document.fragments) hfields
  constructor
  · -- What is kept is unchanged, conditions included, so no condition means none anywhere.
    intro field hfield hmark
    obtain ⟨occurrence, hoccurrence, hnone, head, nested, hitem, hkey⟩ :=
      (hstands field hfield).exists_unconditional hmark
    refine hselects.mpr ⟨occurrence, habridges.sublist.subset hoccurrence,
      ⟨head, nested, hitem, hkey⟩, ?_⟩
    rw [hnone]
    exact fun condition hcondition => absurd hcondition List.not_mem_nil
  · -- What is left out repeats a field that is kept, so its key stays.
    intro key hkey
    obtain ⟨occurrence, hoccurrence, ⟨head, nested, hitem, rfl⟩, -⟩ := hselects.mp hkey
    have hlisted : head.responseKey ∈ (recordsIn variant.content).map FieldRecord.key :=
      key_mem_recordsIn (hitem ▸ habridges.mem_map hoccurrence)
    rw [← List.mem_eraseDups, ← hkeys] at hlisted
    obtain ⟨field, hfield, hsame⟩ := List.mem_map.mp hlisted
    exact ⟨field, hfield, hsame⟩

/-- Whether the fields of all variants for an object type can be merged, and some of them has
no mark of absence. -/
def Sample.merges (type : ObjectId) (document : CompiledDocument) (set : SelectionSet) : Bool :=
  set.possible.contains type &&
    match document.fragments.partition .standard set with
    | .error _ => false
    | .ok typeCase => typeCase.exhaustive.all fun variant => !variant.possible.contains type ||
        match document.fragments.mergeFields Sample.schema .standard variant.toSelectionSet with
        | .error _ => false
        | .ok fields => fields.any fun field => !field.isConditional

theorem Schema.merged_sound_sample : ∃ document set,
    Sample.schema.compile Sample.texts = .ok document ∧ document.Has set ∧
      ∃ typeCase, document.fragments.partition .standard set = .ok typeCase ∧
        ∃ variant ∈ typeCase.exhaustive, 1 ∈ variant.possible ∧ ∃ fields,
          document.fragments.mergeFields Sample.schema .standard variant.toSelectionSet =
            .ok fields ∧
          ∃ field ∈ fields, field.isConditional = false ∧ ∀ assignment,
            document.fragments.Selects 1 assignment set.selections field.responseKey := by
  obtain ⟨document, set, hcompile, hset, hcheck⟩ :=
    Sample.exists_set (Sample.merges 1) (by decide +kernel)
  obtain ⟨typeCase, hpartition, hall⟩ := Schema.merged_sound hcompile hset
  rw [Sample.merges, hpartition, Bool.and_eq_true] at hcheck
  obtain ⟨htype, hcheck⟩ := hcheck
  obtain ⟨⟨variant, hmem, hin⟩, hsound⟩ := hall 1 htype
  have hvariant := List.all_eq_true.mp hcheck variant hmem
  have hcontains : variant.possible.contains 1 = true := hin
  rw [hcontains, Bool.not_true, Bool.false_or] at hvariant
  cases hfields : document.fragments.mergeFields Sample.schema .standard variant.toSelectionSet with
  | error error =>
      rw [hfields] at hvariant
      exact absurd hvariant (by simp)
  | ok fields =>
      rw [hfields] at hvariant
      obtain ⟨field, hfield, hmark⟩ := List.any_eq_true.mp hvariant
      have hpresent : field.isConditional = false := by simpa using hmark
      exact ⟨document, set, hcompile, hset, typeCase, hpartition, variant, hmem, hin, fields,
        hfields, field, hfield, hpresent, fun assignment =>
          (hsound variant hmem hin fields hfields assignment).1 field hfield hpresent⟩

end Compiled

end QueryShape
