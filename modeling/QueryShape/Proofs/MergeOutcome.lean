import QueryShape.Proofs.CoarsestPartition
import QueryShape.Proofs.ResponseShapes
import QueryShape.Proofs.TypeCase.ScopeRecords
import QueryShape.Proofs.TypeNames

/-!
# What merging fields comes to

Merging collects the fields that are met on the walk on which everything applies to all object types
of a selection set. It succeeds exactly if the fields of each response key have one type. Otherwise
it names the first key, in the order of first occurrence, whose fields do not, and shows two of
their types. The types are compared with that of one field only, and what is shown are notations;
that any two fields of the key agree, and that the notations differ, has to be said.

## What this module delivers

- `FragmentTable.Reaches.exists_has`: a field at the end of a way stands in a selection set of the
  document.
- `recordsOf_agree_iff`: agreement key by key, and of any two records of one key.
- `Schema.merge_outcome`: when merging succeeds, with which fields, and which conflict it names.
-/

set_option autoImplicit false

namespace QueryShape

/-! ## Fields of a document -/

section Fields

variable {document : CompiledDocument} {applies : PossibleTypes → Prop}
  {selections : List Selection} {occurrence : Occurrence} {set : SelectionSet}

/-- A field at the end of a way stands in some selection set of the document. -/
theorem FragmentTable.Reaches.exists_has
    (h : document.fragments.Reaches applies selections occurrence)
    (hset : document.Has set) (hselections : set.selections = selections) :
    ∃ inner head nested, document.Has inner ∧ .field head nested ∈ inner.selections ∧
      occurrence.item = .field head nested := by
  induction h generalizing set with
  | field hmem => exact ⟨set, _, _, hset, hselections ▸ hmem, rfl⟩
  | spread _ _ hget _ ih => exact ih (.fragment hget (.self _)) rfl
  | inline hmem _ _ ih =>
      rw [← hselections] at hmem
      exact ih (hset.trans (.inline hmem (.self _))) rfl

/-- Every record of a selection set is a field that stands in some selection set. -/
theorem CompiledDocument.Has.exists_of_mem_records (hset : document.Has set)
    {options : TypeCaseOptions} {records : List FieldRecord}
    (h : document.fragments.fieldRecords options set = .ok records) {record : FieldRecord}
    (hrecord : record ∈ records) :
    ∃ inner, document.Has inner ∧ .field record.field record.nested ∈ inner.selections := by
  obtain ⟨occurrence, hreaches, hsome⟩ := FragmentTable.exists_reaches_of_mem h hrecord
  obtain ⟨inner, head, nested, hinner, hmem, hitem⟩ := hreaches.exists_has hset rfl
  obtain ⟨hhead, hnested⟩ := Item.field.inj (hitem.symm.trans
    (Occurrence.record?_eq_some.mp hsome).2)
  exact ⟨inner, hinner, hhead ▸ hnested ▸ hmem⟩

end Fields

/-! ## Agreement -/

/-- That the records of each key agree is that any two records of one key do. -/
theorem recordsOf_agree_iff {records : List FieldRecord} :
    (∀ key ∈ (records.map FieldRecord.key).eraseDups, Agree (recordsOf records key)) ↔
      ∀ first ∈ records, ∀ other ∈ records, first.key = other.key →
        first.field.type = other.field.type := by
  constructor
  · intro h first hfirst other hother hkey
    have hlisted : first.key ∈ (records.map FieldRecord.key).eraseDups :=
      List.mem_eraseDups.mpr (List.mem_map_of_mem hfirst)
    refine h first.key hlisted first (List.mem_filter.mpr ⟨hfirst, beq_self_eq_true _⟩) other
      (List.mem_filter.mpr ⟨hother, ?_⟩)
    rw [hkey]
    exact beq_self_eq_true _
  · intro h key _ first hfirst other hother
    exact h first (List.mem_filter.mp hfirst).1 other (List.mem_filter.mp hother).1
      ((key_of_mem_recordsOf hfirst).trans (key_of_mem_recordsOf hother).symm)

/-- A conflict contradicts agreement. -/
theorem Conflicts.not_agree {α : Type} {records : List FieldRecord} {keys : List String}
    {outcome : Except InvariantError α} (h : Conflicts records keys outcome) :
    ¬ ∀ key ∈ keys, Agree (recordsOf records key) := by
  obtain ⟨before, key, after, rfl, -, first, hfirst, other, hother, hne, -⟩ := h
  intro hagree
  exact hne (hagree key (List.mem_append_right _ List.mem_cons_self) first hfirst other hother)

/-! ## The outcome -/

section Outcome

variable {sources : List (Option FileName × String)} {schema : Schema} {texts : List SourceText}
  {document : CompiledDocument} {set : SelectionSet}

/-- The types of compiled fields are named, and so told apart by their notation. -/
theorem CompiledDocument.Has.isName_typeName (hschema : Schema.ofSources sources = .ok schema)
    {definitions : Table FragmentSource} (hfrom : CompiledFrom schema texts definitions document)
    (hset : document.Has set) {head : FieldSelection} {nested : Option SelectionSet}
    (hmem : .field head nested ∈ set.selections) : Source.IsName head.type.typeName := by
  obtain ⟨scope, hcompiled⟩ := hfrom.compiledIn hset
  obtain ⟨seen, source, hcompiles⟩ := hcompiled.compiles
  obtain ⟨field, type, ⟨definition, directives, -, htype, -, rfl⟩, -⟩ := hcompiles.of_mem_field hmem
  exact Schema.isName_of_ofSources hschema htype

/-- When merging succeeds, with which fields, and which conflict it names. Let the applicable fields
be those met on the walk through a selection set on which every inline fragment and every spread
applies to all object types of the set. Merging succeeds exactly if any two applicable fields with
one response key have one type. Then there is one merged field for each response key, in the order
of first occurrence, with the mark of absence exactly if all applicable fields of the key have
conditions on the way. Otherwise the first key whose fields do not agree is named, with the
notations of two of their types, which differ. -/
theorem Schema.merge_outcome (hschema : Schema.ofSources sources = .ok schema)
    (h : schema.compile texts = .ok document) (hset : document.Has set)
    (hinhabited : ∃ type, type ∈ set.possible) :
    ∃ met, document.fragments.Meets .standard set.possible.Within set.selections met ∧
      (∀ met', document.fragments.Meets .standard set.possible.Within set.selections met' →
        met' = met) ∧
      ((∃ fields, document.fragments.mergeFields schema .standard set = .ok fields) ↔
        ∀ first ∈ recordsIn met, ∀ other ∈ recordsIn met, first.key = other.key →
          first.field.type = other.field.type) ∧
      (∀ fields, document.fragments.mergeFields schema .standard set = .ok fields →
        fields.map MergedField.responseKey = ((recordsIn met).map FieldRecord.key).eraseDups ∧
          ∀ field ∈ fields, (field.isConditional = true ↔
            ∀ record ∈ recordsIn met, record.key = field.responseKey → record.conditions ≠ [])) ∧
      ∀ error, document.fragments.mergeFields schema .standard set = .error error →
        ∃ before key after, ((recordsIn met).map FieldRecord.key).eraseDups =
            before ++ key :: after ∧
          (∀ earlier ∈ before, Agree (recordsOf (recordsIn met) earlier)) ∧
          ∃ first ∈ recordsOf (recordsIn met) key, ∃ other ∈ recordsOf (recordsIn met) key,
            error = .mergeConflict key first.field.type.render other.field.type.render ∧
            first.field.type.render ≠ other.field.type.render := by
  obtain ⟨definitions, hfrom⟩ := Schema.compile_spec h
  have hfound : ∃ records, document.fragments.fieldRecords .standard set = .ok records :=
    FragmentTable.exists_fieldRecords_of_resolves hfrom.ordered (hfrom.resolves hset)
  obtain ⟨records, hrecords⟩ := hfound
  obtain ⟨met, hmet, rfl⟩ := FragmentTable.exists_meets hrecords hinhabited
  refine ⟨met, hmet, fun met' hmet' => hmet.unique hmet', ?_, ?_, ?_⟩
  · rw [← recordsOf_agree_iff]
    constructor
    · rintro ⟨fields, hfields⟩ key hkey
      obtain ⟨hkeys, hstands⟩ := FragmentTable.mergeFields_spec hrecords hfields
      rw [← hkeys] at hkey
      obtain ⟨field, hfield, rfl⟩ := List.mem_map.mp hkey
      exact (hstands field hfield).agree
    · intro hagree
      rcases FragmentTable.mergeFields_outcome schema hrecords with
        ⟨fields, hfields, -⟩ | hconflicts
      · exact ⟨fields, hfields⟩
      · exact absurd hagree hconflicts.not_agree
  · intro fields hfields
    obtain ⟨hkeys, hstands⟩ := FragmentTable.mergeFields_spec hrecords hfields
    refine ⟨hkeys, fun field hfield => ?_⟩
    -- The mark is missing if some record of the group has no conditions.
    rw [← Bool.not_eq_false, (hstands field hfield).isConditional_eq_false_iff]
    constructor
    · intro hnone record hrecord hkey hempty
      refine hnone ⟨record, List.mem_filter.mpr ⟨hrecord, ?_⟩, hempty⟩
      rw [hkey]
      exact beq_self_eq_true _
    · rintro hall ⟨record, hrecord, hempty⟩
      exact hall record (List.mem_filter.mp hrecord).1 (key_of_mem_recordsOf hrecord) hempty
  · intro error herror
    rcases FragmentTable.mergeFields_outcome schema hrecords with ⟨fields, hfields, -⟩ |
      ⟨before, key, after, hkeys, hbefore, first, hfirst, other, hother, hne, hconflict⟩
    · exact absurd (hfields.symm.trans herror) (by simp)
    · refine ⟨before, key, after, hkeys, hbefore, first, hfirst, other, hother,
        Except.error.inj (herror.symm.trans hconflict), fun hrender => hne ?_⟩
      have hnamed : ∀ record ∈ recordsOf (recordsIn met) key,
          Source.IsName record.field.type.typeName := by
        intro record hrecord
        obtain ⟨inner, hinner, hmem⟩ :=
          hset.exists_of_mem_records hrecords (List.mem_filter.mp hrecord).1
        exact hinner.isName_typeName hschema hfrom hmem
      exact TypeRef.render_inj (hnamed first hfirst) (hnamed other hother) hrender

/-- An interface with a field of a name and one of a list. -/
def Sample.listSources : List (Option FileName × String) :=
  [(none, "type Query { node: Node } interface Node { id: Int names: [Int!] }
    type Post implements Node { id: Int names: [Int!] }")]

/-- `query Q { node { id ... on Node { key: id } ...F } }` with `key: names` in `F`. -/
def Sample.conflicting : List SourceText :=
  query [node [] [id none, inline [] (some "Node") [id (some "key")], spread [] "F"]]
    [("F", [.field ⟨position, some "key", "names", [], []⟩ []])]

/-- The key `id` is in order, and `key` has two types. -/
theorem Schema.merge_outcome_sample : ∃ schema document set,
    Schema.ofSources Sample.listSources = .ok schema ∧
      schema.compile Sample.conflicting = .ok document ∧ document.Has set ∧
      (∃ type, type ∈ set.possible) ∧
      document.fragments.mergeFields schema .standard set =
        .error (.mergeConflict "key" "Int" "[Int!]") ∧
      ∃ met, document.fragments.Meets .standard set.possible.Within set.selections met ∧
        ∃ before key after, ((recordsIn met).map FieldRecord.key).eraseDups =
            before ++ key :: after ∧
          ∃ first ∈ recordsOf (recordsIn met) key, ∃ other ∈ recordsOf (recordsIn met) key,
            first.field.type.render ≠ other.field.type.render := by
  have hcheck : ∃ schema ∈ (Schema.ofSources Sample.listSources).toOption,
      ∃ document ∈ (schema.compile Sample.conflicting).toOption,
      ∃ set ∈ Sample.fieldSets document, 1 ∈ set.possible ∧
        Sample.error? (document.fragments.mergeFields schema .standard set) =
          some (.mergeConflict "key" "Int" "[Int!]") := by
    decide +kernel
  simp only [Sample.mem_toOption, Sample.error?_eq_some] at hcheck
  obtain ⟨schema, hschema, document, hcompile, set, hset, htype, herror⟩ := hcheck
  have hhas := Sample.has_of_mem_fieldSets hset
  obtain ⟨met, hmet, -, -, -, hconflict⟩ :=
    Schema.merge_outcome hschema hcompile hhas ⟨1, htype⟩
  obtain ⟨before, key, after, hkeys, -, first, hfirst, other, hother, -, hne⟩ :=
    hconflict _ herror
  exact ⟨schema, document, set, hschema, hcompile, hhas, ⟨1, htype⟩, herror, met, hmet, before, key,
    after, hkeys, first, hfirst, other, hother, hne⟩

end Outcome

end QueryShape
